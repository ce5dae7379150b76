import Mathlib.Algebra.Order.BigOperators.Group.List
import Treebank.Proofs.RoundTrip

/-! Sentences written a second time.

A token that is read from its written line is written as before, unless the line ends in a carriage
return (`Token.exists_read_dropReturns`): the reader takes that for a part of the line's end. The
tokens of a written sentence are filed as they were, but an empty node comes back once for each word
that it follows (`tokens_refile`, `length_tokens_lt_refile`). `write_again` puts the two together: it
says when a sentence that was read is written the same a second time, and that it may be written as
nothing. -/
namespace Treebank
open Text

/-! ### Token lines -/

namespace Token

theorem write_read_columns (token : Token) (misc : List Char) (extra : List (List Char)) :
    Token.write { token.sorted with misc := Misc.read misc, extra := extra.map String.ofList } =
      joinWith '\t' (token.writeColumns.take 9 ++ (Misc.read misc).write :: extra) := by
  have hextra : (extra.map String.ofList).map String.toList = extra := by simp
  rw [write_eq, ← token.take_writeColumns_sorted]
  simp only [writeColumns, List.cons_append, List.take_succ_cons, List.take_zero, hextra]

/-- The line of a token that was read is always read again. -/
theorem exists_read_dropReturns {token : Token} (h : token.Legible) :
    ∃ again, Token.read (dropReturns token.write) = .ok again ∧ again.id = token.id ∧
      (again.write = token.write ↔ dropReturns token.write = token.write) := by
  have hfirst : token.writeColumns.take 9 ≠ [] := by simp [writeColumns]
  have htab : ∀ column ∈ token.misc.write :: token.extra.map String.toList, '\t' ∉ column :=
    fun column hcolumn => not_mem_writeColumns rfl h.tab column
      (List.mem_of_mem_drop (i := 9) hcolumn)
  obtain ⟨hmisc, hextra⟩ := List.forall_mem_cons.1 htab
  -- only the last column can end in a carriage return
  rcases List.eq_nil_or_concat' (token.extra.map String.toList) with hnone | ⟨front, last, hsome⟩
  · have hline : token.write = joinWith '\t' (token.writeColumns.take 9 ++ [token.misc.write]) := by
      rw [write_eq, hnone]
    have hread := read_columns h (dropReturns token.misc.write) []
      (List.forall_mem_singleton.2 fun hmem => hmisc (mem_of_mem_dropEndWhile hmem))
    rw [hline, dropReturns_joinWith hfirst]
    refine ⟨_, hread, rfl, ?_⟩
    rw [write_read_columns, joinWith_concat hfirst, joinWith_concat hfirst, joinWith_concat hfirst]
    simp only [List.append_cancel_left_eq, List.cons.injEq, true_and]
    constructor
    · intro heq
      have hlength := Misc.length_write_read_le (dropReturns token.misc.write)
      rw [heq] at hlength
      exact dropEndWhile_of_length_le hlength
    · intro heq
      rw [heq, Misc.write_read_write h.misc]
  · have hline : token.write =
        joinWith '\t' (token.writeColumns.take 9 ++ token.misc.write :: front ++ [last]) := by
      rw [write_eq, hsome, List.append_assoc, List.cons_append]
    have hmore : token.writeColumns.take 9 ++ token.misc.write :: front ≠ [] := by simp
    have hread := read_columns h token.misc.write (front ++ [dropReturns last]) (by
      rw [hsome] at hextra
      obtain ⟨hfront, hlast⟩ := List.forall_mem_append.1 hextra
      refine List.forall_mem_cons.2 ⟨hmisc, List.forall_mem_append.2 ⟨hfront, ?_⟩⟩
      exact List.forall_mem_singleton.2 fun hmem =>
        hlast last List.mem_cons_self (mem_of_mem_dropEndWhile hmem))
    rw [hline, dropReturns_joinWith hmore, List.append_assoc, List.cons_append]
    refine ⟨_, hread, rfl, ?_⟩
    rw [write_read_columns, Misc.write_read_write h.misc]

/-- The token with the columns that are read from its line. -/
def reread (token : Token) : Token :=
  match Token.read (dropReturns token.write) with
  | .ok again => { again with id := token.id }
  | .error _ => token

@[simp] theorem id_reread (token : Token) : token.reread.id = token.id := by
  unfold reread
  split <;> rfl

theorem read_reread {token : Token} (h : token.Legible) :
    Token.read (dropReturns token.write) = .ok token.reread ∧
      (token.reread.write = token.write ↔ token.write.getLast? ≠ some '\r') := by
  obtain ⟨again, hread, hid, hwrite⟩ := exists_read_dropReturns h
  have hreread : token.reread = again := by
    rw [reread, hread, ← hid]
  rw [hreread, ← dropReturns_eq_self_iff]
  exact ⟨hread, hwrite⟩

end Token

namespace Sentence

/-! ### Other columns in the same places -/

/-- The tokens of `t` stand where those of `s` do and are what `f` makes of them. -/
structure IsImage (f : Token → Token) (s t : Sentence) : Prop where
  words : t.words.map (·.token) = (s.words.map (·.token)).map f
  ranges : ∀ first, (t.multiwords.get? first).map (·.token) =
    ((s.multiwords.get? first).map (·.token)).map f
  empties : ∀ anchor, (t.emptiesAt anchor).map (·.token) =
    ((s.emptiesAt anchor).map (·.token)).map f

section Image
variable {f : Token → Token} (hid : ∀ token, (f token).id = token.id)

/-- What a token is filed as is there for a token with the same id. -/
theorem map_file {β : Type} (file : Token → Option β) {back : β → Token}
    (hback : ∀ {token b}, file token = some b → back b = token) (token : Token)
    (hsome : (file (f token)).isSome = (file token).isSome) :
    (file (f token)).map back = ((file token).map back).map f := by
  cases hfile : file token with
  | none =>
    rw [hfile, Option.isSome_none, Option.isSome_eq_false_iff, Option.isNone_iff_eq_none] at hsome
    rw [hsome]
    rfl
  | some b =>
    rw [hfile, Option.isSome_some] at hsome
    obtain ⟨c, hc⟩ := Option.isSome_iff_exists.1 hsome
    rw [hc, Option.map_some, Option.map_some, Option.map_some, hback hc, hback hfile]

include hid

theorem IsImage.push {s t : Sentence} (h : IsImage f s t) (token : Token) :
    IsImage f (s.push token) (t.push (f token)) := by
  constructor
  case words =>
    have hword := map_file (f := f) Token.word? Token.token_of_word? token (by
      unfold Token.word?
      rw [hid]
      cases token.id <;> rfl)
    rw [words_push, words_push, List.map_append, List.map_append, List.map_append, h.words,
      ← Option.toList_map, hword, ← Option.toList_map, Option.toList_map]
  case ranges =>
    intro first
    have hrange := map_file (f := f) (Token.rangeFrom? first) Token.token_of_rangeFrom? token (by
      unfold Token.rangeFrom?
      rw [hid]
      cases token.id with
      | range start last => by_cases hstart : start = first <;> simp [hstart]
      | _ => rfl)
    rw [multiwords_push, multiwords_push, Option.map_or, Option.map_or, Option.map_or, hrange,
      h.ranges]
  case empties =>
    intro anchor
    have hempty := map_file (f := f) (Token.emptyAt? anchor) Token.token_of_emptyAt? token (by
      unfold Token.emptyAt?
      rw [hid]
      cases token.id with
      | empty main sub => by_cases hmain : main = anchor <;> simp [hmain]
      | _ => rfl)
    rw [emptiesAt_push, emptiesAt_push, List.map_append, List.map_append, List.map_append,
      h.empties, ← Option.toList_map, hempty, ← Option.toList_map, Option.toList_map]

theorem IsImage.tokens {s t : Sentence} (h : IsImage f s t) : t.tokens = s.tokens.map f := by
  have htokens : ∀ s : Sentence, s.tokens = (s.emptiesAt 0).map (·.token) ++
      (s.words.map (·.token)).flatMap fun token =>
        ((s.multiwords.get? token.id.main).map (·.token)).toList ++
          token :: (s.emptiesAt token.id.main).map (·.token) := by
    intro s
    rw [Sentence.tokens, List.flatMap_map]
    rfl
  rw [htokens, htokens, h.words, List.flatMap_map, List.map_append, List.map_flatMap, h.empties]
  refine congrArg _ (List.flatMap_congr fun token _ => ?_)
  rw [hid, h.ranges, h.empties, List.map_append, List.map_cons, Option.toList_map]

/-- What is pushed in the place of a token goes where the token goes. -/
theorem tokens_foldl_push_map (metadata : Metadata) (tokens : List Token) :
    ((tokens.map f).foldl push { metadata }).tokens =
      (tokens.foldl push { metadata }).tokens.map f := by
  refine IsImage.tokens hid ?_
  rw [List.foldl_map]
  -- step by step, from two sentences without tokens
  have hrun : ∀ (tokens : List Token) (s t : Sentence), IsImage f s t →
      IsImage f (tokens.foldl push s) (tokens.foldl (fun t token => t.push (f token)) t) := by
    intro tokens
    induction tokens with
    | nil => exact fun _ _ h => h
    | cons token rest ih => exact fun s t h => ih _ _ (h.push hid token)
  exact hrun tokens _ _ ⟨rfl, fun _ => rfl, fun _ => rfl⟩

end Image

/-! ### Tokens filed again -/

/-- A sentence that is written the same a second time. -/
structure IsSteady (s : Sentence) : Prop where
  /-- No two words bring the same empty nodes. -/
  once : ∀ anchor, anchor ≠ 0 → s.emptiesAt anchor ≠ [] → s.words.countP (·.id = anchor) ≤ 1
  /-- No token line ends in a carriage return, which would be read as a part of the line's end. -/
  returns : ∀ token ∈ s.tokens, token.write.getLast? ≠ some '\r'

/-- The sentence to which the tokens are filed when they come in the order of their lines. -/
def refile (s : Sentence) : Sentence := s.tokens.foldl push { metadata := s.metadata }

theorem length_tokens (s : Sentence) :
    s.tokens.length = (s.emptiesAt 0).length + (s.words.map fun word =>
      (s.multiwords.get? word.id).toList.length + ((s.emptiesAt word.id).length + 1)).sum := by
  rw [tokens, List.length_append, List.length_map, List.length_flatMap]
  congr 2
  refine List.map_congr_left fun word _ => ?_
  rw [List.length_append, List.length_cons, List.length_map, Option.toList_map, List.length_map]

section Refile
variable {s : Sentence}

theorem countP_id_pos {word : Word} (hword : word ∈ s.words) :
    0 < s.words.countP (·.id = word.id) :=
  List.countP_pos_iff.2 ⟨word, hword, decide_eq_true rfl⟩

theorem multiwords_refile {word : Word} (hword : word ∈ s.words) :
    s.refile.multiwords.get? word.id = s.multiwords.get? word.id := by
  have hpos : s.words.countP (·.id = word.id) ≠ 0 := Nat.ne_of_gt (countP_id_pos hword)
  rw [refile, multiwords_foldl_push, filterMap_rangeFrom?_tokens]
  cases s.multiwords.get? word.id with
  | none => simp; rfl
  | some range => simp [List.getLast?_replicate, hpos]

variable (h : s.IsFresh)

include h

theorem words_refile : s.refile.words = s.words := by
  rw [refile, words_foldl_push, filterMap_word?_tokens h]
  rfl

variable (hstart : 0 ∉ s.words.map (·.id))

include hstart

theorem emptiesAt_refile (anchor : Nat) : s.refile.emptiesAt anchor =
    (List.replicate (if anchor = 0 then 1 else s.words.countP (·.id = anchor))
      (s.emptiesAt anchor)).flatten := by
  rw [refile, emptiesAt_foldl_push, filterMap_emptyAt?_tokens h hstart]
  rfl

theorem emptiesAt_refile_zero : s.refile.emptiesAt 0 = s.emptiesAt 0 := by
  rw [emptiesAt_refile h hstart, if_pos rfl, List.replicate_one, List.flatten_singleton]

theorem length_emptiesAt_refile {word : Word} (hword : word ∈ s.words) :
    (s.refile.emptiesAt word.id).length =
      s.words.countP (·.id = word.id) * (s.emptiesAt word.id).length := by
  have hzero : word.id ≠ 0 := fun hid => hstart (List.mem_map.2 ⟨word, hword, hid⟩)
  rw [emptiesAt_refile h hstart, if_neg hzero]
  simp

/-- Filed again, all tokens stand where they stood, if no two words bring the same empty nodes. -/
theorem tokens_refile (honce : ∀ anchor, anchor ≠ 0 → s.emptiesAt anchor ≠ [] →
    s.words.countP (·.id = anchor) ≤ 1) : s.refile.tokens = s.tokens := by
  have hsame : ∀ word ∈ s.words, s.refile.emptiesAt word.id = s.emptiesAt word.id := by
    intro word hword
    have hzero : word.id ≠ 0 := fun hid => hstart (List.mem_map.2 ⟨word, hword, hid⟩)
    rw [emptiesAt_refile h hstart, if_neg hzero]
    by_cases hnone : s.emptiesAt word.id = []
    · simp [hnone]
    · have hone : s.words.countP (·.id = word.id) = 1 :=
        Nat.le_antisymm (honce word.id hzero hnone) (countP_id_pos hword)
      simp [hone]
  rw [tokens, tokens, words_refile h, emptiesAt_refile_zero h hstart]
  refine congrArg _ (List.flatMap_congr fun word hword => ?_)
  rw [multiwords_refile hword, hsame word hword]

/-- Empty nodes that several words bring become more. -/
theorem length_tokens_lt_refile {anchor : Nat} (hsome : s.emptiesAt anchor ≠ [])
    (htwice : 1 < s.words.countP (·.id = anchor)) : s.tokens.length < s.refile.tokens.length := by
  rw [length_tokens, length_tokens, words_refile h, emptiesAt_refile_zero h hstart]
  refine Nat.add_lt_add_left (List.sum_lt_sum _ _ (fun word hword => ?_) ?_) _
  · rw [multiwords_refile hword, length_emptiesAt_refile h hstart hword]
    have := Nat.le_mul_of_pos_left (s.emptiesAt word.id).length (countP_id_pos hword)
    omega
  · obtain ⟨word, hword, hid⟩ := List.countP_pos_iff.1 (Nat.lt_of_succ_lt htwice)
    obtain rfl := of_decide_eq_true hid
    refine ⟨word, hword, ?_⟩
    rw [multiwords_refile hword, length_emptiesAt_refile h hstart hword]
    have := Nat.mul_lt_mul_of_pos_right htwice (List.length_pos_iff.2 hsome)
    omega

end Refile

/-! ### Reading what is written -/

section Written
variable {s : Sentence}

theorem read_write_of_lines_eq_nil (hnone : s.writeLines = []) :
    Sentence.read s.write = .error { line := 0, fault := .noSentence } := by
  rw [write, hnone]
  rfl

variable (h : s.Legible)

include h

theorem read_write_of_lines_ne_nil (hsome : s.writeLines ≠ []) :
    Sentence.read s.write =
      .ok ((s.tokens.map Token.reread).foldl push { metadata := s.metadata }) := by
  have htake : ∀ token ∈ s.tokens, Token.read (dropReturns token.write) = .ok token.reread :=
    fun token htoken => (Token.read_reread (h.token token (mem_stored_of_mem_tokens htoken))).1
  rw [Sentence.read, Reader.next?, textLines_write h, finish_block h htake hsome]

/-- Where metadata is the same and no line holds a newline, equal texts have equal token lines. -/
theorem map_write_tokens_of_write_eq {t : Sentence} (ht : t.Legible)
    (hmetadata : t.metadata = s.metadata) (hwrite : t.write = s.write) :
    t.tokens.map Token.write = s.tokens.map Token.write := by
  have hnewline : ∀ {u : Sentence}, u.Legible → ∀ line ∈ u.writeLines ++ [[]], '\n' ∉ line :=
    fun hu => List.forall_mem_append.2 ⟨not_mem_writeLines (.inl rfl) hu.newline, by simp⟩
  have hlines := congrArg (terminated '\n') hwrite
  rw [write, write, terminated_flatMap (hnewline ht), terminated_flatMap (hnewline h),
    List.append_cancel_right_eq, writeLines, writeLines, hmetadata] at hlines
  exact List.append_cancel_left hlines

end Written

theorem write_eq_iff_isSteady {s t : Sentence} (h : s.Legible)
    (hread : Sentence.read s.write = .ok t) (hsome : s.writeLines ≠ []) :
    t.write = s.write ↔ s.IsSteady := by
  have hstart := zero_not_mem_ids h
  have hpushed := read_write_of_lines_ne_nil h hsome
  rw [hread] at hpushed
  cases hpushed
  have htokens : ((s.tokens.map Token.reread).foldl push { metadata := s.metadata }).tokens =
      s.refile.tokens.map Token.reread :=
    tokens_foldl_push_map Token.id_reread s.metadata s.tokens
  have hmetadata : ((s.tokens.map Token.reread).foldl push { metadata := s.metadata }).metadata =
      s.metadata :=
    List.foldlRecOn (motive := fun t : Sentence => t.metadata = s.metadata) _ push rfl
      fun t ht token _ => (metadata_push t token).trans ht
  have hlines : ∀ token ∈ s.tokens,
      (token.reread.write = token.write ↔ token.write.getLast? ≠ some '\r') := fun token htoken =>
    (Token.read_reread (h.token token (mem_stored_of_mem_tokens htoken))).2
  constructor
  · intro hwrite
    have hmap := map_write_tokens_of_write_eq h (legible_of_read hread).1 hmetadata hwrite
    rw [htokens] at hmap
    have honce : ∀ anchor, anchor ≠ 0 → s.emptiesAt anchor ≠ [] →
        s.words.countP (·.id = anchor) ≤ 1 := by
      intro anchor _ hempties
      by_contra htwice
      have hlength := congrArg List.length hmap
      rw [List.length_map, List.length_map, List.length_map] at hlength
      exact Nat.ne_of_gt
        (length_tokens_lt_refile h.fresh hstart hempties (Nat.lt_of_not_le htwice)) hlength
    refine ⟨honce, fun token htoken => (hlines token htoken).1 ?_⟩
    rw [tokens_refile h.fresh hstart honce, List.map_map] at hmap
    exact List.map_inj_left.1 hmap token htoken
  · intro hsteady
    rw [write, write, writeLines, writeLines, hmetadata, htokens,
      tokens_refile h.fresh hstart hsteady.once, List.map_map]
    congr 3
    exact List.map_congr_left fun token htoken =>
      (hlines token htoken).2 (hsteady.returns token htoken)

/-- **A sentence that was read is read again from its block, and written the same, if and only if it
is steady**; but of a sentence that is written without any line nothing is read. -/
theorem write_again {text : List Char} {s : Sentence} (h : Sentence.read text = .ok s) :
    (s.writeLines = [] →
      Sentence.read s.write = .error { line := 0, fault := .noSentence }) ∧
    (s.writeLines ≠ [] →
      ∃ t, Sentence.read s.write = .ok t ∧ (t.write = s.write ↔ s.IsSteady)) := by
  refine ⟨read_write_of_lines_eq_nil, fun hsome => ?_⟩
  have hread := read_write_of_lines_ne_nil (legible_of_read h).1 hsome
  exact ⟨_, hread, write_eq_iff_isSteady (legible_of_read h).1 hread hsome⟩

/-- Two words with one id, each of them with its range, and carriage returns within a column. -/
theorem write_again_of_two :
    let s : Sentence :=
      { words := [{ id := 1 }, { id := 1, misc := ⟨[("A\r", .text "y\r"), ("B", .flag)]⟩ }]
        multiwords := ⟨[(1, { first := 1, last := 2 })], by simp⟩
        metadata := { sentId := some "" } }
    ∃ t, Sentence.read s.write = .ok t ∧ t.write = s.write := by
  intro s
  have hread : Sentence.read ("# sent_id =\r\n" ++ "1-2\t_\t_\t_\t_\t_\t_\t_\t_\t_\n" ++
      "1\t_\t_\t_\t_\t_\t_\t_\t_\t_\r\r\n" ++
      "1\t_\t_\t_\t_\t_\t_\t_\t_\tA\r=x|B|A\r=y\r|B\n").toList = .ok s := by
    decide +kernel
  obtain ⟨t, ht, hwrite⟩ := (write_again hread).2 (by decide +kernel)
  refine ⟨t, ht, hwrite.2 ⟨fun anchor _ hsome => absurd rfl hsome, by decide +kernel⟩⟩

/-- Nothing is read from the block of a range without its word; an empty node that follows two words
doubles each time; and a carriage return at the end of a line is lost. -/
theorem write_not_again :
    (∃ s, Sentence.read "1-2\t_\t_\t_\t_\t_\t_\t_\t_\t_\n".toList = .ok s ∧
      Sentence.read s.write = .error { line := 0, fault := .noSentence }) ∧
    (∃ s t, Sentence.read ("1\t_\t_\t_\t_\t_\t_\t_\t_\t_\n" ++
        "1\t_\t_\t_\t_\t_\t_\t_\t_\t_\n" ++ "1.1\t_\t_\t_\t_\t_\t_\t_\t_\t_\n").toList = .ok s ∧
      Sentence.read s.write = .ok t ∧ s.tokens.length = 4 ∧ t.tokens.length = 6 ∧
      t.write ≠ s.write) ∧
    ∃ s t, Sentence.read "1\t_\t_\t_\t_\t_\t_\t_\t_\tA=x|B\r|A=y\n".toList = .ok s ∧
      Sentence.read s.write = .ok t ∧
      s.write = "1\t_\t_\t_\t_\t_\t_\t_\t_\tA=y|B\r\n\n".toList ∧
      t.write = "1\t_\t_\t_\t_\t_\t_\t_\t_\tA=y|B\n\n".toList := by
  let range : Sentence := { multiwords := ⟨[(1, { first := 1, last := 2 })], by simp⟩ }
  let twice (count : Nat) : Sentence :=
    { words := [{ id := 1 }, { id := 1 }]
      empties := ⟨[(1, List.replicate count { anchor := 1, sub := 1 })], by simp⟩
      emptiesFiled := List.forall_mem_singleton.2 fun _ hnode => by
        rw [List.eq_of_mem_replicate hnode] }
  let flag (name : String) : Sentence :=
    { words := [{ id := 1, misc := ⟨[("A", .text "y"), (name, .flag)]⟩ }] }
  refine ⟨⟨range, ?_, ?_⟩,
    ⟨twice 1, twice 2, ?_, ?_, ?_, ?_, ?_⟩,
    flag "B\r", flag "B", ?_, ?_, ?_, ?_⟩
  all_goals decide +kernel

end Sentence
end Treebank
