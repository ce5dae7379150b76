import Treebank.Proofs.RoundTrip
import Treebank.Proofs.Runs

/-! What becomes of the tokens of a text.

A sentence that is read keeps all words and all empty nodes, but of the ranges that start at
one word only the last. When it is written, each word brings the range that starts at it and
the empty nodes that follow it. `tokenIds_write` counts the token lines with each id before and
after, and says for which texts nothing is lost and nothing doubled. -/
namespace Treebank
open Text

/-! ### Ids of token lines -/

/-- The id in the first column of a line; a comment has none. -/
def lineId? (line : List Char) : Option TokenId :=
  match Run.comment? line with
  | some _ => none
  | none => TokenId.read ((pieces '\t' line).headD [])

/-- The ids of the token lines of the first block of a text. -/
def tokenIds (text : List Char) : List TokenId :=
  ((firstRun text).map (·.1)).filterMap lineId?

/-- The end of a range that starts at the given word. -/
def TokenId.endFrom? (first : Nat) : TokenId → Option Nat
  | range start last => if start = first then some last else none
  | _ => none

/-- The end of the last of the ranges that start at the given word. -/
def lastEnd? (ids : List TokenId) (first : Nat) : Option Nat :=
  (ids.filterMap (TokenId.endFrom? first)).getLast?

/-- How often the ids that are read are written. -/
structure IsWritten (ids written : List TokenId) : Prop where
  words : ∀ id, written.count (.word id) = ids.count (.word id)
  ranges : ∀ first last, written.count (.range first last) =
    if lastEnd? ids first = some last then ids.count (.word first) else 0
  empties : ∀ anchor sub, written.count (.empty anchor sub) =
    ids.count (.empty anchor sub) * if anchor = 0 then 1 else ids.count (.word anchor)

/-- The ranges that start at one number are all the same and as many as the words with that number,
and every empty node follows one word, unless it comes before the first. -/
structure IsBalanced (ids : List TokenId) : Prop where
  sameEnd : ∀ first last other, .range first last ∈ ids → .range first other ∈ ids → other = last
  ranges : ∀ first last, .range first last ∈ ids →
    ids.count (.range first last) = ids.count (.word first)
  empties : ∀ anchor sub, .empty anchor sub ∈ ids → anchor ≠ 0 → ids.count (.word anchor) = 1

/-! ### Balanced ids -/

theorem TokenId.endFrom?_eq_some {id : TokenId} {first last : Nat} :
    id.endFrom? first = some last ↔ id = .range first last := by
  cases id <;> simp [endFrom?]

theorem mem_of_lastEnd? {ids : List TokenId} {first last : Nat}
    (h : lastEnd? ids first = some last) : .range first last ∈ ids := by
  obtain ⟨id, hid, hrange⟩ := List.mem_filterMap.1 (List.mem_of_getLast? h)
  exact TokenId.endFrom?_eq_some.1 hrange ▸ hid

theorem exists_lastEnd? {ids : List TokenId} {first last : Nat} (h : .range first last ∈ ids) :
    ∃ other, lastEnd? ids first = some other := by
  have hmem : last ∈ ids.filterMap (TokenId.endFrom? first) :=
    List.mem_filterMap.2 ⟨_, h, TokenId.endFrom?_eq_some.2 rfl⟩
  exact Option.isSome_iff_exists.1 (List.getLast?_isSome.2 (List.ne_nil_of_mem hmem))

section Balanced
variable {ids written : List TokenId} (h : IsWritten ids written)

include h

/-- A range that is written once for each time that it is read is the last from its start. -/
theorem lastEnd?_of_perm (hperm : written.Perm ids) {first last : Nat}
    (hmem : .range first last ∈ ids) :
    lastEnd? ids first = some last ∧ ids.count (.range first last) = ids.count (.word first) := by
  have hcount := h.ranges first last
  rw [hperm.count_eq] at hcount
  split at hcount
  · next hlast => exact ⟨hlast, hcount⟩
  · exact absurd hmem (List.count_eq_zero.1 hcount)

/-- All that is read is written, and nothing twice, exactly when the ids are balanced. -/
theorem perm_iff_isBalanced : written.Perm ids ↔ IsBalanced ids := by
  constructor
  · intro hperm
    refine ⟨fun first last other hlast hother => ?_, fun first last hlast => ?_,
      fun anchor sub hmem hanchor => ?_⟩
    · have heq := (lastEnd?_of_perm h hperm hlast).1
      rw [(lastEnd?_of_perm h hperm hother).1] at heq
      exact Option.some.inj heq
    · exact (lastEnd?_of_perm h hperm hlast).2
    · have hcount := h.empties anchor sub
      rw [hperm.count_eq, if_neg hanchor] at hcount
      exact Nat.eq_of_mul_eq_mul_left (List.count_pos_iff.2 hmem) (by omega)
  · intro hbalanced
    refine List.perm_iff_count.2 fun id => ?_
    cases id with
    | word id => exact h.words id
    | range first last =>
      rw [h.ranges]
      by_cases hmem : .range first last ∈ ids
      · obtain ⟨other, hother⟩ := exists_lastEnd? hmem
        have heq := hbalanced.sameEnd first last other hmem (mem_of_lastEnd? hother)
        rw [hother, heq, if_pos rfl, hbalanced.ranges first last hmem]
      · rw [if_neg fun hlast => hmem (mem_of_lastEnd? hlast), List.count_eq_zero.2 hmem]
    | empty anchor sub =>
      rw [h.empties]
      by_cases hmem : .empty anchor sub ∈ ids
      · by_cases hanchor : anchor = 0
        · rw [if_pos hanchor, Nat.mul_one]
        · rw [if_neg hanchor, hbalanced.empties anchor sub hmem hanchor, Nat.mul_one]
      · rw [List.count_eq_zero.2 hmem, Nat.zero_mul]

end Balanced

/-! ### The ids of a sentence -/

namespace Sentence

/-- What the words with one id bring, and no other, comes as often as there are such words. -/
theorem sum_map_words {f : Word → Nat} {id count : Nat}
    (h : ∀ word, f word = if word.id = id then count else 0) (words : List Word) :
    (words.map f).sum = words.countP (·.id = id) * count := by
  induction words with
  | nil => simp
  | cons word rest ih =>
    rw [List.map_cons, List.sum_cons, ih, List.countP_cons, h]
    by_cases hid : word.id = id <;> simp [hid, Nat.add_mul, Nat.add_comm]

section Tokens
variable (s : Sentence)

/-- How often a token with the given id is written with a word. -/
def countWith (id : TokenId) (word : Word) : Nat :=
  (s.multiwords.get? word.id).toList.countP (fun range => TokenId.range word.id range.last = id) +
    ((if TokenId.word word.id = id then 1 else 0) +
      (s.emptiesAt word.id).countP fun node => TokenId.empty word.id node.sub = id)

theorem count_tokens (id : TokenId) :
    (s.tokens.map (·.id)).count id =
      (s.emptiesAt 0).countP (fun node => TokenId.empty 0 node.sub = id) +
        (s.words.map (s.countWith id)).sum := by
  have hcount : ∀ tokens : List Token, (tokens.map (·.id)).count id =
      tokens.countP fun token => token.id = id := fun tokens => by
    rw [List.count, List.countP_map]
    rfl
  have hempties : ∀ anchor, (s.emptiesAt anchor).countP ((fun token : Token => token.id = id) ∘
      (·.token)) = (s.emptiesAt anchor).countP fun node => TokenId.empty anchor node.sub = id :=
    fun anchor => List.countP_congr fun node hnode => by
      rw [← id_of_mem_emptiesAt hnode]
      rfl
  have hranges : ∀ first, (s.multiwords.get? first).toList.countP ((fun token : Token =>
      token.id = id) ∘ (·.token)) = (s.multiwords.get? first).toList.countP fun range =>
        TokenId.range first range.last = id :=
    fun first => List.countP_congr fun range hrange => by
      rw [← id_of_get? (Option.mem_toList.1 hrange)]
      rfl
  rw [hcount, tokens, List.countP_append, List.countP_map, hempties, List.countP_flatMap]
  refine congrArg₂ _ rfl (congrArg List.sum (List.map_congr_left fun word _ => ?_))
  rw [Function.comp_apply, List.countP_append, List.countP_cons, List.countP_map, hempties,
    Option.toList_map, List.countP_map, hranges, Nat.add_comm (List.countP _ _) (ite _ _ _)]
  simp only [decide_eq_true_eq]
  rfl

theorem countWith_word (id : Nat) (word : Word) :
    s.countWith (.word id) word = if word.id = id then 1 else 0 := by
  simp [countWith]

theorem countWith_range (first last : Nat) (word : Word) :
    s.countWith (.range first last) word =
      if word.id = first then
        if (s.multiwords.get? first).map (·.last) = some last then 1 else 0
      else 0 := by
  by_cases hid : word.id = first
  · rw [countWith, hid]
    cases s.multiwords.get? first <;> simp [List.countP_cons]
  · simp [countWith, hid]

theorem countWith_empty (anchor sub : Nat) (word : Word) :
    s.countWith (.empty anchor sub) word =
      if word.id = anchor then (s.emptiesAt anchor).countP (·.sub = sub) else 0 := by
  by_cases hid : word.id = anchor <;> simp [countWith, hid]

theorem count_word (id : Nat) :
    (s.tokens.map (·.id)).count (.word id) = s.words.countP (·.id = id) := by
  rw [count_tokens, sum_map_words (s.countWith_word id)]
  simp

theorem count_range (first last : Nat) :
    (s.tokens.map (·.id)).count (.range first last) =
      if (s.multiwords.get? first).map (·.last) = some last then s.words.countP (·.id = first)
      else 0 := by
  rw [count_tokens, sum_map_words (s.countWith_range first last)]
  simp

theorem count_empty (anchor sub : Nat) :
    (s.tokens.map (·.id)).count (.empty anchor sub) =
      (s.emptiesAt anchor).countP (·.sub = sub) *
        ((if anchor = 0 then 1 else 0) + s.words.countP (·.id = anchor)) := by
  rw [count_tokens, sum_map_words (s.countWith_empty anchor sub), Nat.mul_add,
    Nat.mul_comm (s.words.countP _)]
  by_cases hanchor : anchor = 0
  · simp [hanchor]
  · simp [hanchor, Ne.symm hanchor]

end Tokens

end Sentence

/-! ### From a text to its sentence -/

section OfTokens
variable (tokens : List Token)

theorem countP_words_ofTokens (id : Nat) :
    (Sentence.ofTokens tokens).words.countP (·.id = id) =
      (tokens.map (·.id)).count (.word id) := by
  rw [Sentence.ofTokens, Sentence.words_foldl_push, List.nil_append, List.countP_filterMap,
    List.count, List.countP_map]
  refine List.countP_congr fun token _ => ?_
  unfold Token.word?
  rw [Function.comp_apply]
  cases token.id <;> simp

theorem countP_emptiesAt_ofTokens (anchor sub : Nat) :
    ((Sentence.ofTokens tokens).emptiesAt anchor).countP (·.sub = sub) =
      (tokens.map (·.id)).count (.empty anchor sub) := by
  rw [Sentence.ofTokens, Sentence.emptiesAt_foldl_push]
  show List.countP _ ([] ++ _) = _
  rw [List.nil_append, List.countP_filterMap, List.count, List.countP_map]
  refine List.countP_congr fun token _ => ?_
  unfold Token.emptyAt?
  rw [Function.comp_apply]
  cases token.id with
  | word id => simp
  | range first last => simp
  | empty main sub' => by_cases hmain : main = anchor <;> simp [hmain]

theorem last_multiwords_ofTokens (first : Nat) :
    ((Sentence.ofTokens tokens).multiwords.get? first).map (·.last) =
      lastEnd? (tokens.map (·.id)) first := by
  have hend : ∀ token : Token,
      (token.rangeFrom? first).map (·.last) = token.id.endFrom? first := by
    intro token
    unfold Token.rangeFrom? TokenId.endFrom?
    cases token.id with
    | word id => rfl
    | range start last => by_cases hstart : start = first <;> simp [hstart]
    | empty anchor sub => rfl
  rw [Sentence.ofTokens, Sentence.multiwords_foldl_push]
  show Option.map _ (Option.or _ none) = _
  rw [Option.or_none, lastEnd?, List.filterMap_map, ← List.getLast?_map, List.map_filterMap]
  exact congrArg List.getLast? (List.filterMap_congr fun token _ => hend token)

/-- A sentence put together from tokens is written with its words and what hangs on them. -/
theorem isWritten_ofTokens (hzero : TokenId.word 0 ∉ tokens.map (·.id)) :
    IsWritten (tokens.map (·.id)) ((Sentence.ofTokens tokens).tokens.map (·.id)) := by
  refine ⟨fun id => ?_, fun first last => ?_, fun anchor sub => ?_⟩
  · rw [Sentence.count_word, countP_words_ofTokens]
  · rw [Sentence.count_range, countP_words_ofTokens, last_multiwords_ofTokens]
  · rw [Sentence.count_empty, countP_words_ofTokens, countP_emptiesAt_ofTokens]
    by_cases hanchor : anchor = 0
    · rw [hanchor, List.count_eq_zero.2 hzero]
      simp
    · rw [if_neg hanchor, if_neg hanchor, Nat.zero_add]

end OfTokens

theorem Token.lineId?_of_read {line : List Char} {token : Token}
    (hcomment : Run.comment? line = none) (h : Token.read line = .ok token) :
    lineId? line = some token.id := by
  rw [lineId?, hcomment]
  unfold Token.read at h
  split at h
  · next hpieces =>
    obtain ⟨id, hid, h⟩ := bind_eq_ok h
    obtain ⟨features, -, h⟩ := bind_eq_ok h
    obtain ⟨head, -, h⟩ := bind_eq_ok h
    obtain ⟨deps, -, h⟩ := bind_eq_ok h
    simp only at h
    split at h
    · cases h
    · cases h
      rw [hpieces]
      exact eq_some_of_orFault hid
  · cases h

/-- The tokens of a run without an error have the ids in the first columns of its lines. -/
theorem Run.map_id_tokens {run : Run} (h : run.error? = none) :
    run.tokens.map (·.id) = (run.map (·.1)).filterMap lineId? := by
  have hread : ∀ line ∈ run, comment? line.1 = none → ∃ token, Token.read line.1 = .ok token := by
    intro line hline hcomment
    have hnone := List.findSome?_eq_none_iff.1 h line
      (List.mem_filter.2 ⟨hline, by simp [hcomment]⟩)
    cases hread : Token.read line.1 with
    | ok token => exact ⟨token, rfl⟩
    | error fault => simp [hread] at hnone
  rw [tokens, tokenLines, List.filterMap_filter, List.map_filterMap, List.filterMap_map]
  refine List.filterMap_congr fun line hline => ?_
  rw [Function.comp_apply]
  cases hcomment : comment? line.1 with
  | some comment => simp [lineId?, hcomment]
  | none =>
    obtain ⟨token, htoken⟩ := hread line hline hcomment
    rw [Token.lineId?_of_read hcomment htoken, htoken]
    rfl

/-- A text that is read has one run that counts, with a token for each of its token lines. -/
theorem Sentence.read_eq_ok {text : List Char} {s : Sentence} (h : Sentence.read text = .ok s) :
    s = (firstRun text).sentence ∧ (firstRun text).tokens.map (·.id) = tokenIds text := by
  rw [Sentence.read_eq] at h
  split at h
  · cases h
  · unfold Run.item at h
    split at h
    · cases h
    · next herror =>
      cases h
      exact ⟨rfl, Run.map_id_tokens herror⟩

/-! ### From a sentence to its text -/

theorem lineId?_comment (comment : List Char) : lineId? (dropReturns ('#' :: comment)) = none := by
  rw [dropReturns, dropEndWhile_cons_of_not rfl]
  rfl

/-- A token is written with its id in the first column. -/
theorem Token.lineId?_write {token : Token} (h : token.id.Legible) :
    lineId? (dropReturns token.write) = some token.id := by
  obtain ⟨rest, hwrite⟩ : ∃ rest, token.write = token.id.write ++ '\t' :: rest := ⟨_, rfl⟩
  have htab : '\t' ∉ token.id.write :=
    TokenId.not_mem_write (by decide) (by decide) (by decide) token.id
  have hline : dropReturns token.write = token.id.write ++ '\t' :: dropReturns rest := by
    have hback : dropEndWhile (· = '\r') ('\t' :: rest) = '\t' :: dropReturns rest :=
      dropEndWhile_cons_of_not rfl rest
    rw [hwrite, dropReturns, dropEndWhile_append (by rw [hback]; simp), hback]
  have hcomment : Run.comment? (dropReturns token.write) = none := by
    obtain ⟨c, more, hcons, hdigit⟩ := token.exists_write_eq_cons
    have hreturn : decide (c = '\r') = false :=
      decide_eq_false fun heq => by rw [heq] at hdigit; cases hdigit
    rw [hcons, dropReturns, dropEndWhile_cons_of_not hreturn, Run.comment?]
    rintro comment heq
    rw [(List.cons.inj heq).1] at hdigit
    cases hdigit
  rw [lineId?, hcomment, hline, pieces_append htab]
  exact TokenId.read_write h

/-- What is written has a token line for each token that the sentence has in order. -/
theorem Sentence.map_id_tokens {s : Sentence} (h : s.Legible) :
    tokenIds s.write = s.tokens.map (·.id) := by
  have hlines : textLines s.write = (s.writeLines.map dropReturns).map .ok ++ [.ok []] := by
    rw [textLines_write h, List.map_map]
    rfl
  have hblank : ∀ line ∈ s.writeLines.map dropReturns, Reader.isBlankLine line = false :=
    List.forall_mem_map.2 isBlankLine_of_mem_writeLines
  have hids : ∀ token ∈ s.tokens, lineId? (dropReturns token.write) = some token.id :=
    fun token htoken => Token.lineId?_write (h.token token (mem_stored_of_mem_tokens htoken)).id
  have hcomments : s.metadata.write.filterMap
      (fun comment => lineId? (dropReturns ('#' :: ' ' :: comment.toList))) = [] :=
    List.filterMap_eq_nil_iff.2 fun comment _ => lineId?_comment _
  have hrun : (firstRun s.write).map (·.1) = s.writeLines.map dropReturns := by
    rw [firstRun, hlines, runs_append_blank (List.forall_mem_map.2 fun _ _ => rfl) rfl]
    exact (congrArg (fun runs : List Run => (runs.headD []).map (·.1)) (List.append_nil _)).trans
      (map_fst_headD_runs hblank 0)
  rw [tokenIds, hrun, List.filterMap_map, writeLines,
    List.filterMap_append, List.filterMap_map, List.filterMap_map]
  refine (congrArg₂ _ hcomments (List.filterMap_congr hids)).trans ?_
  rw [List.nil_append]
  exact congrFun List.filterMap_eq_map' _

/-- The words of a text that is read are written as often as they are read, an empty node once for
each word that it follows, and for each word the last of the ranges that start at it. Nothing is
lost and nothing doubled exactly when the ids are balanced. -/
theorem tokenIds_write {text : List Char} {s : Sentence} (h : Sentence.read text = .ok s) :
    IsWritten (tokenIds text) (tokenIds s.write) ∧
      ((tokenIds s.write).Perm (tokenIds text) ↔ IsBalanced (tokenIds text)) := by
  obtain ⟨hsentence, hids⟩ := Sentence.read_eq_ok h
  have hzero : TokenId.word 0 ∉ (firstRun text).tokens.map (·.id) := by
    intro hmem
    obtain ⟨token, htoken, hid⟩ := List.mem_map.1 hmem
    obtain ⟨line, -, hread⟩ := List.mem_filterMap.1 htoken
    have hlegible := (Token.read_eq_ok (toOption_eq_some_iff.1 hread)).1.id
    rw [hid] at hlegible
    exact hlegible.1 rfl
  have hwritten : IsWritten (tokenIds text) (tokenIds s.write) := by
    rw [Sentence.map_id_tokens (Sentence.legible_of_read h).1, ← hids, hsentence]
    exact isWritten_ofTokens _ hzero
  exact ⟨hwritten, perm_iff_isBalanced hwritten⟩

/-- Tokens of all kinds that are kept though they are out of order. -/
theorem tokenIds_write_five :
    let line : String → String := (· ++ "\t_\t_\t_\t_\t_\t_\t_\t_\t_\n")
    let text := ("# x\n" ++ line "2" ++ line "1-2" ++ line "1" ++ line "1.1" ++ line "0.1").toList
    ∃ s, Sentence.read text = .ok s ∧ (tokenIds s.write).Perm (tokenIds text) := by
  intro line text
  have hids : tokenIds text = [.word 2, .range 1 2, .word 1, .empty 1 1, .empty 0 1] := by
    decide +kernel
  have hbalanced : IsBalanced (tokenIds text) := by
    rw [hids]
    refine ⟨by simp +contextual, by simp, ?_⟩
    intro anchor sub hmem hanchor
    have hone : anchor = 1 := by
      simp only [List.mem_cons, TokenId.empty.injEq, List.not_mem_nil, reduceCtorEq, or_false,
        false_or] at hmem
      omega
    rw [hone]
    decide
  have hread : Sentence.read text = .ok (firstRun text).sentence := by decide +kernel
  exact ⟨_, hread, (tokenIds_write hread).2.2 hbalanced⟩

/-- The first of two ranges with the same start is lost, and so is an empty node without its word;
the range that is left is written for each of two words. -/
theorem tokenIds_write_not_perm :
    let line : String → String := (· ++ "\t_\t_\t_\t_\t_\t_\t_\t_\t_\n")
    let text := (line "1-2" ++ line "1-3" ++ line "1" ++ line "1" ++ line "4.1").toList
    ∃ s, Sentence.read text = .ok s ∧
      tokenIds text = [.range 1 2, .range 1 3, .word 1, .word 1, .empty 4 1] ∧
      tokenIds s.write = [.range 1 3, .word 1, .range 1 3, .word 1] ∧
      ¬ (tokenIds s.write).Perm (tokenIds text) := by
  intro line text
  have hread : Sentence.read text = .ok (firstRun text).sentence := by decide +kernel
  have hids : tokenIds text = [.range 1 2, .range 1 3, .word 1, .word 1, .empty 4 1] := by
    decide +kernel
  have hwritten : tokenIds (firstRun text).sentence.write =
      [.range 1 3, .word 1, .range 1 3, .word 1] := by
    decide +kernel
  refine ⟨_, hread, hids, hwritten, ?_⟩
  rw [hids, hwritten]
  decide

end Treebank
