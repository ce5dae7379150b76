import Mathlib.Algebra.Order.Ring.Nat
import Mathlib.Algebra.Order.SuccPred
import Mathlib.Data.Nat.SuccPred
import Treebank.Proofs.Blocks
import Treebank.Proofs.Comments
import Treebank.Proofs.Reading

/-! Documents read back.

A sentence is legible when it is fresh and its comments and tokens are, as a sentence is
that was read (`legible_of_read`). If it is writable as well, the block that is written
for it is read as the sentence itself with the dependencies of its tokens in the order of
their heads (`finish_writeLines`). So the blocks of sentences, one after the other, are a
document of these sentences and of nothing else (`readText_write`). -/
namespace Treebank
open Text

/-! ### Sorted sentences -/

def Word.sorted (word : Word) : Word := { word with toColumns := word.toColumns.sorted }

def Multiword.sorted (range : Multiword) : Multiword :=
  { range with toColumns := range.toColumns.sorted }

def EmptyNode.sorted (node : EmptyNode) : EmptyNode :=
  { node with toColumns := node.toColumns.sorted }

namespace Sentence

/-- The sentence with the dependencies of every token in the order of their heads. -/
def sorted (s : Sentence) : Sentence :=
  { s with
    words := s.words.map (·.sorted)
    multiwords := s.multiwords.mapValues fun _ range => range.sorted
    empties := s.empties.mapValues fun _ nodes => nodes.map (·.sorted)
    rangesFiled := s.rangesFiled.mapValues fun _ _ h => h
    emptiesFiled := s.emptiesFiled.mapValues fun _ _ h => List.forall_mem_map.2 h }

/-- The tokens that the sentence holds, kind by kind. -/
def stored (s : Sentence) : List Token :=
  s.words.map (·.token) ++ s.multiwords.entries.map (fun entry => entry.2.token) ++
    s.empties.entries.flatMap fun entry => entry.2.map (·.token)

/-- The texts in the comments and in the columns of all tokens. -/
def texts (s : Sentence) : List String := s.metadata.texts ++ s.stored.flatMap (·.texts)

/-- What a sentence needs so that nothing is lost when it is written. -/
structure IsWritable (s : Sentence) : Prop where
  ids : (s.words.map (·.id)).Nodup
  ranges : ∀ entry ∈ s.multiwords.entries, entry.1 ∈ s.words.map (·.id)
  empties : ∀ entry ∈ s.empties.entries, entry.1 ≠ 0 → entry.1 ∈ s.words.map (·.id)
  noReturn : ∀ text ∈ s.texts, '\r' ∉ text.toList
  noBlankFlag : ∀ token ∈ s.stored, token.misc ≠ ⟨[("_", .flag)]⟩

/-- The sentence is as a reader leaves it. -/
structure Legible (s : Sentence) : Prop where
  fresh : s.IsFresh
  metadata : s.metadata.Legible
  token : ∀ token ∈ s.stored, token.Legible
  newline : ∀ text ∈ s.texts, '\n' ∉ text.toList

/-! ### Tokens that are stored -/

theorem mem_stored {s : Sentence} {token : Token} :
    token ∈ s.stored ↔ (∃ word ∈ s.words, word.token = token) ∨
      (∃ first range, s.multiwords.get? first = some range ∧ range.token = token) ∨
      ∃ anchor, ∃ node ∈ s.emptiesAt anchor, node.token = token := by
  have hranges : token ∈ s.multiwords.entries.map (fun entry => entry.2.token) ↔
      ∃ first range, s.multiwords.get? first = some range ∧ range.token = token := by
    simp only [List.mem_map, Prod.exists, IdMap.mem_entries_iff]
  have hempties : token ∈ s.empties.entries.flatMap (fun entry => entry.2.map (·.token)) ↔
      ∃ anchor, ∃ node ∈ s.emptiesAt anchor, node.token = token := by
    simp only [List.mem_flatMap, List.mem_map, Prod.exists, IdMap.mem_entries_iff, emptiesAt]
    refine exists_congr fun anchor => ?_
    cases s.empties.get? anchor <;> simp
  rw [stored, List.mem_append, List.mem_append, hranges, hempties, List.mem_map, or_assoc]

theorem mem_stored_push_self (s : Sentence) (token : Token) : token ∈ (s.push token).stored := by
  rw [mem_stored]
  obtain ⟨columns, id⟩ := token
  cases id with
  | word id =>
    refine .inl ⟨{ columns with id }, ?_, rfl⟩
    simp [words_push, Token.word?]
  | range first last =>
    refine .inr (.inl ⟨first, { columns with first, last }, ?_, rfl⟩)
    simp [multiwords_push, Token.rangeFrom?]
  | empty anchor sub =>
    refine .inr (.inr ⟨anchor, { columns with anchor, sub }, ?_, rfl⟩)
    simp [emptiesAt_push, Token.emptyAt?]

theorem mem_stored_of_mem_push {s : Sentence} {token other : Token}
    (h : other ∈ (s.push token).stored) : other = token ∨ other ∈ s.stored := by
  rcases mem_stored.1 h with ⟨word, hword, rfl⟩ | ⟨first, range, hrange, rfl⟩ |
    ⟨anchor, node, hnode, rfl⟩
  · rw [words_push] at hword
    rcases List.mem_append.1 hword with hold | hnew
    · exact .inr (mem_stored.2 (.inl ⟨word, hold, rfl⟩))
    · exact .inl (Token.token_of_word? (Option.mem_toList.1 hnew))
  · rw [multiwords_push] at hrange
    rcases Option.or_eq_some_iff.1 hrange with hnew | ⟨-, hold⟩
    · exact .inl (Token.token_of_rangeFrom? hnew)
    · exact .inr (mem_stored.2 (.inr (.inl ⟨first, range, hold, rfl⟩)))
  · rw [emptiesAt_push] at hnode
    rcases List.mem_append.1 hnode with hold | hnew
    · exact .inr (mem_stored.2 (.inr (.inr ⟨anchor, node, hold, rfl⟩)))
    · exact .inl (Token.token_of_emptyAt? (Option.mem_toList.1 hnew))

theorem mem_stored_of_mem_tokens {s : Sentence} {token : Token} (h : token ∈ s.tokens) :
    token ∈ s.stored := by
  simp only [tokens, List.mem_append, List.mem_map, List.mem_flatMap, Option.mem_toList,
    Option.map_eq_some_iff, List.mem_cons] at h
  rw [mem_stored]
  rcases h with ⟨node, hnode, rfl⟩ | ⟨word, hword, ⟨range, hrange, rfl⟩ | rfl | ⟨node, hnode, rfl⟩⟩
  · exact .inr (.inr ⟨0, node, hnode, rfl⟩)
  · exact .inr (.inl ⟨word.id, range, hrange, rfl⟩)
  · exact .inl ⟨word, hword, rfl⟩
  · exact .inr (.inr ⟨word.id, node, hnode, rfl⟩)

/-- All tokens are written. -/
theorem mem_tokens_of_mem_stored {s : Sentence} (h : s.IsAnchored) {token : Token}
    (hstored : token ∈ s.stored) : token ∈ s.tokens := by
  simp only [tokens, List.mem_append, List.mem_map, List.mem_flatMap, Option.mem_toList,
    Option.map_eq_some_iff, List.mem_cons]
  rcases mem_stored.1 hstored with ⟨word, hword, rfl⟩ | ⟨first, range, hrange, rfl⟩ |
    ⟨anchor, node, hnode, rfl⟩
  · exact .inr ⟨word, hword, .inr (.inl rfl)⟩
  · obtain ⟨word, hword, rfl⟩ :=
      List.mem_map.1 (h.ranges (first, range) (IdMap.mem_entries_iff.2 hrange))
    exact .inr ⟨word, hword, .inl ⟨range, hrange, rfl⟩⟩
  · by_cases hzero : anchor = 0
    · exact .inl ⟨node, hzero ▸ hnode, rfl⟩
    · have hid : anchor ∈ s.words.map (·.id) := by
        refine by_contra fun hnone => ?_
        rw [h.emptiesAt_eq_nil hzero hnone] at hnode
        cases hnode
      obtain ⟨word, hword, rfl⟩ := List.mem_map.1 hid
      exact .inr ⟨word, hword, .inr (.inr ⟨node, hnode, rfl⟩)⟩

/-! ### What is read -/

theorem legible_empty : Legible {} :=
  ⟨isFresh_empty {}, Metadata.legible_empty, fun _ htoken => absurd htoken List.not_mem_nil,
    fun _ htext => absurd htext List.not_mem_nil⟩

theorem legible_push {s : Sentence} {token : Token} (h : s.Legible) (htoken : token.Legible)
    (hnewline : ∀ text ∈ token.texts, '\n' ∉ text.toList) : (s.push token).Legible := by
  refine ⟨isFresh_push h.fresh token, metadata_push s token ▸ h.metadata, ?_, ?_⟩
  · intro other hother
    rcases mem_stored_of_mem_push hother with rfl | hold
    · exact htoken
    · exact h.token other hold
  · intro text htext
    rcases List.mem_append.1 htext with hmetadata | htext
    · rw [metadata_push] at hmetadata
      exact h.newline text (List.mem_append_left _ hmetadata)
    · obtain ⟨other, hother, hcolumn⟩ := List.mem_flatMap.1 htext
      rcases mem_stored_of_mem_push hother with rfl | hold
      · exact hnewline text hcolumn
      · exact h.newline text (List.mem_append_right _ (List.mem_flatMap.2 ⟨other, hold, hcolumn⟩))

theorem legible_annotate {s : Sentence} {comment : List Char} (h : s.Legible)
    (hnewline : '\n' ∉ comment) :
    Legible { s with metadata := s.metadata.addComment comment } := by
  refine ⟨⟨h.fresh.links, h.fresh.nodes, h.fresh.outline⟩,
    Metadata.legible_addComment h.metadata comment, h.token, fun text htext => ?_⟩
  rcases List.mem_append.1 htext with hmetadata | htext
  · rcases Metadata.mem_of_mem_texts_addComment hmetadata with hold | hnew
    · exact h.newline text (List.mem_append_left _ hold)
    · exact fun hmem => hnewline (hnew _ hmem)
  · exact h.newline text (List.mem_append_right _ htext)

/-- A line leaves a comment or a token behind. -/
theorem legible_addLine {s t : Sentence} {number : Nat} {line : List Char} (h : s.Legible)
    (hnewline : '\n' ∉ line) (hline : s.addLine number line = .ok t) :
    t.Legible ∧ (t.metadata.write ≠ [] ∨ t.stored ≠ []) := by
  unfold addLine at hline
  split at hline
  · cases hline
    rw [List.mem_cons, not_or] at hnewline
    exact ⟨legible_annotate h hnewline.2, .inl (Metadata.write_addComment_ne_nil _ _)⟩
  · split at hline
    · next token hread =>
      cases hline
      obtain ⟨htoken, hchars⟩ := Token.read_eq_ok hread
      refine ⟨legible_push h htoken fun text htext hmem => hnewline (hchars text htext _ hmem),
        .inr (List.ne_nil_of_mem (mem_stored_push_self s token))⟩
    · cases hline

theorem legible_of_read {text : List Char} {s : Sentence} (h : Sentence.read text = .ok s) :
    s.Legible ∧ (s.metadata.write ≠ [] ∨ s.stored ≠ []) :=
  read_induction (fun hnewline hs hline => legible_addLine
    (hs.elim (fun hempty => hempty ▸ legible_empty) And.left) hnewline hline) h

/-! ### What is written -/

theorem tokens_sorted (s : Sentence) : s.sorted.tokens = s.tokens.map Token.sorted := by
  have hempties : ∀ anchor, s.sorted.emptiesAt anchor = (s.emptiesAt anchor).map (·.sorted) := by
    intro anchor
    unfold emptiesAt sorted
    rw [IdMap.get?_mapValues]
    cases s.empties.get? anchor <;> rfl
  have hranges : ∀ first, s.sorted.multiwords.get? first =
      (s.multiwords.get? first).map (·.sorted) := fun first => IdMap.get?_mapValues _ _ first
  simp only [tokens, hempties, hranges]
  simp only [sorted, List.map_append, List.map_map, List.map_flatMap, List.flatMap_map,
    List.map_cons, Option.map_map, ← Option.toList_map]
  rfl

theorem write_sorted (s : Sentence) : s.sorted.write = s.write := by
  have htokens : s.sorted.tokens.map Token.write = s.tokens.map Token.write := by
    rw [tokens_sorted, List.map_map]
    exact List.map_congr_left fun token _ => token.write_sorted
  rw [write, writeLines, htokens]
  rfl

theorem isFresh_sorted {s : Sentence} (h : s.IsFresh) : s.sorted.IsFresh := by
  refine ⟨?_, ?_, h.outline⟩
  · intro word hword
    obtain ⟨old, hold, rfl⟩ := List.mem_map.1 hword
    exact h.links old hold
  · intro nodes hnodes
    obtain ⟨entry, hentry, rfl⟩ := List.mem_map.1 hnodes
    obtain ⟨old, hold, rfl⟩ := List.mem_map.1 hentry
    obtain ⟨hsome, hposition⟩ := h.nodes old.2 (List.mem_map_of_mem hold)
    refine ⟨by simpa using hsome, fun node hnode => ?_⟩
    obtain ⟨before, hbefore, rfl⟩ := List.mem_map.1 hnode
    exact hposition before hbefore

theorem isAnchored_sorted {s : Sentence} (h : s.IsAnchored) : s.sorted.IsAnchored := by
  have hids : s.sorted.words.map (·.id) = s.words.map (·.id) := by
    rw [sorted, List.map_map]
    rfl
  refine ⟨hids ▸ h.ids, hids ▸ h.start, ?_, ?_⟩
  · intro entry hentry
    obtain ⟨old, hold, rfl⟩ := List.mem_map.1 hentry
    exact hids ▸ h.ranges old hold
  · intro entry hentry
    obtain ⟨old, hold, rfl⟩ := List.mem_map.1 hentry
    exact hids ▸ h.empties old hold

theorem zero_not_mem_ids {s : Sentence} (h : s.Legible) : 0 ∉ s.words.map (·.id) := by
  intro hzero
  obtain ⟨word, hword, heq⟩ := List.mem_map.1 hzero
  exact (h.token word.token (mem_stored.2 (.inl ⟨word, hword, rfl⟩))).id.1 heq

theorem isAnchored_of_writable {s : Sentence} (h : s.Legible) (hwritable : s.IsWritable) :
    s.IsAnchored :=
  ⟨hwritable.ids, zero_not_mem_ids h, hwritable.ranges, hwritable.empties⟩

/-- What no text of the sentence holds is not in its lines either, if it ends a line. -/
theorem not_mem_writeLines {s : Sentence} {c : Char} (hc : c = '\n' ∨ c = '\r')
    (h : ∀ text ∈ s.texts, c ∉ text.toList) : ∀ line ∈ s.writeLines, c ∉ line := by
  obtain ⟨hmetadata, htokens⟩ := List.forall_mem_append.1 h
  have hmark : isMark c = false ∧ c ≠ '\t' ∧ c ≠ '#' ∧ c ≠ ' ' := by
    rcases hc with rfl | rfl <;> decide
  obtain ⟨hmark, htab, hhash, hblank⟩ := hmark
  refine List.forall_mem_append.2 ⟨?_, ?_⟩
  · intro line hline
    obtain ⟨comment, hcomment, rfl⟩ := List.mem_map.1 hline
    simp [hhash, hblank, Metadata.not_mem_write hc hmetadata comment hcomment]
  · intro line hline
    obtain ⟨token, htoken, rfl⟩ := List.mem_map.1 hline
    refine Token.not_mem_write hmark htab fun text htext => htokens text ?_
    exact List.mem_flatMap.2 ⟨token, mem_stored_of_mem_tokens htoken, htext⟩

/-- The lines of a block, as they come to the reader. -/
theorem textLines_write {s : Sentence} (h : s.Legible) :
    textLines s.write = s.writeLines.map (fun line => .ok (dropReturns line)) ++ [.ok []] := by
  have hnewline : ∀ line ∈ s.writeLines ++ [[]], '\n' ∉ line :=
    List.forall_mem_append.2 ⟨not_mem_writeLines (.inl rfl) h.newline, by simp⟩
  rw [write, textLines_terminate hnewline, List.map_append]
  rfl

/-- Carriage returns at the end of a comment are trimmed with the other blanks there. -/
theorem addLine_comment (s : Sentence) (number : Nat) (comment : List Char) :
    s.addLine number (dropReturns ('#' :: comment)) =
      .ok { s with metadata := s.metadata.addComment comment } := by
  rw [dropReturns, dropEndWhile_cons_of_not rfl,
    ← Metadata.addComment_congr (trim_dropReturns comment)]
  rfl

theorem addLine_write {token again : Token}
    (hread : Token.read (dropReturns token.write) = .ok again) (s : Sentence) (number : Nat) :
    s.addLine number (dropReturns token.write) = .ok (s.push again) := by
  unfold addLine
  split
  · next comment heq =>
    obtain ⟨c, rest, hline, hdigit⟩ := token.exists_write_eq_cons
    have hreturn : decide (c = '\r') = false :=
      decide_eq_false fun hc => by rw [hc] at hdigit; cases hdigit
    rw [hline, dropReturns, dropEndWhile_cons_of_not hreturn] at heq
    cases heq
    cases hdigit
  · rw [hread]

theorem isBlankLine_write (token : Token) : Reader.isBlankLine token.write = false := by
  obtain ⟨c, rest, hline, hdigit⟩ := token.exists_write_eq_cons
  rw [hline, Reader.isBlankLine, List.all_cons, isBlank_of_isDigit hdigit, Bool.false_and]

theorem isBlankLine_of_mem_writeLines {s : Sentence} :
    ∀ line ∈ s.writeLines, Reader.isBlankLine (dropReturns line) = false := by
  refine List.forall_mem_append.2 ⟨?_, ?_⟩
  · exact List.forall_mem_map.2 fun comment _ => isBlankLine_dropReturns rfl
  · exact List.forall_mem_map.2 fun token _ => isBlankLine_dropReturns (isBlankLine_write token)

section Block
variable {s : Sentence} (h : s.Legible) {take : Token → Token}
  (htake : ∀ token ∈ s.tokens, Token.read (dropReturns token.write) = .ok (take token))

include h htake

/-- The lines of a block give back the metadata, and what is read from its token lines is pushed. -/
theorem finish_lines (number : Nat) (rest : List Line) :
    Reader.finish (some (.ok {})) number
        (s.writeLines.map (fun line => .ok (dropReturns line)) ++ rest) =
      Reader.finish (some (.ok ((s.tokens.map take).foldl push { metadata := s.metadata })))
        (number + s.writeLines.length) rest := by
  -- The comments come to the metadata, and the tokens after them to the sentence.
  have hcomments : s.metadata.write.foldl
      (fun t comment => { t with metadata := t.metadata.addComment (' ' :: comment.toList) })
      ({} : Sentence) = { metadata := s.metadata } :=
    (List.foldl_hom (fun metadata : Metadata => ({ metadata } : Sentence)) fun _ _ => rfl).trans
      (congrArg (fun metadata : Metadata => ({ metadata } : Sentence))
        (Metadata.addComments_write h.metadata))
  have hlines : s.writeLines.map (fun line => (.ok (dropReturns line) : Line)) =
      s.metadata.write.map (fun comment => .ok (dropReturns ('#' :: ' ' :: comment.toList))) ++
        s.tokens.map fun token => .ok (dropReturns token.write) := by
    rw [writeLines, List.map_append, List.map_map, List.map_map]
    rfl
  rw [hlines, List.append_assoc,
    Reader.finish_run (fun _ _ => isBlankLine_dropReturns rfl)
      (fun _ _ t number => addLine_comment t number _), hcomments,
    Reader.finish_run (fun token _ => isBlankLine_dropReturns (isBlankLine_write token))
      (fun token htoken => addLine_write (htake token htoken)), List.foldl_map]
  rw [writeLines, List.length_append, List.length_map, List.length_map, Nat.add_assoc]

/-- A block is read to its end. -/
theorem finish_block (hcontent : s.writeLines ≠ []) (number : Nat) (rest : List Line) :
    Reader.finish none number
        (s.writeLines.map (fun line => .ok (dropReturns line)) ++ .ok [] :: rest) =
      some (.ok ((s.tokens.map take).foldl push { metadata := s.metadata }),
        { rest, number := number + s.writeLines.length + 1 }) := by
  have hstart : ∀ lines, Reader.finish none number
        (s.writeLines.map (fun line => .ok (dropReturns line)) ++ lines) =
      Reader.finish (some (.ok {})) number
        (s.writeLines.map (fun line => .ok (dropReturns line)) ++ lines) := by
    intro lines
    obtain ⟨line, more, hlines⟩ := List.exists_cons_of_ne_nil hcontent
    have hblank := isBlankLine_of_mem_writeLines line (hlines ▸ List.mem_cons_self)
    rw [hlines, List.map_cons, List.cons_append]
    exact Reader.finish_start hblank number _
  rw [hstart, finish_lines h htake, Reader.finish_blank]

end Block

section Writable
variable {s : Sentence} (h : s.Legible) (hwritable : s.IsWritable)

include h hwritable

theorem writeLines_ne_nil (hcontent : s.metadata.write ≠ [] ∨ s.stored ≠ []) :
    s.writeLines ≠ [] := by
  rcases hcontent with hmetadata | hstored
  · simp [writeLines, hmetadata]
  · obtain ⟨token, htoken⟩ := List.exists_mem_of_ne_nil _ hstored
    have hwritten := mem_tokens_of_mem_stored (isAnchored_of_writable h hwritable) htoken
    simp [writeLines, List.ne_nil_of_mem hwritten]

/-- The block of a writable sentence is read as the sentence, with its dependencies sorted. -/
theorem finish_writeLines (hcontent : s.metadata.write ≠ [] ∨ s.stored ≠ []) (number : Nat)
    (rest : List Line) :
    Reader.finish none number (s.writeLines.map .ok ++ .ok [] :: rest) =
      some (.ok s.sorted, { rest, number := number + s.writeLines.length + 1 }) := by
  have hwhole : ∀ line ∈ s.writeLines, dropReturns line = line := fun line hline =>
    dropReturns_eq_self_iff.2 fun hlast =>
      not_mem_writeLines (.inr rfl) hwritable.noReturn line hline (List.mem_of_getLast? hlast)
  have htake : ∀ token ∈ s.tokens, Token.read (dropReturns token.write) = .ok token.sorted := by
    intro token htoken
    have hstored := mem_stored_of_mem_tokens htoken
    rw [hwhole _ (List.mem_append_right _ (List.mem_map_of_mem htoken))]
    exact Token.read_write (h.token token hstored) (hwritable.noBlankFlag token hstored)
  have hpushed : (s.tokens.map Token.sorted).foldl push { metadata := s.metadata } = s.sorted := by
    rw [← tokens_sorted]
    exact foldl_push_tokens (isFresh_sorted h.fresh)
      (isAnchored_sorted (isAnchored_of_writable h hwritable))
  have hlines : s.writeLines.map (.ok : _ → Line) =
      s.writeLines.map fun line => .ok (dropReturns line) :=
    List.map_congr_left fun line hline => congrArg Except.ok (hwhole line hline).symm
  rw [hlines, finish_block h htake (writeLines_ne_nil h hwritable hcontent), hpushed]

end Writable

end Sentence

/-! ### Documents -/

theorem Reader.items_blocks {sentences : List Sentence}
    (h : ∀ s ∈ sentences, s.Legible ∧ (s.metadata.write ≠ [] ∨ s.stored ≠ []))
    (hwritable : ∀ s ∈ sentences, s.IsWritable) (number : Nat) :
    items { rest := (sentences.flatMap fun s => s.writeLines ++ [[]]).map .ok, number } =
      sentences.map fun s => .ok s.sorted := by
  induction sentences generalizing number with
  | nil =>
    rw [items]
    split
    · rfl
    · next hsome => cases hsome
  | cons s rest ih =>
    obtain ⟨hs, hrest⟩ := List.forall_mem_cons.1 h
    obtain ⟨hswritable, hrestwritable⟩ := List.forall_mem_cons.1 hwritable
    have hlines : ((s :: rest).flatMap fun s => s.writeLines ++ [[]]).map (.ok : _ → Line) =
        s.writeLines.map .ok ++ .ok [] :: (rest.flatMap fun s => s.writeLines ++ [[]]).map .ok := by
      simp
    have hnext : next? { rest := ((s :: rest).flatMap fun s => s.writeLines ++ [[]]).map .ok,
                         number } =
        some (.ok s.sorted, { rest := (rest.flatMap fun s => s.writeLines ++ [[]]).map .ok,
                              number := number + s.writeLines.length + 1 }) := by
      rw [next?, hlines]
      exact Sentence.finish_writeLines hs.1 hswritable hs.2 number _
    rw [items_cons hnext, ih hrest hrestwritable, List.map_cons]

/-- Sentences that were read and can be written are there again when their blocks are read, with the
dependencies of every token in the order of their heads, and are written as before. -/
theorem readText_write {sentences : List Sentence}
    (hread : ∀ s ∈ sentences, ∃ text, Sentence.read text = .ok s)
    (hwritable : ∀ s ∈ sentences, s.IsWritable) :
    readText (sentences.flatMap Sentence.write) = sentences.map (fun s => .ok s.sorted) ∧
      (sentences.map Sentence.sorted).flatMap Sentence.write =
        sentences.flatMap Sentence.write := by
  have hlegible : ∀ s ∈ sentences, s.Legible ∧ (s.metadata.write ≠ [] ∨ s.stored ≠ []) := by
    intro s hs
    obtain ⟨text, htext⟩ := hread s hs
    exact Sentence.legible_of_read htext
  have hlines : ∀ {c : Char}, c = '\n' ∨ c = '\r' → (∀ s ∈ sentences, ∀ text ∈ s.texts,
      c ∉ text.toList) → ∀ line ∈ sentences.flatMap (fun s => s.writeLines ++ [[]]), c ∉ line := by
    intro c hc htexts line hline
    obtain ⟨s, hs, hline⟩ := List.mem_flatMap.1 hline
    rcases List.mem_append.1 hline with hline | hline
    · exact Sentence.not_mem_writeLines hc (htexts s hs) line hline
    · rw [List.mem_singleton.1 hline]
      exact List.not_mem_nil
  have htext : sentences.flatMap Sentence.write =
      (sentences.flatMap fun s => s.writeLines ++ [[]]).flatMap (· ++ ['\n']) := by
    rw [List.flatMap_assoc]
    rfl
  refine ⟨?_, ?_⟩
  · rw [htext, readText, textLines_flatMap
      (hlines (.inl rfl) fun s hs => (hlegible s hs).1.newline)
      (hlines (.inr rfl) fun s hs => (hwritable s hs).noReturn)]
    exact Reader.items_blocks hlegible hwritable 0
  · rw [List.flatMap_map]
    exact List.flatMap_congr fun s _ => s.write_sorted

/-- A sentence with all kinds of tokens and with dependencies out of order, and one without tokens. -/
theorem readText_write_two :
    let first : Sentence :=
      { words :=
          [{ id := 1, form := "I", head := some 2, deprel := "nsubj", misc := ⟨[("No", .number 7)]⟩
             deps := [{ head := 2, deprel := "b:c" }, { head := 0, sub? := some 1, deprel := "a" }] },
           { id := 2, form := "am", feats := ⟨[("A", "=")]⟩, head := some 0, deprel := "root" }]
        multiwords := ⟨[(1, { form := "I'm", first := 1, last := 2, extra := [""] })], by simp⟩
        empties := ⟨[(0, [{ anchor := 0, sub := 1 }]),
          (2, [{ anchor := 2, sub := 1, misc := ⟨[("k", .text "01")]⟩ }])], by simp⟩
        metadata := { comments := ["", "x = 1"], newdoc := some "", text := some "= I'm" } }
    let second : Sentence := { metadata := { sentId := some "" } }
    readText ([first, second].flatMap Sentence.write) = [.ok first.sorted, .ok second.sorted] ∧
      ([first, second].map Sentence.sorted).flatMap Sentence.write =
        [first, second].flatMap Sentence.write := by
  intro first second
  have hfirst : Sentence.read
      ("#\n# x = 1\n#newdoc\n# text = = I'm\n" ++
        "0.1\t_\t_\t_\t_\t_\t_\t_\t_\t_\n" ++
        "1-2\tI'm\t_\t_\t_\t_\t_\t_\t_\t_\t\n" ++
        "1\tI\t_\t_\t_\t_\t2\tnsubj\t2:b:c|0.1:a\tNo=7\n" ++
        "02\tam\t_\t_\t_\tA==\t0\troot\t_\t_\n" ++
        "2.1\t_\t_\t_\t_\t_\t_\t_\t_\tk=01\n").toList = .ok first := by
    decide +kernel
  have hsecond : Sentence.read "# sent_id =\n".toList = .ok second := by decide +kernel
  refine @readText_write [first, second] ?_ ?_
  · exact List.forall_mem_cons.2 ⟨⟨_, hfirst⟩, List.forall_mem_singleton.2 ⟨_, hsecond⟩⟩
  · refine List.forall_mem_cons.2 ⟨?_, List.forall_mem_singleton.2 ?_⟩
    · exact ⟨by decide, by decide, by decide, by decide +kernel, by decide⟩
    · exact ⟨by decide, by decide, by decide, by decide, by decide⟩

end Treebank
