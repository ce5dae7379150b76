import Treebank.Proofs.References
import Treebank.Sentence.Surface

/-! What the running text of a sentence shows.

The walk over the words keeps a single number, the end of the range that it met last, and passes
over words up to that number. Where ranges are apart, these are the words that some range covers
(`Bound`), so the text has one piece for every word that stands for itself and one for every range,
and shows each word once (`surfaceText_eq_pieces`). Ids are looked up and compared and nothing else,
so the text is the same under new ids in the same order, whether ranges are apart or not
(`surfaceText_renumber`); they are in that order if there are numbers for all words. -/
namespace Treebank

/-! ### Pieces of running text -/

/-- The id is one of those from `first`, where the range starts, to the end of the range. -/
def Multiword.Covers (first : Nat) (range : Multiword) (id : Nat) : Prop :=
  first ≤ id ∧ id ≤ range.last

instance (first : Nat) (range : Multiword) (id : Nat) : Decidable (range.Covers first id) :=
  inferInstanceAs (Decidable (_ ∧ _))

/-- A word, or a range in place of the words that it covers. -/
inductive Piece where
  | single (word : Word)
  | joint (first : Nat) (range : Multiword)

namespace Piece

/-- The form with the white space after it. -/
def text : Piece → List Char
  | .single word => word.form.toList ++ word.spacesAfter
  | .joint _ range => range.form.toList ++ range.spacesAfter

/-- Whether the piece is the word with the id, or a range that covers it. -/
def shows (id : Nat) : Piece → Bool
  | .single word => word.id = id
  | .joint first range => range.Covers first id

end Piece

namespace Sentence

/-- Some range covers the id. -/
def IsCovered (s : Sentence) (id : Nat) : Prop :=
  ∃ entry ∈ s.multiwords.entries, entry.2.Covers entry.1 id

/-- Some range that starts at an earlier id covers this one. -/
def IsInside (s : Sentence) (id : Nat) : Prop :=
  ∃ entry ∈ s.multiwords.entries, entry.1 < id ∧ entry.2.Covers entry.1 id

instance (s : Sentence) (id : Nat) : Decidable (s.IsInside id) :=
  inferInstanceAs (Decidable (∃ entry ∈ s.multiwords.entries, _))

/-- What running text has at a word: the range that starts there, nothing inside a range that
started earlier, and the word itself otherwise. -/
def pieceAt? (s : Sentence) (word : Word) : Option Piece :=
  match s.multiwords.get? word.id with
  | some range => some (.joint word.id range)
  | none => if s.IsInside word.id then none else some (.single word)

def pieces (s : Sentence) : List Piece := s.words.filterMap s.pieceAt?

/-- Words are numbered upwards from a number other than 0. -/
structure IsAscending (s : Sentence) : Prop where
  positive : ∀ word ∈ s.words, 0 < word.id
  ascending : s.words.Pairwise fun a b => a.id < b.id

theorem IsAscending.nodup {s : Sentence} (h : s.IsAscending) : (s.words.map (·.id)).Nodup :=
  List.pairwise_map.2 (h.ascending.imp Nat.ne_of_lt)

/-- Ranges start at words, end no earlier than they start, and have no id in common. -/
structure RangesApart (s : Sentence) : Prop extends s.IsAscending where
  starts : ∀ entry ∈ s.multiwords.entries, entry.1 ∈ s.words.map (·.id)
  ordered : ∀ entry ∈ s.multiwords.entries, entry.1 ≤ entry.2.last
  apart : ∀ a ∈ s.multiwords.entries, ∀ b ∈ s.multiwords.entries, a ≠ b →
    a.2.last < b.1 ∨ b.2.last < a.1

/-! ### Ranges that are apart -/

theorem ne_start {s : Sentence} {id : Nat} (hget : s.multiwords.get? id = none)
    {entry : Nat × Multiword} (hentry : entry ∈ s.multiwords.entries) : entry.1 ≠ id := by
  rintro rfl
  rw [IdMap.mem_entries_iff.1 hentry] at hget
  cases hget

section Apart
variable {s : Sentence} (h : s.RangesApart)

include h

theorem RangesApart.start_pos {entry : Nat × Multiword} (hentry : entry ∈ s.multiwords.entries) :
    0 < entry.1 := by
  obtain ⟨word, hword, hid⟩ := List.mem_map.1 (h.starts entry hentry)
  exact hid ▸ h.positive word hword

theorem RangesApart.covers_start {entry : Nat × Multiword}
    (hentry : entry ∈ s.multiwords.entries) : entry.2.Covers entry.1 entry.1 :=
  ⟨Nat.le_refl _, h.ordered entry hentry⟩

theorem RangesApart.eq_of_covers {a b : Nat × Multiword} (ha : a ∈ s.multiwords.entries)
    (hb : b ∈ s.multiwords.entries) {id : Nat} (hida : a.2.Covers a.1 id)
    (hidb : b.2.Covers b.1 id) : a = b := by
  obtain ⟨hfirst, hlast⟩ := hida
  obtain ⟨hfirst', hlast'⟩ := hidb
  by_contra hne
  have := h.apart a ha b hb hne
  omega

theorem pieceAt?_eq_some_iff {word : Word} {piece : Piece} : s.pieceAt? word = some piece ↔
    (∃ range, (word.id, range) ∈ s.multiwords.entries ∧ piece = .joint word.id range) ∨
      ¬ s.IsCovered word.id ∧ piece = .single word := by
  unfold pieceAt?
  cases hget : s.multiwords.get? word.id with
  | some range =>
    have hentry := IdMap.mem_entries_iff.2 hget
    have hcovered : s.IsCovered word.id := ⟨_, hentry, h.covers_start hentry⟩
    simp only [IdMap.mem_entries_iff, hget, hcovered, Option.some.injEq, exists_eq_left', not_true,
      false_and, or_false]
    exact eq_comm
  | none =>
    -- a range that covers the word started earlier, for none starts here
    have hinside : s.IsInside word.id ↔ s.IsCovered word.id := by
      refine exists_congr fun entry => and_congr_right fun hentry => and_iff_right_of_imp ?_
      exact fun hcovers => Nat.lt_of_le_of_ne hcovers.1 (ne_start hget hentry)
    simp only [IdMap.mem_entries_iff, hget, reduceCtorEq, false_and, exists_false, false_or]
    by_cases hcovered : s.IsCovered word.id
    · simp [hinside.2 hcovered, hcovered]
    · simp [mt hinside.1 hcovered, hcovered, eq_comm]

theorem single_mem_pieces_iff {word : Word} (hword : word ∈ s.words) :
    .single word ∈ s.pieces ↔ ¬ s.IsCovered word.id := by
  simp only [pieces, List.mem_filterMap, pieceAt?_eq_some_iff h, reduceCtorEq, and_false,
    exists_false, false_or, Piece.single.injEq]
  constructor
  · rintro ⟨other, -, hfree, rfl⟩
    exact hfree
  · exact fun hfree => ⟨word, hword, hfree, rfl⟩

theorem any_shows_iff {word : Word} {id : Nat} : (s.pieceAt? word).any (·.shows id) ↔
    (∃ range, (word.id, range) ∈ s.multiwords.entries ∧ range.Covers word.id id) ∨
      ¬ s.IsCovered word.id ∧ word.id = id := by
  simp only [Option.any_eq_true, pieceAt?_eq_some_iff h, or_and_right, exists_or, and_assoc]
  simp [Piece.shows]

/-- What shows a word stands at one id only: where the range that covers the word starts, or else
at the word. -/
theorem exists_place {word : Word} (hword : word ∈ s.words) :
    ∃ place ∈ s.words.map (·.id), ∀ other ∈ s.words,
      ((s.pieceAt? other).any (·.shows word.id) ↔ other.id = place) := by
  simp only [any_shows_iff h]
  by_cases hcovered : s.IsCovered word.id
  · obtain ⟨entry, hentry, hcovers⟩ := hcovered
    refine ⟨entry.1, h.starts entry hentry, fun other _ => ⟨?_, fun hid => ?_⟩⟩
    · rintro (⟨range, hrange, hshows⟩ | ⟨hfree, hid⟩)
      · rw [← h.eq_of_covers hrange hentry hshows hcovers]
      · exact absurd ⟨entry, hentry, hid ▸ hcovers⟩ hfree
    · exact .inl ⟨entry.2, hid ▸ hentry, hid ▸ hcovers⟩
  · refine ⟨word.id, List.mem_map_of_mem (f := (·.id)) hword, fun other _ => ⟨?_, fun hid => ?_⟩⟩
    · rintro (⟨range, hrange, hshows⟩ | ⟨-, hid⟩)
      · exact absurd ⟨_, hrange, hshows⟩ hcovered
      · exact hid
    · exact .inr ⟨hid ▸ hcovered, hid⟩

theorem countP_shows {word : Word} (hword : word ∈ s.words) :
    s.pieces.countP (·.shows word.id) = 1 := by
  obtain ⟨place, hplace, hshows⟩ := exists_place h hword
  have hcongr : s.pieces.countP (·.shows word.id) = s.words.countP (·.id = place) := by
    rw [pieces, List.countP_filterMap]
    refine List.countP_congr fun other hother => ?_
    rw [decide_eq_true_iff, ← hshows other hother]
    cases s.pieceAt? other <;> simp
  rw [hcongr, countP_of_nodup h.nodup, if_pos hplace]

end Apart

/-! ### The walk -/

/-- After the id `reached`, those up to `covered` are covered by ranges that started by then. -/
def Bound (s : Sentence) (reached covered : Nat) : Prop :=
  ∀ id, reached < id →
    (id ≤ covered ↔ ∃ entry ∈ s.multiwords.entries, entry.1 ≤ reached ∧ id ≤ entry.2.last)

section Step
variable {s : Sentence} {reached covered id : Nat} (hbound : s.Bound reached covered)
  (hlt : reached < id)
  (hstarts : ∀ entry ∈ s.multiwords.entries, entry.1 ≤ id → entry.1 ≤ reached)

include hbound hlt hstarts

/-- Where no range starts the bound tells whether one covers the word. -/
theorem Bound.isInside_iff : s.IsInside id ↔ id ≤ covered := by
  rw [hbound id hlt]
  refine exists_congr fun entry => and_congr_right fun hentry => ?_
  have := hstarts entry hentry
  unfold Multiword.Covers
  omega

/-- Where no range starts the bound stays right. -/
theorem Bound.of_no_range : s.Bound id covered := by
  intro later hlater
  rw [hbound later (Nat.lt_trans hlt hlater)]
  refine exists_congr fun entry => and_congr_right fun hentry => and_congr_left fun _ => ?_
  exact ⟨fun hstart => Nat.le_of_lt (Nat.lt_of_le_of_lt hstart hlt), hstarts entry hentry⟩

end Step

section Walk
variable {s : Sentence} (h : s.RangesApart)

include h

theorem bound_zero : s.Bound 0 0 := by
  intro id hid
  refine iff_of_false (Nat.not_le_of_lt hid) ?_
  rintro ⟨entry, hentry, hstart, -⟩
  exact absurd (h.start_pos hentry) (Nat.not_lt_of_le hstart)

/-- Where a range starts all earlier ones have ended. -/
theorem bound_of_range {id : Nat} {range : Multiword}
    (hrange : (id, range) ∈ s.multiwords.entries) : s.Bound id range.last := by
  intro later hlater
  constructor
  · exact fun hle => ⟨_, hrange, Nat.le_refl _, hle⟩
  · rintro ⟨entry, hentry, hstart, hend⟩
    have hcovers : entry.2.Covers entry.1 id :=
      ⟨hstart, Nat.le_trans (Nat.le_of_lt hlater) hend⟩
    rwa [h.eq_of_covers hentry hrange hcovers (h.covers_start hrange)] at hend

/-- The text of the words after `reached` is that of their pieces, if the walk comes to them with
the right bound. -/
theorem surfaceFrom_eq {words : List Word} {reached covered : Nat}
    (hascending : words.Pairwise fun a b => a.id < b.id)
    (hafter : ∀ word ∈ words, reached < word.id)
    (hstarts : ∀ entry ∈ s.multiwords.entries, reached < entry.1 → entry.1 ∈ words.map (·.id))
    (hbound : s.Bound reached covered) :
    s.surfaceFrom covered words = (words.filterMap s.pieceAt?).flatMap (·.text) := by
  induction words generalizing reached covered with
  | nil => rfl
  | cons word rest ih =>
    obtain ⟨hrest, hascending⟩ := List.pairwise_cons.1 hascending
    have hlt := hafter word List.mem_cons_self
    -- between `reached` and this word there is no word, and so no range starts
    have hnext : ∀ entry ∈ s.multiwords.entries, reached < entry.1 →
        entry.1 = word.id ∨ word.id < entry.1 ∧ entry.1 ∈ rest.map (·.id) := by
      intro entry hentry hstart
      refine (List.mem_cons.1 (hstarts entry hentry hstart)).imp_right fun hmem => ⟨?_, hmem⟩
      obtain ⟨other, hother, hid⟩ := List.mem_map.1 hmem
      exact hid ▸ hrest other hother
    have hlater : ∀ entry ∈ s.multiwords.entries, word.id < entry.1 →
        entry.1 ∈ rest.map (·.id) := by
      intro entry hentry hstart
      rcases hnext entry hentry (Nat.lt_trans hlt hstart) with heq | ⟨-, hmem⟩
      · exact absurd heq (Nat.ne_of_gt hstart)
      · exact hmem
    rw [surfaceFrom, List.filterMap_cons, pieceAt?]
    cases hget : s.multiwords.get? word.id with
    | some range =>
      have hrange := bound_of_range h (IdMap.mem_entries_iff.2 hget)
      simp only [ih hascending hrest hlater hrange, List.flatMap_cons, Piece.text]
    | none =>
      have hreached : ∀ entry ∈ s.multiwords.entries, entry.1 ≤ word.id → entry.1 ≤ reached := by
        intro entry hentry hstart
        have hne := ne_start hget hentry
        by_contra hnew
        have := hnext entry hentry (Nat.lt_of_not_le hnew)
        omega
      have hnone := hbound.of_no_range hlt hreached
      simp only [hbound.isInside_iff hlt hreached, ih hascending hrest hlater hnone]
      by_cases hpassed : covered < word.id
      · simp only [if_pos hpassed, if_neg (Nat.not_le_of_lt hpassed), List.flatMap_cons, Piece.text]
      · simp only [if_neg hpassed, if_pos (Nat.not_lt.1 hpassed)]

end Walk

/-- **Running text where ranges are apart** is the text of its pieces, without the blanks at its
end. Every word is shown by exactly one of them, and by itself just when no range covers it. -/
theorem surfaceText_eq_pieces {s : Sentence} (h : s.RangesApart) :
    s.surfaceText = String.ofList (Text.trimEnd (s.pieces.flatMap (·.text))) ∧
      ∀ word ∈ s.words, s.pieces.countP (·.shows word.id) = 1 ∧
        (.single word ∈ s.pieces ↔ ¬ s.IsCovered word.id) := by
  constructor
  · rw [surfaceText, surfaceFrom_eq h h.ascending h.positive
      (fun entry hentry _ => h.starts entry hentry) (bound_zero h)]
    rfl
  · exact fun word hword => ⟨countP_shows h hword, single_mem_pieces_iff h hword⟩

/-- Adjacent ranges, a range of one word, and a last range that ends after the last word. -/
theorem surfaceText_of_six :
    let s := ofTokens
      [{ id := .range 2 3, form := "zum" }, { id := .word 2, form := "zu" },
       { id := .word 3, form := "dem" }, { id := .range 4 4, form := "Haus" },
       { id := .word 4, form := "Heim", misc := ⟨[("SpaceAfter", .text "No")]⟩ },
       { id := .word 5, form := "und", misc := ⟨[("SpacesAfter", .text "\\s\\n")]⟩ },
       { id := .range 7 12, form := "ins" }, { id := .word 7, form := "in" },
       { id := .word 9, form := "das" }]
    s.RangesApart ∧
      s.surfaceText = String.ofList (Text.trimEnd (s.pieces.flatMap (·.text))) ∧
      (∀ word ∈ s.words, s.pieces.countP (·.shows word.id) = 1) ∧
      s.surfaceText = "zum Haus und \nins" := by
  intro s
  have hapart : s.RangesApart := by
    refine ⟨⟨?_, ?_⟩, ?_, ?_, ?_⟩ <;> decide +kernel
  obtain ⟨htext, hshows⟩ := surfaceText_eq_pieces hapart
  exact ⟨hapart, htext, fun word hword => (hshows word hword).1, by decide +kernel⟩

/-! ### New ids -/

/-- Words are numbered upwards and every range starts at one and ends at one. -/
structure RangesAtWords (s : Sentence) : Prop extends s.IsAscending where
  starts : ∀ entry ∈ s.multiwords.entries, entry.1 ∈ s.words.map (·.id)
  ends : ∀ entry ∈ s.multiwords.entries, entry.2.last ∈ s.words.map (·.id)

section Order
variable {s : Sentence} (h : s.IsAscending) {first id other : Nat}

include h

theorem IsAscending.names (hid : id ∈ s.words.map (·.id)) : s.Names id := by
  obtain ⟨word, hword, rfl⟩ := List.mem_map.1 hid
  exact ⟨Nat.ne_of_gt (h.positive word hword), word, hword, rfl⟩

theorem IsAscending.id_lt {node later : Nat} (hlt : node < later)
    (hlater : later < s.words.length) : (s.wordAt node).id < (s.wordAt later).id := by
  have hnode : node < s.words.length := Nat.lt_trans hlt hlater
  rw [wordAt_eq (List.getElem?_eq_getElem hnode), wordAt_eq (List.getElem?_eq_getElem hlater)]
  exact List.pairwise_iff_getElem.1 h.ascending node later hnode hlater hlt

variable (hfits : s.FitsFrom first)

include hfits

/-- New ids are in the order of the old ones. -/
theorem newId_lt_newId (hid : id ∈ s.words.map (·.id)) (hother : other ∈ s.words.map (·.id))
    (hlt : id < other) : s.newId first id < s.newId first other := by
  obtain ⟨node, hnode, hnew⟩ := exists_newId first (h.names hid)
  obtain ⟨later, hlater, hnewLater⟩ := exists_newId first (h.names hother)
  have hbefore : node < later := by
    by_contra hafter
    rcases Nat.eq_or_lt_of_le (Nat.le_of_not_lt hafter) with rfl | hgt
    · rw [← hnode.hasId, ← hlater.hasId] at hlt
      exact Nat.lt_irrefl _ hlt
    · have hids := h.id_lt hgt hnode.lt
      rw [hnode.hasId, hlater.hasId] at hids
      exact Nat.lt_asymm hlt hids
  rw [hnew, hnewLater, wrappedSum_eq (hfits node hnode.lt), wrappedSum_eq (hfits later hlater.lt)]
  exact Nat.add_lt_add_left hbefore first

theorem newId_lt_iff (hfirst : 1 ≤ first) (href : s.Resolves id)
    (hother : other ∈ s.words.map (·.id)) :
    s.newId first id < s.newId first other ↔ id < other := by
  rcases href with rfl | hid
  · have hpos := Nat.pos_of_ne_zero (h.names hother).1
    exact iff_of_true (newId_pos hfirst hfits hpos) hpos
  · refine ⟨fun hnew => ?_, newId_lt_newId h hfits hid hother⟩
    by_contra hge
    rcases Nat.eq_or_lt_of_le (Nat.le_of_not_lt hge) with rfl | hgt
    · exact Nat.lt_irrefl _ hnew
    · exact Nat.lt_asymm hnew (newId_lt_newId h hfits hother hid hgt)

end Order

section Renumber
variable {s : Sentence} (h : s.RangesAtWords) {first : Nat} (hfits : s.FitsFrom first)

include h hfits

/-- At the new id of a word starts the range that started at the word, with its ends renumbered. -/
theorem get?_multiwords_renumber {id : Nat} (hid : id ∈ s.words.map (·.id)) :
    (s.renumber first).multiwords.get? (s.newId first id) =
      (s.multiwords.get? id).map (·.renumber (s.newId first)) := by
  have hstart : ∀ entry ∈ s.multiwords.entries, s.Names entry.1 :=
    fun entry hentry => h.names (h.starts entry hentry)
  rw [multiwords_renumber]
  have hcount := hfits.length_le
  refine IdMap.get?_file ?_ fun entry hentry => newId_inj hcount (hstart entry hentry) (h.names hid)
  rw [IdMap.nodup_newIds_iff]
  exact fun a ha b hb => newId_inj hcount (hstart a ha) (hstart b hb)

/-- The two walks go along: the bound of the one is the new id of the bound of the other. -/
theorem surfaceFrom_renumber (hfirst : 1 ≤ first) {words : List Word}
    (hwords : ∀ word ∈ words, word.id ∈ s.words.map (·.id)) {covered : Nat}
    (hcovered : s.Resolves covered) :
    (s.renumber first).surfaceFrom (s.newId first covered)
      (words.map (·.renumber (s.newId first))) = s.surfaceFrom covered words := by
  induction words generalizing covered with
  | nil => rfl
  | cons word rest ih =>
    obtain ⟨hword, hrest⟩ := List.forall_mem_cons.1 hwords
    have hget := get?_multiwords_renumber h hfits hword
    have hid : (word.renumber (s.newId first)).id = s.newId first word.id := rfl
    rw [List.map_cons, surfaceFrom, surfaceFrom, hid, hget]
    cases hrange : s.multiwords.get? word.id with
    | some range =>
      have hend := h.ends _ (IdMap.mem_entries_iff.2 hrange)
      show _ ++ (s.renumber first).surfaceFrom (s.newId first range.last) _ = _
      rw [ih hrest (.inr hend)]
      rfl
    | none =>
      simp only [Option.map_none, newId_lt_iff h.toIsAscending hfits hfirst hcovered hword,
        ih hrest hcovered]
      rfl

end Renumber

/-- **Renumbering does not change the running text** of a sentence whose words are in order and
whose ranges start and end at words. That is so for every first number that leaves one for each
word, whatever happens with sums that are none; if it does not, the program ends where such sums
end it. -/
theorem surfaceText_renumber {s : Sentence} (h : s.RangesAtWords) {first : Nat}
    (hfirst : 1 ≤ first) :
    (s.FitsFrom first → ∀ overflow, ∃ t, s.renumber? first overflow = some t ∧
      t.surfaceText = s.surfaceText) ∧
    (¬ s.FitsFrom first → s.renumber? first .stops = none) := by
  refine ⟨fun hfits overflow => ?_, renumber?_of_not_fits⟩
  refine ⟨s.renumber first, renumber?_of_fits hfits overflow, ?_⟩
  have hids : ∀ word ∈ s.words, word.id ∈ s.words.map (·.id) :=
    fun _ hword => List.mem_map_of_mem (f := (·.id)) hword
  have hwalk := surfaceFrom_renumber h hfits hfirst hids (.inl rfl)
  rw [surfaceText, surfaceText, ← hwalk]
  rfl

/-- Gaps between the ids, ranges that overlap and a range within another. -/
theorem surfaceText_renumber_of_six :
    let s := ofTokens
      [{ id := .range 3 7, form := "a" }, { id := .word 3, form := "b" },
       { id := .range 5 9, form := "c" }, { id := .word 5, form := "d" },
       { id := .range 7 7, form := "e" }, { id := .word 7, form := "f" },
       { id := .word 9, form := "g", misc := ⟨[("SpaceAfter", .text "No")]⟩ },
       { id := .word 20, form := "h" }, { id := .word 21, form := "i" }]
    s.RangesAtWords ∧ s.FitsFrom 4 ∧ ∃ t, s.renumber? 4 .stops = some t ∧
      t.words.map (·.id) = [4, 5, 6, 7, 8, 9] ∧ t.surfaceText = s.surfaceText ∧
      s.surfaceText = "a c e gh i" := by
  intro s
  have hranges : s.RangesAtWords := by
    refine ⟨⟨?_, ?_⟩, ?_, ?_⟩ <;> decide +kernel
  have hfits : s.FitsFrom 4 := by decide +kernel
  obtain ⟨hkept, -⟩ := surfaceText_renumber hranges (show 1 ≤ 4 by decide)
  obtain ⟨t, ht, htext⟩ := hkept hfits .stops
  obtain rfl := eq_of_renumber? ht
  exact ⟨hranges, hfits, _, ht, by decide +kernel, htext, by decide +kernel⟩

end Sentence
end Treebank
