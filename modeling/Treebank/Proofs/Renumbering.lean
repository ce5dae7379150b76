import Mathlib.Data.List.GetD
import Mathlib.Data.List.Nodup
import Treebank.Proofs.CurrentLinks
import Treebank.Proofs.Forest
import Treebank.Sentence.Renumber

/-! Renumbering a linked sentence.

Where words have different ids and none of the new ones is too great for a number
(`Sentence.FitsFrom`), renumbering gives the word at a node the id that is as far from the
first as the node from 0 (`id_renumber`), and every head goes with its word, so that the node
above a node stays what it is (`headNode?_renumber`). But a build takes a head that is greater
than the number of words for out of range, and only the ids from 1 on are safe from that:
`build_renumber` says when the renumbered sentence is linked as it was before, and how a build
ends when it is not. -/
namespace Treebank

/-! ### The last place -/

section LastIdx
variable {α : Type} {p : α → Bool} {xs : List α}

theorem lastIdx?_eq_some {i : Nat} (h : lastIdx? p xs = some i) :
    ∃ x, xs[i]? = some x ∧ p x = true := by
  induction xs generalizing i with
  | nil => cases h
  | cons x rest ih =>
    unfold lastIdx? at h
    split at h
    · next j hrest =>
      cases h
      exact ih hrest
    · split at h
      · next hx =>
        cases h
        exact ⟨x, rfl, hx⟩
      · cases h

theorem not_mem_of_lastIdx?_eq_none (h : lastIdx? p xs = none) : ∀ x ∈ xs, p x = false := by
  induction xs with
  | nil => simp
  | cons x rest ih =>
    unfold lastIdx? at h
    split at h
    · cases h
    · next hrest =>
      split at h
      · cases h
      · next hx => exact List.forall_mem_cons.2 ⟨Bool.eq_false_iff.2 hx, ih hrest⟩

theorem not_of_lastIdx?_lt {i j : Nat} {x : α} (h : lastIdx? p xs = some i) (hlt : i < j)
    (hx : xs[j]? = some x) : p x = false := by
  induction xs generalizing i j with
  | nil => cases h
  | cons first rest ih =>
    obtain ⟨j, rfl⟩ := Nat.exists_eq_add_of_lt hlt
    unfold lastIdx? at h
    split at h
    · next k hrest =>
      cases h
      exact ih hrest (by omega) hx
    · next hnone => exact not_mem_of_lastIdx?_eq_none hnone x (List.mem_of_getElem? hx)

end LastIdx

namespace Sentence

/-! ### New ids -/

/-- All ids from `first` on that the words get are numbers. -/
def FitsFrom (s : Sentence) (first : Nat) : Prop :=
  ∀ node < s.words.length, first + node < Text.numberBound

theorem fitsFrom_iff {s : Sentence} {first : Nat} :
    s.FitsFrom first ↔ s.words = [] ∨ first + s.words.length ≤ Text.numberBound := by
  rw [← List.length_eq_zero_iff]
  constructor
  · intro h
    have := h (s.words.length - 1)
    omega
  · intro h node hnode
    omega

theorem FitsFrom.length_le {s : Sentence} {first : Nat} (h : s.FitsFrom first) :
    s.words.length ≤ Text.numberBound := by
  rcases fitsFrom_iff.1 h with hnil | hle
  · rw [hnil]
    exact Nat.zero_le _
  · omega

instance (s : Sentence) (first : Nat) : Decidable (s.FitsFrom first) :=
  decidable_of_iff _ fitsFrom_iff.symm

/-- The words are renumbered, unless sums that are no numbers end the program and there is one. -/
theorem renumber?_eq (s : Sentence) (first : Nat) (overflow : Overflow) :
    s.renumber? first overflow =
      if overflow = .wraps ∨ s.FitsFrom first then some (s.renumber first) else none := by
  split
  · next h =>
    have hsums : (List.range s.words.length).mapM (overflow.sum? first) =
        some ((List.range s.words.length).map (wrappedSum first)) := by
      refine mapM_eq_some_map fun node hnode => ?_
      have hallows : overflow.Allows first node :=
        h.imp_right fun hfits => hfits node (List.mem_range.1 hnode)
      rw [Overflow.sum?_eq, if_pos hallows]
    rw [renumber?, hsums]
    rfl
  · next h =>
    rw [not_or] at h
    cases hsums : (List.range s.words.length).mapM (overflow.sum? first) with
    | none =>
      rw [renumber?, hsums]
      rfl
    | some sums =>
      refine absurd (fun node hnode => ?_) h.2
      obtain ⟨sum, hsum⟩ := exists_mapM_eq_some_iff.1 ⟨sums, hsums⟩ node (List.mem_range.2 hnode)
      rw [Overflow.sum?_eq] at hsum
      split at hsum
      · next hallows => exact hallows.resolve_left h.1
      · cases hsum

theorem renumber?_of_fits {s : Sentence} {first : Nat} (h : s.FitsFrom first)
    (overflow : Overflow) : s.renumber? first overflow = some (s.renumber first) := by
  rw [renumber?_eq, if_pos (.inr h)]

theorem renumber?_of_not_fits {s : Sentence} {first : Nat} (h : ¬ s.FitsFrom first) :
    s.renumber? first .stops = none := by
  rw [renumber?_eq, if_neg]
  exact not_or.2 ⟨nofun, h⟩

/-- Renumbering has one outcome if it has any. -/
theorem eq_of_renumber? {s t : Sentence} {first : Nat} {overflow : Overflow}
    (h : s.renumber? first overflow = some t) : t = s.renumber first := by
  rw [renumber?_eq] at h
  split at h
  · exact (Option.some.inj h).symm
  · cases h

@[simp] theorem newId_zero (s : Sentence) (first : Nat) : s.newId first 0 = 0 := rfl

/-- An id other than 0 stays other than 0. -/
theorem newId_pos {s : Sentence} {first id : Nat} (hfirst : 1 ≤ first) (hfits : s.FitsFrom first)
    (hid : 0 < id) : 0 < s.newId first id := by
  unfold newId
  rw [if_neg (Nat.ne_of_gt hid)]
  split
  · next node hnode =>
    obtain ⟨word, hword, -⟩ := lastIdx?_eq_some hnode
    rw [wrappedSum_eq (hfits node (lt_of_getElem?_words hword))]
    omega
  · exact hid

theorem pos_of_newId_ne_zero {s : Sentence} {first id : Nat} (h : s.newId first id ≠ 0) :
    0 < id := by
  apply Nat.pos_of_ne_zero
  rintro rfl
  exact h rfl

@[simp] theorem length_words_renumber (s : Sentence) (first : Nat) :
    (s.renumber first).words.length = s.words.length :=
  List.length_map _

theorem fitsFrom_renumber {s : Sentence} {first again : Nat} :
    (s.renumber first).FitsFrom again ↔ s.FitsFrom again := by
  rw [FitsFrom, length_words_renumber, FitsFrom]

theorem wordAt_renumber {s : Sentence} {node : Nat} (h : node < s.words.length) (first : Nat) :
    (s.renumber first).wordAt node = (s.wordAt node).renumber (s.newId first) := by
  apply wordAt_eq
  show (s.words.map _)[node]? = _
  rw [List.getElem?_map, getElem?_words h]
  rfl

theorem head_renumber {s : Sentence} {node : Nat} (h : node < s.words.length) (first : Nat) :
    ((s.renumber first).wordAt node).head = (s.wordAt node).head.map (s.newId first) := by
  rw [wordAt_renumber h]
  rfl

section Distinct
variable {s : Sentence} (hdistinct : (s.words.map (·.id)).Nodup) {first : Nat}

include hdistinct

/-- A word is found by its id. -/
theorem nodeOf?_id {node : Nat} (h : node < s.words.length) :
    s.nodeOf? (s.wordAt node).id = some node := by
  cases hfound : s.nodeOf? (s.wordAt node).id with
  | none => exact absurd rfl (nodeOf?_eq_none_iff.1 hfound _ (wordAt_mem h))
  | some other =>
    obtain ⟨hother, hid⟩ := nodeOf?_eq_some hfound
    have hids : ∀ {i}, i < s.words.length → (s.words.map (·.id))[i]? = some (s.wordAt i).id := by
      intro i hi
      rw [List.getElem?_map, getElem?_words hi]
      rfl
    congr 1
    apply (List.getElem?_inj (by simpa using hother) hdistinct).1
    rw [hids hother, hids h, hid]

/-- The id of the word at a node becomes the sum of the first id and the node. -/
theorem newId_id {node : Nat} (h : node < s.words.length) (hpos : 0 < (s.wordAt node).id) :
    s.newId first (s.wordAt node).id = wrappedSum first node := by
  unfold newId
  rw [if_neg (Nat.ne_of_gt hpos)]
  split
  · next last hlast =>
    obtain ⟨word, hword, hid⟩ := lastIdx?_eq_some hlast
    have hlt := lt_of_getElem?_words hword
    have hsame : (s.wordAt last).id = (s.wordAt node).id := by
      rw [wordAt_eq hword]
      exact of_decide_eq_true hid
    have hnode := nodeOf?_id hdistinct hlt
    rw [hsame, nodeOf?_id hdistinct h] at hnode
    rw [Option.some.inj hnode]
  · next hnone =>
    have hself := not_mem_of_lastIdx?_eq_none hnone _ (wordAt_mem h)
    exact absurd rfl (of_decide_eq_false hself)

/-- What refers to a word goes with it. -/
theorem newId_of_nodeOf? {id up : Nat} (hup : s.nodeOf? id = some up) (hpos : 0 < id) :
    s.newId first id = wrappedSum first up := by
  obtain ⟨hlt, rfl⟩ := nodeOf?_eq_some hup
  exact newId_id hdistinct hlt hpos

variable (hfits : s.FitsFrom first)

include hfits

/-- A head that does not dangle goes with its word. -/
theorem exists_newId_head {node head : Nat} (h : node < s.words.length)
    (hfree : ¬ s.Dangles (s.wordAt node) head) (hhead : (s.wordAt node).head = some head)
    (hpos : 0 < head) :
    ∃ up < s.words.length, s.headNode? node = some up ∧ s.newId first head = first + up := by
  cases hup : s.nodeOf? head with
  | none => exact absurd ⟨hhead, hpos, .inr (nodeOf?_eq_none_iff.1 hup)⟩ hfree
  | some up =>
    have hlt := (nodeOf?_eq_some hup).1
    refine ⟨up, hlt, headNode?_eq_some_iff.2 ⟨h, head, hhead, Nat.ne_of_gt hpos, hup⟩, ?_⟩
    rw [newId_of_nodeOf? hdistinct hup hpos, wrappedSum_eq (hfits up hlt)]

variable (hpositive : ∀ word ∈ s.words, 0 < word.id)

include hpositive

theorem id_renumber {node : Nat} (h : node < s.words.length) :
    ((s.renumber first).wordAt node).id = first + node := by
  rw [wordAt_renumber h, ← wrappedSum_eq (hfits node h)]
  exact newId_id hdistinct h (hpositive _ (wordAt_mem h))

theorem nodeOf?_renumber {node : Nat} (h : node < s.words.length) :
    (s.renumber first).nodeOf? (first + node) = some node := by
  have hlength := s.length_words_renumber first
  cases hfound : (s.renumber first).nodeOf? (first + node) with
  | none =>
    have hword : (s.renumber first).wordAt node ∈ (s.renumber first).words :=
      wordAt_mem (by omega)
    exact absurd (id_renumber hdistinct hfits hpositive h) (nodeOf?_eq_none_iff.1 hfound _ hword)
  | some other =>
    obtain ⟨hother, hid⟩ := nodeOf?_eq_some hfound
    rw [id_renumber hdistinct hfits hpositive (by omega)] at hid
    congr 1
    omega

/-! ### Heads -/

variable (hfirst : 1 ≤ first)
  (hfree : ∀ node < s.words.length, ∀ head, ¬ s.Dangles (s.wordAt node) head)

include hfirst hfree

/-- The node above a node is what it was. -/
theorem headNode?_renumber : (s.renumber first).headNode? = s.headNode? := by
  have hlength := s.length_words_renumber first
  funext node
  apply Option.ext
  intro up
  constructor
  · intro hnew
    obtain ⟨hlt, id, hid, hne, hup⟩ := headNode?_eq_some_iff.1 hnew
    rw [hlength] at hlt
    rw [head_renumber hlt] at hid
    obtain ⟨head, hhead, rfl⟩ := Option.map_eq_some_iff.1 hid
    have hpos := pos_of_newId_ne_zero hne
    obtain ⟨old, hold, hnode, hsum⟩ :=
      exists_newId_head hdistinct hfits hlt (hfree node hlt head) hhead hpos
    rw [hsum, nodeOf?_renumber hdistinct hfits hpositive hold] at hup
    exact hnode.trans hup
  · intro hold
    obtain ⟨hlt, head, hhead, hne, hup⟩ := headNode?_eq_some_iff.1 hold
    have hsum : s.newId first head = first + up := by
      rw [newId_of_nodeOf? hdistinct hup (Nat.pos_of_ne_zero hne),
        wrappedSum_eq (hfits up (nodeOf?_eq_some hup).1)]
    refine headNode?_eq_some_iff.2 ⟨hlength ▸ hlt, first + up, ?_, by omega, ?_⟩
    · rw [head_renumber hlt, hhead, Option.map_some, hsum]
    · exact nodeOf?_renumber hdistinct hfits hpositive (nodeOf?_eq_some hup).1

omit hfirst in
/-- A new head dangles if it is greater than the number of words, and for no other reason. -/
theorem dangles_renumber (hfirst : 1 ≤ first) {node head : Nat} (h : node < s.words.length) :
    (s.renumber first).Dangles ((s.renumber first).wordAt node) head ↔
      ∃ up, s.headNode? node = some up ∧ head = first + up ∧ s.words.length < first + up := by
  unfold Dangles
  rw [head_renumber h, length_words_renumber, Option.map_eq_some_iff]
  constructor
  · intro hdangles
    obtain ⟨⟨old, hold, rfl⟩, hne, hout⟩ := hdangles
    have hpos := pos_of_newId_ne_zero (Nat.ne_of_gt hne)
    obtain ⟨up, hup, hnode, hsum⟩ :=
      exists_newId_head hdistinct hfits h (hfree node h old) hold hpos
    refine ⟨up, hnode, hsum, ?_⟩
    rw [hsum] at hout
    rcases hout with hlong | hnone
    · exact hlong
    · -- the word that the head goes with has this id
      have hword : (s.renumber first).wordAt up ∈ (s.renumber first).words :=
        wordAt_mem (by simpa using hup)
      exact absurd (id_renumber hdistinct hfits hpositive hup) (hnone _ hword)
  · intro hup
    obtain ⟨up, hnode, rfl, hlong⟩ := hup
    obtain ⟨-, old, hold, hne, hfound⟩ := headNode?_eq_some_iff.1 hnode
    refine ⟨⟨old, hold, ?_⟩, by omega, .inl hlong⟩
    rw [newId_of_nodeOf? hdistinct hfound (Nat.pos_of_ne_zero hne),
      wrappedSum_eq (hfits up (nodeOf?_eq_some hfound).1)]

end Distinct

/-- The words with head 0 are those that had it. -/
theorem tops_renumber {s : Sentence} {first : Nat} (hfirst : 1 ≤ first) (hfits : s.FitsFrom first) :
    (s.renumber first).tops s.words.length = s.tops s.words.length := by
  unfold tops
  apply List.filter_congr
  intro node hnode
  rw [head_renumber (List.mem_range.1 hnode)]
  cases hhead : (s.wordAt node).head with
  | none => rfl
  | some head =>
    rcases Nat.eq_zero_or_pos head with rfl | hpos
    · rfl
    · have hnew := newId_pos hfirst hfits hpos
      simp only [Option.map_some, Option.some.injEq]
      rw [decide_eq_false (by omega), decide_eq_false (by omega)]

/-! ### Building again -/

theorem build_linked_self {s linked : Sentence} (h : s.build = .ok linked) :
    linked.build = .ok linked :=
  isBuilt_of_build h

/-- In a sentence that can be built no head dangles, heads run in no circle, and there is a root. -/
theorem free_of_build {s linked : Sentence} (h : s.build = .ok linked) :
    (∀ node < s.words.length, ∀ head, ¬ s.Dangles (s.wordAt node) head) ∧
      (∀ node, ¬ OnCircle s.headNode? node) ∧ linked.outline.roots ≠ [] := by
  have hrun := build_eq_ok_iff.1 h
  rcases relink_cases s with ⟨_, _, _, _, _, herror⟩ | ⟨hfree, t, -, hraw, hcase⟩
  · rw [hrun] at herror
    cases herror
  · rw [hrun] at hcase
    split at hcase
    · cases hcase
    · next hfault =>
      cases hcase
      unfold fault? at hfault
      split at hfault
      · cases hfault
      · next hcycles =>
        refine ⟨hfree, ?_, ?_⟩
        · rw [cycles_of_unlinked hraw] at hcycles
          exact head?_cycles_eq_none.1 hcycles
        · intro hroots
          have hroots : t.outline.roots = [] := hroots
          rw [hroots] at hfault
          cases hfault

theorem tops_of_unlinked {s t : Sentence} (h : t.unlinked = s.unlinked) (count : Nat) :
    t.tops count = s.tops count := by
  simp only [tops, head_wordAt_of_unlinked h]

theorem exists_build {s : Sentence}
    (hfree : ∀ node < s.words.length, ∀ head, ¬ s.Dangles (s.wordAt node) head)
    (hcircle : ∀ node, ¬ OnCircle s.headNode? node) (htops : s.tops s.words.length ≠ []) :
    ∃ linked, s.build = .ok linked := by
  rcases relink_cases s with ⟨node, head, hnode, hdangles, -, -⟩ | ⟨-, t, hlinked, hraw, hrun⟩
  · exact absurd hdangles (hfree node hnode head)
  · refine ⟨_, build_of_roots hraw hrun hcircle ?_⟩
    rw [hlinked.roots, length_words_of_unlinked hraw, tops_of_unlinked hraw]
    exact htops

theorem build_of_dangling {s : Sentence} {node head : Nat} (hnode : node < s.words.length)
    (hdangles : s.Dangles (s.wordAt node) head)
    (hearlier : ∀ earlier < node, ∀ other, ¬ s.Dangles (s.wordAt earlier) other) :
    s.build = .error (.headOutOfRange (s.wordAt node).id head s.words.length) := by
  rcases relink_cases s with ⟨first, id, -, hfirst, hbefore, herror⟩ | ⟨hfree, -⟩
  · have hsame : first = node := by
      rcases Nat.lt_trichotomy first node with hlt | heq | hgt
      · exact absurd hfirst (hearlier first hlt id)
      · exact heq
      · exact absurd hdangles (hbefore node hgt head)
    subst hsame
    cases hfirst.1.symm.trans hdangles.1
    exact build_eq_error_iff.2 herror
  · exact absurd hdangles (hfree node hnode head)

/-- The two sentences are linked alike, node by node. -/
structure LinkedAlike (s t : Sentence) : Prop where
  head : ∀ node, (t.wordAt node).links.head = (s.wordAt node).links.head
  dependents : ∀ node, (t.wordAt node).links.dependents = (s.wordAt node).links.dependents
  roots : t.outline.roots = s.outline.roots
  root : t.outline.root? = s.outline.root?

theorem Linked.alike {s t : Sentence} (hs : s.Linked) (ht : t.Linked)
    (hlength : t.words.length = s.words.length) (hnodes : t.headNode? = s.headNode?)
    (htops : t.tops s.words.length = s.tops s.words.length) : LinkedAlike s t := by
  have hroots : t.outline.roots = s.outline.roots := by
    rw [ht.roots, hs.roots, hlength, htops]
  constructor
  case head =>
    intro node
    rw [ht.head, hs.head, hnodes]
  case dependents =>
    intro node
    rw [ht.dependents, hs.dependents, below, below, hlength, hnodes]
  case roots => exact hroots
  case root => rw [ht.root, hs.root, hroots]

section Again
variable {s linked : Sentence} (h : s.build = .ok linked) (hdistinct : (s.words.map (·.id)).Nodup)
  (hpositive : ∀ word ∈ s.words, 0 < word.id) {first : Nat} (hfirst : 1 ≤ first)
  (hfits : s.FitsFrom first)

include h hdistinct hpositive hfirst hfits

theorem build_renumber_of_le
    (hshort : ∀ node up, s.headNode? node = some up → first + up ≤ s.words.length) :
    ∃ again, (s.renumber first).build = .ok again ∧ LinkedAlike linked again := by
  obtain ⟨hfree, hcircle, hroots⟩ := free_of_build h
  obtain ⟨hlinked, hraw⟩ := build_linked h
  have hlength := length_words_of_unlinked hraw
  have hnodes := headNode?_renumber hdistinct hfits hpositive hfirst hfree
  have htops := tops_renumber hfirst hfits
  have hnone : ∀ node < (s.renumber first).words.length, ∀ head,
      ¬ (s.renumber first).Dangles ((s.renumber first).wordAt node) head := by
    intro node hnode head hout
    rw [length_words_renumber] at hnode
    obtain ⟨up, hup, -, hlong⟩ :=
      (dangles_renumber hdistinct hfits hpositive hfree hfirst hnode).1 hout
    have := hshort node up hup
    omega
  have hsome : (s.renumber first).tops (s.renumber first).words.length ≠ [] := by
    rw [hlinked.roots, tops_of_unlinked hraw, hlength, ← htops] at hroots
    rw [length_words_renumber]
    exact hroots
  obtain ⟨again, hagain⟩ := exists_build hnone (by rw [hnodes]; exact hcircle) hsome
  obtain ⟨hlinkedAgain, hrawAgain⟩ := build_linked hagain
  refine ⟨again, hagain, hlinked.alike hlinkedAgain ?_ ?_ ?_⟩
  · rw [length_words_of_unlinked hrawAgain, length_words_renumber, hlength]
  · funext node
    rw [headNode?_of_unlinked hrawAgain, hnodes, headNode?_of_unlinked hraw]
  · rw [hlength, tops_of_unlinked hrawAgain, htops, tops_of_unlinked hraw]

theorem build_renumber_of_lt {node up : Nat} (hup : s.headNode? node = some up)
    (hlong : s.words.length < first + up)
    (hearlier : ∀ earlier < node, ∀ other, s.headNode? earlier = some other →
      first + other ≤ s.words.length) :
    (s.renumber first).build =
      .error (.headOutOfRange (first + node) (first + up) s.words.length) := by
  obtain ⟨hfree, -, -⟩ := free_of_build h
  have hnode := (headNode?_lt hup).1
  have hdangles :=
    (dangles_renumber hdistinct hfits hpositive hfree hfirst hnode).2 ⟨up, hup, rfl, hlong⟩
  have hbefore : ∀ before < node, ∀ head,
      ¬ (s.renumber first).Dangles ((s.renumber first).wordAt before) head := by
    intro before hlt head hdangling
    obtain ⟨other, hother, -, hlongBefore⟩ :=
      (dangles_renumber hdistinct hfits hpositive hfree hfirst (by omega)).1 hdangling
    have := hearlier before hlt other hother
    omega
  rw [build_of_dangling (by simpa using hnode) hdangles hbefore, length_words_renumber,
    id_renumber hdistinct hfits hpositive hnode]

end Again

/-- **Renumbered from `first` on, a sentence is linked as before** if `first` is 1 or no head comes
to be greater than the number of words. Otherwise a build ends at the first word with such a head.
The new ids are to be numbers, and then it makes no difference what happens with sums that are none;
if some are not, the program ends where such sums end it. Nor does it make a difference whether the
sentence was linked before: `linked` is one that can be built itself. -/
theorem build_renumber {s linked : Sentence} (h : s.build = .ok linked)
    (hdistinct : (s.words.map (·.id)).Nodup) (hpositive : ∀ word ∈ s.words, 0 < word.id)
    {first : Nat} (hfirst : 1 ≤ first) :
    (s.FitsFrom first →
      (∀ overflow, s.renumber? first overflow = some (s.renumber first)) ∧
      (first = 1 ∨ (∀ node up, (linked.wordAt node).links.head = some up →
          first + up ≤ s.words.length) →
        ∃ again, (s.renumber first).build = .ok again ∧ LinkedAlike linked again) ∧
      ∀ node up, (linked.wordAt node).links.head = some up → s.words.length < first + up →
        (∀ earlier < node, ∀ other, (linked.wordAt earlier).links.head = some other →
          first + other ≤ s.words.length) →
        (s.renumber first).build =
          .error (.headOutOfRange (first + node) (first + up) s.words.length)) ∧
    (¬ s.FitsFrom first → s.renumber? first .stops = none) := by
  refine ⟨fun hfits => ?_, renumber?_of_not_fits⟩
  obtain ⟨hlinked, hraw⟩ := build_linked h
  simp only [hlinked.head, headNode?_of_unlinked hraw]
  refine ⟨renumber?_of_fits hfits, ?_, ?_⟩
  · intro hcase
    apply build_renumber_of_le h hdistinct hpositive hfirst hfits
    intro node up hup
    rcases hcase with rfl | hshort
    · have := (headNode?_lt hup).2
      omega
    · exact hshort node up hup
  · intro node up hup hlong hearlier
    exact build_renumber_of_lt h hdistinct hpositive hfirst hfits hup hlong hearlier

/-- Ids out of order: 2 is the greatest first id for which the two heads are not out of range. -/
theorem build_renumber_of_three :
    let s := ofTokens
      [{ id := .word 3, head := some 1, deprel := "det" },
       { id := .word 1, head := some 0, deprel := "root" },
       { id := .word 2, head := some 3, deprel := "mod" }]
    ∃ linked, s.build = .ok linked ∧ linked.words.map (·.links.head) = [some 1, none, some 0] ∧
      linked.renumber? 2 .stops = some (linked.renumber 2) ∧
      (∃ again, (linked.renumber 2).build = .ok again ∧ LinkedAlike linked again) ∧
      (linked.renumber 3).build = .error (.headOutOfRange 3 4 3) := by
  intro s
  obtain ⟨linked, hbuild, hdistinct, hpositive, hlength, hheads⟩ :
      ∃ linked, s.build = .ok linked ∧ (linked.words.map (·.id)).Nodup ∧
        (∀ word ∈ linked.words, 0 < word.id) ∧ linked.words.length = 3 ∧
        linked.words.map (·.links.head) = [some 1, none, some 0] := by
    refine ⟨s.afterBuild, ?_, by decide +kernel, by decide +kernel, by decide +kernel,
      by decide +kernel⟩
    rw [build_eq_ok_iff, afterBuild]
    decide +kernel
  have hhead : ∀ node, (linked.wordAt node).links.head = [some 1, none, some 0].getD node none := by
    intro node
    rw [← hheads]
    exact (List.getD_map linked.words { id := 0 } fun word => word.links.head).symm
  have hself := build_linked_self hbuild
  have hfits : ∀ first ≤ 3, linked.FitsFrom first := by
    intro first hle
    rw [fitsFrom_iff, hlength]
    exact .inr (Nat.le_trans (Nat.add_le_add_right hle 3) (by decide))
  obtain ⟨hsome, htwo, -⟩ :=
    (build_renumber hself hdistinct hpositive (show 1 ≤ 2 by decide)).1 (hfits 2 (by decide))
  obtain ⟨-, -, hthree⟩ :=
    (build_renumber hself hdistinct hpositive (show 1 ≤ 3 by decide)).1 (hfits 3 (by decide))
  simp only [hhead, hlength] at htwo hthree
  refine ⟨linked, hbuild, hheads, hsome .stops, htwo (.inr ?_), hthree 0 1 rfl (by decide) ?_⟩
  · intro node up hup
    match node, hup with
    | 0, hup => cases hup; decide
    | 2, hup => cases hup; decide
  · intro earlier hlt
    cases hlt

/-- Two words that are linked, and are not after they are numbered from 2 on: the head of the first
one is 3 then, the id of a word, but greater than the number of words. -/
theorem renumber_out_of_range :
    let s := ofTokens
      [{ id := .word 1, head := some 2, deprel := "nsubj" },
       { id := .word 2, head := some 0, deprel := "root" }]
    ∃ linked, s.build = .ok linked ∧ (s.words.map (·.id)).Nodup ∧
      (∀ word ∈ s.words, 0 < word.id) ∧
      (linked.renumber 2).words.map (·.id) = [2, 3] ∧
      (linked.renumber 2).build = .error (.headOutOfRange 2 3 2) := by
  intro s
  refine ⟨s.afterBuild, ?_, by decide +kernel, by decide +kernel, by decide +kernel, ?_⟩
  · rw [build_eq_ok_iff, afterBuild]
    decide +kernel
  · rw [build_eq_error_iff]
    decide +kernel

end Sentence
end Treebank
