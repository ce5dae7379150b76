import Mathlib.Order.Bounds.Defs
import Treebank.Proofs.Circles
import Treebank.Proofs.Links

/-! What heads make of a sentence.

`build_outcome`: a head that is no word comes first, then a circle of heads, then the lack
of a root; without any of these the words are linked to a forest, in which the links are
those of the heads and every way up ends at a word that hangs from nothing. -/
namespace Treebank.Sentence

/-- The sentence `linked` is `s` with its words linked to a forest. -/
structure IsForest (s linked : Sentence) : Prop where
  unlinked : linked.unlinked = s.unlinked
  head : ∀ node < s.words.length, (linked.wordAt node).links.head = s.headNode? node
  dependents_ascending : ∀ node < s.words.length,
    (linked.wordAt node).links.dependents.Pairwise (· < ·)
  mem_dependents : ∀ node < s.words.length, ∀ dep,
    dep ∈ (linked.wordAt node).links.dependents ↔
      dep < s.words.length ∧ (linked.wordAt dep).links.head = some node
  roots_ascending : linked.outline.roots.Pairwise (· < ·)
  mem_roots : ∀ node,
    node ∈ linked.outline.roots ↔ node < s.words.length ∧ (s.wordAt node).head = some 0
  root : linked.outline.root? = linked.outline.roots.head?
  /-- No head is farther away than `maxHeadDistance`, … -/
  distance_le : ∀ word ∈ s.words, ∀ head, word.head = some head → 0 < head →
    ((word.id : Int) - head).natAbs ≤ linked.outline.maxHeadDistance
  /-- … which is 0 if it is not the distance of one. -/
  distance_eq : linked.outline.maxHeadDistance = 0 ∨ ∃ word ∈ s.words, ∃ head,
    word.head = some head ∧ 0 < head ∧
      ((word.id : Int) - head).natAbs = linked.outline.maxHeadDistance
  /-- The way up from a node along the links ends where a word has head 0 or none. -/
  ends : ∀ node < s.words.length, ∃ steps ≤ s.words.length, ∃ top < s.words.length,
    ascend (fun n => (linked.wordAt n).links.head) steps node = some top ∧
      (linked.wordAt top).links.head = none ∧
      ((s.wordAt top).head = some 0 ∨ (s.wordAt top).head = none)

/-! ### Distances -/

theorem distance_eq_natAbs (a b : Nat) : distance a b = ((a : Int) - b).natAbs := by
  unfold distance
  omega

theorem reach_eq {s : Sentence} {node head : Nat} (h : (s.wordAt node).head = some head)
    (hpos : 0 < head) : s.reach node = (((s.wordAt node).id : Int) - head).natAbs := by
  obtain ⟨head, rfl⟩ := Nat.exists_eq_add_one_of_ne_zero (Nat.ne_of_gt hpos)
  rw [reach, h]
  exact distance_eq_natAbs _ _

theorem reach_le_longestReach (s : Sentence) {node count : Nat} (h : node < count) :
    s.reach node ≤ s.longestReach count := by
  induction count with
  | zero => omega
  | succ count ih =>
    rw [longestReach_succ]
    rcases Nat.lt_succ_iff_lt_or_eq.1 h with hlt | rfl
    · exact Nat.le_trans (ih hlt) (Nat.le_max_left _ _)
    · exact Nat.le_max_right _ _

theorem longestReach_attained (s : Sentence) (count : Nat) :
    s.longestReach count = 0 ∨ ∃ node < count, s.reach node = s.longestReach count := by
  induction count with
  | zero => exact .inl rfl
  | succ count ih =>
    rw [longestReach_succ]
    rcases Nat.le_total (s.longestReach count) (s.reach count) with hle | hle
    · rw [Nat.max_eq_right hle]
      exact .inr ⟨count, Nat.lt_succ_self count, rfl⟩
    · rw [Nat.max_eq_left hle]
      exact ih.imp_right fun ⟨node, hlt, hnode⟩ => ⟨node, Nat.lt_succ_of_lt hlt, hnode⟩

/-- A word with some reach hangs from a head. -/
theorem exists_head_of_reach {s : Sentence} {node : Nat} (h : s.reach node ≠ 0) :
    ∃ head, (s.wordAt node).head = some head ∧ 0 < head := by
  unfold reach at h
  split at h
  · next head hhead => exact ⟨head + 1, hhead, Nat.succ_pos head⟩
  · exact absurd rfl h

/-! ### The outcome of a build -/

/-- A word that has no node above it, though its head does not dangle, has head 0 or none. -/
theorem head_of_top {s : Sentence} {node : Nat} (hnode : node < s.words.length)
    (hfree : ∀ head, ¬ s.Dangles (s.wordAt node) head) (htop : s.headNode? node = none) :
    (s.wordAt node).head = some 0 ∨ (s.wordAt node).head = none := by
  cases hhead : (s.wordAt node).head with
  | none => exact .inr rfl
  | some head =>
    rcases Nat.eq_zero_or_pos head with rfl | hpos
    · exact .inl rfl
    · exfalso
      cases hup : s.nodeOf? head with
      | none => exact hfree head ⟨hhead, hpos, .inr (nodeOf?_eq_none_iff.1 hup)⟩
      | some up =>
        have := headNode?_eq_some_iff.2 ⟨hnode, head, hhead, Nat.ne_of_gt hpos, hup⟩
        rw [htop] at this
        cases this

theorem Linked.isForest {s linked : Sentence} (h : linked.Linked)
    (hraw : linked.unlinked = s.unlinked)
    (hfree : ∀ node < s.words.length, ∀ head, ¬ s.Dangles (s.wordAt node) head)
    (hcircle : ∀ node, ¬ OnCircle s.headNode? node) : IsForest s linked := by
  have hlength := length_words_of_unlinked hraw
  have hup : (fun n => (linked.wordAt n).links.head) = s.headNode? := by
    funext node
    exact (h.head node).trans (headNode?_of_unlinked hraw node)
  have hhead : ∀ node, (linked.wordAt node).links.head = s.headNode? node := congrFun hup
  have hdistance : linked.outline.maxHeadDistance = s.longestReach s.words.length := by
    rw [h.maxHeadDistance]
    simp only [longestReach, reach, hlength, head_wordAt_of_unlinked hraw,
      id_wordAt_of_unlinked hraw]
  constructor
  case unlinked => exact hraw
  case head => exact fun node _ => hhead node
  case root => exact h.root
  case dependents_ascending =>
    intro node _
    rw [h.dependents]
    exact List.pairwise_lt_range.filter _
  case mem_dependents =>
    intro node _ dep
    rw [h.dependents, below, List.mem_filter, List.mem_range, decide_eq_true_iff, hlength, h.head]
  case roots_ascending =>
    rw [h.roots]
    exact List.pairwise_lt_range.filter _
  case mem_roots =>
    intro node
    rw [h.roots, tops, List.mem_filter, List.mem_range, decide_eq_true_iff, hlength,
      head_wordAt_of_unlinked hraw]
  case distance_le =>
    intro word hword head hwhead hpos
    obtain ⟨node, hnode, rfl⟩ := mem_words_iff.1 hword
    rw [hdistance, ← reach_eq hwhead hpos]
    exact reach_le_longestReach s hnode
  case distance_eq =>
    rw [hdistance]
    rcases longestReach_attained s s.words.length with hzero | ⟨node, hnode, hreach⟩
    · exact .inl hzero
    · by_cases hzero : s.longestReach s.words.length = 0
      · exact .inl hzero
      · obtain ⟨head, hwhead, hpos⟩ := exists_head_of_reach (hreach ▸ hzero)
        refine .inr ⟨_, wordAt_mem hnode, head, hwhead, hpos, ?_⟩
        rw [← reach_eq hwhead hpos, hreach]
  case ends =>
    intro node hnode
    obtain ⟨steps, hsteps, top, htop, hnone⟩ :=
      exists_top (fun h => (headNode?_lt h).2) hcircle hnode
    have hlt : top < s.words.length := ascend_lt (fun h => (headNode?_lt h).2) hnode htop
    refine ⟨steps, Nat.le_of_lt hsteps, top, hlt, ?_, (hhead top).trans hnone, ?_⟩
    · rw [hup]
      exact htop
    · exact head_of_top hlt (hfree top hlt) hnone

section Outcome
variable {s linked : Sentence} (hraw : linked.unlinked = s.unlinked)
  (hrun : s.relink = match linked.fault? with
    | some error => (linked.unlinked, some error)
    | none => ({ linked with outline.built := true }, none))

include hraw hrun

/-- A circle of heads is found before the roots are looked at, the one with the smallest id first. -/
theorem build_of_circle {node : Nat} (hnode : OnCircle s.headNode? node) :
    ∃ id, IsLeast {id | ∃ node, OnCircle s.headNode? node ∧ (s.wordAt node).id = id} id ∧
      s.build = .error (.cycle id) := by
  cases hhead : s.cycles.head? with
  | none => exact absurd hnode (head?_cycles_eq_none.1 hhead node)
  | some id =>
    obtain ⟨hmem, hleast⟩ := head?_cycles_eq_some hhead
    refine ⟨id, ⟨hmem, fun other hother => ?_⟩, build_eq_error_iff.2 ?_⟩
    · obtain ⟨on, hon, rfl⟩ := hother
      exact hleast on hon
    · rw [hrun, fault?, cycles_of_unlinked hraw, hhead]

theorem build_of_rootless (hcircle : ∀ node, ¬ OnCircle s.headNode? node)
    (hroots : linked.outline.roots = []) : s.build = .error .noRoot := by
  refine build_eq_error_iff.2 ?_
  rw [hrun, fault?, cycles_of_unlinked hraw, head?_cycles_eq_none.2 hcircle, hroots]
  rfl

theorem build_of_roots (hcircle : ∀ node, ¬ OnCircle s.headNode? node)
    (hroots : linked.outline.roots ≠ []) :
    s.build = .ok { linked with outline.built := true } := by
  have hfault : linked.fault? = none := by
    rw [fault?, cycles_of_unlinked hraw, head?_cycles_eq_none.2 hcircle]
    simp [hroots]
  refine build_eq_ok_iff.2 ?_
  rw [hrun, hfault]

end Outcome

/-- **The raw ids and heads decide how a build ends**: with the first head that is no word, else
with the smallest id on a circle of heads, else for want of a root, else with a forest. -/
theorem build_outcome (s : Sentence) :
    (∀ node head, node < s.words.length → s.Dangles (s.wordAt node) head →
      (∀ earlier < node, ∀ other, ¬ s.Dangles (s.wordAt earlier) other) →
      s.build = .error (.headOutOfRange (s.wordAt node).id head s.words.length)) ∧
    ((∀ word ∈ s.words, ∀ head, ¬ s.Dangles word head) →
      ((∃ node, OnCircle s.headNode? node) →
        ∃ id, IsLeast {id | ∃ node, OnCircle s.headNode? node ∧ (s.wordAt node).id = id} id ∧
          s.build = .error (.cycle id)) ∧
      ((∀ node, ¬ OnCircle s.headNode? node) →
        ((∀ word ∈ s.words, word.head ≠ some 0) → s.build = .error .noRoot) ∧
        ((∃ word ∈ s.words, word.head = some 0) →
          ∃ linked, s.build = .ok linked ∧ IsForest s linked))) := by
  rcases relink_cases s with ⟨first, id, hfirst, hdangles, hearlier, herror⟩ |
    ⟨hfree, linked, hlinked, hraw, hrun⟩
  · constructor
    · intro node head hnode hhead hbefore
      have hnode : node = first := by
        rcases Nat.lt_trichotomy node first with hlt | heq | hgt
        · exact absurd hhead (hearlier node hlt head)
        · exact heq
        · exact absurd hdangles (hbefore first hgt id)
      subst hnode
      have hid : head = id := Option.some.inj (hhead.1.symm.trans hdangles.1)
      rw [hid]
      exact build_eq_error_iff.2 herror
    · intro hnone
      exact absurd hdangles (hnone _ (wordAt_mem hfirst) id)
  · refine ⟨fun node head hnode hhead => absurd hhead (hfree node hnode head), fun _ => ⟨?_, ?_⟩⟩
    · intro hsome
      obtain ⟨node, hnode⟩ := hsome
      exact build_of_circle hraw hrun hnode
    · intro hcircle
      have hforest := hlinked.isForest hraw hfree hcircle
      constructor
      · intro hrootless
        refine build_of_rootless hraw hrun hcircle (List.eq_nil_iff_forall_not_mem.2 ?_)
        intro node hnode
        obtain ⟨hlt, hzero⟩ := (hforest.mem_roots node).1 hnode
        exact hrootless _ (wordAt_mem hlt) hzero
      · intro hroot
        obtain ⟨word, hword, hzero⟩ := hroot
        obtain ⟨node, hlt, rfl⟩ := mem_words_iff.1 hword
        have hroots := List.ne_nil_of_mem ((hforest.mem_roots node).2 ⟨hlt, hzero⟩)
        exact ⟨_, build_of_roots hraw hrun hcircle hroots, { hforest with }⟩

end Treebank.Sentence
