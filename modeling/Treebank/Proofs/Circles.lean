import Mathlib.Data.List.Sort
import Mathlib.Order.Bounds.Basic
import Treebank.Proofs.Ascent
import Treebank.Proofs.Words

/-! Circles of heads.

Going up from a word to its head is going up by `Sentence.headNode?`. `mem_cycles` says
that `cycles` has the smallest id of each circle and nothing else, so its first element
is the smallest id on any circle (`head?_cycles_eq_some`) and it is empty just when no
word is on a circle (`head?_cycles_eq_none`). Ids may come twice, but not on circles
(`OnCircle.eq_of_id`), so every circle is named once (`cycles_outcome`). -/
namespace Treebank

/-- The head that a table of heads has for a node. -/
def headIn (heads : Array (Option Nat)) (node : Nat) : Option Nat := heads[node]?.join

section Walk
variable {heads : Array (Option Nat)} {start : Nat}

/-- A walk that comes to its goal lists the nodes on the way. -/
theorem walkTo?_eq_some {steps node : Nat} {path : List Nat}
    (h : walkTo? heads start steps node = some path) :
    ∃ last, path.length = last + 1 ∧
      (∀ i ≤ last, path[i]? = ascend (headIn heads) i node) ∧
      ascend (headIn heads) (last + 1) node = some start := by
  induction steps generalizing node path with
  | zero => cases h
  | succ steps ih =>
    obtain ⟨head, hhead, h⟩ := Option.bind_eq_some_iff.1 h
    change headIn heads node = some head at hhead
    by_cases hstart : head = start
    · rw [if_pos hstart] at h
      cases h
      refine ⟨0, rfl, fun i hi => ?_, ?_⟩
      · rw [Nat.le_zero.1 hi]
        rfl
      · rw [ascend_one, hhead, hstart]
    · rw [if_neg hstart] at h
      obtain ⟨rest, hrest, h⟩ := Option.bind_eq_some_iff.1 h
      cases h
      obtain ⟨last, hlength, hpath, htop⟩ := ih hrest
      refine ⟨last + 1, by rw [List.length_cons, hlength], fun i hi => ?_, ?_⟩
      · cases i with
        | zero => rfl
        | succ i =>
          rw [List.getElem?_cons_succ, hpath i (by omega), ascend, hhead]
          rfl
      · rw [ascend, hhead]
        exact htop

/-- A walk with steps enough comes to its goal. -/
theorem isSome_walkTo? {last steps node : Nat} (hlast : last < steps)
    (h : ascend (headIn heads) (last + 1) node = some start) :
    (walkTo? heads start steps node).isSome := by
  induction steps generalizing node last with
  | zero => omega
  | succ steps ih =>
    obtain ⟨head, hhead, h⟩ := Option.bind_eq_some_iff.1 h
    rw [walkTo?, show heads[node]?.join = some head from hhead, Option.bind_eq_bind,
      Option.bind_some]
    by_cases hstart : head = start
    · rw [if_pos hstart]
      rfl
    · rw [if_neg hstart]
      cases last with
      | zero =>
        cases h
        exact absurd rfl hstart
      | succ last =>
        obtain ⟨rest, hrest⟩ := Option.isSome_iff_exists.1 (ih (by omega) h)
        rw [hrest]
        rfl

theorem isSome_circle?_iff
    (hup : ∀ {a b}, headIn heads a = some b → b < heads.size) (hstart : start < heads.size) :
    (circle? heads start).isSome ↔ OnCircle (headIn heads) start := by
  constructor
  · intro h
    obtain ⟨path, hpath⟩ := Option.isSome_iff_exists.1 h
    obtain ⟨last, -, -, htop⟩ := walkTo?_eq_some hpath
    exact ⟨last, htop⟩
  · intro h
    obtain ⟨steps, hsteps, htop⟩ := h.closes hup hstart
    exact isSome_walkTo? hsteps htop

theorem walkTo?_of_le {steps more node : Nat} {path : List Nat}
    (h : walkTo? heads start steps node = some path) (hle : steps ≤ more) :
    walkTo? heads start more node = some path := by
  induction steps generalizing more node path with
  | zero => cases h
  | succ steps ih =>
    obtain ⟨more, rfl⟩ := Nat.exists_eq_add_one_of_ne_zero (show more ≠ 0 by omega)
    obtain ⟨head, hhead, h⟩ := Option.bind_eq_some_iff.1 h
    rw [walkTo?, hhead, Option.bind_eq_bind, Option.bind_some]
    by_cases hstart : head = start
    · rw [if_pos hstart] at h ⊢
      exact h
    · rw [if_neg hstart] at h ⊢
      obtain ⟨rest, hrest, h⟩ := Option.bind_eq_some_iff.1 h
      rw [ih hrest (by omega), Option.bind_eq_bind, Option.bind_some]
      exact h

/-- The bound on the steps of a walk cuts none short that would come back. -/
theorem walkTo?_eq_circle?
    (hup : ∀ {a b}, headIn heads a = some b → b < heads.size) (hstart : start < heads.size)
    {steps : Nat} (h : heads.size ≤ steps) : walkTo? heads start steps start = circle? heads start := by
  cases hcircle : circle? heads start with
  | some circle => exact walkTo?_of_le hcircle h
  | none =>
    cases hwalk : walkTo? heads start steps start with
    | none => rfl
    | some path =>
      obtain ⟨last, -, -, htop⟩ := walkTo?_eq_some hwalk
      have hon := (isSome_circle?_iff hup hstart).2 ⟨last, htop⟩
      rw [hcircle] at hon
      cases hon

/-- The circle through a node has all nodes above it. -/
theorem mem_circle?_iff {circle : List Nat} (h : circle? heads start = some circle) {node : Nat} :
    node ∈ circle ↔ ∃ steps, ascend (headIn heads) steps start = some node := by
  obtain ⟨last, hlength, hpath, htop⟩ := walkTo?_eq_some h
  constructor
  · intro hnode
    obtain ⟨i, hi⟩ := List.getElem?_of_mem hnode
    have hle := (List.getElem?_eq_some_iff.1 hi).1
    exact ⟨i, (hpath i (by omega)).symm.trans hi⟩
  · intro hcloses
    obtain ⟨steps, hsteps⟩ := hcloses
    induction steps generalizing node with
    | zero => exact List.mem_of_getElem? ((hpath 0 (Nat.zero_le _)).trans hsteps)
    | succ steps ih =>
      rw [ascend_succ] at hsteps
      obtain ⟨below, hbelow, hup⟩ := Option.bind_eq_some_iff.1 hsteps
      obtain ⟨i, hi⟩ := List.getElem?_of_mem (ih hbelow)
      have hle := (List.getElem?_eq_some_iff.1 hi).1
      have hnext : ascend (headIn heads) (i + 1) start = some node := by
        rw [ascend_succ, ← hpath i (by omega), hi]
        exact hup
      -- From the last node of the circle the way goes on to the first.
      rcases Nat.lt_or_ge i last with hlt | hge
      · exact List.mem_of_getElem? ((hpath (i + 1) (by omega)).trans hnext)
      · have hi' : i = last := by omega
        rw [hi', htop] at hnext
        exact List.mem_of_getElem? ((hpath 0 (Nat.zero_le _)).trans hnext)

end Walk

namespace Sentence

@[simp] theorem size_headNodes (s : Sentence) : s.headNodes.size = s.words.length := by
  simp [headNodes]

theorem headIn_headNodes (s : Sentence) : headIn s.headNodes = s.headNode? := by
  funext node
  by_cases h : node < s.words.length
  · simp [headIn, headNodes, h]
  · have hnone : s.headNode? node = none := by
      rw [headNode?, List.getElem?_eq_none (Nat.le_of_not_lt h)]
      rfl
    rw [headIn, Array.getElem?_eq_none (by rw [size_headNodes]; omega), hnone]
    rfl

theorem getD_ids (s : Sentence) (node : Nat) : s.ids.getD node 0 = (s.wordAt node).id := by
  rw [Array.getD_eq_getD_getElem?, wordAt, List.getD_eq_getElem?_getD]
  simp only [ids, List.getElem?_toArray, List.getElem?_map]
  cases s.words[node]? <;> rfl

theorem OnCircle.lt {s : Sentence} {node : Nat} (h : OnCircle s.headNode? node) :
    node < s.words.length := by
  obtain ⟨steps, hsteps⟩ := h
  obtain ⟨head, hhead, -⟩ := Option.bind_eq_some_iff.1 hsteps
  exact (headNode?_lt hhead).1

theorem headIn_headNodes_lt {s : Sentence} {a b : Nat} (h : headIn s.headNodes a = some b) :
    b < s.headNodes.size := by
  rw [headIn_headNodes] at h
  rw [size_headNodes]
  exact (headNode?_lt h).2

/-- The ids that `cycles` has are those of the nodes with the smallest id on their circle. -/
theorem mem_cycles {s : Sentence} {id : Nat} :
    id ∈ s.cycles ↔ ∃ node, OnCircle s.headNode? node ∧ (s.wordAt node).id = id ∧
      ∀ steps other, ascend s.headNode? steps node = some other → id ≤ (s.wordAt other).id := by
  simp only [cycles, List.mem_mergeSort, List.mem_map, List.mem_filter, List.mem_range, getD_ids]
  constructor
  · intro hstart
    obtain ⟨node, ⟨hlt, hany⟩, hid⟩ := hstart
    obtain ⟨circle, hcircle, hall⟩ := (Option.any_eq_true _ _).1 hany
    have hon := (isSome_circle?_iff headIn_headNodes_lt (by simpa using hlt)).1
      (by rw [hcircle]; rfl)
    rw [s.headIn_headNodes] at hon
    refine ⟨node, hon, hid, fun steps other hother => ?_⟩
    rw [← s.headIn_headNodes] at hother
    have hmem := (mem_circle?_iff hcircle).2 ⟨steps, hother⟩
    rw [← hid]
    exact of_decide_eq_true (List.all_eq_true.1 hall other hmem)
  · intro hleast
    obtain ⟨node, hon, hid, hleast⟩ := hleast
    have hlt := OnCircle.lt hon
    rw [← s.headIn_headNodes] at hon hleast
    obtain ⟨circle, hcircle⟩ := Option.isSome_iff_exists.1
      ((isSome_circle?_iff headIn_headNodes_lt (by simpa using hlt)).2 hon)
    refine ⟨node, ⟨hlt, (Option.any_eq_true _ _).2 ⟨circle, hcircle, ?_⟩⟩, hid⟩
    rw [List.all_eq_true]
    intro other hother
    obtain ⟨steps, hsteps⟩ := (mem_circle?_iff hcircle).1 hother
    rw [hid]
    exact decide_eq_true (hleast steps other hsteps)

/-- The ids of the words at some nodes. -/
def idsOn (s : Sentence) (nodes : Set Nat) : Set Nat := {id | ∃ node ∈ nodes, (s.wordAt node).id = id}

/-- Every circle has a node with the smallest id on it. -/
theorem exists_isLeast_idsOn {s : Sentence} {circle : Set Nat} (h : IsCircle s.headNode? circle) :
    ∃ id ∈ s.cycles, IsLeast (s.idsOn circle) id := by
  classical
  have hex : ∃ id, id ∈ s.idsOn circle := by
    obtain ⟨node, -, rfl⟩ := h
    exact ⟨_, node, ⟨0, rfl⟩, rfl⟩
  obtain ⟨node, hnode, hid⟩ := Nat.find_spec hex
  have hleast : Nat.find hex ∈ lowerBounds (s.idsOn circle) :=
    fun _ hother => Nat.find_min' hex hother
  refine ⟨Nat.find hex, ?_, Nat.find_spec hex, hleast⟩
  obtain ⟨hon, habove⟩ := h.eq_above hnode
  refine mem_cycles.2 ⟨node, hon, hid, fun steps other hother => hleast ⟨other, ?_, rfl⟩⟩
  rw [habove]
  exact ⟨steps, hother⟩

theorem exists_least_above {s : Sentence} {node : Nat} (h : OnCircle s.headNode? node) :
    ∃ least ∈ s.cycles, least ≤ (s.wordAt node).id := by
  obtain ⟨id, hid, hleast⟩ := exists_isLeast_idsOn ⟨node, h, rfl⟩
  exact ⟨id, hid, hleast.2 ⟨node, ⟨0, rfl⟩, rfl⟩⟩

theorem head?_cycles_eq_some {s : Sentence} {id : Nat} (h : s.cycles.head? = some id) :
    (∃ node, OnCircle s.headNode? node ∧ (s.wordAt node).id = id) ∧
      ∀ node, OnCircle s.headNode? node → id ≤ (s.wordAt node).id := by
  obtain ⟨rest, hcycles⟩ := List.head?_eq_some_iff.1 h
  have hmem : id ∈ s.cycles := by
    rw [hcycles]
    exact List.mem_cons_self
  obtain ⟨node, hon, hid, -⟩ := mem_cycles.1 hmem
  refine ⟨⟨node, hon, hid⟩, fun other hother => ?_⟩
  obtain ⟨least, hleast, hle⟩ := exists_least_above hother
  have hsorted : s.cycles.Pairwise (· ≤ ·) := List.pairwise_mergeSort' (· ≤ ·) _
  rw [hcycles] at hleast hsorted
  rcases List.mem_cons.1 hleast with rfl | hlater
  · exact hle
  · exact Nat.le_trans ((List.pairwise_cons.1 hsorted).1 least hlater) hle

theorem head?_cycles_eq_none {s : Sentence} :
    s.cycles.head? = none ↔ ∀ node, ¬ OnCircle s.headNode? node := by
  rw [List.head?_eq_none_iff, List.eq_nil_iff_forall_not_mem]
  constructor
  · intro h node hnode
    obtain ⟨least, hleast, -⟩ := exists_least_above hnode
    exact h least hleast
  · intro h id hid
    obtain ⟨node, hnode, -⟩ := mem_cycles.1 hid
    exact h node hnode

/-! ### Each circle once -/

/-- A word on a circle is the one that its id names: the head of another names it. -/
theorem OnCircle.nodeOf?_id {s : Sentence} {node : Nat} (h : OnCircle s.headNode? node) :
    s.nodeOf? (s.wordAt node).id = some node := by
  obtain ⟨steps, hsteps⟩ := h
  rw [ascend_succ] at hsteps
  obtain ⟨below, -, hbelow⟩ := Option.bind_eq_some_iff.1 hsteps
  obtain ⟨-, id, -, -, hid⟩ := headNode?_eq_some_iff.1 hbelow
  rw [(nodeOf?_eq_some hid).2]
  exact hid

/-- Words with one id are not both on a circle, however often ids repeat. -/
theorem OnCircle.eq_of_id {s : Sentence} {a b : Nat} (ha : OnCircle s.headNode? a)
    (hb : OnCircle s.headNode? b) (h : (s.wordAt a).id = (s.wordAt b).id) : a = b := by
  have hnode := OnCircle.nodeOf?_id ha
  rw [h, OnCircle.nodeOf?_id hb] at hnode
  exact (Option.some.inj hnode).symm

theorem nodup_cycles (s : Sentence) : s.cycles.Nodup := by
  have hon : ∀ start, start < s.words.length → (circle? s.headNodes start).isSome →
      OnCircle s.headNode? start := by
    intro start hlt hsome
    rw [← s.headIn_headNodes]
    exact (isSome_circle?_iff headIn_headNodes_lt (by simpa using hlt)).1 hsome
  unfold cycles
  refine (List.mergeSort_perm _ _).nodup_iff.2 (List.Nodup.map_on ?_ (List.nodup_range.filter _))
  intro a ha b hb hid
  obtain ⟨ha, hcircle⟩ := List.mem_filter.1 ha
  obtain ⟨hb, hother⟩ := List.mem_filter.1 hb
  rw [getD_ids, getD_ids] at hid
  exact OnCircle.eq_of_id (hon a (List.mem_range.1 ha) (Option.isSome_of_any hcircle))
    (hon b (List.mem_range.1 hb) (Option.isSome_of_any hother)) hid

theorem cycles_ascending (s : Sentence) : s.cycles.Pairwise (· < ·) := by
  have hsorted : s.cycles.Pairwise (· ≤ ·) := List.pairwise_mergeSort' (· ≤ ·) _
  exact (hsorted.and (nodup_cycles s)).imp fun h => Nat.lt_of_le_of_ne h.1 h.2

/-- The smallest id on a circle is on no other. -/
theorem IsCircle.eq_of_isLeast {s : Sentence} {circle other : Set Nat} {id : Nat}
    (hcircle : IsCircle s.headNode? circle) (hother : IsCircle s.headNode? other)
    (hid : id ∈ s.idsOn circle) (hidOther : id ∈ s.idsOn other) : circle = other := by
  obtain ⟨a, ha, rfl⟩ := hid
  obtain ⟨b, hb, hsame⟩ := hidOther
  obtain ⟨hona, habove⟩ := hcircle.eq_above ha
  obtain ⟨honb, hbbove⟩ := hother.eq_above hb
  rw [habove, hbbove, OnCircle.eq_of_id honb hona hsame]

/-- **`cycles` names every circle of heads once, by the smallest id on it, in ascending order.** A
walk up from a word ends after no more steps than there are words, with nowhere to go or at a node
that it has met, and the bound on its steps never hides a circle. -/
theorem cycles_outcome (s : Sentence) :
    s.cycles.Pairwise (· < ·) ∧
    (∀ id ∈ s.cycles, ∃! circle, IsCircle s.headNode? circle ∧ IsLeast (s.idsOn circle) id) ∧
    (∀ circle, IsCircle s.headNode? circle →
      ∃! id, id ∈ s.cycles ∧ IsLeast (s.idsOn circle) id) ∧
    (s.cycles = [] ↔ ∀ node, ¬ OnCircle s.headNode? node) ∧
    ∀ start < s.words.length,
      (∃ steps ≤ s.words.length, ascend s.headNode? steps start = none ∨
        ∃ earlier < steps, ascend s.headNode? earlier start = ascend s.headNode? steps start) ∧
      ∀ steps ≥ s.words.length,
        walkTo? s.headNodes start steps start = circle? s.headNodes start := by
  refine ⟨cycles_ascending s, ?_, ?_, ?_, ?_⟩
  · intro id hid
    obtain ⟨node, hon, hnode, hleast⟩ := mem_cycles.1 hid
    have hcircle : IsCircle s.headNode?
        {other | ∃ steps, ascend s.headNode? steps node = some other} := ⟨node, hon, rfl⟩
    refine ⟨_, ⟨hcircle, ⟨node, ⟨0, rfl⟩, hnode⟩, ?_⟩, ?_⟩
    · rintro _ ⟨other, ⟨steps, hsteps⟩, rfl⟩
      exact hleast steps other hsteps
    · rintro other ⟨hother, hleastOther⟩
      exact IsCircle.eq_of_isLeast hother hcircle hleastOther.1 ⟨node, ⟨0, rfl⟩, hnode⟩
  · intro circle hcircle
    obtain ⟨id, hid, hleast⟩ := exists_isLeast_idsOn hcircle
    exact ⟨id, ⟨hid, hleast⟩, fun other hother => hother.2.unique hleast⟩
  · rw [← List.head?_eq_none_iff]
    exact head?_cycles_eq_none
  · intro start hstart
    constructor
    · cases htop : ascend s.headNode? s.words.length start with
      | none => exact ⟨_, Nat.le_refl _, .inl htop⟩
      | some top =>
        obtain ⟨earlier, steps, mid, hlt, hle, hearlier, hsteps⟩ :=
          exists_repeat (fun h => (headNode?_lt h).2) hstart htop
        exact ⟨steps, hle, .inr ⟨earlier, hlt, hearlier.trans hsteps.symm⟩⟩
    · intro steps hsteps
      exact walkTo?_eq_circle? headIn_headNodes_lt (by simpa using hstart) (by simpa using hsteps)

end Sentence
end Treebank
