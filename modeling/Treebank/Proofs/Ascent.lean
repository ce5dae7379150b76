import Mathlib.Data.Finset.Card
import Mathlib.Data.Nat.Find

/-! Going up from node to node.

Where each node has at most one node above it, going up from a node either ends or runs
into a circle, whose nodes are those above any one of them (`IsCircle.eq_above`). Among `n`
nodes a circle closes within `n` steps (`OnCircle.closes`), and without circles every way up
ends in fewer than `n` (`exists_top`). -/
namespace Treebank

/-- The node that is so many steps above another, if the way up is that long. -/
def ascend (up : Nat → Option Nat) : Nat → Nat → Option Nat
  | 0, node => some node
  | steps + 1, node => (up node).bind (ascend up steps)

/-- The way up from the node comes back to it. -/
def OnCircle (up : Nat → Option Nat) (node : Nat) : Prop :=
  ∃ steps, ascend up (steps + 1) node = some node

variable {up : Nat → Option Nat}

theorem ascend_one (up : Nat → Option Nat) (node : Nat) : ascend up 1 node = up node := by
  unfold ascend
  cases up node <;> rfl

theorem ascend_add (up : Nat → Option Nat) (a b node : Nat) :
    ascend up (a + b) node = (ascend up a node).bind (ascend up b) := by
  induction a generalizing node with
  | zero => simp [ascend]
  | succ a ih =>
    rw [Nat.succ_add, ascend, ascend]
    cases up node with
    | none => rfl
    | some next => exact ih next

theorem ascend_succ (up : Nat → Option Nat) (steps node : Nat) :
    ascend up (steps + 1) node = (ascend up steps node).bind up := by
  rw [ascend_add]
  congr 1
  funext next
  exact ascend_one up next

/-- The nodes above a node, as a list of them all, end with the topmost one. -/
theorem ascend_length {node : Nat} {above : List Nat}
    (h : ∀ i, above[i]? = ascend up (i + 1) node) :
    ascend up above.length node = some (above.getLast?.getD node) := by
  cases hlength : above.length with
  | zero =>
    rw [List.length_eq_zero_iff.1 hlength]
    rfl
  | succ count =>
    have hlast : above.getLast? = above[count]? := by
      rw [List.getLast?_eq_getElem?, hlength, Nat.add_sub_cancel]
    rw [← h, hlast, List.getElem?_eq_getElem (by omega)]
    rfl

/-- A way up of some length has all shorter ones. -/
theorem ascend_of_le {a b node top : Nat} (h : a ≤ b) (hb : ascend up b node = some top) :
    ∃ mid, ascend up a node = some mid ∧ ascend up (b - a) mid = some top := by
  rw [← Nat.add_sub_cancel' h, ascend_add] at hb
  exact Option.bind_eq_some_iff.1 hb

/-- A way up has one end. -/
theorem eq_of_ascend_top {a b node top other : Nat} (ha : ascend up a node = some top)
    (htop : up top = none) (hb : ascend up b node = some other) (hother : up other = none) :
    top = other := by
  have hend : ∀ {a b top other}, a ≤ b → ascend up a node = some top → up top = none →
      ascend up b node = some other → top = other := by
    intro a b top other hle ha htop hb
    obtain ⟨mid, hmid, hrest⟩ := ascend_of_le hle hb
    rw [ha] at hmid
    cases hmid
    cases hmore : b - a with
    | zero =>
      rw [hmore] at hrest
      exact Option.some.inj hrest
    | succ more =>
      rw [hmore, ascend, htop] at hrest
      cases hrest
  rcases Nat.le_total a b with hle | hle
  · exact hend hle ha htop hb
  · exact (hend hle hb hother ha).symm

/-- The nodes above a node on a circle are on a circle. -/
theorem OnCircle.ascend {node mid steps : Nat} (h : OnCircle up node)
    (hmid : Treebank.ascend up steps node = some mid) : OnCircle up mid := by
  obtain ⟨around, haround⟩ := h
  refine ⟨around, ?_⟩
  have hthere := ascend_add up steps (around + 1) node
  rw [Nat.add_comm, ascend_add, haround, hmid] at hthere
  exact hthere.symm.trans hmid

/-- A node that is met twice is on a circle. -/
theorem onCircle_of_lt {a b node mid : Nat} (hab : a < b) (ha : ascend up a node = some mid)
    (hb : ascend up b node = some mid) : OnCircle up mid := by
  obtain ⟨mid', hmid', hrest⟩ := ascend_of_le (Nat.le_of_lt hab) hb
  rw [ha] at hmid'
  cases hmid'
  refine ⟨b - a - 1, ?_⟩
  rw [Nat.sub_add_cancel (by omega)]
  exact hrest

/-- Without circles the way up meets no node twice. -/
theorem eq_of_ascend (hfree : ∀ node, ¬ OnCircle up node) {a b node mid : Nat}
    (ha : ascend up a node = some mid) (hb : ascend up b node = some mid) : a = b := by
  rcases Nat.lt_trichotomy a b with hlt | heq | hgt
  · exact absurd (onCircle_of_lt hlt ha hb) (hfree mid)
  · exact heq
  · exact absurd (onCircle_of_lt hgt hb ha) (hfree mid)

theorem OnCircle.ascend_mul {node around : Nat}
    (h : Treebank.ascend up (around + 1) node = some node) (times : Nat) :
    Treebank.ascend up ((around + 1) * times) node = some node := by
  induction times with
  | zero => rfl
  | succ times ih =>
    rw [Nat.mul_succ, ascend_add, ih]
    exact h

/-- From a node above one on a circle the way goes on to that one again. -/
theorem OnCircle.exists_back {node mid steps : Nat} (h : OnCircle up node)
    (hmid : Treebank.ascend up steps node = some mid) :
    ∃ back, Treebank.ascend up back mid = some node := by
  obtain ⟨around, haround⟩ := h
  have hlong : steps ≤ (around + 1) * steps := Nat.le_mul_of_pos_left steps (Nat.succ_pos around)
  obtain ⟨mid', hmid', hback⟩ := ascend_of_le hlong (OnCircle.ascend_mul haround steps)
  rw [hmid] at hmid'
  cases hmid'
  exact ⟨_, hback⟩

/-- A circle as the set of its nodes: those above any one of them. -/
def IsCircle (up : Nat → Option Nat) (circle : Set Nat) : Prop :=
  ∃ node, OnCircle up node ∧ circle = {other | ∃ steps, ascend up steps node = some other}

/-- It does not matter from which node one goes around. -/
theorem IsCircle.eq_above {circle : Set Nat} {node : Nat} (h : IsCircle up circle)
    (hnode : node ∈ circle) :
    OnCircle up node ∧ circle = {other | ∃ steps, ascend up steps node = some other} := by
  obtain ⟨start, hstart, rfl⟩ := h
  obtain ⟨there, hthere⟩ := hnode
  obtain ⟨back, hback⟩ := hstart.exists_back hthere
  refine ⟨hstart.ascend hthere, Set.ext fun other => ⟨fun habove => ?_, fun habove => ?_⟩⟩
  · obtain ⟨steps, hsteps⟩ := habove
    refine ⟨back + steps, ?_⟩
    rw [ascend_add, hback]
    exact hsteps
  · obtain ⟨steps, hsteps⟩ := habove
    refine ⟨there + steps, ?_⟩
    rw [ascend_add, hthere]
    exact hsteps

section Bounded
variable {n : Nat} (hup : ∀ {a b}, up a = some b → b < n)

include hup

theorem ascend_lt {steps node top : Nat} (hnode : node < n) (h : ascend up steps node = some top) :
    top < n := by
  cases steps with
  | zero =>
    cases h
    exact hnode
  | succ steps =>
    rw [ascend_succ] at h
    obtain ⟨_, _, hlast⟩ := Option.bind_eq_some_iff.1 h
    exact hup hlast

/-- A way up of `n` steps meets a node twice. -/
theorem exists_repeat {node top : Nat} (hnode : node < n) (h : ascend up n node = some top) :
    ∃ a b mid, a < b ∧ b ≤ n ∧ ascend up a node = some mid ∧ ascend up b node = some mid := by
  have hsome : ∀ k ≤ n, ∃ mid, ascend up k node = some mid := by
    intro k hk
    obtain ⟨mid, hmid, -⟩ := ascend_of_le hk h
    exact ⟨mid, hmid⟩
  have hmaps : ∀ k ∈ Finset.range (n + 1), (ascend up k node).getD 0 ∈ Finset.range n := by
    intro k hk
    obtain ⟨mid, hmid⟩ := hsome k (Nat.lt_succ_iff.1 (Finset.mem_range.1 hk))
    rw [hmid, Finset.mem_range]
    exact ascend_lt hup hnode hmid
  obtain ⟨a, ha, b, hb, hne, heq⟩ :=
    Finset.exists_ne_map_eq_of_card_lt_of_maps_to (by simp) hmaps
  obtain ⟨x, hx⟩ := hsome a (Nat.lt_succ_iff.1 (Finset.mem_range.1 ha))
  obtain ⟨y, hy⟩ := hsome b (Nat.lt_succ_iff.1 (Finset.mem_range.1 hb))
  have hxy : x = y := by
    simpa [hx, hy] using heq
  rw [Finset.mem_range] at ha hb
  rcases Nat.lt_or_gt_of_ne hne with hlt | hlt
  · exact ⟨a, b, x, hlt, by omega, hx, hxy ▸ hy⟩
  · exact ⟨b, a, x, hlt, by omega, hxy ▸ hy, hx⟩

/-- A circle among `n` nodes closes within `n` steps. -/
theorem OnCircle.closes {node : Nat} (hnode : node < n) (h : OnCircle up node) :
    ∃ steps < n, Treebank.ascend up (steps + 1) node = some node := by
  classical
  -- A shortest way around cannot meet a node twice: what lies between could be left out.
  have hfirst := Nat.find_spec h
  refine ⟨Nat.find h, ?_, hfirst⟩
  by_contra hlong
  obtain ⟨top, htop, -⟩ := ascend_of_le (a := n) (by omega) hfirst
  obtain ⟨a, b, mid, hab, hbn, ha, hb⟩ := exists_repeat hup hnode htop
  obtain ⟨mid', hmid', hrest⟩ := ascend_of_le (a := b) (by omega) hfirst
  have hmid : mid' = mid := by
    rw [hb] at hmid'
    exact (Option.some.inj hmid').symm
  rw [hmid] at hrest
  have hshort := ascend_add up a (Nat.find h + 1 - b) node
  rw [ha, Option.bind_some, hrest] at hshort
  have hsteps : a + (Nat.find h + 1 - b) = a + (Nat.find h - b) + 1 := by omega
  rw [hsteps] at hshort
  exact Nat.find_min h (by omega) hshort

/-- Without circles every way up ends, after fewer steps than there are nodes. -/
theorem exists_top (hfree : ∀ node, ¬ OnCircle up node) {node : Nat} (hnode : node < n) :
    ∃ steps < n, ∃ top, ascend up steps node = some top ∧ up top = none := by
  by_contra hnone
  push Not at hnone
  have hall : ∀ k ≤ n, ∃ mid, ascend up k node = some mid := by
    intro k
    induction k with
    | zero => exact fun _ => ⟨node, rfl⟩
    | succ k ih =>
      intro hk
      obtain ⟨mid, hmid⟩ := ih (by omega)
      obtain ⟨next, hnext⟩ := Option.ne_none_iff_exists'.1 (hnone k (by omega) mid hmid)
      exact ⟨next, by rw [ascend_succ, hmid]; exact hnext⟩
  obtain ⟨top, htop⟩ := hall n (Nat.le_refl n)
  obtain ⟨a, b, mid, hab, -, ha, hb⟩ := exists_repeat hup hnode htop
  exact hfree mid (onCircle_of_lt hab ha hb)

end Bounded
end Treebank
