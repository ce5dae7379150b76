import Mathlib.Data.List.Induction
import Treebank.Features.Slot
import Treebank.Proofs.Columns

/-! Calls that set and take features.

Searching by halving is right while the entries stand in the strict order of their folded names
(`Ascending.site`): it ends at the one entry of the name, or between those that come before it and
those that come after. What setting or taking a feature can then do is said once (`Call.Step`), and
from it that runs of calls keep the order (`ascending_run`) and that what they make of plain texts is
read back from its column (`readWith_write_run`). With the folding of the model's own characters,
the features are those that come from going through the entries one by one (`run_eq_foldl`). -/
namespace Treebank
open Text

/-! ### Halving -/

namespace Slot

/-- How entries in ascending order compare with what is looked for. -/
structure Ascends (order : Nat → Ordering) (size : Nat) : Prop where
  earlier : ∀ {i j}, i < j → j < size → order j ≠ .gt → order i = .lt
  later : ∀ {i j}, i < j → j < size → order i ≠ .lt → order j = .gt

/-- Earlier entries stand before the slot, and later ones after it. -/
def Divides (order : Nat → Ordering) (size : Nat) : Slot → Prop
  | found place =>
    place < size ∧ order place = .eq ∧ (∀ i < place, order i = .lt) ∧
      ∀ i < size, place < i → order i = .gt
  | missing place =>
    place ≤ size ∧ (∀ i < place, order i = .lt) ∧ ∀ i < size, place ≤ i → order i = .gt

/-- The entries outside the run that is searched are known to come earlier or later. -/
theorem search_divides {order : Nat → Ordering} {total base size : Nat}
    (h : Ascends order total) (hsize : 0 < size) (hrun : base + size ≤ total)
    (hbefore : ∀ i < base, order i = .lt) (hafter : ∀ i < total, base + size ≤ i → order i = .gt) :
    (search order base size).Divides order total := by
  fun_induction search order base size with
  | case1 base size hone hlt =>
    refine ⟨by omega, fun i hi => ?_, fun i hi hle => hafter i hi (by omega)⟩
    rcases Nat.lt_succ_iff_lt_or_eq.1 hi with hi | rfl
    · exact hbefore i hi
    · exact hlt
  | case2 base size hone heq =>
    exact ⟨by omega, heq, hbefore, fun i hi hlt => hafter i hi (by omega)⟩
  | case3 base size hone hgt =>
    refine ⟨by omega, hbefore, fun i hi hle => ?_⟩
    rcases Nat.eq_or_lt_of_le hle with rfl | hlt
    · exact hgt
    · exact hafter i hi (by omega)
  | case4 base size hmany half hgt ih =>
    -- The middle entry comes later, and so do all entries after it.
    refine ih (by omega) (by omega) hbefore fun i hi hle => ?_
    rcases Nat.eq_or_lt_of_le (show base + half ≤ i by omega) with rfl | hlt
    · exact hgt
    · exact h.later hlt hi (by rw [hgt]; decide)
  | case5 base size hmany half hlt ih =>
    exact ih (by omega) (by omega)
      (fun i hi => h.earlier hi (by omega) (by rw [hlt]; decide))
      (fun i hi hle => hafter i hi (by omega))
  | case6 base size hmany half heq ih =>
    exact ih (by omega) (by omega)
      (fun i hi => h.earlier hi (by omega) (by rw [heq]; decide))
      (fun i hi hle => hafter i hi (by omega))

end Slot

namespace Features
variable (lower : Char → List Char)

/-- The entries stand in the strict order of their folded names. -/
def Ascending (feats : Features) : Prop :=
  feats.entries.Pairwise fun a b => key lower a.1 < key lower b.1

/-- The name comes after all of `before` and before all of `after`. -/
structure Between (name : String) (before after : List (String × String)) : Prop where
  before : ∀ entry ∈ before, key lower entry.1 < key lower name
  after : ∀ entry ∈ after, key lower name < key lower entry.1

/-- Where a name is among entries, or where it would be. -/
inductive Site (name : String) : List (String × String) → Slot → Prop
  | found {before after : List (String × String)} {other value : String}
    (between : Between lower name before after) (same : key lower other = key lower name) :
    Site name (before ++ (other, value) :: after) (.found before.length)
  | missing {before after : List (String × String)} (between : Between lower name before after) :
    Site name (before ++ after) (.missing before.length)

variable {lower} {feats : Features}

theorem Between.ne {name : String} {before after : List (String × String)}
    (h : Between lower name before after) :
    ∀ entry ∈ before ++ after, key lower entry.1 ≠ key lower name := by
  intro entry hentry heq
  rcases List.mem_append.1 hentry with hbefore | hafter
  · exact List.lt_irrefl _ (heq ▸ h.before entry hbefore)
  · exact List.lt_irrefl _ (heq ▸ h.after entry hafter)

theorem Between.eq_of_mem {name : String} {before after : List (String × String)}
    {middle entry : String × String} (h : Between lower name before after)
    (hmem : entry ∈ before ++ middle :: after) (hkey : key lower entry.1 = key lower name) :
    entry = middle := by
  rcases List.mem_append.1 hmem with hbefore | hmem
  · exact absurd hkey (h.ne entry (List.mem_append_left _ hbefore))
  · rcases List.mem_cons.1 hmem with heq | hafter
    · exact heq
    · exact absurd hkey (h.ne entry (List.mem_append_right _ hafter))

theorem lt_or_eq_of_not_lt {a b : List Char} (h : ¬ a < b) : b < a ∨ b = a :=
  List.le_iff_lt_or_eq.1 (List.not_lt.1 h)

section orderAt
variable {name : String} {place : Nat}

theorem orderAt_of_lt (name : String) (h : place < feats.entries.length) :
    feats.orderAt lower name place =
      if key lower feats.entries[place].1 < key lower name then .lt
      else if key lower feats.entries[place].1 = key lower name then .eq else .gt := by
  rw [orderAt, List.getD_eq_getElem?_getD, List.getElem?_eq_getElem h, Option.getD_some]

theorem orderAt_eq_lt (h : place < feats.entries.length) :
    feats.orderAt lower name place = .lt ↔ key lower feats.entries[place].1 < key lower name := by
  rw [orderAt_of_lt name h]
  split
  · next hlt => exact iff_of_true rfl hlt
  · next hge => split <;> exact iff_of_false (by decide) hge

theorem orderAt_eq_eq (h : place < feats.entries.length) :
    feats.orderAt lower name place = .eq ↔ key lower feats.entries[place].1 = key lower name := by
  rw [orderAt_of_lt name h]
  split
  · next hlt => exact iff_of_false (by decide) fun heq => List.lt_irrefl _ (heq ▸ hlt)
  · split
    · next heq => exact iff_of_true rfl heq
    · next hne => exact iff_of_false (by decide) hne

theorem orderAt_eq_gt (h : place < feats.entries.length) :
    feats.orderAt lower name place = .gt ↔ key lower name < key lower feats.entries[place].1 := by
  rw [orderAt_of_lt name h]
  split
  · next hlt => exact iff_of_false (by decide) (List.lt_asymm hlt)
  · next hge =>
    split
    · next heq => exact iff_of_false (by decide) fun hlt => List.lt_irrefl _ (heq ▸ hlt)
    · next hne => exact iff_of_true rfl ((lt_or_eq_of_not_lt hge).resolve_right (Ne.symm hne))

end orderAt

theorem between_take_drop {name : String} {before after : Nat}
    (hlt : ∀ i < before, feats.orderAt lower name i = .lt)
    (hgt : ∀ i < feats.entries.length, after ≤ i → feats.orderAt lower name i = .gt) :
    Between lower name (feats.entries.take before) (feats.entries.drop after) := by
  refine ⟨fun entry hentry => ?_, fun entry hentry => ?_⟩
  · obtain ⟨i, hi, rfl⟩ := List.mem_take_iff_getElem.1 hentry
    exact (orderAt_eq_lt (by omega)).1 (hlt i (by omega))
  · obtain ⟨i, hi, rfl⟩ := List.mem_drop_iff_getElem.1 hentry
    exact (orderAt_eq_gt (by omega)).1 (hgt _ (by omega) (by omega))

theorem Ascending.ascends (h : feats.Ascending lower) (name : String) :
    Slot.Ascends (feats.orderAt lower name) feats.entries.length := by
  have hlt : ∀ {i j} (hij : i < j) (hj : j < feats.entries.length),
      key lower feats.entries[i].1 < key lower feats.entries[j].1 := fun hij hj =>
    List.pairwise_iff_getElem.1 h _ _ (Nat.lt_trans hij hj) hj hij
  refine ⟨fun hij hj hle => ?_, fun hij hj hge => ?_⟩
  · rw [Ne, orderAt_eq_gt hj] at hle
    refine (orderAt_eq_lt (Nat.lt_trans hij hj)).2 ?_
    rcases lt_or_eq_of_not_lt hle with hbelow | heq
    · exact List.lt_trans (hlt hij hj) hbelow
    · exact heq ▸ hlt hij hj
  · rw [Ne, orderAt_eq_lt (Nat.lt_trans hij hj)] at hge
    refine (orderAt_eq_gt hj).2 ?_
    rcases lt_or_eq_of_not_lt hge with habove | heq
    · exact List.lt_trans habove (hlt hij hj)
    · exact heq ▸ hlt hij hj

theorem Ascending.site (h : feats.Ascending lower) (name : String) :
    Site lower name feats.entries (feats.slot lower name) := by
  unfold slot
  split
  · next hnil =>
    rw [hnil]
    have hsite : Site lower name ([] ++ []) (.missing 0) := .missing ⟨by simp, by simp⟩
    exact hsite
  · next hsome =>
    have hdivides := Slot.search_divides (h.ascends name) (List.length_pos_iff.2 hsome)
      (Nat.le_of_eq (Nat.zero_add _)) (by omega) (by omega)
    generalize Slot.search (feats.orderAt lower name) 0 feats.entries.length = slot at hdivides
    cases slot with
    | found place =>
      obtain ⟨hplace, heq, hlt, hgt⟩ := hdivides
      have hsite : Site lower name
          (feats.entries.take place ++ feats.entries[place] :: feats.entries.drop (place + 1)) _ :=
        .found (between_take_drop hlt hgt) ((orderAt_eq_eq hplace).1 heq)
      rwa [← List.drop_eq_getElem_cons hplace, List.take_append_drop,
        List.length_take_of_le (Nat.le_of_lt hplace)] at hsite
    | missing place =>
      obtain ⟨hplace, hlt, hgt⟩ := hdivides
      have hsite := Site.missing (between_take_drop hlt hgt)
      rwa [List.take_append_drop, List.length_take_of_le hplace] at hsite

/-! ### Calls -/

/-- A change of features. -/
inductive Call where
  | put (name value : String)
  | take (name : String)
deriving DecidableEq

namespace Call

def name : Call → String
  | put name _ => name
  | take name => name

/-- The features after the call, and the value that it gives back. -/
def apply (lower : Char → List Char) (feats : Features) : Call → Features × Option String
  | put name value => feats.put lower name value
  | take name => feats.take lower name

/-- What the call can do to features in ascending order. -/
inductive Step (lower : Char → List Char) : Call → Features → Features → Prop
  | again {before after : List (String × String)} {name value other old : String}
    (between : Between lower name before after) (same : key lower other = key lower name) :
    Step lower (put name value) ⟨before ++ (other, old) :: after⟩
      ⟨before ++ (other, value) :: after⟩
  | new {before after : List (String × String)} {name value : String}
    (between : Between lower name before after) :
    Step lower (put name value) ⟨before ++ after⟩ ⟨before ++ (name, value) :: after⟩
  | taken {before after : List (String × String)} {name other old : String}
    (between : Between lower name before after) (same : key lower other = key lower name) :
    Step lower (take name) ⟨before ++ (other, old) :: after⟩ ⟨before ++ after⟩
  | absent {before after : List (String × String)} {name : String}
    (between : Between lower name before after) :
    Step lower (take name) ⟨before ++ after⟩ ⟨before ++ after⟩

theorem insertIdx_length {α : Type} (before after : List α) (x : α) :
    (before ++ after).insertIdx before.length x = before ++ x :: after := by
  induction before with
  | nil => rfl
  | cons head rest ih => exact congrArg (head :: ·) ih

theorem step_apply (h : feats.Ascending lower) (call : Call) :
    Step lower call feats (call.apply lower feats).1 := by
  obtain ⟨entries⟩ := feats
  have hsite := h.site call.name
  cases call with
  | put name value =>
    simp only [apply, Features.put, Call.name] at hsite ⊢
    generalize slot lower ⟨entries⟩ name = slot at hsite ⊢
    cases hsite with
    | found between same =>
      simpa [List.modify_eq_take_drop] using Step.again between same
    | missing between =>
      simpa only [insertIdx_length] using Step.new between
  | take name =>
    simp only [apply, Features.take, Call.name] at hsite ⊢
    generalize slot lower ⟨entries⟩ name = slot at hsite ⊢
    cases hsite with
    | found between same =>
      simpa [List.eraseIdx_append_of_length_le] using Step.taken between same
    | missing between => exact .absent between

namespace Step
variable {call : Call} {next : Features}

theorem ascending (h : Step lower call feats next) (hfeats : feats.Ascending lower) :
    next.Ascending lower := by
  unfold Ascending at hfeats ⊢
  cases h with
  | again between same =>
    simp only [List.pairwise_append, List.pairwise_cons, List.forall_mem_cons] at hfeats ⊢
    exact hfeats
  | new between =>
    obtain ⟨hbefore, hafter, hacross⟩ := List.pairwise_append.1 hfeats
    refine List.pairwise_append.2 ⟨hbefore, List.pairwise_cons.2 ⟨between.after, hafter⟩, ?_⟩
    exact fun entry hentry =>
      List.forall_mem_cons.2 ⟨between.before entry hentry, hacross entry hentry⟩
  | taken between same =>
    exact hfeats.sublist (List.Sublist.append_left (List.sublist_cons_self _ _) _)
  | absent between => exact hfeats

/-- What holds of all names and values, and of those that are put, holds of the next ones. -/
theorem forall_mem {P Q : String → Prop} (h : Step lower call feats next)
    (hcall : ∀ name value, call = put name value → P name ∧ Q value)
    (hfeats : ∀ entry ∈ feats.entries, P entry.1 ∧ Q entry.2) :
    ∀ entry ∈ next.entries, P entry.1 ∧ Q entry.2 := by
  cases h with
  | again between same =>
    simp only [List.forall_mem_append, List.forall_mem_cons] at hfeats ⊢
    exact ⟨hfeats.1, ⟨hfeats.2.1.1, (hcall _ _ rfl).2⟩, hfeats.2.2⟩
  | new between =>
    simp only [List.forall_mem_append, List.forall_mem_cons] at hfeats ⊢
    exact ⟨hfeats.1, hcall _ _ rfl, hfeats.2⟩
  | taken between same =>
    simp only [List.forall_mem_append, List.forall_mem_cons] at hfeats ⊢
    exact ⟨hfeats.1, hfeats.2.2⟩
  | absent between => exact hfeats

/-- A call leaves other names as they are. -/
theorem mem_iff (h : Step lower call feats next)
    {name value : String} (hne : key lower name ≠ key lower call.name) :
    (name, value) ∈ next.entries ↔ (name, value) ∈ feats.entries := by
  have hother : ∀ {other any : String}, key lower other = key lower call.name →
      (name, value) ≠ (other, any) := by
    rintro other any same heq
    cases heq
    exact hne same
  cases h with
  | again between same => simp [hother same]
  | @new before after other any between =>
    have hnew : (name, value) ≠ (other, any) := hother rfl
    simp only [List.mem_append, List.mem_cons, hnew, false_or]
  | taken between same => simp [hother same]
  | absent between => rfl

end Step
end Call

/-! ### Runs of calls -/

/-- The features after the calls. -/
def run (lower : Char → List Char) (feats : Features) (calls : List Call) : Features :=
  calls.foldl (fun feats call => (call.apply lower feats).1) feats

theorem run_append (feats : Features) (earlier later : List Call) :
    run lower feats (earlier ++ later) = run lower (run lower feats earlier) later :=
  List.foldl_append

theorem run_concat (feats : Features) (calls : List Call) (call : Call) :
    run lower feats (calls ++ [call]) = (call.apply lower (run lower feats calls)).1 :=
  run_append feats calls [call]

theorem Ascending.run (h : feats.Ascending lower) (calls : List Call) :
    (run lower feats calls).Ascending lower :=
  List.foldlRecOn calls _ h fun _ hfeats call _ =>
    (Call.step_apply hfeats call).ascending hfeats

theorem ascending_run (lower : Char → List Char) (calls : List Call) :
    (run lower ∅ calls).Ascending lower :=
  have hnone : (∅ : Features).Ascending lower := .nil
  hnone.run calls

/-! ### Written and read back -/

/-- What a call sets can be told apart in a column. -/
def Call.Plain : Call → Prop
  | put name value => (name ≠ "" ∧ '=' ∉ name.toList ∧ '|' ∉ name.toList) ∧ '|' ∉ value.toList
  | take _ => True

theorem forall_mem_run {P Q : String → Prop} {calls : List Call}
    (hcalls : ∀ name value, .put name value ∈ calls → P name ∧ Q value) :
    ∀ entry ∈ (run lower ∅ calls).entries, P entry.1 ∧ Q entry.2 := by
  induction calls using List.reverseRecOn with
  | nil => exact fun entry hentry => by cases hentry
  | append_singleton calls call ih =>
    rw [run_concat]
    have hstep := Call.step_apply (ascending_run lower calls) call
    refine hstep.forall_mem ?_ (ih ?_)
    · rintro name value rfl
      exact hcalls name value (by simp)
    · exact fun name value hmem => hcalls name value (List.mem_append_left _ hmem)

theorem put_of_last {name value : String}
    (h : (feats.entries ++ [(name, value)]).Pairwise fun a b => key lower a.1 < key lower b.1) :
    (feats.put lower name value).1 = ⟨feats.entries ++ [(name, value)]⟩ := by
  obtain ⟨hfeats, -, hlast⟩ := List.pairwise_append.1 h
  have hlast : ∀ entry ∈ feats.entries, key lower entry.1 < key lower name := fun entry hentry =>
    hlast entry hentry (name, value) List.mem_cons_self
  have hstep := Call.step_apply hfeats (.put name value)
  rw [Call.apply] at hstep
  generalize (feats.put lower name value).1 = next at hstep
  cases hstep with
  | @again before after _ _ other old between same =>
    have hother := hlast (other, old) List.mem_append_cons_self
    rw [same] at hother
    exact absurd hother (List.lt_irrefl _)
  | @new before after _ _ between =>
    cases after with
    | nil => rw [List.append_nil]
    | cons entry rest =>
      have hbefore := hlast entry List.mem_append_cons_self
      exact absurd hbefore (List.lt_asymm (between.after entry List.mem_cons_self))

theorem readWith_eq_map (column : List Char) :
    readWith lower column = ((readItems column).mapM readItem).map fun entries =>
      run lower ∅ (entries.map fun entry => .put entry.1 entry.2) := by
  rw [readWith]
  cases (readItems column).mapM readItem with
  | none => rfl
  | some entries =>
    simp only [run, List.foldl_map]
    rfl

theorem readWith_eq_some {column : List Char} (h : readWith lower column = some feats) :
    ∃ calls, (∀ call ∈ calls, call.Plain) ∧ run lower ∅ calls = feats := by
  rw [readWith_eq_map] at h
  obtain ⟨entries, hentries, hrun⟩ := Option.map_eq_some_iff.1 h
  refine ⟨_, fun call hcall => ?_, hrun⟩
  obtain ⟨entry, hentry, rfl⟩ := List.mem_map.1 hcall
  obtain ⟨item, hitem, hread⟩ := mem_of_mapM_eq_some hentries entry hentry
  exact plain_of_readItem hitem hread

theorem Ascending.readWith_write (h : feats.Ascending lower)
    (hplain : ∀ entry ∈ feats.entries,
      (entry.1 ≠ "" ∧ '=' ∉ entry.1.toList ∧ '|' ∉ entry.1.toList) ∧ '|' ∉ entry.2.toList) :
    readWith lower feats.write = some feats := by
  rw [readWith, mapM_readItem_write (fun entry hentry => (hplain entry hentry).1)
    (fun entry hentry => (hplain entry hentry).2)]
  exact congrArg some (foldl_set (fun feats name value => put_of_last) h)

theorem readWith_write_run {calls : List Call} (h : ∀ call ∈ calls, call.Plain) :
    readWith lower (run lower ∅ calls).write = some (run lower ∅ calls) := by
  refine (ascending_run lower calls).readWith_write ?_
  exact forall_mem_run (P := fun name => name ≠ "" ∧ '=' ∉ name.toList ∧ '|' ∉ name.toList)
    (Q := fun value => '|' ∉ value.toList) fun name value hmem => h _ hmem

/-! ### With the folding of the model's own characters -/

/-- The call on features whose entries are gone through one by one. -/
def Call.perform (feats : Features) : Call → Features
  | put name value => feats.insert name value
  | take name => feats.erase name

theorem Call.Step.eq_perform {call : Call} {next : Features}
    (h : Step Text.lower call feats next) : next = call.perform feats := by
  cases h with
  | @again before after name value other old between same =>
    have hentries : insertEntry (fold name) name value (before ++ (other, old) :: after) =
        before ++ insertEntry (fold name) name value ((other, old) :: after) :=
      insertEntry_append between.before _
    have hother : insertEntry (fold name) name value ((other, old) :: after) =
        (other, value) :: after := if_pos same
    rw [hother] at hentries
    exact congrArg Features.mk hentries.symm
  | @new before after name value between =>
    have hentries : insertEntry (fold name) name value (before ++ after) =
        before ++ insertEntry (fold name) name value after :=
      insertEntry_append between.before _
    have hafter : insertEntry (fold name) name value after = (name, value) :: after := by
      cases after with
      | nil => rfl
      | cons entry rest =>
        have hlt : fold name < fold entry.1 := between.after entry List.mem_cons_self
        have hne : fold entry.1 ≠ fold name := fun heq => List.lt_irrefl _ (heq ▸ hlt)
        exact (if_neg hne).trans (if_pos hlt)
    rw [hafter] at hentries
    exact congrArg Features.mk hentries.symm
  | @taken before after name other old between same =>
    have hbefore : ∀ entry ∈ before, ¬ decide (fold entry.1 = fold name) = true :=
      fun entry hentry => mt of_decide_eq_true (between.ne entry (List.mem_append_left _ hentry))
    have hother : decide (fold (other, old).1 = fold name) = true := decide_eq_true same
    refine congrArg Features.mk ?_
    rw [List.eraseP_append_right _ hbefore, List.eraseP_cons, hother]
    rfl
  | @absent before after name between =>
    have hnone : ∀ entry ∈ before ++ after, ¬ decide (fold entry.1 = fold name) = true :=
      fun entry hentry => mt of_decide_eq_true (between.ne entry hentry)
    exact congrArg Features.mk (List.eraseP_of_forall_not hnone).symm

/-- On ascending features the calls do what going through the entries does. -/
theorem run_eq_foldl (h : feats.Ascending Text.lower) (calls : List Call) :
    run Text.lower feats calls = calls.foldl Call.perform feats := by
  induction calls generalizing feats with
  | nil => rfl
  | cons call rest ih =>
    have hstep := Call.step_apply h call
    rw [List.foldl_cons, ← hstep.eq_perform]
    exact ih (hstep.ascending h)

/-- Columns are read into the same features. -/
theorem readWith_eq_read (column : List Char) : readWith Text.lower column = read column := by
  rw [readWith_eq_map, read]
  cases (readItems column).mapM readItem with
  | none => rfl
  | some entries =>
    have hnone : (∅ : Features).Ascending Text.lower := .nil
    have hrun := run_eq_foldl hnone (entries.map fun entry => .put entry.1 entry.2)
    rw [List.foldl_map] at hrun
    exact congrArg some hrun

end Features
end Treebank
