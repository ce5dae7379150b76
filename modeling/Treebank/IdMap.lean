/-! Maps from ids, in ascending order of id.

The order is part of the type, so two maps with the same values are the same map
and a walk over `entries` meets the ids in order. -/
namespace Treebank

structure IdMap (α : Type) where
  entries : List (Nat × α) := []
  ascending : entries.Pairwise (fun a b => a.1 < b.1) := by exact .nil
deriving DecidableEq

namespace IdMap
variable {α : Type}

instance : EmptyCollection (IdMap α) := ⟨{}⟩
instance : Inhabited (IdMap α) := ⟨∅⟩

def get? (map : IdMap α) (id : Nat) : Option α := map.entries.lookup id

@[ext]
theorem ext {a b : IdMap α} (h : a.entries = b.entries) : a = b := by
  cases a
  cases b
  simp only [mk.injEq]
  exact h

/-! ### Reading -/

theorem lookup_cons (key id : Nat) (value : α) (entries : List (Nat × α)) :
    ((key, value) :: entries).lookup id = if id = key then some value else entries.lookup id := by
  by_cases h : id = key
  · simp [h]
  · simp [List.lookup_cons, beq_false_of_ne h, h]

theorem mem_entries_iff {map : IdMap α} {id : Nat} {value : α} :
    (id, value) ∈ map.entries ↔ map.get? id = some value := by
  obtain ⟨entries, hascending⟩ := map
  show _ ↔ entries.lookup id = some value
  induction entries with
  | nil => simp
  | cons entry rest ih =>
    obtain ⟨hentry, hrest⟩ := List.pairwise_cons.1 hascending
    obtain ⟨key, first⟩ := entry
    rw [List.mem_cons, ih hrest, lookup_cons]
    by_cases hkey : id = key
    · -- Later ids are greater, so this one does not come again.
      have hlater : ¬ rest.lookup id = some value := fun hlookup =>
        absurd (hentry _ ((ih hrest).2 hlookup)) (by simp [hkey])
      rw [or_iff_left hlater]
      simp [hkey, eq_comm]
    · simp [hkey]

/-- The values, in ascending order of their ids. -/
def values (map : IdMap α) : List α := map.entries.map Prod.snd

def size (map : IdMap α) : Nat := map.entries.length

/-! ### Writing -/

/-- The entries with `id` set to `value`, in its place. -/
def insertEntry (id : Nat) (value : α) : List (Nat × α) → List (Nat × α)
  | [] => [(id, value)]
  | entry :: rest =>
    if id < entry.1 then (id, value) :: entry :: rest
    else if id = entry.1 then (id, value) :: rest
    else entry :: insertEntry id value rest

theorem mem_insertEntry {id : Nat} {value : α} {entries : List (Nat × α)} {e : Nat × α}
    (h : e ∈ insertEntry id value entries) : e = (id, value) ∨ e ∈ entries := by
  induction entries with
  | nil => exact .inl (List.mem_singleton.1 h)
  | cons entry rest ih =>
    simp only [insertEntry] at h
    split at h
    · exact List.mem_cons.1 h
    · split at h
      · exact (List.mem_cons.1 h).imp_right (List.mem_cons_of_mem _)
      · rcases List.mem_cons.1 h with rfl | h
        · exact .inr List.mem_cons_self
        · exact (ih h).imp_right (List.mem_cons_of_mem _)

theorem ascending_insertEntry {id : Nat} {value : α} {entries : List (Nat × α)}
    (h : entries.Pairwise (fun a b => a.1 < b.1)) :
    (insertEntry id value entries).Pairwise (fun a b => a.1 < b.1) := by
  induction entries with
  | nil => simp [insertEntry]
  | cons entry rest ih =>
    obtain ⟨first, later⟩ := List.pairwise_cons.1 h
    simp only [insertEntry]
    split
    · next lt =>
      refine List.pairwise_cons.2 ⟨fun e he => ?_, h⟩
      rcases List.mem_cons.1 he with rfl | he
      · exact lt
      · exact Nat.lt_trans lt (first e he)
    · split
      · next eq => exact List.pairwise_cons.2 ⟨fun e he => eq ▸ first e he, later⟩
      · refine List.pairwise_cons.2 ⟨fun e he => ?_, ih later⟩
        rcases mem_insertEntry he with rfl | he
        · show entry.1 < id
          omega
        · exact first e he

def insert (map : IdMap α) (id : Nat) (value : α) : IdMap α where
  entries := insertEntry id value map.entries
  ascending := ascending_insertEntry map.ascending

/-- Every value is replaced by what `f` makes of it and its id. -/
def mapValues {β : Type} (f : Nat → α → β) (map : IdMap α) : IdMap β where
  entries := map.entries.map fun entry => (entry.1, f entry.1 entry.2)
  ascending := List.pairwise_map.2 map.ascending

theorem get?_mapValues {β : Type} (f : Nat → α → β) (map : IdMap α) (id : Nat) :
    (map.mapValues f).get? id = (map.get? id).map (f id) := by
  obtain ⟨entries, ascending⟩ := map
  simp only [get?, mapValues]
  clear ascending
  induction entries with
  | nil => rfl
  | cons entry rest ih =>
    obtain ⟨key, value⟩ := entry
    rw [List.map_cons, List.lookup_cons, List.lookup_cons]
    by_cases h : id = key
    · simp [h]
    · simp only [beq_false_of_ne h]
      exact ih

theorem mapValues_mapValues {β γ : Type} (g : Nat → β → γ) (f : Nat → α → β) (map : IdMap α) :
    (map.mapValues f).mapValues g = map.mapValues fun id value => g id (f id value) := by
  ext1
  simp [mapValues]

/-- The value at `id`, if there is one, is replaced. -/
def modify (map : IdMap α) (id : Nat) (f : α → α) : IdMap α :=
  map.mapValues fun other value => if other = id then f value else value

/-- The values are added to the end of the list at `id`. -/
def append (map : IdMap (List α)) (id : Nat) (values : List α) : IdMap (List α) :=
  map.insert id ((map.get? id).getD [] ++ values)

/-! ### Values that know their ids -/

section Filed
variable {β : Type} {P : Nat → α → Prop} {Q : Nat → β → Prop}

/-- Every value is filed under an id that it fits. -/
def Filed (P : Nat → α → Prop) (map : IdMap α) : Prop := ∀ entry ∈ map.entries, P entry.1 entry.2

instance [∀ id, DecidablePred (P id)] : DecidablePred (Filed P) := fun map =>
  inferInstanceAs (Decidable (∀ entry ∈ map.entries, P entry.1 entry.2))

theorem Filed.get? {map : IdMap α} (h : Filed P map) {id : Nat} {value : α}
    (hvalue : map.get? id = some value) : P id value :=
  h _ (mem_entries_iff.2 hvalue)

theorem filed_empty : Filed P ∅ := fun _ hentry => absurd hentry List.not_mem_nil

theorem Filed.insert {map : IdMap α} (h : Filed P map) {id : Nat} {value : α}
    (hvalue : P id value) : Filed P (map.insert id value) := by
  intro entry hentry
  rcases mem_insertEntry hentry with rfl | hold
  · exact hvalue
  · exact h entry hold

theorem Filed.mapValues {map : IdMap α} (h : Filed P map) {f : Nat → α → β}
    (hf : ∀ id value, P id value → Q id (f id value)) : Filed Q (map.mapValues f) := by
  intro entry hentry
  obtain ⟨old, hold, rfl⟩ := List.mem_map.1 hentry
  exact hf old.1 old.2 (h old hold)

theorem Filed.append {P : Nat → α → Prop} {map : IdMap (List α)}
    (h : Filed (fun id values => ∀ value ∈ values, P id value) map) {id : Nat} {values : List α}
    (hvalues : ∀ value ∈ values, P id value) :
    Filed (fun id values => ∀ value ∈ values, P id value) (map.append id values) := by
  refine h.insert fun value hvalue => ?_
  rcases List.mem_append.1 hvalue with hold | hnew
  · cases hlist : map.get? id with
    | none => rw [hlist] at hold; cases hold
    | some list => rw [hlist] at hold; exact h.get? hlist value hold
  · exact hvalues value hnew

end Filed

end IdMap
end Treebank
