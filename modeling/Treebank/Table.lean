/-! Tables that keep their rows in the order in which the keys first came.

A key that comes again keeps its place and takes the new value. -/
namespace Treebank

structure Table (κ α : Type) where
  rows : List (κ × α) := []
deriving DecidableEq

namespace Table
variable {κ α : Type} [DecidableEq κ]

instance : EmptyCollection (Table κ α) := ⟨{}⟩

def get? (table : Table κ α) (key : κ) : Option α := table.rows.lookup key

def keys (table : Table κ α) : List κ := table.rows.map Prod.fst

def isEmpty (table : Table κ α) : Bool := table.rows.isEmpty

/-- The rows with `key` set to `value`, in its place if it is there and at the end if not. -/
def insertRow (key : κ) (value : α) : List (κ × α) → List (κ × α)
  | [] => [(key, value)]
  | row :: rest => if row.1 = key then (key, value) :: rest else row :: insertRow key value rest

def insert (table : Table κ α) (key : κ) (value : α) : Table κ α :=
  ⟨insertRow key value table.rows⟩

theorem insertRow_eq_append {key : κ} {value : α} {rows : List (κ × α)}
    (h : key ∉ rows.map Prod.fst) : insertRow key value rows = rows ++ [(key, value)] := by
  induction rows with
  | nil => rfl
  | cons row rest ih =>
    rw [List.map_cons, List.mem_cons, not_or] at h
    rw [insertRow, if_neg (Ne.symm h.1), ih h.2]
    rfl

theorem keys_insert_of_not_mem {table : Table κ α} {key : κ} {value : α} (h : key ∉ table.keys) :
    (table.insert key value).keys = table.keys ++ [key] := by
  rw [insert, keys, insertRow_eq_append h, List.map_append]
  rfl

theorem mem_insertRow {key : κ} {value : α} {rows : List (κ × α)} {row : κ × α}
    (h : row ∈ insertRow key value rows) : row = (key, value) ∨ row ∈ rows := by
  induction rows with
  | nil => exact .inl (List.mem_singleton.1 h)
  | cons first rest ih =>
    rw [insertRow] at h
    split at h
    · exact (List.mem_cons.1 h).imp_right (List.mem_cons_of_mem _)
    · rcases List.mem_cons.1 h with rfl | h
      · exact .inr List.mem_cons_self
      · exact (ih h).imp_right (List.mem_cons_of_mem _)

theorem nodup_insertRow {key : κ} {value : α} {rows : List (κ × α)}
    (h : (rows.map Prod.fst).Nodup) : ((insertRow key value rows).map Prod.fst).Nodup := by
  induction rows with
  | nil => exact List.nodup_cons.2 ⟨List.not_mem_nil, .nil⟩
  | cons first rest ih =>
    obtain ⟨hfirst, hrest⟩ := List.nodup_cons.1 h
    rw [insertRow]
    split
    · next hkey => exact List.nodup_cons.2 ⟨hkey ▸ hfirst, hrest⟩
    · next hkey =>
      refine List.nodup_cons.2 ⟨fun hmem => ?_, ih hrest⟩
      obtain ⟨row, hrow, heq⟩ := List.mem_map.1 hmem
      rcases mem_insertRow hrow with rfl | hold
      · exact hkey heq.symm
      · exact hfirst (heq ▸ List.mem_map_of_mem hold)

theorem get?_eq_none {table : Table κ α} {key : κ} (h : key ∉ table.keys) :
    table.get? key = none := by
  rw [get?, List.lookup_eq_none_iff]
  intro row hrow
  rw [bne_iff_ne]
  rintro rfl
  exact h (List.mem_map_of_mem hrow)

theorem get?_eq_some {table : Table κ α} {key : κ} {value : α} (h : table.keys.Nodup)
    (hrow : (key, value) ∈ table.rows) : table.get? key = some value := by
  obtain ⟨rows⟩ := table
  unfold get? keys at *
  induction rows with
  | nil => cases hrow
  | cons row rest ih =>
    obtain ⟨hfirst, hrest⟩ := List.nodup_cons.1 h
    rcases List.mem_cons.1 hrow with rfl | hrow
    · exact List.lookup_cons_self
    · have hne : key ≠ row.1 := fun heq => hfirst (heq ▸ List.mem_map_of_mem hrow)
      rw [List.lookup_cons, beq_false_of_ne hne]
      exact ih hrest hrow

theorem mem_keys_insert {table : Table κ α} {key other : κ} {value : α} :
    other ∈ (table.insert key value).keys ↔ other ∈ table.keys ∨ other = key := by
  obtain ⟨rows⟩ := table
  unfold insert keys
  induction rows with
  | nil => simp [insertRow]
  | cons row rest ih =>
    rw [insertRow]
    split
    · next hkey =>
      rw [List.map_cons, List.map_cons, List.mem_cons, List.mem_cons, hkey]
      exact ⟨fun h => h.elim .inr fun hrest => .inl (.inr hrest), fun h => h.elim id .inl⟩
    · rw [List.map_cons, List.map_cons, List.mem_cons, List.mem_cons, ih, or_assoc]

end Table
end Treebank
