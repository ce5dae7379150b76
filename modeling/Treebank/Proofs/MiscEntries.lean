import Mathlib.Data.List.Induction
import Mathlib.Data.List.Nodup
import Mathlib.Data.List.TakeWhile
import Treebank.Proofs.TokenLines

/-! The column of miscellaneous entries as text.

An item of the column is kept as it is spelled: a value is held as a number only if it is the
decimal spelling of one, with no sign and no leading zero, so that writing gives back what was read
(`holds_readItem`). Where a key comes again, the row that is there takes the new value. So what is
written is, key by key in the order in which they first come, the last item with the key, and the
whole column if no key comes twice (`write_read_outcome`). -/
namespace Treebank

/-! ### Numbers as they are written -/

namespace Text

/-- The digits of a number, with nothing before them: no sign and no zero. -/
structure IsWritten (text : List Char) (n : Nat) : Prop where
  nonempty : text ≠ []
  digits : ∀ c ∈ text, c.isDigit = true
  leading : text.head? = some '0' → text = ['0']
  value : Nat.ofDigitChars 10 text 0 = n

theorem exists_digit {c : Char} (h : c.isDigit = true) :
    ∃ digit < 10, digit.digitChar = c ∧ c.toNat - '0'.toNat = digit := by
  have hbounds : 48 ≤ c.toNat ∧ c.toNat ≤ 57 := Char.isDigit_iff_toNat.1 h
  have hchar : ∀ digit < 10, digit.digitChar.toNat = digit + 48 := by decide
  refine ⟨c.toNat - 48, by omega, Char.toNat_inj.1 ?_, rfl⟩
  rw [hchar _ (by omega)]
  omega

/-- By the last digit: the ones before it are a number as it is written too, and not 0. -/
theorem writeNumber_ofDigitChars {text : List Char} (hne : text ≠ [])
    (hdigits : ∀ c ∈ text, c.isDigit = true) (hleading : text.head? = some '0' → text = ['0']) :
    writeNumber (Nat.ofDigitChars 10 text 0) = text := by
  induction text using List.reverseRecOn with
  | nil => exact absurd rfl hne
  | append_singleton front c ih =>
    obtain ⟨digit, hdigit, hchar, hvalue⟩ := exists_digit (hdigits c (by simp))
    have hone : writeNumber digit = [c] := by
      rw [writeNumber, Nat.toDigits_of_lt_base hdigit, hchar]
    rw [Nat.ofDigitChars_append, Nat.ofDigitChars_cons, Nat.ofDigitChars_nil, hvalue]
    by_cases hfront : front = []
    · rw [hfront, Nat.ofDigitChars_nil, Nat.mul_zero, Nat.zero_add, hone]
      rfl
    · have hhead : front.head? ≠ some '0' := by
        intro hzero
        have hwhole := hleading (by rw [List.head?_append_of_ne_nil _ hfront, hzero])
        exact hfront (List.append_eq_singleton_iff.1 hwhole |>.elim (·.1) fun h => by simp at h)
      have hback := ih hfront (fun d hd => hdigits d (List.mem_append_left _ hd))
        fun hzero => absurd hzero hhead
      have hpos : 0 < Nat.ofDigitChars 10 front 0 := by
        apply Nat.pos_of_ne_zero
        intro hzero
        rw [hzero] at hback
        exact hhead (by rw [← hback]; rfl)
      rw [writeNumber, ← Nat.toDigits_append_toDigits (by decide) hpos hdigit]
      exact congrArg₂ _ hback hone

theorem head?_writeNumber {n : Nat} (h : (writeNumber n).head? = some '0') :
    writeNumber n = ['0'] := by
  induction n using Nat.strongRecOn with
  | _ n ih =>
    rcases Nat.lt_or_ge n 10 with hlt | hge
    · rw [writeNumber, Nat.toDigits_of_lt_base hlt] at h ⊢
      rw [Option.some.inj h]
    · -- the number without its last digit is not 0, so its first digit is not either
      have hsplit : writeNumber n = writeNumber (n / 10) ++ [(n % 10).digitChar] :=
        Nat.toDigits_of_base_le (by decide) hge
      have hsome : writeNumber (n / 10) ≠ [] := Nat.toDigits_ne_nil
      rw [hsplit, List.head?_append_of_ne_nil _ hsome] at h
      have hfront := ih (n / 10) (by omega) h
      have hzero : Nat.ofDigitChars 10 (writeNumber (n / 10)) 0 = n / 10 :=
        Nat.ofDigitChars_ten_toDigits
      rw [hfront] at hzero
      have : n / 10 = 0 := hzero.symm
      omega

/-- Each number has one such text, the one that it is written as. -/
theorem isWritten_iff {text : List Char} {n : Nat} : IsWritten text n ↔ writeNumber n = text := by
  constructor
  · rintro ⟨hne, hdigits, hleading, rfl⟩
    exact writeNumber_ofDigitChars hne hdigits hleading
  · rintro rfl
    exact ⟨Nat.toDigits_ne_nil, fun c hc => Nat.isDigit_of_mem_toDigits (by decide) (by decide) hc,
      head?_writeNumber, Nat.ofDigitChars_ten_toDigits⟩

theorem readWritten_eq_some_iff {text : List Char} {n : Nat} :
    readWritten text = some n ↔ n < numberBound ∧ IsWritten text n := by
  rw [isWritten_iff]
  constructor
  · intro h
    exact ⟨lt_of_readNumber (Option.filter_eq_some_iff.1 h).1, writeNumber_of_readWritten h⟩
  · rintro ⟨hlt, rfl⟩
    rw [readWritten, readNumber_write hlt]
    simp

end Text

open Text

/-! ### The last of each key -/

section LastOfEach
variable {α κ : Type} [DecidableEq κ] (key : α → κ)

/-- One element for each key, in the order in which the keys first come: the last that has it. -/
def lastOfEach (items : List α) : List α :=
  (items.map key).eraseDups.filterMap fun k => (items.filter (key · = k)).getLast?

variable {key}

theorem eraseDups_of_nodup {keys : List κ} (h : keys.Nodup) : keys.eraseDups = keys := by
  induction keys with
  | nil => rfl
  | cons k rest ih =>
    obtain ⟨hk, hrest⟩ := List.nodup_cons.1 h
    have hkept : rest.filter (fun other => !other == k) = rest := by
      refine List.filter_eq_self.2 fun other hother => ?_
      rw [Bool.not_eq_true', beq_eq_false_iff_ne]
      rintro rfl
      exact hk hother
    rw [List.eraseDups_cons, hkept, ih hrest]

theorem eraseDups_concat (keys : List κ) (k : κ) :
    (keys ++ [k]).eraseDups = if k ∈ keys then keys.eraseDups else keys.eraseDups ++ [k] := by
  have hone : [k].eraseDups = [k] := eraseDups_of_nodup (List.pairwise_singleton _ k)
  rw [List.eraseDups_append]
  by_cases hk : k ∈ keys <;> simp [hk, List.removeAll, hone]

theorem getLast?_filter_concat (items : List α) (item : α) (k : κ) :
    ((items ++ [item]).filter (key · = k)).getLast? =
      if key item = k then some item else (items.filter (key · = k)).getLast? := by
  rw [List.filter_append]
  by_cases hk : key item = k <;> simp [hk]

theorem exists_getLast?_filter {items : List α} {k : κ} (h : k ∈ items.map key) :
    ∃ last, (items.filter (key · = k)).getLast? = some last ∧ key last = k := by
  obtain ⟨item, hitem, rfl⟩ := List.mem_map.1 h
  have hsome : items.filter (key · = key item) ≠ [] :=
    List.ne_nil_of_mem (List.mem_filter.2 ⟨hitem, decide_eq_true rfl⟩)
  refine ⟨_, List.getLast?_eq_some_getLast hsome, ?_⟩
  exact of_decide_eq_true (List.mem_filter.1 (List.getLast_mem hsome)).2

/-- One more element takes the place of the one with its key, or comes last. -/
theorem lastOfEach_concat (items : List α) (item : α) :
    lastOfEach key (items ++ [item]) =
      if key item ∈ items.map key then
        (lastOfEach key items).map fun old => if key old = key item then item else old
      else lastOfEach key items ++ [item] := by
  simp only [lastOfEach, List.map_append, List.map_singleton, eraseDups_concat,
    getLast?_filter_concat]
  split
  · rw [List.map_filterMap]
    refine List.filterMap_congr fun k hk => ?_
    obtain ⟨old, hlast, rfl⟩ := exists_getLast?_filter (List.mem_eraseDups.1 hk)
    rw [hlast, Option.map_some]
    by_cases hsame : key item = key old
    · rw [if_pos hsame, if_pos hsame.symm]
    · rw [if_neg hsame, if_neg (Ne.symm hsame)]
  · next hnew =>
    rw [List.filterMap_append]
    congr 1
    · refine List.filterMap_congr fun k hk => if_neg ?_
      rintro rfl
      exact hnew (List.mem_eraseDups.1 hk)
    · rw [List.filterMap_cons, if_pos rfl, List.filterMap_nil]

theorem map_key_lastOfEach (items : List α) :
    (lastOfEach key items).map key = (items.map key).eraseDups := by
  rw [lastOfEach, List.map_filterMap]
  refine (List.filterMap_congr fun k hk => ?_).trans List.filterMap_some
  obtain ⟨last, hlast, hkey⟩ := exists_getLast?_filter (List.mem_eraseDups.1 hk)
  rw [hlast, Option.map_some, hkey]

theorem mem_keys_lastOfEach {items : List α} {k : κ} :
    k ∈ (lastOfEach key items).map key ↔ k ∈ items.map key := by
  rw [map_key_lastOfEach, List.mem_eraseDups]

theorem nodup_keys_lastOfEach (items : List α) : ((lastOfEach key items).map key).Nodup := by
  rw [map_key_lastOfEach]
  exact nodup_eraseDups _

/-- Where no key comes twice, every element is the last of its key. -/
theorem lastOfEach_of_nodup {items : List α} (h : (items.map key).Nodup) :
    lastOfEach key items = items := by
  induction items using List.reverseRecOn with
  | nil => rfl
  | append_singleton front item ih =>
    rw [List.map_append, List.map_singleton, ← List.concat_eq_append, List.nodup_concat] at h
    rw [lastOfEach_concat, if_neg h.1, ih h.2]

end LastOfEach

/-! ### Rows of a column -/

/-- A row that is set anew takes the value, and no other row changes. -/
theorem Table.insertRow_eq_map {κ α : Type} [DecidableEq κ] {key : κ} {value : α}
    {rows : List (κ × α)} (h : (rows.map Prod.fst).Nodup) (hkey : key ∈ rows.map Prod.fst) :
    insertRow key value rows = rows.map fun row => if row.1 = key then (key, value) else row := by
  induction rows with
  | nil => cases hkey
  | cons row rest ih =>
    obtain ⟨hrow, hrest⟩ := List.nodup_cons.1 h
    rw [insertRow, List.map_cons]
    split
    · next hsame =>
      congr 1
      refine ((List.map_congr_left fun other hother => if_neg ?_).trans (List.map_id _)).symm
      rintro rfl
      exact hrow (hsame ▸ List.mem_map_of_mem hother)
    · next hother => rw [ih hrest ((List.mem_cons.1 hkey).resolve_left (Ne.symm hother))]

namespace MiscValue

theorem read_eq_number_iff {value : List Char} {n : Nat} :
    read value = .number n ↔ n < numberBound ∧ IsWritten value n := by
  rw [← readWritten_eq_some_iff, read]
  cases readWritten value <;> simp

theorem read_eq_text_iff {value : List Char} {s : String} :
    read value = .text s ↔ s.toList = value ∧ ∀ n < numberBound, ¬ IsWritten value n := by
  have hnone : readWritten value = none ↔ ∀ n < numberBound, ¬ IsWritten value n := by
    rw [Option.eq_none_iff_forall_ne_some]
    simp only [Ne, readWritten_eq_some_iff, not_and]
  rw [← hnone, read]
  cases readWritten value with
  | none =>
    rw [text.injEq, and_iff_left rfl]
    constructor
    · rintro rfl
      exact String.toList_ofList
    · rintro rfl
      exact String.ofList_toList
  | some n => simp

theorem read_ne_flag (value : List Char) : read value ≠ .flag := by
  rw [read]
  cases readWritten value <;> simp

end MiscValue

namespace Misc

/-- The text of an item before its first equals sign, or all of it. -/
def itemKey (item : List Char) : List Char := item.takeWhile (· ≠ '=')

/-- The row has the key of the item, and a value of the kind that the item spells. -/
structure Holds (item : List Char) (row : String × MiscValue) : Prop where
  key : row.1.toList = itemKey item
  flag : row.2 = .flag ↔ '=' ∉ item
  number : ∀ n, row.2 = .number n ↔
    n < numberBound ∧ ∃ text, item = itemKey item ++ '=' :: text ∧ IsWritten text n
  text : ∀ s, row.2 = .text s ↔
    item = itemKey item ++ '=' :: s.toList ∧ ∀ n < numberBound, ¬ IsWritten s.toList n

theorem itemKey_of_not_mem {item : List Char} (h : '=' ∉ item) : itemKey item = item := by
  refine List.takeWhile_eq_self_iff.2 fun c hc => decide_eq_true ?_
  rintro rfl
  exact h hc

theorem itemKey_append {key : List Char} (h : '=' ∉ key) (value : List Char) :
    itemKey (key ++ '=' :: value) = key := by
  rw [itemKey, List.takeWhile_append_of_pos, List.takeWhile_cons_of_neg (by simp),
    List.append_nil]
  intro c hc
  refine decide_eq_true ?_
  rintro rfl
  exact h hc

theorem holds_readItem (item : List Char) : Holds item (readItem item) := by
  by_cases hequals : '=' ∈ item
  · obtain ⟨key, value, rfl, hkey⟩ := List.eq_append_cons_of_mem hequals
    rw [readItem, splitFirst_append hkey]
    constructor
    case key => rw [String.toList_ofList, itemKey_append hkey]
    case flag => simp [MiscValue.read_ne_flag]
    case number =>
      intro n
      simp [MiscValue.read_eq_number_iff, itemKey_append hkey]
    case text =>
      intro s
      rw [itemKey_append hkey, List.append_cancel_left_eq, List.cons.injEq, and_iff_right rfl]
      show MiscValue.read value = .text s ↔ _
      rw [MiscValue.read_eq_text_iff, eq_comm]
      refine and_congr_right fun heq => ?_
      rw [heq]
  · rw [readItem, splitFirst_of_not_mem hequals]
    have hnone : ∀ text, item ≠ itemKey item ++ '=' :: text := fun text heq =>
      hequals (by rw [heq]; simp)
    constructor
    case key => rw [String.toList_ofList, itemKey_of_not_mem hequals]
    case flag => simp [hequals]
    case number => simp [hnone]
    case text => simp [hnone]

theorem fst_readItem (item : List Char) : (readItem item).1 = String.ofList (itemKey item) := by
  rw [← (holds_readItem item).key, String.ofList_toList]

theorem fst_readItem_inj {a b : List Char} :
    (readItem a).1 = (readItem b).1 ↔ itemKey a = itemKey b := by
  rw [← (holds_readItem a).key, ← (holds_readItem b).key, String.toList_inj]

/-- The rows that are inserted one by one come from the last items of all keys. -/
theorem rows_foldl_insert (items : List (List Char)) :
    (items.foldl (fun (misc : Misc) item => misc.insert (readItem item).1 (readItem item).2)
      ∅).rows = (lastOfEach itemKey items).map readItem := by
  induction items using List.reverseRecOn with
  | nil => rfl
  | append_singleton front item ih =>
    have hinj : Function.Injective String.ofList := fun _ _ => String.ofList_injective
    have hkeys : ((lastOfEach itemKey front).map readItem).map Prod.fst =
        ((lastOfEach itemKey front).map itemKey).map String.ofList := by
      rw [List.map_map, List.map_map]
      exact List.map_congr_left fun old _ => fst_readItem old
    have hmem : (readItem item).1 ∈ ((lastOfEach itemKey front).map readItem).map Prod.fst ↔
        itemKey item ∈ front.map itemKey := by
      rw [hkeys, fst_readItem, List.mem_map_of_injective hinj, mem_keys_lastOfEach]
    have hnodup : (((lastOfEach itemKey front).map readItem).map Prod.fst).Nodup := by
      rw [hkeys]
      exact (nodup_keys_lastOfEach _).map hinj
    rw [List.foldl_append, List.foldl_cons, List.foldl_nil, Table.insert, ih, lastOfEach_concat]
    show Table.insertRow _ _ _ = _
    split
    · next hold =>
      rw [Table.insertRow_eq_map hnodup (hmem.2 hold), List.map_map, List.map_map]
      refine List.map_congr_left fun old _ => ?_
      simp only [Function.comp_apply, fst_readItem_inj]
      split <;> rfl
    · next hnew =>
      rw [Table.insertRow_eq_append (mt hmem.1 hnew), List.map_append]
      rfl

theorem rows_read {column : List Char} (h : column ≠ ['_']) :
    (read column).rows = (lastOfEach itemKey (column.splitOn '|')).map readItem := by
  rw [← pieces_eq_splitOn, ← rows_foldl_insert, read, readItems, if_neg h]

theorem lastOfEach_splitOn_ne_nil (column : List Char) :
    lastOfEach itemKey (column.splitOn '|') ≠ [] := by
  have hsome : pieces '|' column ≠ [] := pieces_ne_nil column
  obtain ⟨item, rest, hitems⟩ := List.exists_cons_of_ne_nil hsome
  have hkey : itemKey item ∈ (column.splitOn '|').map itemKey := by
    rw [← pieces_eq_splitOn, hitems]
    exact List.mem_cons_self
  intro hnone
  rw [← mem_keys_lastOfEach, hnone] at hkey
  cases hkey

theorem write_read_eq (column : List Char) :
    (read column).write = joinWith '|' (lastOfEach itemKey (column.splitOn '|')) := by
  by_cases hblank : column = ['_']
  · rw [hblank]
    decide
  · have hrows : ((lastOfEach itemKey (column.splitOn '|')).map readItem).map
        (fun row => row.1.toList ++ row.2.write) = lastOfEach itemKey (column.splitOn '|') := by
      rw [List.map_map]
      exact (List.map_congr_left fun item _ => write_readItem item).trans (List.map_id _)
    rw [write, rows_read hblank]
    show writeItems (List.map (fun row : String × MiscValue => row.1.toList ++ row.2.write) _) = _
    rw [hrows, writeItems, if_neg (lastOfEach_splitOn_ne_nil column)]

/-- **The column is kept as text**: every row holds the last item of its key, keys keep the order in
which they first come, and the column is written as the items that are held. An underscore holds
nothing and is written for nothing. So a column in which no key comes twice is written as it is. -/
theorem write_read_outcome (column : List Char) :
    (column = ['_'] → (read column).rows = []) ∧
    (column ≠ ['_'] →
      List.Forall₂ Holds (lastOfEach itemKey (column.splitOn '|')) (read column).rows) ∧
    (read column).write = joinWith '|' (lastOfEach itemKey (column.splitOn '|')) ∧
    (((column.splitOn '|').map itemKey).Nodup → (read column).write = column) := by
  refine ⟨?_, fun hsome => ?_, write_read_eq column, fun hnodup => ?_⟩
  · rintro rfl
    rfl
  · rw [rows_read hsome, List.forall₂_map_right_iff, List.forall₂_same]
    exact fun item _ => holds_readItem item
  · rw [write_read_eq, lastOfEach_of_nodup hnodup, ← pieces_eq_splitOn, joinWith_pieces]

/-- A sign, a leading zero, a number that is too great and empty keys and values stay as they are;
a key that comes again keeps its place and takes the new value. -/
theorem write_read_outcome_of_two :
    let column := "n=+5|m=05|=|_|e=|k=18446744073709551616|5=5=5|l=18446744073709551615".toList
    let again := "A=1|B|A=+1|=x|B=2|".toList
    ((column.splitOn '|').map itemKey).Nodup ∧ (read column).write = column ∧
      again ≠ ['_'] ∧ (read again).write = "A=+1|B=2|".toList ∧
      List.Forall₂ Holds ["A=+1".toList, "B=2".toList, []]
        [("A", .text "+1"), ("B", .number 2), ("", .flag)] := by
  intro column again
  have hdistinct : ((column.splitOn '|').map itemKey).Nodup := by decide +kernel
  have hsome : again ≠ ['_'] := by decide
  have hlast : lastOfEach itemKey (again.splitOn '|') = ["A=+1".toList, "B=2".toList, []] := by
    decide +kernel
  have hrows : (read again).rows = [("A", .text "+1"), ("B", .number 2), ("", .flag)] := by
    decide +kernel
  obtain ⟨-, -, -, hsame⟩ := write_read_outcome column
  obtain ⟨-, hholds, hwritten, -⟩ := write_read_outcome again
  have hheld := hholds hsome
  rw [hlast] at hheld hwritten
  rw [hrows] at hheld
  exact ⟨hdistinct, hsame hdistinct, hsome, hwritten, hheld⟩

end Misc
end Treebank
