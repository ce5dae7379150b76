import Mathlib.Data.List.Pairwise
import Treebank.Format.Column
import Treebank.Proofs.Cutting
import Treebank.Proofs.Failure

/-! Columns written and read back.

The content of a column is legible when it is as reading makes it: names and labels hold no
separator, numbers are below the bound, and entries stand in their order without a name coming
twice. Whatever a column says is legible (`legible_of_read`), and what is legible is read from
the column that is written for it (`read_write`), dependencies in the order of their heads. -/
namespace Treebank
open Text

/-- The characters that a column can hold beside its texts. -/
def isMark (c : Char) : Bool := c.isDigit || ['-', '.', ':', '=', '|', '_'].contains c

theorem isDigit_of_not_mark {c : Char} (h : isMark c = false) : c.isDigit = false :=
  (Bool.or_eq_false_iff.1 h).1

theorem ne_of_not_mark {c : Char} (h : isMark c = false) (mark : Char)
    (hmark : isMark mark = true) : c ≠ mark := by
  intro heq
  rw [heq, hmark] at h
  cases h

/-! ### Items -/

theorem mem_of_mem_readItems {column item : List Char} (h : item ∈ readItems column) :
    ∀ c ∈ item, c ∈ column ∧ c ≠ '|' := by
  unfold readItems at h
  split at h
  · cases h
  · exact mem_of_mem_pieces h

theorem no_bar_of_mem_readItems {column item : List Char} (h : item ∈ readItems column) :
    '|' ∉ item := fun hbar => (mem_of_mem_readItems h _ hbar).2 rfl

/-- A single underscore is no item that can be told from none. -/
theorem readItems_writeItems {items : List (List Char)} (hbar : ∀ item ∈ items, '|' ∉ item)
    (hblank : items ≠ [['_']]) : readItems (writeItems items) = items := by
  unfold writeItems
  split
  · next hnil =>
    rw [hnil]
    rfl
  · next hsome =>
    have hpieces : pieces '|' (joinWith '|' items) = items := pieces_joinWith hsome hbar
    rw [readItems, if_neg, hpieces]
    intro heq
    rw [heq] at hpieces
    exact hblank hpieces.symm

theorem not_mem_writeItems {c : Char} {items : List (List Char)} (hc : isMark c = false)
    (h : ∀ item ∈ items, c ∉ item) : c ∉ writeItems items := by
  unfold writeItems
  split
  · exact fun hmem => ne_of_not_mark hc _ rfl (List.mem_singleton.1 hmem)
  · intro hmem
    rcases mem_of_mem_joinWith hmem with heq | ⟨item, hitem, hmem⟩
    · exact ne_of_not_mark hc _ rfl heq
    · exact h item hitem hmem

/-! ### Ids and heads -/

namespace TokenId

def Legible : TokenId → Prop
  | word id => id ≠ 0 ∧ id < numberBound
  | range first last => first < numberBound ∧ last < numberBound
  | empty anchor sub => anchor < numberBound ∧ sub < numberBound

theorem legible_of_read {text : List Char} {id : TokenId} (h : read text = some id) :
    id.Legible := by
  unfold read at h
  split at h
  · obtain ⟨first, hfirst, h⟩ := Option.bind_eq_some_iff.1 h
    obtain ⟨last, hlast, h⟩ := Option.bind_eq_some_iff.1 h
    cases h
    exact ⟨lt_of_readNumber hfirst, lt_of_readNumber hlast⟩
  · split at h
    · obtain ⟨anchor, hanchor, h⟩ := Option.bind_eq_some_iff.1 h
      obtain ⟨sub, hsub, h⟩ := Option.bind_eq_some_iff.1 h
      cases h
      exact ⟨lt_of_readNumber hanchor, lt_of_readNumber hsub⟩
    · obtain ⟨n, hn, h⟩ := Option.bind_eq_some_iff.1 h
      split at h
      · cases h
      · next hzero =>
        cases h
        exact ⟨hzero, lt_of_readNumber hn⟩

theorem read_write {id : TokenId} (h : id.Legible) : read id.write = some id := by
  have hhyphen : ∀ n, '-' ∉ writeNumber n := not_mem_writeNumber rfl
  have hpoint : ∀ n, '.' ∉ writeNumber n := not_mem_writeNumber rfl
  cases id with
  | word id =>
    rw [write, read, splitFirst_of_not_mem (hhyphen id), splitFirst_of_not_mem (hpoint id)]
    simp [readNumber_write h.2, h.1]
  | range first last =>
    rw [write, read, splitFirst_append (hhyphen first)]
    simp [readNumber_write h.1, readNumber_write h.2]
  | empty anchor sub =>
    have hwhole : '-' ∉ writeNumber anchor ++ '.' :: writeNumber sub := by
      simp [hhyphen anchor, hhyphen sub]
    rw [write, read, splitFirst_of_not_mem hwhole, splitFirst_append (hpoint anchor)]
    simp [readNumber_write h.1, readNumber_write h.2]

theorem not_mem_write {c : Char} (hdigit : c.isDigit = false) (hhyphen : c ≠ '-')
    (hpoint : c ≠ '.') (id : TokenId) : c ∉ id.write := by
  have hnumber : ∀ n, c ∉ writeNumber n := not_mem_writeNumber hdigit
  cases id with
  | word id => exact hnumber id
  | range first last => simp [write, hnumber, hhyphen]
  | empty anchor sub => simp [write, hnumber, hpoint]

end TokenId

theorem lt_of_readHead {text : List Char} {head : Option Nat} (h : readHead text = some head) :
    ∀ n ∈ head, n < numberBound := by
  unfold readHead at h
  split at h
  · cases h
    exact fun n hn => by cases hn
  · obtain ⟨n, hn, rfl⟩ := Option.map_eq_some_iff.1 h
    intro m hm
    cases hm
    exact lt_of_readNumber hn

theorem readHead_writeHead {head : Option Nat} (h : ∀ n ∈ head, n < numberBound) :
    readHead (writeHead head) = some head := by
  cases head with
  | none => rfl
  | some n =>
    have hblank : writeNumber n ≠ ['_'] := fun heq =>
      not_mem_writeNumber (c := '_') rfl n (heq ▸ List.mem_cons_self)
    rw [writeHead, readHead, if_neg hblank, readNumber_write (h n rfl)]
    rfl

theorem not_mem_writeHead {c : Char} (hc : isMark c = false) (head : Option Nat) :
    c ∉ writeHead head := by
  cases head with
  | none => exact fun hmem => ne_of_not_mark hc _ rfl (List.mem_singleton.1 hmem)
  | some n => exact not_mem_writeNumber (isDigit_of_not_mark hc) n

/-! ### Features -/

namespace Features

/-- The entries stand in the order of their folded names, and names and values can be told apart. -/
structure Legible (feats : Features) : Prop where
  ascending : feats.entries.Pairwise fun a b => fold a.1 < fold b.1
  name : ∀ entry ∈ feats.entries, entry.1 ≠ "" ∧ '=' ∉ entry.1.toList ∧ '|' ∉ entry.1.toList
  value : ∀ entry ∈ feats.entries, '|' ∉ entry.2.toList

theorem insertEntry_append {key : List Char} {name value : String}
    {before : List (String × String)} (h : ∀ entry ∈ before, fold entry.1 < key)
    (rest : List (String × String)) :
    insertEntry key name value (before ++ rest) = before ++ insertEntry key name value rest := by
  induction before with
  | nil => rfl
  | cons entry before ih =>
    obtain ⟨hentry, hbefore⟩ := List.forall_mem_cons.1 h
    obtain ⟨other, old⟩ := entry
    have hne : fold other ≠ key := fun heq => List.lt_irrefl _ (heq ▸ hentry)
    simp only [List.cons_append, insertEntry, if_neg hne, if_neg (List.lt_asymm hentry), ih hbefore]

/-- A feature that is set again keeps its name and takes the new value. -/
theorem forall_mem_insertEntry {P Q : String → Prop} {key : List Char} {name value : String}
    {entries : List (String × String)} (hname : P name) (hvalue : Q value)
    (h : ∀ entry ∈ entries, P entry.1 ∧ Q entry.2) :
    ∀ entry ∈ insertEntry key name value entries, P entry.1 ∧ Q entry.2 := by
  induction entries with
  | nil => exact List.forall_mem_singleton.2 ⟨hname, hvalue⟩
  | cons entry rest ih =>
    obtain ⟨hentry, hrest⟩ := List.forall_mem_cons.1 h
    obtain ⟨other, old⟩ := entry
    simp only [insertEntry]
    split
    · exact List.forall_mem_cons.2 ⟨⟨hentry.1, hvalue⟩, hrest⟩
    · split
      · exact List.forall_mem_cons.2 ⟨⟨hname, hvalue⟩, h⟩
      · exact List.forall_mem_cons.2 ⟨hentry, ih hrest⟩

theorem ascending_insertEntry {name value : String} {entries : List (String × String)}
    (h : entries.Pairwise fun a b => fold a.1 < fold b.1) :
    (insertEntry (fold name) name value entries).Pairwise fun a b => fold a.1 < fold b.1 := by
  induction entries with
  | nil => exact List.pairwise_singleton _ _
  | cons entry rest ih =>
    obtain ⟨hentry, hrest⟩ := List.pairwise_cons.1 h
    obtain ⟨other, old⟩ := entry
    simp only [insertEntry]
    split
    · exact List.pairwise_cons.2 ⟨hentry, hrest⟩
    · next hne =>
      split
      · next hlt =>
        refine List.pairwise_cons.2 ⟨?_, h⟩
        exact List.forall_mem_cons.2 ⟨hlt, fun later hlater => List.lt_trans hlt (hentry later hlater)⟩
      · next hge =>
        have hafter : fold other < fold name :=
          (List.le_iff_lt_or_eq.1 (List.not_lt.1 hge)).resolve_right hne
        refine List.pairwise_cons.2 ⟨fun later hlater => ?_, ih hrest⟩
        exact (forall_mem_insertEntry (P := fun n => fold other < fold n) (Q := fun _ => True)
          hafter trivial (fun later hlater => ⟨hentry later hlater, trivial⟩) later hlater).1

theorem readItem_eq_some {item : List Char} {name value : String}
    (hread : readItem item = some (name, value)) :
    item = name.toList ++ '=' :: value.toList ∧ name ≠ "" ∧ '=' ∉ name.toList := by
  obtain ⟨⟨first, second⟩, hsplit, h⟩ := Option.bind_eq_some_iff.1 hread
  obtain ⟨rfl, hequals⟩ := eq_append_of_splitFirst hsplit
  simp only at h
  split at h
  · cases h
  · next hname =>
    cases h
    exact ⟨by simp, by simpa using hname, by simpa using hequals⟩

theorem plain_of_readItem {column item : List Char} {name value : String}
    (hitem : item ∈ readItems column) (hread : readItem item = some (name, value)) :
    (name ≠ "" ∧ '=' ∉ name.toList ∧ '|' ∉ name.toList) ∧ '|' ∉ value.toList := by
  have hbar := no_bar_of_mem_readItems hitem
  obtain ⟨rfl, hname, hequals⟩ := readItem_eq_some hread
  simp only [List.mem_append, List.mem_cons, not_or] at hbar
  exact ⟨⟨hname, hequals, hbar.1⟩, hbar.2.2⟩

theorem readItem_write {name value : String} (hname : name ≠ "") (hequals : '=' ∉ name.toList) :
    readItem (name.toList ++ '=' :: value.toList) = some (name, value) := by
  rw [readItem, splitFirst_append hequals]
  simp [hname]

/-- What holds of the names and values of the items holds of the features that are read. -/
theorem forall_mem_of_read {P Q : String → Prop} {column : List Char} {feats : Features}
    (hitem : ∀ item ∈ readItems column, ∀ name value, readItem item = some (name, value) →
      P name ∧ Q value)
    (h : read column = some feats) :
    (∀ entry ∈ feats.entries, P entry.1 ∧ Q entry.2) ∧
      feats.entries.Pairwise fun a b => fold a.1 < fold b.1 := by
  obtain ⟨entries, hentries, h⟩ := Option.bind_eq_some_iff.1 h
  cases h
  have hread : ∀ entry ∈ entries, P entry.1 ∧ Q entry.2 := fun entry hentry => by
    obtain ⟨item, hmem, heq⟩ := mem_of_mapM_eq_some hentries entry hentry
    exact hitem item hmem entry.1 entry.2 heq
  refine List.foldlRecOn (motive := fun feats : Features =>
    (∀ entry ∈ feats.entries, P entry.1 ∧ Q entry.2) ∧
      feats.entries.Pairwise fun a b => fold a.1 < fold b.1) entries _ ?_ ?_
  · exact ⟨fun entry hentry => absurd hentry List.not_mem_nil, .nil⟩
  · intro feats hfeats entry hentry
    exact ⟨forall_mem_insertEntry (hread entry hentry).1 (hread entry hentry).2 hfeats.1,
      ascending_insertEntry hfeats.2⟩

theorem legible_of_read {column : List Char} {feats : Features} (h : read column = some feats) :
    feats.Legible := by
  obtain ⟨hall, hascending⟩ := forall_mem_of_read
    (P := fun name => name ≠ "" ∧ '=' ∉ name.toList ∧ '|' ∉ name.toList)
    (Q := fun value => '|' ∉ value.toList)
    (fun item hitem name value => plain_of_readItem hitem) h
  exact ⟨hascending, fun entry hentry => (hall entry hentry).1,
    fun entry hentry => (hall entry hentry).2⟩

/-- The texts of the features. -/
def texts (feats : Features) : List String := feats.entries.flatMap fun entry => [entry.1, entry.2]

theorem mem_of_read {column : List Char} {feats : Features} (h : read column = some feats) :
    ∀ text ∈ feats.texts, ∀ c ∈ text.toList, c ∈ column := by
  obtain ⟨hall, -⟩ := forall_mem_of_read (P := fun name => ∀ c ∈ name.toList, c ∈ column)
    (Q := fun value => ∀ c ∈ value.toList, c ∈ column)
    (fun item hitem name value hread => by
      obtain ⟨heq, -, -⟩ := readItem_eq_some hread
      have hchars := fun c hc => (mem_of_mem_readItems hitem c hc).1
      rw [heq] at hchars
      exact ⟨fun c hc => hchars c (List.mem_append_left _ hc),
        fun c hc => hchars c (List.mem_append_right _ (List.mem_cons_of_mem _ hc))⟩) h
  intro text htext
  obtain ⟨entry, hentry, htext⟩ := List.mem_flatMap.1 htext
  obtain ⟨hname, hvalue⟩ := hall entry hentry
  rcases List.mem_cons.1 htext with rfl | htext
  · exact hname
  · exact List.mem_singleton.1 htext ▸ hvalue

theorem insert_of_last {feats : Features} {name value : String}
    (h : (feats.entries ++ [(name, value)]).Pairwise fun a b => fold a.1 < fold b.1) :
    feats.insert name value = ⟨feats.entries ++ [(name, value)]⟩ := by
  have hlast : ∀ entry ∈ feats.entries, fold entry.1 < fold name := fun entry hentry =>
    (List.pairwise_append.1 h).2.2 entry hentry (name, value) List.mem_cons_self
  have hentries : insertEntry (fold name) name value (feats.entries ++ []) =
      feats.entries ++ [(name, value)] := insertEntry_append hlast []
  rw [List.append_nil] at hentries
  exact congrArg Features.mk hentries

/-- Ascending features that are set in turn are listed, where setting one that comes after all others
adds it at the end. -/
theorem foldl_set {key : String → List Char} {set : Features → String → String → Features}
    (hset : ∀ (feats : Features) (name value : String),
      ((feats.entries ++ [(name, value)]).Pairwise fun a b => key a.1 < key b.1) →
        set feats name value = ⟨feats.entries ++ [(name, value)]⟩)
    {feats : Features} {entries : List (String × String)}
    (h : (feats.entries ++ entries).Pairwise fun a b => key a.1 < key b.1) :
    entries.foldl (fun feats (name, value) => set feats name value) feats =
      ⟨feats.entries ++ entries⟩ := by
  induction entries generalizing feats with
  | nil => rw [List.append_nil]; rfl
  | cons entry rest ih =>
    rw [List.append_cons] at h ⊢
    have hlast := hset feats entry.1 entry.2 (List.pairwise_append.1 h).1
    show rest.foldl _ (set feats entry.1 entry.2) = _
    rw [hlast]
    exact ih h

theorem mapM_readItem_write {feats : Features}
    (hname : ∀ entry ∈ feats.entries,
      entry.1 ≠ "" ∧ '=' ∉ entry.1.toList ∧ '|' ∉ entry.1.toList)
    (hvalue : ∀ entry ∈ feats.entries, '|' ∉ entry.2.toList) :
    (readItems feats.write).mapM readItem = some feats.entries := by
  have hitems : readItems feats.write =
      feats.entries.map fun entry => entry.1.toList ++ '=' :: entry.2.toList := by
    refine readItems_writeItems ?_ fun heq => ?_
    · intro item hitem
      obtain ⟨entry, hentry, rfl⟩ := List.mem_map.1 hitem
      simp [(hname entry hentry).2.2, hvalue entry hentry]
    · have hmem : ['_'] ∈ feats.entries.map fun entry => entry.1.toList ++ '=' :: entry.2.toList :=
        heq ▸ List.mem_cons_self
      obtain ⟨entry, -, hentry⟩ := List.mem_map.1 hmem
      have hequals : '=' ∈ entry.1.toList ++ '=' :: entry.2.toList := by simp
      rw [hentry] at hequals
      exact absurd hequals (by decide)
  rw [hitems, List.mapM_map, mapM_eq_some_map (g := id), List.map_id]
  exact fun entry hentry => readItem_write (hname entry hentry).1 (hname entry hentry).2.1

theorem read_write {feats : Features} (h : feats.Legible) : read feats.write = some feats := by
  rw [read, mapM_readItem_write h.name h.value]
  exact congrArg some (foldl_set (fun feats name value => insert_of_last) h.ascending)

theorem not_mem_write {c : Char} {feats : Features} (hc : isMark c = false)
    (h : ∀ text ∈ feats.texts, c ∉ text.toList) : c ∉ feats.write := by
  refine not_mem_writeItems hc fun item hitem => ?_
  obtain ⟨entry, hentry, rfl⟩ := List.mem_map.1 hitem
  have htexts : ∀ text ∈ [entry.1, entry.2], text ∈ feats.texts := fun text htext =>
    List.mem_flatMap.2 ⟨entry, hentry, htext⟩
  simp [h entry.1 (htexts _ (by simp)), h entry.2 (htexts _ (by simp)),
    ne_of_not_mark hc '=' rfl]

end Features

/-! ### Dependencies -/

namespace EnhancedDep

structure Legible (dep : EnhancedDep) : Prop where
  head : dep.head < numberBound
  sub : ∀ sub ∈ dep.sub?, sub < numberBound
  label : '|' ∉ dep.deprel.toList
  headword : dep.headword = none

/-- A dependency is read from two numbers or one and from its label, and comes without links. -/
theorem read_eq_some {item : List Char} {dep : EnhancedDep} (hread : read item = some dep) :
    dep.head < numberBound ∧ (∀ sub ∈ dep.sub?, sub < numberBound) ∧
      (∀ c ∈ dep.deprel.toList, c ∈ item) ∧ dep.headword = none := by
  obtain ⟨⟨head, label⟩, hsplit, h⟩ := Option.bind_eq_some_iff.1 hread
  obtain ⟨rfl, -⟩ := eq_append_of_splitFirst hsplit
  have hlabel : ∀ c ∈ (String.ofList label).toList, c ∈ head ++ ':' :: label := by
    intro c hc
    rw [String.toList_ofList] at hc
    exact List.mem_append_right _ (List.mem_cons_of_mem _ hc)
  simp only at h
  split at h
  · obtain ⟨main, hmain, h⟩ := Option.bind_eq_some_iff.1 h
    obtain ⟨sub, hsub, h⟩ := Option.bind_eq_some_iff.1 h
    cases h
    refine ⟨lt_of_readNumber hmain, fun n hn => ?_, hlabel, rfl⟩
    cases hn
    exact lt_of_readNumber hsub
  · obtain ⟨main, hmain, h⟩ := Option.bind_eq_some_iff.1 h
    cases h
    exact ⟨lt_of_readNumber hmain, by simp, hlabel, rfl⟩

theorem legible_of_readAll {column : List Char} {deps : List EnhancedDep}
    (h : readAll column = some deps) : ∀ dep ∈ deps, dep.Legible := by
  intro dep hdep
  obtain ⟨item, hitem, hread⟩ := mem_of_mapM_eq_some h dep hdep
  obtain ⟨hhead, hsub, hlabel, hheadword⟩ := read_eq_some hread
  exact ⟨hhead, hsub, fun hbar => no_bar_of_mem_readItems hitem (hlabel _ hbar), hheadword⟩

theorem mem_of_readAll {column : List Char} {deps : List EnhancedDep}
    (h : readAll column = some deps) : ∀ dep ∈ deps, ∀ c ∈ dep.deprel.toList, c ∈ column := by
  intro dep hdep c hc
  obtain ⟨item, hitem, hread⟩ := mem_of_mapM_eq_some h dep hdep
  obtain ⟨-, -, hlabel, -⟩ := read_eq_some hread
  exact (mem_of_mem_readItems hitem c (hlabel c hc)).1

theorem read_write {dep : EnhancedDep} (h : dep.Legible) : read dep.write = some dep := by
  have hcolon : ∀ n, ':' ∉ writeNumber n := not_mem_writeNumber rfl
  have hpoint : ∀ n, '.' ∉ writeNumber n := not_mem_writeNumber rfl
  obtain ⟨head, sub?, deprel, headword⟩ := dep
  obtain ⟨hhead, hsub, -, hheadword⟩ := h
  cases hheadword
  cases sub? with
  | none =>
    rw [write, read, headId, TokenId.write, splitFirst_append (hcolon head)]
    simp [splitFirst_of_not_mem (hpoint head), readNumber_write hhead]
  | some sub =>
    have hwhole : ':' ∉ writeNumber head ++ '.' :: writeNumber sub := by
      simp [hcolon head, hcolon sub]
    rw [write, read, headId, TokenId.write, splitFirst_append hwhole]
    simp [splitFirst_append (hpoint head), readNumber_write hhead, readNumber_write (hsub sub rfl)]

theorem readAll_writeAll {deps : List EnhancedDep} (h : ∀ dep ∈ deps, dep.Legible) :
    readAll (writeAll deps) = some (deps.mergeSort headLe) := by
  have hsorted : ∀ dep ∈ deps.mergeSort headLe, dep.Legible := fun dep hdep =>
    h dep (List.mem_mergeSort.1 hdep)
  have hitems : readItems (writeAll deps) = (deps.mergeSort headLe).map write := by
    refine readItems_writeItems ?_ fun heq => ?_
    · intro item hitem
      obtain ⟨dep, hdep, rfl⟩ := List.mem_map.1 hitem
      have hbar : '|' ∉ dep.headId.write :=
        TokenId.not_mem_write (by decide) (by decide) (by decide) _
      simp [write, hbar, (hsorted dep hdep).label]
    · have hmem : ['_'] ∈ (deps.mergeSort headLe).map write := heq ▸ List.mem_cons_self
      obtain ⟨dep, -, hdep⟩ := List.mem_map.1 hmem
      have hcolon : ':' ∈ dep.write := by simp [write]
      rw [hdep] at hcolon
      exact absurd hcolon (by decide)
  rw [readAll, hitems, List.mapM_map, mapM_eq_some_map (g := id), List.map_id]
  exact fun dep hdep => read_write (hsorted dep hdep)

theorem not_mem_writeAll {c : Char} {deps : List EnhancedDep} (hc : isMark c = false)
    (h : ∀ dep ∈ deps, c ∉ dep.deprel.toList) : c ∉ writeAll deps := by
  refine not_mem_writeItems hc fun item hitem => ?_
  obtain ⟨dep, hdep, rfl⟩ := List.mem_map.1 hitem
  have hhead : c ∉ dep.headId.write := TokenId.not_mem_write (isDigit_of_not_mark hc)
    (ne_of_not_mark hc _ rfl) (ne_of_not_mark hc _ rfl) _
  simp [write, hhead, h dep (List.mem_mergeSort.1 hdep), ne_of_not_mark hc ':' rfl]

end EnhancedDep

/-! ### Miscellaneous entries -/

/-- The text that a value holds, if it is one. -/
def MiscValue.texts : MiscValue → List String
  | text s => [s]
  | _ => []

namespace Misc

/-- No key comes twice, and every row says what an item of a column says. -/
structure Legible (misc : Misc) : Prop where
  keys : misc.keys.Nodup
  row : ∀ row ∈ misc.rows, ∃ item, '|' ∉ item ∧ readItem item = row

/-- An item is spelled in one way only, since a number counts as one only in its written form. -/
theorem write_readItem (item : List Char) :
    (readItem item).1.toList ++ (readItem item).2.write = item := by
  unfold readItem
  cases hsplit : splitFirst '=' item with
  | none => simp [MiscValue.write]
  | some parts =>
    obtain ⟨key, value⟩ := parts
    obtain ⟨rfl, -⟩ := eq_append_of_splitFirst hsplit
    simp only [MiscValue.read]
    cases hnumber : readWritten value with
    | none => simp [MiscValue.write]
    | some n => simp [MiscValue.write, writeNumber_of_readWritten hnumber]

theorem rows_of_read (column : List Char) :
    (read column).keys.Nodup ∧ ∀ row ∈ (read column).rows, ∃ item ∈ readItems column,
      readItem item = row := by
  refine List.foldlRecOn (motive := fun misc : Misc => misc.keys.Nodup ∧
    ∀ row ∈ misc.rows, ∃ item ∈ readItems column, readItem item = row) (readItems column) _ ?_ ?_
  · exact ⟨.nil, fun row hrow => absurd hrow List.not_mem_nil⟩
  · intro misc hmisc item hitem
    refine ⟨Table.nodup_insertRow hmisc.1, fun row hrow => ?_⟩
    rcases Table.mem_insertRow hrow with rfl | hold
    · exact ⟨item, hitem, rfl⟩
    · exact hmisc.2 row hold

theorem legible_read (column : List Char) : (read column).Legible := by
  obtain ⟨hkeys, hrows⟩ := rows_of_read column
  refine ⟨hkeys, fun row hrow => ?_⟩
  obtain ⟨item, hitem, hread⟩ := hrows row hrow
  exact ⟨item, no_bar_of_mem_readItems hitem, hread⟩

/-- The texts of the entries. -/
def texts (misc : Misc) : List String := misc.rows.flatMap fun row => row.1 :: row.2.texts

theorem mem_of_read {column : List Char} :
    ∀ text ∈ (read column).texts, ∀ c ∈ text.toList, c ∈ column := by
  intro text htext c hc
  obtain ⟨row, hrow, htext⟩ := List.mem_flatMap.1 htext
  obtain ⟨item, hitem, rfl⟩ := (rows_of_read column).2 row hrow
  refine (mem_of_mem_readItems hitem c ?_).1
  rw [← write_readItem item]
  rcases List.mem_cons.1 htext with rfl | htext
  · exact List.mem_append_left _ hc
  · refine List.mem_append_right _ ?_
    cases hvalue : (readItem item).2 with
    | text s =>
      rw [hvalue] at htext
      cases List.mem_singleton.1 htext
      exact List.mem_cons_of_mem _ hc
    | number n => rw [hvalue] at htext; cases htext
    | flag => rw [hvalue] at htext; cases htext

theorem foldl_insert {rows : List (String × MiscValue)} (misc : Misc)
    (h : ((misc.rows ++ rows).map Prod.fst).Nodup) :
    rows.foldl (fun misc row => misc.insert row.1 row.2) misc = ⟨misc.rows ++ rows⟩ := by
  induction rows generalizing misc with
  | nil => rw [List.append_nil]; rfl
  | cons row rest ih =>
    have hnew : row.1 ∉ misc.rows.map Prod.fst := by
      rw [List.map_append, List.map_cons, List.nodup_append] at h
      exact fun hold => h.2.2 _ hold _ List.mem_cons_self rfl
    have hinsert : misc.insert row.1 row.2 = ⟨misc.rows ++ [row]⟩ :=
      congrArg Table.mk (Table.insertRow_eq_append hnew)
    rw [List.append_cons] at h ⊢
    rw [List.foldl_cons, hinsert]
    exact ih _ h

/-- The flag `_` on its own is written like no entry at all. -/
theorem read_write {misc : Misc} (h : misc.Legible) (hflag : misc ≠ ⟨[("_", .flag)]⟩) :
    read misc.write = misc := by
  have hread : ∀ row ∈ misc.rows, '|' ∉ row.1.toList ++ row.2.write ∧
      readItem (row.1.toList ++ row.2.write) = row := by
    intro row hrow
    obtain ⟨item, hbar, rfl⟩ := h.row row hrow
    rw [write_readItem]
    exact ⟨hbar, rfl⟩
  have hitems : readItems misc.write = misc.rows.map fun row => row.1.toList ++ row.2.write := by
    refine readItems_writeItems ?_ fun heq => hflag ?_
    · intro item hitem
      obtain ⟨row, hrow, rfl⟩ := List.mem_map.1 hitem
      exact (hread row hrow).1
    · obtain ⟨row, hrow, hitem⟩ := List.map_eq_singleton_iff.1 heq
      have hback : readItem (row.1.toList ++ row.2.write) = row :=
        (hread row (hrow ▸ List.mem_cons_self)).2
      have hunderscore : row.1.toList ++ row.2.write = ['_'] := hitem
      have hrows : misc.rows = [("_", .flag)] := by
        rw [hrow, ← hback, hunderscore]
        rfl
      exact congrArg Table.mk hrows
  -- The rows that are read from the items are those that were written, and all keys are new.
  have hsame : misc.rows.map (fun row => readItem (row.1.toList ++ row.2.write)) = misc.rows :=
    (List.map_congr_left fun row hrow => (hread row hrow).2).trans (List.map_id _)
  have hfold : (readItems misc.write).foldl
      (fun (misc : Misc) item => misc.insert (readItem item).1 (readItem item).2) ∅ =
      (misc.rows.map fun row => readItem (row.1.toList ++ row.2.write)).foldl
        (fun misc row => misc.insert row.1 row.2) ∅ := by
    rw [hitems, List.foldl_map, List.foldl_map]
  rw [hsame, foldl_insert ∅ h.keys] at hfold
  exact hfold

/-- A written column stays as it is, also that of the flag `_` on its own. -/
theorem write_read_write {misc : Misc} (h : misc.Legible) :
    (read misc.write).write = misc.write := by
  by_cases hflag : misc = ⟨[("_", .flag)]⟩
  · rw [hflag]
    rfl
  · rw [read_write h hflag]

/-- The text of a row with a bar after it. -/
def barred (row : String × MiscValue) : List Char := row.1.toList ++ row.2.write ++ ['|']

/-- A row that is set anew gives up its room. -/
theorem length_insertRow_le (key : String) (value : MiscValue) (rows : List (String × MiscValue)) :
    ((Table.insertRow key value rows).flatMap barred).length ≤
      (rows.flatMap barred).length + (barred (key, value)).length := by
  induction rows with
  | nil => simp [Table.insertRow]
  | cons row rest ih =>
    rw [Table.insertRow]
    split <;> simp only [List.flatMap_cons, List.length_append] <;> omega

theorem length_foldl_insert_le (items : List (List Char)) (misc : Misc) :
    ((items.foldl (fun (misc : Misc) item => misc.insert (readItem item).1 (readItem item).2)
        misc).rows.flatMap barred).length ≤
      (misc.rows.flatMap barred).length + (items.flatMap (· ++ ['|'])).length := by
  induction items generalizing misc with
  | nil => exact Nat.le_refl _
  | cons item rest ih =>
    have hbarred : barred ((readItem item).1, (readItem item).2) = item ++ ['|'] := by
      rw [barred, write_readItem]
    have hinsert : ((misc.insert (readItem item).1 (readItem item).2).rows.flatMap barred).length ≤
        (misc.rows.flatMap barred).length + (item ++ ['|']).length :=
      hbarred ▸ length_insertRow_le (readItem item).1 (readItem item).2 misc.rows
    have hrest := ih (misc.insert (readItem item).1 (readItem item).2)
    rw [List.foldl_cons, List.flatMap_cons, List.length_append]
    omega

/-- A column that is read does not become longer. -/
theorem length_write_read_le (column : List Char) : (read column).write.length ≤ column.length := by
  cases column with
  | nil => exact Nat.le_refl _
  | cons c rest =>
    by_cases hblank : c :: rest = ['_']
    · rw [hblank]
      exact Nat.le_refl _
    have hitems : (readItems (c :: rest)).flatMap (· ++ ['|']) = c :: rest ++ ['|'] := by
      rw [readItems, if_neg hblank, ← joinWith_append_separator (pieces_ne_nil _), joinWith_pieces]
    have hrows : ((read (c :: rest)).rows.flatMap barred).length ≤ (c :: rest ++ ['|']).length := by
      have hread := length_foldl_insert_le (readItems (c :: rest)) ∅
      rw [hitems] at hread
      exact Nat.le_trans hread (Nat.le_of_eq (Nat.zero_add _))
    unfold write writeItems
    split
    · exact Nat.succ_le_succ (Nat.zero_le _)
    · next hsome =>
      have hwritten : joinWith '|' _ ++ ['|'] = _ := joinWith_append_separator hsome
      rw [List.flatMap_map] at hwritten
      have hlength : _ = ((read (c :: rest)).rows.flatMap barred).length :=
        congrArg List.length hwritten
      rw [← hlength, List.length_append, List.length_append] at hrows
      exact Nat.le_of_add_le_add_right hrows

theorem not_mem_write {c : Char} {misc : Misc} (hc : isMark c = false)
    (h : ∀ text ∈ misc.texts, c ∉ text.toList) : c ∉ misc.write := by
  refine not_mem_writeItems hc fun item hitem => ?_
  obtain ⟨row, hrow, rfl⟩ := List.mem_map.1 hitem
  have htexts : ∀ text ∈ row.1 :: row.2.texts, c ∉ text.toList := fun text htext =>
    h text (List.mem_flatMap.2 ⟨row, hrow, htext⟩)
  have hvalue : c ∉ row.2.write := by
    cases hkind : row.2 with
    | text s =>
      have hs : c ∉ s.toList := htexts s (by simp [hkind, MiscValue.texts])
      simp [MiscValue.write, hs, ne_of_not_mark hc '=' rfl]
    | number n =>
      have hn : c ∉ writeNumber n := not_mem_writeNumber (isDigit_of_not_mark hc) n
      simp [MiscValue.write, hn, ne_of_not_mark hc '=' rfl]
    | flag => exact List.not_mem_nil
  intro hmem
  rcases List.mem_append.1 hmem with hkey | hmem
  · exact htexts row.1 List.mem_cons_self hkey
  · exact hvalue hmem

end Misc

end Treebank
