import Treebank.Format.Reader
import Treebank.Proofs.TokenLines

/-! The grammar of token lines.

What a line has to be is said without reading it: texts spell numbers, ids and edges
(`IsNumeral`, `TokenId.Spelled`, `EnhancedDep.Spelled`), and the cells of a line pass five
checks (`LineCells.Passes`), made one after the other. Each column is read just when it passes
its check (`passes_id_iff` and the like), and reading stops at the first check that is not
passed. `Token.read_outcome` puts these together: which lines are token lines, what a token
takes from its line, and which fault every other line has. -/
namespace Treebank
open Text

/-! ### Numerals -/

/-- A text that spells a number: digits and nothing else, with a value below 2^64. -/
structure IsNumeral (text : List Char) (n : Nat) : Prop where
  nonempty : text ≠ []
  digits : ∀ c ∈ text, c.isDigit = true
  value : Nat.ofDigitChars 10 text 0 = n
  bound : n < Nat.pow 2 64

theorem IsNumeral.not_mem {text : List Char} {n : Nat} (h : IsNumeral text n) {c : Char}
    (hc : c.isDigit = false) : c ∉ text := by
  intro hmem
  rw [h.digits c hmem] at hc
  cases hc

theorem readNumber_eq_some_iff {text : List Char} {n : Nat} :
    readNumber text = some n ↔ IsNumeral text n := by
  constructor
  · intro h
    have hbound := lt_of_readNumber h
    unfold readNumber at h
    split at h
    · next hdigits =>
      simp only at h
      split at h
      · cases h
        exact ⟨hdigits.1, List.all_eq_true.1 hdigits.2, rfl, hbound⟩
      · cases h
    · cases h
  · rintro ⟨hnonempty, hdigits, rfl, hbound⟩
    rw [readNumber, if_pos ⟨hnonempty, List.all_eq_true.2 hdigits⟩]
    exact if_pos hbound

/-! ### Ids and edges -/

/-- How an id is spelled: as a number other than 0, or as two numbers with a hyphen or a point
between them. -/
inductive TokenId.Spelled : TokenId → List Char → Prop where
  | word {text n} : IsNumeral text n → 0 < n → Spelled (.word n) text
  | range {a b first last} : IsNumeral a first → IsNumeral b last →
      Spelled (.range first last) (a ++ '-' :: b)
  | empty {a b anchor sub} : IsNumeral a anchor → IsNumeral b sub →
      Spelled (.empty anchor sub) (a ++ '.' :: b)

theorem TokenId.read_eq_some_iff {text : List Char} {id : TokenId} :
    TokenId.read text = some id ↔ id.Spelled text := by
  constructor
  · intro h
    unfold TokenId.read at h
    split at h
    · next a b hsplit =>
      obtain ⟨rfl, -⟩ := eq_append_of_splitFirst hsplit
      obtain ⟨first, hfirst, h⟩ := Option.bind_eq_some_iff.1 h
      obtain ⟨last, hlast, h⟩ := Option.bind_eq_some_iff.1 h
      cases h
      exact .range (readNumber_eq_some_iff.1 hfirst) (readNumber_eq_some_iff.1 hlast)
    · split at h
      · next a b hsplit =>
        obtain ⟨rfl, -⟩ := eq_append_of_splitFirst hsplit
        obtain ⟨anchor, hanchor, h⟩ := Option.bind_eq_some_iff.1 h
        obtain ⟨sub, hsub, h⟩ := Option.bind_eq_some_iff.1 h
        cases h
        exact .empty (readNumber_eq_some_iff.1 hanchor) (readNumber_eq_some_iff.1 hsub)
      · obtain ⟨n, hn, h⟩ := Option.bind_eq_some_iff.1 h
        split at h
        · cases h
        · next hzero =>
          cases h
          exact .word (readNumber_eq_some_iff.1 hn) (Nat.pos_of_ne_zero hzero)
  · intro h
    cases h with
    | word hn hpos =>
      rw [TokenId.read, splitFirst_of_not_mem (hn.not_mem rfl),
        splitFirst_of_not_mem (hn.not_mem rfl)]
      simp [readNumber_eq_some_iff.2 hn, Nat.ne_of_gt hpos]
    | range hfirst hlast =>
      rw [TokenId.read, splitFirst_append (hfirst.not_mem rfl)]
      simp [readNumber_eq_some_iff.2 hfirst, readNumber_eq_some_iff.2 hlast]
    | @empty a b _ _ hanchor hsub =>
      have hwhole : '-' ∉ a ++ '.' :: b := by
        simp [hanchor.not_mem (c := '-') rfl, hsub.not_mem (c := '-') rfl]
      rw [TokenId.read, splitFirst_of_not_mem hwhole, splitFirst_append (hanchor.not_mem rfl)]
      simp [readNumber_eq_some_iff.2 hanchor, readNumber_eq_some_iff.2 hsub]

theorem TokenId.isNumeral_of_read {text : List Char} {n : Nat}
    (h : TokenId.read text = some (.word n)) : IsNumeral text n := by
  cases TokenId.read_eq_some_iff.1 h with
  | word hn _ => exact hn

theorem TokenId.eq_word_of_isNumeral {text : List Char} {id : TokenId} {n : Nat}
    (hid : TokenId.read text = some id) (hn : IsNumeral text n) : id = .word n := by
  rw [TokenId.read, splitFirst_of_not_mem (hn.not_mem rfl), splitFirst_of_not_mem (hn.not_mem rfl)]
    at hid
  obtain ⟨m, hm, hid⟩ := Option.bind_eq_some_iff.1 hid
  cases hm.symm.trans (readNumber_eq_some_iff.2 hn)
  split at hid
  · cases hid
  · exact (Option.some.inj hid).symm

/-- How an edge is spelled: its head, a colon, and its label, which is all that follows. -/
inductive EnhancedDep.Spelled : EnhancedDep → List Char → Prop where
  | word {text head} (label : List Char) : IsNumeral text head →
      Spelled { head, deprel := String.ofList label } (text ++ ':' :: label)
  | empty {a b head sub} (label : List Char) : IsNumeral a head → IsNumeral b sub →
      Spelled { head, sub? := some sub, deprel := String.ofList label } (a ++ '.' :: b ++ ':' :: label)

theorem EnhancedDep.read_eq_some_iff {item : List Char} {dep : EnhancedDep} :
    EnhancedDep.read item = some dep ↔ dep.Spelled item := by
  constructor
  · intro hread
    obtain ⟨⟨head, label⟩, hsplit, h⟩ := Option.bind_eq_some_iff.1 hread
    obtain ⟨rfl, -⟩ := eq_append_of_splitFirst hsplit
    simp only at h
    split at h
    · next a b hpoint =>
      obtain ⟨rfl, -⟩ := eq_append_of_splitFirst hpoint
      obtain ⟨main, hmain, h⟩ := Option.bind_eq_some_iff.1 h
      obtain ⟨sub, hsub, h⟩ := Option.bind_eq_some_iff.1 h
      cases h
      exact .empty label (readNumber_eq_some_iff.1 hmain) (readNumber_eq_some_iff.1 hsub)
    · obtain ⟨main, hmain, h⟩ := Option.bind_eq_some_iff.1 h
      cases h
      exact .word label (readNumber_eq_some_iff.1 hmain)
  · intro h
    cases h with
    | word label hhead =>
      rw [EnhancedDep.read, splitFirst_append (hhead.not_mem rfl)]
      simp [splitFirst_of_not_mem (hhead.not_mem (c := '.') rfl), readNumber_eq_some_iff.2 hhead]
    | @empty a b _ _ label hmain hsub =>
      have hwhole : ':' ∉ a ++ '.' :: b := by
        simp [hmain.not_mem (c := ':') rfl, hsub.not_mem (c := ':') rfl]
      rw [EnhancedDep.read, splitFirst_append hwhole]
      simp [splitFirst_append (hmain.not_mem (c := '.') rfl), readNumber_eq_some_iff.2 hmain,
        readNumber_eq_some_iff.2 hsub]

/-! ### Cells and checks -/

/-- A feature has a name, up to its first equals sign. -/
def Features.IsItem (item : List Char) : Prop :=
  ∃ name value, name ≠ [] ∧ '=' ∉ name ∧ item = name ++ '=' :: value

/-- The columns of a token line as they stand in it. -/
structure LineCells where
  id : List Char
  form : List Char
  lemmaForm : List Char
  upos : List Char
  xpos : List Char
  feats : List Char
  head : List Char
  deprel : List Char
  deps : List Char
  misc : List Char
  extra : List (List Char)

/-- What is checked of a token line with enough columns, in this order. -/
inductive LineCheck where
  | id | feats | head | deps | ownHead
deriving DecidableEq

def LineCheck.all : List LineCheck := [.id, .feats, .head, .deps, .ownHead]

/-- The checks that are made earlier. -/
def LineCheck.before (check : LineCheck) : List LineCheck := all.takeWhile (· ≠ check)

namespace LineCells

def columns (cells : LineCells) : List (List Char) :=
  [cells.id, cells.form, cells.lemmaForm, cells.upos, cells.xpos, cells.feats, cells.head,
    cells.deprel, cells.deps, cells.misc] ++ cells.extra

def Passes (cells : LineCells) : LineCheck → Prop
  | .id => ∃ id : TokenId, id.Spelled cells.id
  | .feats => cells.feats = ['_'] ∨ ∀ item ∈ cells.feats.splitOn '|', Features.IsItem item
  | .head => cells.head = ['_'] ∨ ∃ n, IsNumeral cells.head n
  | .deps => cells.deps = ['_'] ∨
      ∀ item ∈ cells.deps.splitOn '|', ∃ dep : EnhancedDep, dep.Spelled item
  | .ownHead => ¬ ∃ n, IsNumeral cells.id n ∧ IsNumeral cells.head n

structure FirstFails (cells : LineCells) (check : LineCheck) : Prop where
  earlier : ∀ other ∈ check.before, cells.Passes other
  fails : ¬ cells.Passes check

/-- What is wrong with a line that does not pass a check. -/
def fault (cells : LineCells) : LineCheck → LineFault
  | .id => .badId (String.ofList cells.id)
  | .feats => .badFeatures (String.ofList cells.feats)
  | .head => .badHead (String.ofList cells.head)
  | .deps => .badDeps (String.ofList cells.deps)
  | .ownHead => .ownHead (Nat.ofDigitChars 10 cells.id 0)

/-- The dependencies that a column of them spells, each once and in the order of the column. -/
def SpellsDeps (column : List Char) (deps : List EnhancedDep) : Prop :=
  if column = ['_'] then deps = []
  else ∃ edges, List.Forall₂ (fun item dep => EnhancedDep.Spelled dep item)
    (column.splitOn '|') edges ∧ deps = edges.eraseDups

/-- What a token takes from its line. -/
structure Fills (cells : LineCells) (token : Token) : Prop where
  id : token.id.Spelled cells.id
  form : token.form.toList = cells.form
  lemmaForm : token.lemmaForm.toList = cells.lemmaForm
  upos : token.upos.toList = cells.upos
  xpos : token.xpos.toList = cells.xpos
  noHead : token.head = none ↔ cells.head = ['_']
  head : ∀ n, token.head = some n → IsNumeral cells.head n
  deprel : token.deprel.toList = cells.deprel
  deps : SpellsDeps cells.deps token.deps
  extra : token.extra.map String.toList = cells.extra

/-- A line passes all checks or there is a first that it does not pass. -/
theorem passes_or_firstFails (cells : LineCells) :
    (∀ check, cells.Passes check) ∨ ∃ check, cells.FirstFails check := by
  by_cases hid : cells.Passes .id
  · by_cases hfeats : cells.Passes .feats
    · by_cases hhead : cells.Passes .head
      · by_cases hdeps : cells.Passes .deps
        · by_cases hown : cells.Passes .ownHead
          · refine .inl fun check => ?_
            cases check <;> assumption
          · exact .inr ⟨.ownHead, by simp [LineCheck.before, LineCheck.all, *], hown⟩
        · exact .inr ⟨.deps, by simp [LineCheck.before, LineCheck.all, *], hdeps⟩
      · exact .inr ⟨.head, by simp [LineCheck.before, LineCheck.all, *], hhead⟩
    · exact .inr ⟨.feats, by simp [LineCheck.before, LineCheck.all, *], hfeats⟩
  · exact .inr ⟨.id, by simp [LineCheck.before, LineCheck.all], hid⟩

/-! ### Columns that pass -/

section Columns
variable {cells : LineCells} {column : List Char}

theorem readItems_of_ne (h : column ≠ ['_']) : readItems column = column.splitOn '|' := by
  rw [readItems, if_neg h, pieces_eq_splitOn]

theorem forall_mem_readItems_iff {P : List Char → Prop} :
    (∀ item ∈ readItems column, P item) ↔
      column = ['_'] ∨ ∀ item ∈ column.splitOn '|', P item := by
  by_cases hblank : column = ['_']
  · exact iff_of_true (by simp [readItems, hblank]) (.inl hblank)
  · rw [readItems_of_ne hblank, or_iff_right hblank]

theorem exists_readItem_iff {item : List Char} :
    (∃ entry, Features.readItem item = some entry) ↔ Features.IsItem item := by
  constructor
  · rintro ⟨⟨name, value⟩, h⟩
    obtain ⟨hitem, hname, hequals⟩ := Features.readItem_eq_some h
    exact ⟨name.toList, value.toList, by simpa using hname, hequals, hitem⟩
  · rintro ⟨name, value, hname, hequals, rfl⟩
    refine ⟨(String.ofList name, String.ofList value), ?_⟩
    rw [Features.readItem, splitFirst_append hequals]
    exact if_neg hname

theorem passes_id_iff : cells.Passes .id ↔ ∃ id, TokenId.read cells.id = some id :=
  exists_congr fun _ => TokenId.read_eq_some_iff.symm

theorem passes_feats_iff : cells.Passes .feats ↔ ∃ feats, Features.read cells.feats = some feats := by
  have hread : (∃ feats, Features.read cells.feats = some feats) ↔
      ∃ entries, (readItems cells.feats).mapM Features.readItem = some entries := by
    unfold Features.read
    cases (readItems cells.feats).mapM Features.readItem <;> simp
  rw [hread, exists_mapM_eq_some_iff, forall_mem_readItems_iff]
  simp only [exists_readItem_iff]
  rfl

theorem passes_head_iff : cells.Passes .head ↔ ∃ head, readHead cells.head = some head := by
  show (cells.head = ['_'] ∨ ∃ n, IsNumeral cells.head n) ↔ _
  rw [readHead]
  split
  · next hblank => exact iff_of_true (.inl hblank) ⟨none, rfl⟩
  · next hsome =>
    simp only [or_iff_right hsome, ← readNumber_eq_some_iff]
    cases readNumber cells.head <;> simp

theorem passes_deps_iff : cells.Passes .deps ↔ ∃ edges, EnhancedDep.readAll cells.deps = some edges := by
  unfold EnhancedDep.readAll
  rw [exists_mapM_eq_some_iff, forall_mem_readItems_iff]
  simp only [EnhancedDep.read_eq_some_iff]
  rfl

theorem head_of_readHead {head : Option Nat} (h : readHead column = some head) :
    (head = none ↔ column = ['_']) ∧ ∀ n, head = some n ↔ IsNumeral column n := by
  unfold readHead at h
  split at h
  · next hblank =>
    cases h
    refine ⟨iff_of_true rfl hblank, fun n => iff_of_false (by simp) fun hn => ?_⟩
    exact hn.not_mem (c := '_') rfl (by simp [hblank])
  · next hsome =>
    obtain ⟨n, hn, rfl⟩ := Option.map_eq_some_iff.1 h
    refine ⟨iff_of_false (by simp) hsome, fun m => ?_⟩
    rw [← readNumber_eq_some_iff, hn]

theorem spellsDeps_of_readAll {edges : List EnhancedDep} (h : EnhancedDep.readAll column = some edges) :
    SpellsDeps column edges.eraseDups := by
  unfold SpellsDeps
  unfold EnhancedDep.readAll at h
  split
  · next hblank =>
    rw [readItems, if_pos hblank] at h
    cases h
    rfl
  · next hsome =>
    rw [readItems_of_ne hsome] at h
    exact ⟨edges, (forall₂_of_mapM_eq_some h).imp fun _ _ => EnhancedDep.read_eq_some_iff.1, rfl⟩

end Columns

/-! ### Lines -/

/-- The token of a line whose columns have been read. -/
def token (cells : LineCells) (id : TokenId) (feats : Features) (head : Option Nat)
    (edges : List EnhancedDep) : Token where
  id := id
  form := String.ofList cells.form
  lemmaForm := String.ofList cells.lemmaForm
  upos := String.ofList cells.upos
  xpos := String.ofList cells.xpos
  feats := feats
  head := head
  deprel := String.ofList cells.deprel
  deps := edges.eraseDups
  misc := Misc.read cells.misc
  extra := cells.extra.map String.ofList

section Line
variable {line : List Char} {cells : LineCells} {id : TokenId} {feats : Features}
  {head : Option Nat} {edges : List EnhancedDep}

/-- A token is its own head when its id and its head are spelled with one number. -/
theorem isOwnHead_token_iff (hid : TokenId.read cells.id = some id)
    (hhead : readHead cells.head = some head) :
    (cells.token id feats head edges).isOwnHead = true ↔
      ∃ n, IsNumeral cells.id n ∧ IsNumeral cells.head n := by
  have hnumeral := (head_of_readHead hhead).2
  constructor
  · intro hown
    cases id with
    | word n => exact ⟨n, TokenId.isNumeral_of_read hid, (hnumeral n).1 (of_decide_eq_true hown)⟩
    | range => cases hown
    | empty => cases hown
  · rintro ⟨n, hn, hsame⟩
    cases TokenId.eq_word_of_isNumeral hid hn
    exact decide_eq_true ((hnumeral n).2 hsame)

theorem fills_token (hid : TokenId.read cells.id = some id) (hhead : readHead cells.head = some head)
    (hdeps : EnhancedDep.readAll cells.deps = some edges) :
    cells.Fills (cells.token id feats head edges) where
  id := TokenId.read_eq_some_iff.1 hid
  form := String.toList_ofList
  lemmaForm := String.toList_ofList
  upos := String.toList_ofList
  xpos := String.toList_ofList
  noHead := (head_of_readHead hhead).1
  head := fun n => ((head_of_readHead hhead).2 n).1
  deprel := String.toList_ofList
  deps := spellsDeps_of_readAll hdeps
  extra := by simp [token, Function.comp_def]

variable (hline : line.splitOn '\t' = cells.columns)

include hline

/-- When all columns can be read, the last check alone decides. -/
theorem read_of_columns (hid : TokenId.read cells.id = some id)
    (hfeats : Features.read cells.feats = some feats) (hhead : readHead cells.head = some head)
    (hdeps : EnhancedDep.readAll cells.deps = some edges) :
    Token.read line = if (cells.token id feats head edges).isOwnHead then .error (.ownHead id.main)
      else .ok (cells.token id feats head edges) := by
  have hadd := Columns.foldl_addDep_of_none
    { (cells.token id feats head edges).toColumns with deps := [] } rfl
    fun dep hdep => (EnhancedDep.legible_of_readAll hdeps dep hdep).headword
  rw [Token.read, pieces_eq_splitOn, hline]
  simp only [columns, List.cons_append, List.nil_append, hid, hfeats, hhead, hdeps]
  simp only [token] at hadd
  show (if Token.isOwnHead ⟨edges.foldl (fun c dep => c.addDep dep) _, id⟩ = true then _ else _) = _
  rw [hadd]
  rfl

/-- A line that passes all checks is a token line. -/
theorem exists_read (hpasses : ∀ check, cells.Passes check) :
    ∃ token, Token.read line = .ok token ∧ cells.Fills token := by
  obtain ⟨id, hid⟩ := passes_id_iff.1 (hpasses .id)
  obtain ⟨feats, hfeats⟩ := passes_feats_iff.1 (hpasses .feats)
  obtain ⟨head, hhead⟩ := passes_head_iff.1 (hpasses .head)
  obtain ⟨edges, hdeps⟩ := passes_deps_iff.1 (hpasses .deps)
  refine ⟨cells.token id feats head edges, ?_, fills_token hid hhead hdeps⟩
  rw [read_of_columns hline hid hfeats hhead hdeps, if_neg]
  rw [isOwnHead_token_iff hid hhead]
  exact hpasses .ownHead

/-- A line that does not pass a check has the fault of the first of these. -/
theorem read_of_firstFails {check : LineCheck} (hfails : cells.FirstFails check) :
    Token.read line = .error (cells.fault check) := by
  obtain ⟨hearlier, hfails⟩ := hfails
  -- Up to the check that fails every column is read, and that column is not.
  cases check with
  | id =>
    have hnone := Option.eq_none_iff_forall_ne_some.2 fun id hid => hfails (passes_id_iff.2 ⟨id, hid⟩)
    rw [Token.read, pieces_eq_splitOn, hline]
    simp only [columns, List.cons_append, List.nil_append, hnone]
    rfl
  | feats =>
    obtain ⟨id, hid⟩ := passes_id_iff.1 (hearlier .id (by decide))
    have hnone := Option.eq_none_iff_forall_ne_some.2 fun feats hfeats =>
      hfails (passes_feats_iff.2 ⟨feats, hfeats⟩)
    rw [Token.read, pieces_eq_splitOn, hline]
    simp only [columns, List.cons_append, List.nil_append, hid, hnone]
    rfl
  | head =>
    obtain ⟨id, hid⟩ := passes_id_iff.1 (hearlier .id (by decide))
    obtain ⟨feats, hfeats⟩ := passes_feats_iff.1 (hearlier .feats (by decide))
    have hnone := Option.eq_none_iff_forall_ne_some.2 fun head hhead =>
      hfails (passes_head_iff.2 ⟨head, hhead⟩)
    rw [Token.read, pieces_eq_splitOn, hline]
    simp only [columns, List.cons_append, List.nil_append, hid, hfeats, hnone]
    rfl
  | deps =>
    obtain ⟨id, hid⟩ := passes_id_iff.1 (hearlier .id (by decide))
    obtain ⟨feats, hfeats⟩ := passes_feats_iff.1 (hearlier .feats (by decide))
    obtain ⟨head, hhead⟩ := passes_head_iff.1 (hearlier .head (by decide))
    have hnone := Option.eq_none_iff_forall_ne_some.2 fun edges hdeps =>
      hfails (passes_deps_iff.2 ⟨edges, hdeps⟩)
    rw [Token.read, pieces_eq_splitOn, hline]
    simp only [columns, List.cons_append, List.nil_append, hid, hfeats, hhead, hnone]
    rfl
  | ownHead =>
    obtain ⟨id, hid⟩ := passes_id_iff.1 (hearlier .id (by decide))
    obtain ⟨feats, hfeats⟩ := passes_feats_iff.1 (hearlier .feats (by decide))
    obtain ⟨head, hhead⟩ := passes_head_iff.1 (hearlier .head (by decide))
    obtain ⟨edges, hdeps⟩ := passes_deps_iff.1 (hearlier .deps (by decide))
    have hown := not_not.1 hfails
    rw [read_of_columns hline hid hfeats hhead hdeps, if_pos ((isOwnHead_token_iff hid hhead).2 hown)]
    obtain ⟨n, hn, -⟩ := hown
    cases TokenId.eq_word_of_isNumeral hid hn
    rw [fault, hn.value]
    rfl

end Line

end LineCells

theorem LineCells.exists_columns {columns : List (List Char)} (h : 10 ≤ columns.length) :
    ∃ cells : LineCells, columns = cells.columns := by
  match columns, h with
  | id :: form :: lemmaForm :: upos :: xpos :: feats :: head :: deprel :: deps :: misc :: extra, _ =>
    exact ⟨⟨id, form, lemmaForm, upos, xpos, feats, head, deprel, deps, misc, extra⟩, rfl⟩

theorem Token.read_of_length_lt {line : List Char} (h : (line.splitOn '\t').length < 10) :
    Token.read line = .error (.tooFewColumns (line.splitOn '\t').length) := by
  rw [Token.read, pieces_eq_splitOn]
  split
  · next hcolumns =>
    rw [hcolumns] at h
    simp only [List.length_cons] at h
    omega
  · rfl

/-- A sentence refuses a token line for the fault that the line has. -/
theorem Sentence.addLine_eq_error_iff {s : Sentence} {number : Nat} {line : List Char}
    {error : ReadError} (hline : line.head? ≠ some '#') :
    s.addLine number line = .error error ↔
      error.line = number ∧ ∃ fault, error.fault = .line fault ∧ Token.read line = .error fault := by
  unfold Sentence.addLine
  split
  · exact absurd rfl hline
  · cases Token.read line with
    | ok token => simp
    | error fault =>
      constructor
      · intro h
        cases h
        exact ⟨rfl, fault, rfl, rfl⟩
      · rintro ⟨rfl, other, hfault, hother⟩
        cases hother
        show Except.error ⟨error.line, .line fault⟩ = Except.error error
        rw [← hfault]

namespace Token

/-- A line is a token line, or does not pass one of the checks, or has too few columns. -/
theorem read_cases (line : List Char) :
    (∃ cells : LineCells, line.splitOn '\t' = cells.columns ∧ (∀ check, cells.Passes check) ∧
      ∃ token, Token.read line = .ok token ∧ cells.Fills token) ∨
    (∃ (cells : LineCells) (check : LineCheck), line.splitOn '\t' = cells.columns ∧
      cells.FirstFails check ∧ Token.read line = .error (cells.fault check)) ∨
    (line.splitOn '\t').length < 10 ∧
      Token.read line = .error (.tooFewColumns (line.splitOn '\t').length) := by
  rcases Nat.lt_or_ge (line.splitOn '\t').length 10 with hshort | hlong
  · exact .inr (.inr ⟨hshort, read_of_length_lt hshort⟩)
  · obtain ⟨cells, hline⟩ := LineCells.exists_columns hlong
    rcases cells.passes_or_firstFails with hpasses | ⟨check, hfails⟩
    · exact .inl ⟨cells, hline, hpasses, LineCells.exists_read hline hpasses⟩
    · exact .inr (.inl ⟨cells, check, hline, hfails, LineCells.read_of_firstFails hline hfails⟩)

/-- **The lines that are token lines.** They have ten columns or more and pass all checks, and the
token has the texts, the head and the dependencies that stand in its line. Any other line has too
few columns, or else the fault of the first check that it does not pass, and a sentence with that
line is refused for it under the number of the line. -/
theorem read_outcome (line : List Char) :
    ((∃ token, Token.read line = .ok token) ↔
      ∃ cells : LineCells, line.splitOn '\t' = cells.columns ∧ ∀ check, cells.Passes check) ∧
    (∀ token, Token.read line = .ok token →
      ∃ cells : LineCells, line.splitOn '\t' = cells.columns ∧ cells.Fills token) ∧
    (∀ fault, Token.read line = .error fault ↔
      (line.splitOn '\t').length < 10 ∧ fault = .tooFewColumns (line.splitOn '\t').length ∨
      ∃ (cells : LineCells) (check : LineCheck), line.splitOn '\t' = cells.columns ∧
        cells.FirstFails check ∧ fault = cells.fault check) ∧
    ∀ (s : Sentence) (number : Nat) (error : ReadError), line.head? ≠ some '#' →
      (s.addLine number line = .error error ↔
        error.line = number ∧
          ∃ fault, error.fault = .line fault ∧ Token.read line = .error fault) := by
  refine ⟨⟨?_, ?_⟩, ?_, ?_, fun s number error hline => Sentence.addLine_eq_error_iff hline⟩
  · rintro ⟨token, htoken⟩
    rcases read_cases line with ⟨cells, hline, hpasses, -⟩ | ⟨_, _, -, -, herror⟩ | ⟨-, herror⟩
    · exact ⟨cells, hline, hpasses⟩
    · cases htoken.symm.trans herror
    · cases htoken.symm.trans herror
  · rintro ⟨cells, hline, hpasses⟩
    obtain ⟨token, htoken, -⟩ := LineCells.exists_read hline hpasses
    exact ⟨token, htoken⟩
  · intro token htoken
    rcases read_cases line with ⟨cells, hline, -, other, hother, hfills⟩ | ⟨_, _, -, -, herror⟩ |
      ⟨-, herror⟩
    · cases htoken.symm.trans hother
      exact ⟨cells, hline, hfills⟩
    · cases htoken.symm.trans herror
    · cases htoken.symm.trans herror
  · intro fault
    constructor
    · intro hfault
      rcases read_cases line with ⟨_, -, -, _, htoken, -⟩ | ⟨cells, check, hline, hfails, herror⟩ |
        ⟨hshort, herror⟩
      · cases hfault.symm.trans htoken
      · cases hfault.symm.trans herror
        exact .inr ⟨cells, check, hline, hfails, rfl⟩
      · cases hfault.symm.trans herror
        exact .inl ⟨hshort, rfl⟩
    · rintro (⟨hshort, rfl⟩ | ⟨cells, check, hline, hfails, rfl⟩)
      · exact read_of_length_lt hshort
      · exact LineCells.read_of_firstFails hline hfails

/-- A line with leading zeros, a label that holds a colon and an edge that stands twice, and a line
of which the features are wrong and the head as well. -/
theorem read_outcome_of_lines :
    let kept := "007\ta\tb\tX\tY\t_\t0\tr\t3:a|2.01:b:c|3:a\t_\tZ".toList
    let refused := "1.2\t_\t_\t_\t_\t=x\tx\t_\t_\t_".toList
    (∃ token, Token.read kept = .ok token ∧ token.deps.length = 2 ∧
      ∃ cells : LineCells, kept.splitOn '\t' = cells.columns ∧ cells.Fills token) ∧
    (∃ (cells : LineCells) (check : LineCheck), refused.splitOn '\t' = cells.columns ∧
      cells.FirstFails check ∧ cells.fault check = .badFeatures "=x") ∧
    ∃ error, Sentence.addLine {} 4 refused = .error error ∧ error.line = 4 := by
  intro kept refused
  have hkept : Token.read kept = .ok
      { id := .word 7, form := "a", lemmaForm := "b", upos := "X", xpos := "Y", head := some 0,
        deprel := "r", extra := ["Z"],
        deps := [{ head := 3, deprel := "a" }, { head := 2, sub? := some 1, deprel := "b:c" }] } := by
    decide +kernel
  have hrefused : Token.read refused = .error (.badFeatures "=x") := by decide +kernel
  obtain ⟨-, hfills, -, -⟩ := read_outcome kept
  obtain ⟨-, -, hfault, hadd⟩ := read_outcome refused
  refine ⟨⟨_, hkept, rfl, hfills _ hkept⟩, ?_, ⟨4, .line (.badFeatures "=x")⟩, ?_, rfl⟩
  · rcases (hfault _).1 hrefused with ⟨-, hfew⟩ | ⟨cells, check, hline, hfails, hsame⟩
    · cases hfew
    · exact ⟨cells, check, hline, hfails, hsame.symm⟩
  · exact (hadd {} 4 _ (by decide +kernel)).2 ⟨rfl, _, rfl, hrefused⟩

end Token
end Treebank
