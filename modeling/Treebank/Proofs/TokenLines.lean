import Mathlib.Data.List.Induction
import Mathlib.Data.List.Nodup
import Treebank.Format.Line
import Treebank.Proofs.Columns

/-! Token lines written and read back.

A token is legible when its columns are and its texts hold no tab. The tokens of lines are
legible (`Token.legible_of_read`), and a legible token is read from its line with its
dependencies in the order of their heads (`Token.read_write`), unless its only entry in the
last column is the flag that stands there for no entry. -/
namespace Treebank
open Text

theorem nodup_eraseDups {α : Type} [DecidableEq α] (xs : List α) : xs.eraseDups.Nodup := by
  induction hlength : xs.length using Nat.strongRecOn generalizing xs with
  | ind n ih =>
    cases xs with
    | nil => exact .nil
    | cons x rest =>
      have hlt : (rest.filter fun y => !y == x).length < n := by
        rw [← hlength]
        exact Nat.lt_succ_of_le (List.length_filter_le _ rest)
      rw [List.eraseDups_cons]
      exact List.nodup_cons.2 ⟨by simp, ih _ hlt _ rfl⟩

namespace Columns

/-- The texts that the columns hold. -/
def texts (columns : Columns) : List String :=
  [columns.form, columns.lemmaForm, columns.upos, columns.xpos, columns.deprel] ++
    columns.feats.texts ++ columns.deps.map (·.deprel) ++ columns.misc.texts ++ columns.extra

/-- The columns with the dependencies in the order of their heads. -/
def sorted (columns : Columns) : Columns :=
  { columns with deps := columns.deps.mergeSort EnhancedDep.headLe }

theorem mem_deps_iff_hasDep {columns : Columns} {dep : EnhancedDep}
    (hcolumns : ∀ other ∈ columns.deps, other.headword = none) (hdep : dep.headword = none) :
    columns.hasDep dep = true ↔ dep ∈ columns.deps := by
  have hsame : ∀ other : EnhancedDep, other.headword = none → other.unlinked = other := by
    intro other hother
    rw [EnhancedDep.unlinked, ← hother]
  rw [hasDep, List.any_eq_true]
  constructor
  · intro h
    obtain ⟨other, hother, hedge⟩ := h
    rw [EnhancedDep.sameEdge, decide_eq_true_eq, hsame dep hdep,
      hsame other (hcolumns other hother)] at hedge
    exact hedge ▸ hother
  · exact fun h => ⟨dep, h, decide_eq_true rfl⟩

/-- Dependencies without links that are all new are added as they are. -/
theorem foldl_addDep {deps : List EnhancedDep} (columns : Columns)
    (hnodup : (columns.deps ++ deps).Nodup)
    (hdeps : ∀ dep ∈ columns.deps ++ deps, dep.headword = none) :
    deps.foldl (fun c dep => c.addDep dep) columns =
      { columns with deps := columns.deps ++ deps } := by
  induction deps generalizing columns with
  | nil => rw [List.append_nil]; rfl
  | cons dep rest ih =>
    have hnew : columns.hasDep dep ≠ true := by
      rw [ne_eq, mem_deps_iff_hasDep (fun other hother => hdeps other (List.mem_append_left _ hother))
        (hdeps dep (by simp))]
      exact fun hold => (List.nodup_append.1 hnodup).2.2 dep hold dep List.mem_cons_self rfl
    rw [List.append_cons] at hnodup hdeps
    have hrest := ih { columns with deps := columns.deps ++ [dep] } hnodup hdeps
    rw [List.foldl_cons, addDep, if_neg hnew, hrest]
    simp

/-- Adding dependencies leaves the other columns alone and adds none twice. -/
theorem foldl_addDep_of_none {deps : List EnhancedDep} (columns : Columns)
    (hnone : columns.deps = []) (hdeps : ∀ dep ∈ deps, dep.headword = none) :
    deps.foldl (fun c dep => c.addDep dep) columns = { columns with deps := deps.eraseDups } := by
  induction deps using List.reverseRecOn with
  | nil => rw [List.foldl_nil, List.eraseDups_nil, ← hnone]
  | append_singleton earlier dep ih =>
    obtain ⟨hearlier, hdep⟩ := List.forall_mem_append.1 hdeps
    have hold : ({ columns with deps := earlier.eraseDups } : Columns).hasDep dep = true ↔
        dep ∈ earlier := by
      rw [← List.mem_eraseDups]
      exact mem_deps_iff_hasDep (fun other hother => hearlier other (List.mem_eraseDups.1 hother))
        (hdep dep (List.mem_singleton_self dep))
    rw [List.foldl_append, ih hearlier, List.eraseDups_append, List.foldl_cons, List.foldl_nil,
      addDep]
    by_cases hmem : dep ∈ earlier
    · rw [if_pos (hold.2 hmem)]
      simp [List.removeAll, hmem]
    · rw [if_neg fun htrue => hmem (hold.1 htrue)]
      simp [List.removeAll, hmem, List.eraseDups_cons]

end Columns

namespace Token

def sorted (token : Token) : Token := { token with toColumns := token.toColumns.sorted }

structure Legible (token : Token) : Prop where
  id : token.id.Legible
  feats : token.feats.Legible
  head : ∀ n ∈ token.head, n < numberBound
  deps : ∀ dep ∈ token.deps, dep.Legible
  nodup : token.deps.Nodup
  misc : token.misc.Legible
  tab : ∀ text ∈ token.texts, '\t' ∉ text.toList
  ownHead : token.isOwnHead = false

end Token

theorem eq_some_of_orFault {α : Type} {value? : Option α} {fault : String → LineFault}
    {column : List Char} {value : α} (h : orFault value? fault column = .ok value) :
    value? = some value := by
  cases value? with
  | none => cases h
  | some other =>
    cases h
    rfl

namespace Token

/-- A token that is read is legible, and its texts stand in its line. -/
theorem read_eq_ok {line : List Char} {token : Token} (h : Token.read line = .ok token) :
    token.Legible ∧ ∀ text ∈ token.texts, ∀ c ∈ text.toList, c ∈ line := by
  unfold Token.read at h
  split at h
  · next id form lemmaForm upos xpos feats head deprel deps misc extra hpieces =>
    obtain ⟨tokenId, hid, h⟩ := bind_eq_ok h
    obtain ⟨features, hfeats, h⟩ := bind_eq_ok h
    obtain ⟨headId, hhead, h⟩ := bind_eq_ok h
    obtain ⟨edges, hedges, h⟩ := bind_eq_ok h
    replace hid := eq_some_of_orFault hid
    replace hfeats := eq_some_of_orFault hfeats
    replace hhead := eq_some_of_orFault hhead
    replace hedges := eq_some_of_orFault hedges
    have hlegible := EnhancedDep.legible_of_readAll hedges
    have hcolumns := Columns.foldl_addDep_of_none
      { form := String.ofList form, lemmaForm := String.ofList lemmaForm,
        upos := String.ofList upos, xpos := String.ofList xpos, feats := features, head := headId,
        deprel := String.ofList deprel, misc := Misc.read misc, extra := extra.map String.ofList }
      rfl fun dep hdep => (hlegible dep hdep).headword
    simp only [hcolumns] at h
    split at h
    · cases h
    · next hown =>
      -- Each text of the token comes from one column, so no tab can be in it.
      have htexts : ∀ text ∈ token.texts, ∀ c ∈ text.toList,
          ∃ column ∈ pieces '\t' line, c ∈ column := by
        cases h
        intro text htext c hc
        simp only [Columns.texts, List.mem_append, List.mem_cons, List.not_mem_nil, or_false,
          List.mem_map] at htext
        rw [hpieces]
        rcases htext with ((((rfl | rfl | rfl | rfl | rfl) | hfeat) | hdep) | hmisc) | hextra
        · exact ⟨form, by simp, by simpa using hc⟩
        · exact ⟨lemmaForm, by simp, by simpa using hc⟩
        · exact ⟨upos, by simp, by simpa using hc⟩
        · exact ⟨xpos, by simp, by simpa using hc⟩
        · exact ⟨deprel, by simp, by simpa using hc⟩
        · exact ⟨feats, by simp, Features.mem_of_read hfeats text hfeat c hc⟩
        · obtain ⟨dep, hdep, rfl⟩ := hdep
          exact ⟨deps, by simp, EnhancedDep.mem_of_readAll hedges dep (List.mem_eraseDups.1 hdep) c hc⟩
        · exact ⟨misc, by simp, Misc.mem_of_read text hmisc c hc⟩
        · obtain ⟨column, hcolumn, rfl⟩ := hextra
          exact ⟨column, by simp [hcolumn], by simpa using hc⟩
      have hchars : ∀ text ∈ token.texts, ∀ c ∈ text.toList, c ∈ line ∧ c ≠ '\t' := by
        intro text htext c hc
        obtain ⟨column, hcolumn, hc⟩ := htexts text htext c hc
        exact mem_of_mem_pieces hcolumn c hc
      refine ⟨?_, fun text htext c hc => (hchars text htext c hc).1⟩
      have htab : ∀ text ∈ token.texts, '\t' ∉ text.toList := fun text htext htab =>
        (hchars text htext _ htab).2 rfl
      cases h
      exact {
        id := TokenId.legible_of_read hid
        feats := Features.legible_of_read hfeats
        head := lt_of_readHead hhead
        deps := fun dep hdep => hlegible dep (List.mem_eraseDups.1 hdep)
        nodup := nodup_eraseDups edges
        misc := Misc.legible_read misc
        tab := htab
        ownHead := by simpa using hown }
  · cases h

/-! ### Written lines -/

theorem not_mem_writeColumns {c : Char} {token : Token} (hc : isMark c = false)
    (h : ∀ text ∈ token.texts, c ∉ text.toList) : ∀ column ∈ token.writeColumns, c ∉ column := by
  simp only [Columns.texts, List.forall_mem_append, List.forall_mem_cons, List.forall_mem_map,
    List.not_mem_nil, false_implies, implies_true, and_true] at h
  obtain ⟨⟨⟨⟨⟨hform, hlemma, hupos, hxpos, hdeprel⟩, hfeats⟩, hdeps⟩, hmisc⟩, hextra⟩ := h
  simp only [writeColumns, List.forall_mem_append, List.forall_mem_cons, List.forall_mem_map,
    List.not_mem_nil, false_implies, implies_true, and_true]
  exact ⟨⟨TokenId.not_mem_write (isDigit_of_not_mark hc) (ne_of_not_mark hc _ rfl)
      (ne_of_not_mark hc _ rfl) _, hform, hlemma, hupos, hxpos, Features.not_mem_write hc hfeats,
    not_mem_writeHead hc _, hdeprel, EnhancedDep.not_mem_writeAll hc hdeps,
    Misc.not_mem_write hc hmisc⟩, hextra⟩

theorem not_mem_write {c : Char} {token : Token} (hc : isMark c = false) (htab : c ≠ '\t')
    (h : ∀ text ∈ token.texts, c ∉ text.toList) : c ∉ token.write := by
  intro hmem
  rcases mem_of_mem_joinWith hmem with heq | ⟨column, hcolumn, hmem⟩
  · exact htab heq
  · exact not_mem_writeColumns hc h column hcolumn hmem

theorem write_eq (token : Token) :
    token.write = joinWith '\t'
      (token.writeColumns.take 9 ++ token.misc.write :: token.extra.map String.toList) := rfl

/-- The first nine columns are read as they were written, whatever stands in the others. -/
theorem read_columns {token : Token} (h : token.Legible) (misc : List Char)
    (extra : List (List Char)) (htab : ∀ column ∈ misc :: extra, '\t' ∉ column) :
    Token.read (joinWith '\t' (token.writeColumns.take 9 ++ misc :: extra)) =
      .ok { token.sorted with misc := Misc.read misc, extra := extra.map String.ofList } := by
  have hpieces : pieces '\t' (joinWith '\t' (token.writeColumns.take 9 ++ misc :: extra)) =
      token.writeColumns.take 9 ++ misc :: extra := by
    refine pieces_joinWith (by simp) (List.forall_mem_append.2 ⟨fun column hcolumn => ?_, htab⟩)
    exact not_mem_writeColumns rfl h.tab column (List.mem_of_mem_take hcolumn)
  have hadd : (token.deps.mergeSort EnhancedDep.headLe).foldl (fun c dep => c.addDep dep)
      { token.toColumns with
        deps := [], misc := Misc.read misc, extra := extra.map String.ofList } =
      { token.toColumns.sorted with misc := Misc.read misc, extra := extra.map String.ofList } :=
    Columns.foldl_addDep { token.toColumns with
        deps := [], misc := Misc.read misc, extra := extra.map String.ofList }
      (by simpa using h.nodup)
      (by
        intro dep hdep
        exact (h.deps dep (List.mem_mergeSort.1 hdep)).headword)
  rw [Token.read, hpieces]
  simp only [writeColumns, List.cons_append, List.nil_append, List.take_succ_cons, List.take_zero,
    TokenId.read_write h.id, Features.read_write h.feats, readHead_writeHead h.head,
    EnhancedDep.readAll_writeAll h.deps, orFault, String.ofList_toList]
  show (if Token.isOwnHead ⟨(token.deps.mergeSort EnhancedDep.headLe).foldl
      (fun c dep => c.addDep dep) { token.toColumns with
        deps := [], misc := Misc.read misc, extra := extra.map String.ofList }, token.id⟩ = true
    then _ else _) = _
  have hown : ¬ token.sorted.isOwnHead = true := by
    have hsame : token.sorted.isOwnHead = token.isOwnHead := rfl
    simp [hsame, h.ownHead]
  rw [hadd]
  exact if_neg hown

theorem read_write {token : Token} (h : token.Legible) (hflag : token.misc ≠ ⟨[("_", .flag)]⟩) :
    Token.read token.write = .ok token.sorted := by
  have htab : ∀ column ∈ token.misc.write :: token.extra.map String.toList, '\t' ∉ column :=
    fun column hcolumn => not_mem_writeColumns rfl h.tab column
      (List.mem_of_mem_drop (i := 9) hcolumn)
  rw [write_eq, read_columns h _ _ htab, Misc.read_write h.misc hflag]
  simp [sorted, Columns.sorted]

/-- A token line begins with a digit. -/
theorem exists_write_eq_cons (token : Token) :
    ∃ c rest, token.write = c :: rest ∧ c.isDigit = true := by
  have hid : ∃ c rest, token.id.write = c :: rest ∧ c.isDigit = true := by
    cases token.id with
    | word id => exact exists_writeNumber_eq_cons id
    | range first last =>
      obtain ⟨c, rest, heq, hc⟩ := exists_writeNumber_eq_cons first
      exact ⟨c, _, by rw [TokenId.write, heq, List.cons_append], hc⟩
    | empty anchor sub =>
      obtain ⟨c, rest, heq, hc⟩ := exists_writeNumber_eq_cons anchor
      exact ⟨c, _, by rw [TokenId.write, heq, List.cons_append], hc⟩
  obtain ⟨c, rest, heq, hc⟩ := hid
  exact ⟨c, _, by rw [write, writeColumns, heq]; rfl, hc⟩

end Token

/-! ### Sorted dependencies -/

theorem EnhancedDep.headLe_trans (a b c : EnhancedDep) (hab : headLe a b = true)
    (hbc : headLe b c = true) : headLe a c = true := by
  simp only [headLe, Bool.or_eq_true, Bool.and_eq_true, decide_eq_true_eq, beq_iff_eq] at *
  cases ha : a.sub? <;> cases hb : b.sub? <;> cases hc : c.sub? <;> simp_all <;> omega

theorem EnhancedDep.headLe_total (a b : EnhancedDep) : (headLe a b || headLe b a) = true := by
  simp only [headLe, Bool.or_eq_true, Bool.and_eq_true, decide_eq_true_eq, beq_iff_eq]
  cases ha : a.sub? <;> cases hb : b.sub? <;> simp_all <;> omega

theorem Columns.mergeSort_sorted (columns : Columns) :
    columns.sorted.deps.mergeSort EnhancedDep.headLe = columns.sorted.deps :=
  List.mergeSort_of_pairwise
    (List.pairwise_mergeSort EnhancedDep.headLe_trans EnhancedDep.headLe_total columns.deps)

theorem Token.take_writeColumns_sorted (token : Token) :
    token.sorted.writeColumns.take 9 = token.writeColumns.take 9 := by
  have hdeps : EnhancedDep.writeAll token.sorted.deps = EnhancedDep.writeAll token.deps :=
    congrArg (fun deps : List EnhancedDep => writeItems (deps.map EnhancedDep.write))
      token.toColumns.mergeSort_sorted
  simp only [writeColumns, hdeps]
  rfl

theorem Token.write_sorted (token : Token) : token.sorted.write = token.write := by
  rw [write_eq, take_writeColumns_sorted]
  rfl

end Treebank
