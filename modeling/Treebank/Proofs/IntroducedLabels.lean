import Treebank.Proofs.Attributes
import Treebank.Proofs.Matches

/-! Labels of relations as conditions on words.

A labelled relation of the pattern block that is the first clause to name its dependent puts its
labels on the node of the dependent as a condition, beside what it asks of both its ends
(`must_of_introduces`). If the relation is not negated, a word can only stand for the dependent when
it hangs by one of the labels, so the condition is there to have fewer candidates: without it
(`Request.unlabelled`) more tuples are tried and the same matches are found in the same order
(`search_unlabelled`). -/
namespace Treebank

/-! ### Patterns without these conditions -/

/-- The rows but the one with the key. -/
def Table.erase {κ α : Type} [DecidableEq κ] (table : Table κ α) (key : κ) : Table κ α :=
  ⟨table.rows.filter fun row => row.1 ≠ key⟩

/-- The relation that the clause is, if it is one of the pattern block and names a dependent that is
not in `known`. -/
def Clause.introduced (known : List String) : Block × Clause → List RelationClause
  | (.pattern, .relation clause) =>
    if clause.dep ∈ known ∨ clause.dep = clause.head then [] else [clause]
  | _ => []

/-- The relations that introduce their dependents, when the names in `known` have come before. -/
def introducing (known : List String) : List (Block × Clause) → List RelationClause
  | [] => []
  | entry :: rest =>
    Clause.introduced known entry ++ introducing (known ++ entry.2.names entry.1) rest

/-- The names of the dependents on which relations that are not negated have put their labels. -/
def Request.labelled (request : Request) : List String :=
  ((introducing [] request.clauses).filter fun clause =>
    !clause.negated && !clause.labels.isEmpty).map (·.dep)

def NodeConstraint.unlabelled (node : NodeConstraint) : NodeConstraint :=
  { node with must := node.must.erase .deprel }

/-- The pattern without the conditions on labels that come from these relations. -/
def Request.unlabelled (request : Request) (pattern : Pattern) : Pattern :=
  { pattern with
    nodes := pattern.nodes.map fun node =>
      if node.name ∈ request.labelled then node.unlabelled else node }

theorem mem_introduced_iff {known : List String} {entry : Block × Clause}
    {clause : RelationClause} :
    clause ∈ Clause.introduced known entry ↔
      entry = (.pattern, .relation clause) ∧ clause.dep ∉ known ∧ clause.dep ≠ clause.head := by
  unfold Clause.introduced
  split
  · next other =>
    split
    · next hold =>
      refine iff_of_false List.not_mem_nil ?_
      rintro ⟨hsame, hdep, hne⟩
      cases hsame
      exact hold.elim hdep hne
    · next hnew =>
      rw [List.mem_singleton]
      constructor
      · rintro rfl
        exact ⟨rfl, not_or.1 hnew⟩
      · rintro ⟨hsame, -⟩
        cases hsame
        rfl
  · next hother =>
    refine iff_of_false List.not_mem_nil ?_
    rintro ⟨hsame, -⟩
    exact hother clause hsame

theorem mem_introducing_iff {known : List String} {clauses : List (Block × Clause)}
    {clause : RelationClause} :
    clause ∈ introducing known clauses ↔
      ∃ earlier later, clauses = earlier ++ (.pattern, .relation clause) :: later ∧
        clause.dep ∉ known ++ namesOf earlier ∧ clause.dep ≠ clause.head := by
  induction clauses generalizing known with
  | nil => simp [introducing]
  | cons entry rest ih =>
    rw [introducing, List.mem_append, mem_introduced_iff, ih]
    constructor
    · rintro (⟨rfl, hdep, hne⟩ | ⟨earlier, later, rfl, hdep, hne⟩)
      · exact ⟨[], rest, rfl, by simpa [namesOf] using hdep, hne⟩
      · refine ⟨entry :: earlier, later, rfl, ?_, hne⟩
        rwa [namesOf, List.flatMap_cons, ← List.append_assoc]
    · rintro ⟨earlier, later, hsplit, hdep, hne⟩
      cases earlier with
      | nil =>
        cases hsplit
        exact .inl ⟨rfl, by simpa [namesOf] using hdep, hne⟩
      | cons first earlier =>
        cases hsplit
        refine .inr ⟨earlier, later, rfl, ?_, hne⟩
        rwa [namesOf, List.flatMap_cons, ← List.append_assoc] at hdep

theorem mem_labelled_iff {request : Request} {name : String} :
    name ∈ request.labelled ↔ ∃ clause, Introduces request.clauses clause ∧
      clause.negated = false ∧ clause.labels ≠ [] ∧ clause.dep = name := by
  unfold Request.labelled
  simp only [List.mem_map, List.mem_filter, mem_introducing_iff, List.nil_append, and_assoc,
    Bool.and_eq_true, Bool.not_eq_true', List.isEmpty_eq_false_iff]
  exact Iff.rfl

/-! ### Rows of a draft -/

namespace Draft
variable {draft next : Draft} {name : String} {row : Attribute × List String}

/-- The node with the name has to meet the condition. -/
def HasRow (draft : Draft) (name : String) (row : Attribute × List String) : Prop :=
  ∃ node ∈ draft.nodes, node.name = name ∧ row ∈ node.must.rows

theorem HasRow.declare (h : draft.HasRow name row) (other : String) :
    (draft.declare other).HasRow name row := by
  obtain ⟨node, hnode, hrow⟩ := h
  unfold Draft.declare
  split
  · exact ⟨node, hnode, hrow⟩
  · exact ⟨node, List.mem_append_left _ hnode, hrow⟩

/-- The rows to be met are the old ones and the new one, if it is not negated. -/
theorem mem_must_constrain {node : NodeConstraint} {key : Attribute}
    (hfree : node.constrains key = false) {negated : Bool} {values : List String} :
    row ∈ (node.constrain negated key values).must.rows ↔
      row ∈ node.must.rows ∨ negated = false ∧ row = (key, values) := by
  have hkey : key ∉ node.must.rows.map Prod.fst := by
    simpa [Table.keys] using (Bool.or_eq_false_iff.1 hfree).1
  cases negated with
  | false =>
    simp [NodeConstraint.constrain, Table.insert, Table.insertRow_eq_append hkey]
  | true => simp [NodeConstraint.constrain]

theorem HasRow.constrain (h : draft.HasRow name row) {other : String} {key : Attribute}
    (hfree : (draft.nodes[draft.var other]?).any (·.constrains key) = false) (negated : Bool)
    (values : List String) :
    (draft.modify other (·.constrain negated key values)).HasRow name row := by
  obtain ⟨node, hnode, hname, hrow⟩ := h
  obtain ⟨i, hi⟩ := List.getElem?_of_mem hnode
  by_cases hvar : draft.var other = i
  · rw [hvar, hi, Option.any_some] at hfree
    refine ⟨node.constrain negated key values, ?_, by rw [NodeConstraint.name_constrain, hname],
      (mem_must_constrain hfree).2 (.inl hrow)⟩
    refine List.mem_of_getElem? (i := i) ?_
    rw [modify, List.getElem?_modify, hi]
    exact congrArg some (if_pos hvar)
  · refine ⟨node, ?_, hname, hrow⟩
    refine List.mem_of_getElem? (i := i) ?_
    rw [modify, List.getElem?_modify, hi]
    exact congrArg some (if_neg hvar)

theorem HasRow.addEntry (h : draft.HasRow name row) {entry : Block × Clause}
    (hadd : draft.addEntry entry = .ok next) : next.HasRow name row :=
  addEntry_invariant (P := fun draft => draft.HasRow name row) hadd h
    (fun other hold => hold.declare other)
    (fun negated values hfree hold => hold.constrain hfree negated values)
    fun ⟨node, hnode, hrow⟩ hnodes => ⟨node, hnodes ▸ hnode, hrow⟩

theorem hasRow_constrain_self (hname : name ∈ draft.names) {key : Attribute}
    (hfree : (draft.nodes[draft.var name]?).any (·.constrains key) = false) (values : List String) :
    (draft.modify name (·.constrain false key values)).HasRow name (key, values) := by
  obtain ⟨node, hnode, rfl⟩ := node_of_name hname
  rw [hnode, Option.any_some] at hfree
  refine ⟨node.constrain false key values, ?_, NodeConstraint.name_constrain ..,
    (mem_must_constrain hfree).2 (.inr ⟨rfl, rfl⟩)⟩
  refine List.mem_of_getElem? (i := draft.var node.name) ?_
  rw [modify, List.getElem?_modify, hnode]
  exact congrArg some (if_pos rfl)

/-- A relation that names its dependent first puts its labels on it. -/
theorem hasRow_addRelation {clause : RelationClause} (hdep : clause.dep ∉ draft.names)
    (hne : clause.dep ≠ clause.head) (hlabels : clause.labels ≠ [])
    (hnegated : clause.negated = false) (h : draft.Sound) :
    (draft.addRelation .pattern clause).HasRow clause.dep (.deprel, clause.labels) := by
  have hfresh : clause.dep ∉ (draft.declare clause.head).names := by
    rw [(adds_declare h clause.head).mem_names, List.mem_singleton]
    exact not_or.2 ⟨hdep, hne⟩
  have hends : (draft.declareEnds clause).HasRow clause.dep (.deprel, clause.labels) := by
    unfold declareEnds
    simp only [if_neg hfresh, List.isEmpty_eq_false_iff.2 hlabels, hnegated]
    exact hasRow_constrain_self (mem_names_declare _ _) (constrains_of_new_name hfresh _) _
  exact hends

end Draft

/-! ### Compiled patterns -/

section Compile
variable {request : Request} {pattern : Pattern} {clause : RelationClause}
  (hcompile : request.compile = .ok pattern) (hintroduces : Introduces request.clauses clause)
  (hnegated : clause.negated = false) (hlabels : clause.labels ≠ [])

include hcompile hintroduces hnegated hlabels

/-- The labels stand among the conditions that the node of the dependent has to meet. -/
theorem must_of_introduces {node : NodeConstraint} (hnode : node ∈ pattern.nodes)
    (hname : node.name = clause.dep) : (.deprel, clause.labels) ∈ node.must.rows := by
  obtain ⟨draft, hdraft, hfinish⟩ := bind_eq_ok hcompile
  obtain ⟨relations, -, hpattern⟩ := bind_eq_ok hfinish
  cases hpattern
  have hsound := (compiled_draft hdraft).sound
  obtain ⟨earlier, later, hsplit, hdep, hne⟩ := hintroduces
  rw [request.draft_eq_foldlM, hsplit, List.foldlM_append] at hdraft
  obtain ⟨before, hbefore, hdraft⟩ := bind_eq_ok hdraft
  rw [List.foldlM_cons] at hdraft
  obtain ⟨middle, hmiddle, hdraft⟩ := bind_eq_ok hdraft
  -- the row comes with the clause and stays through those that follow
  have hcompiled := Compiled.empty.run hbefore
  have hrow : middle.HasRow clause.dep (.deprel, clause.labels) := by
    cases hmiddle
    refine Draft.hasRow_addRelation (fun hold => hdep ?_) hne hlabels hnegated hcompiled.sound
    exact (hcompiled.mem_names _).1 hold
  obtain ⟨other, hother, hsame, hrow⟩ := foldlM_invariant
    (P := fun draft => draft.HasRow clause.dep (.deprel, clause.labels)) hdraft hrow
    fun _ _ _ hold hadd => hold.addEntry hadd
  rwa [List.inj_on_of_nodup_map hsound.nodup hnode hother (hname.trans hsame.symm)]

/-- Where the relations of a pattern hold, the dependent has one of the labels. -/
theorem label_of_fits {s : Sentence} {node : Nat → Nat} (hfits : pattern.Fits s node) {var : Nat}
    {constraint : NodeConstraint} (hvar : pattern.nodes[var]? = some constraint)
    (hname : constraint.name = clause.dep) :
    (s.wordAt (node var)).deprel ∈ clause.labels := by
  obtain ⟨draft, hdraft, hfinish⟩ := bind_eq_ok hcompile
  obtain ⟨relations, hrelations, hpattern⟩ := bind_eq_ok hfinish
  cases hpattern
  have hcompiled := compiled_draft hdraft
  obtain ⟨earlier, later, hsplit, -, -⟩ := hintroduces
  have hentry : (.pattern, .relation clause) ∈ request.clauses := hsplit ▸ List.mem_append_cons_self
  have hnames : ∀ name ∈ [clause.head, clause.dep], name ∈ draft.names := fun name hname =>
    (hcompiled.mem_names name).2 (List.mem_flatMap.2 ⟨_, hentry, hname⟩)
  have hhead := hnames clause.head (by simp)
  have hdep := hnames clause.dep (by simp)
  have hmem : (clause, Block.pattern) ∈ draft.relations := by
    rw [hcompiled.relations]
    exact mem_relations_iff.2 hentry
  obtain ⟨relation, hrelation, hresolve⟩ := exists_of_mapM_eq_ok hrelations _ hmem
  have hholds := hfits.2 relation hrelation
  obtain ⟨rfl, -⟩ := Draft.resolve_cases hresolve
  simp only [RelationConstraint.Holds, Draft.endpoint, if_pos hhead, if_pos hdep, hnegated] at hholds
  obtain ⟨-, hlabel⟩ := hholds.2 rfl
  have hplace : draft.var clause.dep = var := by
    have hat : draft.names[var]? = some clause.dep := by
      rw [Draft.names, List.getElem?_map, hvar, Option.map_some, hname]
    obtain ⟨hlt, hat⟩ := List.getElem?_eq_some_iff.1 hat
    rw [Draft.var, ← hat]
    exact hcompiled.sound.nodup.idxOf_getElem var hlt
  exact hplace ▸ hlabel.resolve_left hlabels

end Compile

/-- Beside the row for the labels, what the node asks for is what it asks for without it. -/
theorem NodeConstraint.accepts_unlabelled_iff {node : NodeConstraint} {labels : List String}
    (hkeys : node.keys.Nodup) (hrow : (.deprel, labels) ∈ node.must.rows) {columns : Columns} :
    node.accepts columns = true ↔
      node.unlabelled.accepts columns = true ∧ meets columns .deprel labels = true := by
  have hmust : node.must.keys.Nodup := (List.nodup_append.1 hkeys).1
  have hrows : (∀ row ∈ node.must.rows, meets columns row.1 row.2 = true) ↔
      (∀ row ∈ (node.must.erase .deprel).rows, meets columns row.1 row.2 = true) ∧
        meets columns .deprel labels = true := by
    simp only [Table.erase, List.mem_filter, decide_eq_true_iff, and_imp]
    constructor
    · exact fun hall => ⟨fun row hmem _ => hall row hmem, hall _ hrow⟩
    · rintro ⟨hall, hlabels⟩ row hmem
      by_cases hkey : row.1 = .deprel
      · rwa [List.inj_on_of_nodup_map hmust hmem hrow hkey]
      · exact hall row hmem hkey
  simp only [accepts, unlabelled, Bool.and_eq_true, List.all_eq_true]
  rw [hrows, and_right_comm]

section Unlabelled
variable {request : Request} {pattern : Pattern} (hcompile : request.compile = .ok pattern)

theorem names_unlabelled (request : Request) (pattern : Pattern) :
    (request.unlabelled pattern).names = pattern.names := by
  rw [Pattern.names, Pattern.names, Request.unlabelled, List.map_map]
  refine List.map_congr_left fun node _ => ?_
  simp only [Function.comp_apply]
  split <;> rfl

theorem closed_unlabelled (h : pattern.Closed) : (request.unlabelled pattern).Closed := by
  have hsize : (request.unlabelled pattern).size = pattern.size := List.length_map _
  exact ⟨fun order horder => hsize ▸ h.orders order horder,
    fun relation hrelation => hsize ▸ h.relations relation hrelation⟩

include hcompile

/-- The conditions that are left out hold of all nodes that fit. -/
theorem holds_unlabelled_iff {s : Sentence} {node : Nat → Nat} :
    (request.unlabelled pattern).Holds s node ↔ pattern.Holds s node := by
  have haccepts : pattern.Fits s node → ∀ var (constraint : NodeConstraint),
      pattern.nodes[var]? = some constraint →
      ((if constraint.name ∈ request.labelled then constraint.unlabelled else constraint).accepts
        (s.wordAt (node var)).toColumns = true ↔
          constraint.accepts (s.wordAt (node var)).toColumns = true) := by
    intro hfits var constraint hvar
    split
    · next hlabelled =>
      obtain ⟨clause, hintroduces, hnegated, hlabels, hname⟩ := mem_labelled_iff.1 hlabelled
      have hmem := List.mem_of_getElem? hvar
      have hrow := must_of_introduces hcompile hintroduces hnegated hlabels hmem hname.symm
      rw [NodeConstraint.accepts_unlabelled_iff (keys_of_compile hcompile hmem).1 hrow]
      refine (and_iff_left ?_).symm
      have hlabel := label_of_fits hcompile hintroduces hnegated hlabels hfits hvar hname.symm
      simpa [NodeConstraint.meets, Attribute.value?] using Or.inr hlabel
    · exact Iff.rfl
  have hat : ∀ var : Nat, (request.unlabelled pattern).nodes[var]? =
      (pattern.nodes[var]?).map fun other : NodeConstraint =>
        if other.name ∈ request.labelled then other.unlabelled else other := by
    intro var
    rw [Request.unlabelled, List.getElem?_map]
  constructor
  · rintro ⟨hall, hfits⟩
    refine ⟨fun var constraint hvar => ?_, hfits⟩
    exact (haccepts hfits var constraint hvar).1 (hall var _ (by rw [hat, hvar]; rfl))
  · rintro ⟨hall, hfits⟩
    refine ⟨fun var constraint hvar => ?_, hfits⟩
    rw [hat] at hvar
    obtain ⟨old, hold, rfl⟩ := Option.map_eq_some_iff.1 hvar
    exact (haccepts hfits var old hold).2 (hall var old hold)

end Unlabelled

/-- **The condition that a labelled relation puts on the dependent it introduces is redundant**, if
the relation is not negated. It stands among what the node has to meet, and without it a search
finds the same matches in the same order. -/
theorem search_unlabelled {request : Request} {pattern : Pattern}
    (hcompile : request.compile = .ok pattern) :
    (∀ clause, Introduces request.clauses clause → clause.negated = false → clause.labels ≠ [] →
      ∀ node ∈ pattern.nodes, node.name = clause.dep →
        node.must.get? .deprel = some clause.labels) ∧
    (∀ name, name ∈ request.labelled ↔ ∃ clause, Introduces request.clauses clause ∧
      clause.negated = false ∧ clause.labels ≠ [] ∧ clause.dep = name) ∧
    ∀ allowed s, Reachable allowed s → ∃ found, s.search? pattern = some found ∧
      s.search? (request.unlabelled pattern) = some found := by
  refine ⟨?_, fun name => mem_labelled_iff, fun allowed s h => ?_⟩
  · intro clause hintroduces hnegated hlabels node hnode hname
    have hkeys := (List.nodup_append.1 (keys_of_compile hcompile hnode).1).1
    exact Table.get?_eq_some hkeys
      (must_of_introduces hcompile hintroduces hnegated hlabels hnode hname)
  · have hclosed := closed_of_compile hcompile
    cases hbuilt : s.outline.built with
    | false =>
      exact ⟨[], Sentence.search?_eq_nil (.inl hbuilt), Sentence.search?_eq_nil (.inl hbuilt)⟩
    | true =>
      have hlinked := linked_of_built h hbuilt
      obtain ⟨found, hfound⟩ :=
        Sentence.exists_search?_eq hlinked hclosed (pattern.allowsNext_wraps s)
      refine ⟨found, hfound, ?_⟩
      rw [← hfound]
      exact Sentence.search?_congr hlinked hbuilt hclosed (closed_unlabelled hclosed)
        (names_unlabelled request pattern) fun node => holds_unlabelled_iff hcompile

/-- Without the labels all three words are candidates for `N`, and the two matches are the same. `M`
keeps its condition, since the relation that introduces it is negated. -/
theorem search_unlabelled_of_three :
    let request : Request :=
      { pattern := [.relation { head := "V", dep := "N", labels := ["nsubj", "iobj"] },
          .relation { head := "V", dep := "M", labels := ["punct"], negated := true }]
        withouts := [[.relation { head := "M", dep := "D", labels := ["det"] }]] }
    let s := (Sentence.ofTokens
      [{ id := .word 1, head := some 2, deprel := "nsubj" },
       { id := .word 2, head := some 0, deprel := "root" },
       { id := .word 3, head := some 2, deprel := "iobj" }]).step .build
    ∃ pattern, request.compile = .ok pattern ∧ request.labelled = ["N"] ∧
      (pattern.nodes.map fun node => (s.candidates node).length) = [3, 2, 3] ∧
      ((request.unlabelled pattern).nodes.map fun node => (s.candidates node).length) = [3, 3, 3] ∧
      (request.unlabelled pattern).nodes.map (·.mustNot.keys) = [[], [], [.deprel]] ∧
      ∃ found, s.search? pattern = some found ∧ s.search? (request.unlabelled pattern) = some found ∧
        found.map (·.bindings) = [[1, 0, 2], [1, 2, 0]] := by
  intro request s
  have hreachable : Reachable (fun _ => True) s :=
    (Reachable.ofTokens fun _ _ => trivial).step trivial
  obtain ⟨pattern, hcompile, hnodes, hothers, hmust, hsearch⟩ :
      ∃ pattern, request.compile = .ok pattern ∧
        (pattern.nodes.map fun node => (s.candidates node).length) = [3, 2, 3] ∧
        ((request.unlabelled pattern).nodes.map fun node => (s.candidates node).length) = [3, 3, 3] ∧
        (request.unlabelled pattern).nodes.map (·.mustNot.keys) = [[], [], [.deprel]] ∧
        (s.search? pattern).map (·.map (·.bindings)) = some [[1, 0, 2], [1, 2, 0]] :=
    ⟨_, rfl, by decide +kernel, by decide +kernel, by decide +kernel, by decide +kernel⟩
  obtain ⟨-, -, hsame⟩ := search_unlabelled hcompile
  obtain ⟨found, hfound, hother⟩ := hsame _ s hreachable
  refine ⟨pattern, hcompile, by decide +kernel, hnodes, hothers, hmust, found, hfound, hother, ?_⟩
  rw [hfound] at hsearch
  exact Option.some.inj hsearch

end Treebank
