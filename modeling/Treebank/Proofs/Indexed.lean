import Treebank.Pattern.Indexed
import Treebank.Proofs.Matches

/-! Indexes that fit.

A builder goes along with a draft: its lists have an entry for each node of the draft, and
what it looks up by name is the place of the name among them (`Mirrors`). So while clauses are
read it finds an entry at every place that it looks at, and goes on or stops as the draft
does (`Agrees`). What comes out is the pattern of the plain compiler with indexes that fit it
(`agrees_compile`), and a search for it can go by them (`compileIndexed_outcome`). -/
namespace Treebank

/-! ### Going along -/

/-- Both runs go well and their results are related, or both stop with the same error. -/
inductive Agrees {α β : Type} (R : α → β → Prop) :
    Except BuildError α → Except PatternError β → Prop
  | ok {a : α} {b : β} : R a b → Agrees R (.ok a) (.ok b)
  | refused {error : PatternError} : Agrees R (.error (.refused error)) (.error error)

namespace Agrees
variable {α β γ δ ι : Type} {R : α → β → Prop} {S : γ → δ → Prop}

theorem bind {x : Except BuildError α} {y : Except PatternError β} {f : α → Except BuildError γ}
    {g : β → Except PatternError δ} (h : Agrees R x y)
    (hstep : ∀ a b, R a b → Agrees S (f a) (g b)) : Agrees S (x >>= f) (y >>= g) := by
  cases h with
  | ok hrelated => exact hstep _ _ hrelated
  | refused => exact .refused

theorem foldlM {f : α → ι → Except BuildError α} {g : β → ι → Except PatternError β} {a : α} {b : β}
    (h : R a b) (hstep : ∀ a b i, R a b → Agrees R (f a i) (g b i)) (xs : List ι) :
    Agrees R (xs.foldlM f a) (xs.foldlM g b) := by
  induction xs generalizing a b with
  | nil => exact .ok h
  | cons i rest ih =>
    rw [List.foldlM_cons, List.foldlM_cons]
    exact (hstep a b i h).bind fun _ _ => ih

theorem imp {T : α → β → Prop} {x : Except BuildError α} {y : Except PatternError β}
    (h : Agrees R x y) (himp : ∀ a b, R a b → T a b) : Agrees T x y := by
  cases h with
  | ok hrelated => exact .ok (himp _ _ hrelated)
  | refused => exact .refused

end Agrees

/-! ### Names and places -/

theorem forall₂_set {α β : Type} {R : α → β → Prop} {xs : List α} {ys : List β} {x : α} {y : β}
    (h : List.Forall₂ R xs ys) (hxy : R x y) (i : Nat) :
    List.Forall₂ R (xs.set i x) (ys.set i y) := by
  induction h generalizing i with
  | nil => exact .nil
  | cons hfirst hrest ih =>
    cases i with
    | zero => exact .cons hxy hrest
    | succ i => exact .cons hfirst (ih i)

theorem lookup_zipIdx (names : List String) (name : String) (start : Nat) :
    (names.zipIdx start).lookup name =
      if name ∈ names then some (start + names.idxOf name) else none := by
  induction names generalizing start with
  | nil => rfl
  | cons first rest ih =>
    rw [List.zipIdx_cons, List.lookup_cons]
    by_cases hname : name = first
    · subst hname
      simp
    · have hother : (name == first) = false := beq_eq_false_iff_ne.2 hname
      rw [hother, ih, List.idxOf_cons_ne _ (Ne.symm hname), Nat.add_assoc, Nat.add_comm 1]
      simp [hname]

theorem lookup_zipIdx_eq_some_iff {names : List String} (h : names.Nodup) {name : String}
    {var : Nat} : names.zipIdx.lookup name = some var ↔ names[var]? = some name := by
  rw [lookup_zipIdx, Nat.zero_add]
  constructor
  · intro hfound
    split at hfound
    · next hname =>
      cases hfound
      have hlt := List.idxOf_lt_length_of_mem hname
      rw [List.getElem?_eq_getElem hlt, List.getElem_idxOf hlt]
    · cases hfound
  · intro hat
    obtain ⟨hlt, rfl⟩ := List.getElem?_eq_some_iff.1 hat
    rw [if_pos (List.getElem_mem hlt), h.idxOf_getElem]

/-- The builder has an entry for each node of the draft: its constraint, its name, which is looked
up to its place, and the attributes that have a condition. -/
structure Mirrors (builder : Builder) (draft : Draft) : Prop where
  nodes : builder.pattern.nodes = draft.nodes
  orders : builder.pattern.orders = draft.orders
  relations : builder.relations = draft.relations
  varNames : builder.pattern.varNames = draft.names
  varIds : builder.pattern.varIds.rows = draft.names.zipIdx
  taken : List.Forall₂ (fun keys node => ∀ key, key ∈ keys ↔ node.constrains key = true)
    builder.taken draft.nodes

namespace Mirrors
variable {builder : Builder} {draft : Draft}

theorem empty : Mirrors {} {} where
  nodes := rfl
  orders := rfl
  relations := rfl
  varNames := rfl
  varIds := rfl
  taken := .nil

theorem varId? (h : Mirrors builder draft) (name : String) :
    builder.pattern.varId? name = if name ∈ draft.names then some (draft.var name) else none := by
  rw [IndexedPattern.varId?, Table.get?, h.varIds, lookup_zipIdx, Nat.zero_add, Draft.var]

/-- The constraint of a name and the attributes that are taken stand at the same place. -/
theorem entry_of_name (h : Mirrors builder draft) {name : String} (hname : name ∈ draft.names) :
    ∃ keys node, builder.taken[draft.var name]? = some keys ∧
      draft.nodes[draft.var name]? = some node ∧
        ∀ key, key ∈ keys ↔ node.constrains key = true := by
  obtain ⟨node, hnode, -⟩ := Draft.node_of_name hname
  obtain ⟨hlength, hentry⟩ := List.forall₂_iff_get.1 h.taken
  obtain ⟨hlt, rfl⟩ := List.getElem?_eq_some_iff.1 hnode
  exact ⟨_, _, List.getElem?_eq_getElem (hlength ▸ hlt), hnode, hentry _ (hlength ▸ hlt) hlt⟩

theorem length_taken (h : Mirrors builder draft) : builder.taken.length = draft.names.length := by
  rw [h.taken.length_eq, Draft.names, List.length_map]

theorem var_of_mem (h : Mirrors builder draft) {name : String} (hname : name ∈ draft.names) :
    builder.var name = (builder, draft.var name) := by
  have hne : ¬ draft.var name = builder.taken.length := by
    rw [h.length_taken]
    exact Nat.ne_of_lt (List.idxOf_lt_length_of_mem hname)
  have hvar : builder.pattern.varId? name = some (draft.var name) := by rw [h.varId?, if_pos hname]
  unfold Builder.var IndexedPattern.addVar
  rw [hvar]
  simp only [if_neg hne]

theorem var_of_new (h : Mirrors builder draft) {name : String} (hname : name ∉ draft.names) :
    builder.var name =
      ({ builder with
         pattern :=
           { builder.pattern with
             nodes := builder.pattern.nodes ++ [{ name }]
             varNames := builder.pattern.varNames ++ [name]
             varIds := builder.pattern.varIds.insert name draft.names.length }
         taken := builder.taken ++ [[]] }, draft.names.length) := by
  have hsize : builder.pattern.size = draft.names.length := by
    rw [Pattern.size, h.nodes, Draft.names, List.length_map]
  have hvar : builder.pattern.varId? name = none := by rw [h.varId?, if_neg hname]
  unfold Builder.var IndexedPattern.addVar
  rw [hvar, hsize]
  simp only [if_pos h.length_taken.symm]

/-- A name gets its place in the draft as its variable, and an entry in every list if it is new. -/
theorem var (h : Mirrors builder draft) (name : String) :
    Mirrors (builder.var name).1 (draft.declare name) ∧
      (builder.var name).2 = (draft.declare name).var name := by
  by_cases hname : name ∈ draft.names
  · rw [h.var_of_mem hname, Draft.declare, if_pos hname]
    exact ⟨h, rfl⟩
  · have hnames : (draft.declare name).names = draft.names ++ [name] := by
      rw [Draft.declare, if_neg hname, Draft.names, List.map_append]
      rfl
    rw [h.var_of_new hname]
    constructor
    · constructor
      case nodes => rw [Draft.declare, if_neg hname, h.nodes]
      case orders => rw [Draft.declare, if_neg hname, h.orders]
      case relations => rw [Draft.declare, if_neg hname, h.relations]
      case varNames => rw [hnames, h.varNames]
      case varIds =>
        have hnew : name ∉ builder.pattern.varIds.rows.map Prod.fst := by
          rw [h.varIds, List.zipIdx_map_fst]
          exact hname
        rw [hnames, List.zipIdx_append, ← h.varIds, Nat.zero_add]
        exact Table.insertRow_eq_append hnew
      case taken =>
        rw [Draft.declare, if_neg hname]
        have hfree : ∀ key, key ∈ [] ↔ ({ name } : NodeConstraint).constrains key = true :=
          fun key => iff_of_false List.not_mem_nil Bool.false_ne_true
        exact List.rel_append h.taken (.cons hfree .nil)
    · rw [Draft.var, hnames, List.idxOf_append_of_notMem hname, List.idxOf_cons_self]
      rfl

/-- A condition on an attribute takes it, and is put where the draft has it. -/
theorem put (h : Mirrors builder draft) {name : String} {keys : List Attribute}
    {node : NodeConstraint} (hnode : draft.nodes[draft.var name]? = some node)
    (hentry : ∀ key, key ∈ keys ↔ node.constrains key = true) (negated : Bool) (key : Attribute)
    (values : List String) :
    Mirrors (builder.put (draft.var name) (node.constrain negated key values) key keys)
      (draft.modify name (·.constrain negated key values)) := by
  have hnames := draft.names_constrain name negated key values
  have hset : draft.nodes.set (draft.var name) (node.constrain negated key values) =
      draft.nodes.modify (draft.var name) (·.constrain negated key values) := by
    rw [List.modify_eq_set_getElem?, hnode]
    rfl
  constructor
  case nodes =>
    show builder.pattern.nodes.set _ _ = draft.nodes.modify _ _
    rw [h.nodes, hset]
  case orders => exact h.orders
  case relations => exact h.relations
  case varNames => exact h.varNames.trans hnames.symm
  case varIds =>
    rw [hnames]
    exact h.varIds
  case taken =>
    show List.Forall₂ _ (builder.taken.set _ _) (draft.nodes.modify _ _)
    rw [← hset]
    refine forall₂_set h.taken (fun other => ?_) _
    rw [NodeConstraint.constrains_constrain, ← hentry, List.mem_insert_iff, or_comm]

end Mirrors

/-! ### Clauses -/

theorem elementAt_eq_ok {α : Type} {xs : List α} {place : Nat} {x : α} (h : xs[place]? = some x) :
    elementAt xs place = .ok x := by
  rw [elementAt, h]

/-- A condition on an attribute that has none yet adds its values to none. -/
theorem extend_eq_constrain {node : NodeConstraint} {key : Attribute}
    (h : node.constrains key = false) (negated : Bool) (values : List String) :
    node.extend negated key values = node.constrain negated key values := by
  obtain ⟨hmust, hmustNot⟩ := Bool.or_eq_false_iff.1 h
  have hnone : (if negated then node.mustNot.get? key else node.must.get? key) = none := by
    cases negated with
    | false => exact Table.get?_eq_none (by simpa using hmust)
    | true => exact Table.get?_eq_none (by simpa using hmustNot)
  rw [NodeConstraint.extend]
  simp only [hnone]
  rfl

section Clauses
variable {builder : Builder} {draft : Draft} (h : Mirrors builder draft) (block : Block)

include h

theorem agrees_addCondition {name : String} (hname : name ∈ draft.names) (condition : Condition) :
    Agrees (fun builder next => Mirrors builder next ∧ next.names = draft.names)
      (builder.addCondition block name (draft.var name) condition)
      (draft.addCondition block name condition) := by
  obtain ⟨keys, node, hkeys, hnode, hentry⟩ := h.entry_of_name hname
  unfold Builder.addCondition Draft.addCondition
  rw [elementAt_eq_ok hkeys, hnode]
  show Agrees _ (if _ ∈ keys then _ else _) _
  simp only [Option.any_some]
  by_cases hkey : Attribute.ofName condition.feature ∈ keys
  · rw [if_pos hkey, if_pos ((hentry _).1 hkey)]
    exact .refused
  · have hfree : node.constrains (.ofName condition.feature) = false :=
      Bool.eq_false_iff.2 fun htaken => hkey ((hentry _).2 htaken)
    rw [if_neg hkey, if_neg (Bool.eq_false_iff.1 hfree), h.nodes, elementAt_eq_ok hnode]
    show Agrees _ (.ok (builder.put _ (node.extend _ _ _) _ _)) _
    rw [extend_eq_constrain hfree]
    exact .ok ⟨h.put hnode hentry _ _ _, draft.names_constrain name _ _ _⟩

theorem agrees_addNode (clause : NodeClause) :
    Agrees Mirrors (builder.addNode block clause) (draft.addNode block clause) := by
  obtain ⟨hvar, hplace⟩ := h.var clause.name
  have hname := Draft.mem_names_declare draft clause.name
  unfold Builder.addNode
  simp only [hplace]
  -- the names stay, so the variable of the first lookup is good for all conditions
  refine (Agrees.foldlM (R := fun builder next =>
    Mirrors builder next ∧ next.names = (draft.declare clause.name).names) ⟨hvar, rfl⟩ ?_ _).imp
    fun _ _ => And.left
  intro builder next condition hnext
  obtain ⟨hmirrors, hnames⟩ := hnext
  have hadd := agrees_addCondition hmirrors block (hnames ▸ hname) condition
  rw [Draft.var, hnames] at hadd
  exact hadd

theorem agrees_addEnds (clause : RelationClause) :
    Agrees Mirrors (builder.addEnds clause) (.ok (draft.declareEnds clause)) := by
  obtain ⟨hhead, -⟩ := h.var clause.head
  obtain ⟨hdep, hplace⟩ := hhead.var clause.dep
  have hname := Draft.mem_names_declare (draft.declare clause.head) clause.dep
  obtain ⟨keys, node, hkeys, hnode, hentry⟩ := hdep.entry_of_name hname
  have hisNone : ((builder.var clause.head).1.pattern.varId? clause.dep).isNone =
      decide (clause.dep ∉ (draft.declare clause.head).names) := by
    rw [hhead.varId?]
    split <;> simp_all
  unfold Builder.addEnds Draft.declareEnds
  simp only [hisNone, hplace]
  by_cases hold : clause.dep ∈ (draft.declare clause.head).names
  · have hsame : (draft.declare clause.head).declare clause.dep = draft.declare clause.head :=
      if_pos hold
    rw [hsame] at hdep
    rw [if_pos hold, if_neg (by simp [hold])]
    exact .ok hdep
  · rw [if_neg hold]
    by_cases hlabels : clause.labels.isEmpty = true
    · rw [if_pos hlabels, if_neg (by simp [hlabels])]
      exact .ok hdep
    · rw [if_neg hlabels, if_pos (by simp [hold, hlabels]), hdep.nodes, elementAt_eq_ok hnode,
        elementAt_eq_ok hkeys]
      exact .ok (hdep.put hnode hentry clause.negated .deprel clause.labels)

theorem agrees_addRelation (clause : RelationClause) :
    Agrees Mirrors (builder.addRelation block clause) (.ok (draft.addRelation block clause)) := by
  have hadd : ∀ {builder : Builder} {draft : Draft}, Mirrors builder draft →
      Mirrors { builder with relations := builder.relations ++ [(clause, block)] }
        { draft with relations := draft.relations ++ [(clause, block)] } := by
    intro builder draft h
    exact { h with relations := by rw [h.relations] }
  have hends : Agrees Mirrors (if block = .pattern then builder.addEnds clause else .ok builder)
      (.ok (if block = .pattern then draft.declareEnds clause else draft)) := by
    split
    · exact agrees_addEnds h clause
    · exact .ok h
  let add : Draft → Except PatternError Draft :=
    fun draft => .ok { draft with relations := draft.relations ++ [(clause, block)] }
  exact hends.bind (g := add) fun _ _ hmirrors => .ok (hadd hmirrors)

theorem Mirrors.addOrder (clause : OrderClause) :
    Mirrors (builder.addOrder block clause) (draft.addOrder block clause) := by
  obtain ⟨hearlier, hfirst⟩ := h.var clause.normalized.1
  obtain ⟨hlater, hsecond⟩ := hearlier.var clause.normalized.2
  have hkept := Draft.var_declare (draft.mem_names_declare clause.normalized.1) clause.normalized.2
  unfold Builder.addOrder Draft.addOrder
  simp only [hfirst, hsecond]
  rw [← hkept]
  exact { hlater with orders := by rw [hlater.orders] }

theorem agrees_addClause (clause : Clause) :
    Agrees Mirrors (builder.addClause block clause) (draft.addClause block clause) := by
  cases clause with
  | node clause => exact agrees_addNode h block clause
  | relation clause => exact agrees_addRelation h block clause
  | order clause => exact .ok (h.addOrder block clause)

theorem agrees_addBlock (clauses : List Clause) :
    Agrees Mirrors (builder.addBlock block clauses) (draft.addBlock block clauses) :=
  Agrees.foldlM h (fun _ _ clause hmirrors => agrees_addClause hmirrors block clause) clauses

theorem endpoint_eq (name : String) : builder.endpoint name = draft.endpoint name := by
  unfold Builder.endpoint Draft.endpoint
  rw [h.varId?]
  by_cases hname : name ∈ draft.names
  · rw [if_pos hname, if_pos hname]
  · rw [if_neg hname, if_neg hname]

end Clauses

/-! ### Relations -/

/-- The unbound end of a draft is the name in the clause. -/
theorem Draft.resolve_eq (draft : Draft) (clause : RelationClause) (block : Block) :
    draft.resolve (clause, block) =
      clause.resolve block (draft.endpoint clause.head) (draft.endpoint clause.dep) := by
  unfold Draft.resolve RelationClause.resolve Draft.endpoint
  by_cases hhead : clause.head ∈ draft.names <;> by_cases hdep : clause.dep ∈ draft.names <;>
    simp only [hhead, hdep, if_true, if_false]

theorem eq_ok_of_guards {ε α : Type} {p q : Bool} {first second : ε} {x y : α}
    (h : (if p then .error first else if q then .error second else .ok x : Except ε α) = .ok y) :
    p = false ∧ q = false ∧ x = y := by
  cases p <;> cases q <;> cases h
  exact ⟨rfl, rfl, rfl⟩

namespace RelationConstraint

/-- One end at most is no variable, and only of a negated relation with labels. -/
structure EndsFit (relation : RelationConstraint) : Prop where
  head : ∀ name, relation.head = .unbound name →
    relation.negated = true ∧ relation.labels ≠ [] ∧ ∃ var, relation.dep = .bound var
  dep : ∀ name, relation.dep = .unbound name →
    relation.negated = true ∧ relation.labels ≠ [] ∧ ∃ var, relation.head = .bound var

end RelationConstraint

theorem RelationClause.endsFit_of_resolve {clause : RelationClause} {block : Block}
    {head dep : Endpoint} {relation : RelationConstraint}
    (h : clause.resolve block head dep = .ok relation) : relation.EndsFit := by
  cases head with
  | bound head =>
    cases dep with
    | bound dep =>
      cases h
      exact ⟨nofun, nofun⟩
    | unbound name =>
      obtain ⟨hnegated, hlabels, rfl⟩ := eq_ok_of_guards h
      exact ⟨nofun, fun _ _ => ⟨by simpa using hnegated, by simpa using hlabels, head, rfl⟩⟩
  | unbound name =>
    cases dep with
    | bound dep =>
      obtain ⟨hnegated, hlabels, rfl⟩ := eq_ok_of_guards h
      exact ⟨fun _ _ => ⟨by simpa using hnegated, by simpa using hlabels, dep, rfl⟩, nofun⟩
    | unbound other => cases h

theorem endsFit_of_compile {request : Request} {pattern : Pattern}
    (h : request.compile = .ok pattern) : ∀ relation ∈ pattern.relations, relation.EndsFit := by
  obtain ⟨draft, -, hfinish⟩ := bind_eq_ok h
  obtain ⟨relations, hrelations, hpattern⟩ := bind_eq_ok hfinish
  cases hpattern
  refine forall_mem_of_mapM_eq_ok hrelations fun entry relation hresolve => ?_
  obtain ⟨clause, block⟩ := entry
  rw [draft.resolve_eq] at hresolve
  exact RelationClause.endsFit_of_resolve hresolve

/-! ### Whole requests -/

/-- The indexes are those of the pattern. -/
structure Indexes (indexed : IndexedPattern) (pattern : Pattern) : Prop where
  toPattern : indexed.toPattern = pattern
  varNames : indexed.varNames = pattern.names
  varIds : indexed.varIds.rows = pattern.names.zipIdx

theorem Mirrors.agrees_finish {builder : Builder} {draft : Draft} (h : Mirrors builder draft) :
    Agrees Indexes builder.finish draft.finish := by
  have hresolve : builder.resolve = draft.resolve := by
    funext entry
    obtain ⟨clause, block⟩ := entry
    rw [Builder.resolve, endpoint_eq h, endpoint_eq h, draft.resolve_eq]
  unfold Builder.finish Draft.finish
  rw [hresolve, h.relations]
  cases draft.relations.mapM draft.resolve with
  | error error => exact .refused
  | ok relations =>
    refine .ok ⟨?_, h.varNames, h.varIds⟩
    rw [← h.nodes, ← h.orders]

/-- The two compilers agree: no lookup of the one with indexes is out of range. -/
theorem agrees_compile (request : Request) :
    Agrees Indexes request.compileIndexed request.compile := by
  have hpattern := agrees_addBlock .empty .pattern request.pattern
  unfold Request.compile Request.draft
  rw [bind_assoc]
  refine hpattern.bind fun builder draft h => ?_
  refine Agrees.bind (R := Mirrors) ?_ fun _ _ => Mirrors.agrees_finish
  exact Agrees.foldlM h (fun _ _ clauses hmirrors => agrees_addBlock hmirrors .without clauses) _

/-- The indexes of a pattern fit it, and its constraints speak of variables that are there. -/
structure IndexedPattern.WellFormed (pattern : IndexedPattern) : Prop where
  nodup : pattern.varNames.Nodup
  names : pattern.nodes.map (·.name) = pattern.varNames
  keys : pattern.varIds.keys = pattern.varNames
  varId : ∀ name var, pattern.varId? name = some var ↔ pattern.varNames[var]? = some name
  closed : pattern.toPattern.Closed
  endsFit : ∀ relation ∈ pattern.relations, relation.EndsFit

theorem Indexes.wellFormed {indexed : IndexedPattern} {pattern : Pattern} {request : Request}
    (h : Indexes indexed pattern) (hcompile : request.compile = .ok pattern) :
    indexed.WellFormed := by
  have hnodup := nodup_names_of_compile hcompile
  obtain ⟨rfl, hvarNames, hvarIds⟩ := h
  constructor
  case nodup => exact hvarNames ▸ hnodup
  case names => exact hvarNames.symm
  case keys => rw [Table.keys, hvarIds, List.zipIdx_map_fst, hvarNames]
  case varId =>
    intro name var
    rw [hvarNames, IndexedPattern.varId?, Table.get?, hvarIds]
    exact lookup_zipIdx_eq_some_iff hnodup
  case closed => exact closed_of_compile hcompile
  case endsFit => exact endsFit_of_compile hcompile

/-! ### Searching -/

theorem Pattern.mem_completions_of_extend? {pattern : Pattern} {words : Array Word}
    {lists : List (List Nat)} {tuple : List Nat} {found : List (List Nat)}
    (h : pattern.extend? words lists tuple = some found) :
    ∀ complete ∈ found, complete ∈ completions lists tuple := by
  induction lists generalizing tuple found with
  | nil =>
    rw [Pattern.extend?] at h
    obtain ⟨fits, -, h⟩ := Option.bind_eq_some_iff.1 h
    cases h
    intro complete hcomplete
    cases fits with
    | true => exact hcomplete
    | false => cases hcomplete
  | cons nodes rest ih =>
    rw [Pattern.extend?] at h
    obtain ⟨parts, hparts, h⟩ := Option.bind_eq_some_iff.1 h
    cases h
    intro complete hcomplete
    obtain ⟨part, hpart, hcomplete⟩ := List.mem_flatten.1 hcomplete
    obtain ⟨node, hnode, hextend⟩ := mem_of_mapM_eq_some hparts part hpart
    exact List.mem_flatMap.2 ⟨node, hnode, ih hextend complete hcomplete⟩

/-- A match has a word for each variable. -/
theorem Sentence.bindings_of_search? {s : Sentence} {pattern : Pattern} {found : List Match}
    (h : s.search? pattern = some found) {m : Match} (hm : m ∈ found) :
    m.names = pattern.names ∧ m.bindings.length = pattern.size ∧ m.bindings.Nodup ∧
      ∀ node ∈ m.bindings, node < s.words.length := by
  by_cases hnone : s.outline.built = false ∨ pattern.nodes = []
  · rw [search?_eq_nil hnone] at h
    cases h
    cases hm
  · rw [not_or, Bool.not_eq_false] at hnone
    rw [search?_eq_extend? hnone.1 hnone.2] at h
    obtain ⟨tuples, htuples, rfl⟩ := Option.map_eq_some_iff.1 h
    obtain ⟨tuple, htuple, rfl⟩ := List.mem_map.1 hm
    obtain ⟨hlength, hnodup, hwords, -⟩ := mem_completions_candidates.1
      (Pattern.mem_completions_of_extend? htuples tuple htuple)
    exact ⟨rfl, hlength, hnodup, hwords⟩

/-- With current links, or without any, a search comes to an end. -/
theorem Reachable.exists_search?_eq {allowed : Step → Prop} {s : Sentence} (h : Reachable allowed s)
    {pattern : Pattern} (hclosed : pattern.Closed) : ∃ found, s.search? pattern = some found := by
  cases hbuilt : s.outline.built with
  | true =>
    exact Sentence.exists_search?_eq (linked_of_built h hbuilt) hclosed (pattern.allowsNext_wraps s)
  | false => exact ⟨[], Sentence.search?_eq_nil (.inl hbuilt)⟩

namespace Match
variable {m : Match}

theorem mem_named_iff {name : String} {node : Nat} :
    (name, node) ∈ m.named ↔
      ∃ var : Nat, m.names[var]? = some name ∧ m.bindings[var]? = some node := by
  rw [named, List.mem_iff_getElem?]
  exact exists_congr fun var => List.getElem?_zip_eq_some

/-- A name of its own is looked up to the node that is bound to it. -/
theorem mem_named_iff_get? (hnodup : m.names.Nodup) {name : String} {node : Nat} :
    (name, node) ∈ m.named ↔ m.get? name = some node := by
  rw [mem_named_iff, get?_eq_some_iff hnodup]

theorem existsUnique_mem_named (hnodup : m.names.Nodup)
    (hlength : m.bindings.length = m.names.length) {name : String} (hname : name ∈ m.names) :
    ∃! node, (name, node) ∈ m.named := by
  obtain ⟨var, hvar, rfl⟩ := List.getElem_of_mem hname
  have hnode : (m.names[var], m.bindings[var]) ∈ m.named :=
    mem_named_iff.2 ⟨var, List.getElem?_eq_getElem hvar, List.getElem?_eq_getElem (hlength ▸ hvar)⟩
  refine ⟨m.bindings[var], hnode, fun other hother => ?_⟩
  rw [mem_named_iff_get? hnodup] at hnode hother
  exact Option.some.inj (hother.symm.trans hnode)

end Match

/-- The variable of a name leads to its node. -/
theorem IndexedPattern.WellFormed.get?_eq {pattern : IndexedPattern} (h : pattern.WellFormed)
    {m : Match} (hnames : m.names = pattern.varNames) (name : String) :
    m.get? name = (pattern.varId? name).bind (m.bindings[·]?) := by
  refine Option.ext fun node => ?_
  rw [Match.get?_eq_some_iff (hnames ▸ h.nodup), Option.bind_eq_some_iff, hnames]
  exact exists_congr fun var => and_congr_left' (h.varId name var).symm

/-- **Compiled patterns are fit to be searched for.** While clauses are read no lookup is out of
range. The indexes that come out fit the pattern, which is that of the plain compiler. And a search
for it in any sentence of a session comes to an end, with matches that bind each name to one
word, the one at the place that the indexes have for it. -/
theorem compileIndexed_outcome (request : Request) :
    (∀ place, request.compileIndexed ≠ .error (.outOfRange place)) ∧
    ∀ pattern, request.compileIndexed = .ok pattern →
      request.compile = .ok pattern.toPattern ∧ pattern.WellFormed ∧
      ∀ allowed s, Reachable allowed s → ∃ found, s.search? pattern.toPattern = some found ∧
        ∀ m ∈ found, m.names = pattern.varNames ∧
          (∀ name ∈ pattern.varNames, ∃! node, (name, node) ∈ m.named) ∧
          (∀ name node, (name, node) ∈ m.named → node < s.words.length) ∧
          ∀ name, m.get? name = (pattern.varId? name).bind (m.bindings[·]?) := by
  have hagrees := agrees_compile request
  constructor
  · intro place hplace
    rw [hplace] at hagrees
    cases hagrees
  · intro pattern hpattern
    rw [hpattern] at hagrees
    obtain ⟨plain, hcompile, hindexes⟩ :
        ∃ plain, request.compile = .ok plain ∧ Indexes pattern plain := by
      generalize request.compile = result at hagrees
      cases hagrees with
      | ok hindexes => exact ⟨_, rfl, hindexes⟩
    have hwell := hindexes.wellFormed hcompile
    rw [← hindexes.toPattern] at hcompile
    refine ⟨hcompile, hwell, fun allowed s hs => ?_⟩
    obtain ⟨found, hfound⟩ := hs.exists_search?_eq hwell.closed
    refine ⟨found, hfound, fun m hm => ?_⟩
    obtain ⟨hnames, hlength, -, hwords⟩ := Sentence.bindings_of_search? hfound hm
    have hvarNames : m.names = pattern.varNames := hnames.trans hwell.names
    refine ⟨hvarNames, fun name hname => ?_, fun name node hnode => ?_, hwell.get?_eq hvarNames⟩
    · refine Match.existsUnique_mem_named (hvarNames ▸ hwell.nodup) ?_ (hvarNames ▸ hname)
      rw [hlength, hnames, Pattern.length_names]
    · obtain ⟨var, -, hnode⟩ := Match.mem_named_iff.1 hnode
      exact hwords node (List.mem_of_getElem? hnode)

/-- The dependent is a variable of its own, which the label of the relation is a condition on. -/
theorem compileIndexed_of_two :
    let request : Request :=
      { pattern :=
          [.node { name := "V", conditions := [.oneOf "upos" ["VERB"] false] },
           .relation { head := "V", dep := "S", labels := ["nsubj"] }] }
    let s := (Sentence.ofTokens
      [{ id := .word 1, upos := "NOUN", head := some 2, deprel := "nsubj" },
       { id := .word 2, upos := "VERB", head := some 0, deprel := "root" }]).step .build
    let m : Match := { bindings := [1, 0], names := ["V", "S"] }
    ∃ pattern, request.compileIndexed = .ok pattern ∧ pattern.WellFormed ∧
      pattern.varIds.rows = [("V", 0), ("S", 1)] ∧ s.search? pattern.toPattern = some [m] ∧
      ∀ name, m.get? name = (pattern.varId? name).bind (m.bindings[·]?) := by
  intro request s m
  obtain ⟨pattern, hpattern, hrows, hfound⟩ :
      ∃ pattern, request.compileIndexed = .ok pattern ∧
        pattern.varIds.rows = [("V", 0), ("S", 1)] ∧ s.search? pattern.toPattern = some [m] :=
    ⟨_, rfl, by decide, by decide +kernel⟩
  have hreachable : Reachable (fun _ => True) s :=
    (Reachable.ofTokens fun _ _ => trivial).step trivial
  obtain ⟨-, hwell, hsearch⟩ := (compileIndexed_outcome request).2 pattern hpattern
  obtain ⟨found, hsome, hmatches⟩ := hsearch _ s hreachable
  cases hfound.symm.trans hsome
  obtain ⟨-, -, -, hget⟩ := hmatches m (List.mem_singleton_self m)
  exact ⟨pattern, hpattern, hwell, hrows, hfound, hget⟩

end Treebank
