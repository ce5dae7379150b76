import Mathlib.Data.List.Induction
import Mathlib.Order.WellFounded
import Treebank.Proofs.Compile

/-! Which requests do not compile, and why.

The clauses are gone through first. A run over them that comes to an end leaves an attribute
of a node without a condition just when no clause has claimed it (`Claimed`, `Draft.Free`), so
it stops at the first condition for an attribute that is claimed. Only then are relations
resolved, and the first that has no place among the variables is refused. Both together say
how every compilation ends (`compile_outcome`). -/
namespace Treebank

/-! ### Claims on attributes -/

/-- The attribute that a condition is for. -/
def Condition.key (condition : Condition) : Attribute := .ofName condition.feature

/-- The clause puts a condition on an attribute of the node with the name: by a condition of its
own, or by its labels if it is the first to name its dependent. -/
def Clause.Claims (known : List String) (block : Block) (name : String) (key : Attribute) :
    Clause → Prop
  | node clause => clause.name = name ∧ key ∈ clause.conditions.map Condition.key
  | relation clause =>
    block = .pattern ∧ clause.dep ∉ known ∧ clause.dep ≠ clause.head ∧ clause.labels ≠ [] ∧
      clause.dep = name ∧ key = .deprel
  | order _ => False

/-- One of the clauses claims the attribute, at its place among them. -/
def Claimed (clauses : List (Block × Clause)) (name : String) (key : Attribute) : Prop :=
  ∃ earlier entry later, clauses = earlier ++ entry :: later ∧
    entry.2.Claims (namesOf earlier) entry.1 name key

theorem not_claimed_concat {clauses : List (Block × Clause)} {entry : Block × Clause}
    {name : String} {key : Attribute} :
    ¬ Claimed (clauses ++ [entry]) name key ↔
      ¬ Claimed clauses name key ∧ ¬ entry.2.Claims (namesOf clauses) entry.1 name key := by
  simp only [Claimed, not_exists, not_and]
  exact forall_split_concat (P := fun earlier (entry : Block × Clause) =>
    ¬ entry.2.Claims (namesOf earlier) entry.1 name key)

/-! ### Places of conditions -/

/-- Where a condition stands: the clauses before its own, and the conditions before it in that. -/
structure ConditionPlace where
  earlier : List (Block × Clause)
  clause : NodeClause
  before : List Condition
  condition : Condition

namespace ConditionPlace

def key (place : ConditionPlace) : Attribute := place.condition.key

/-- The place is one among the clauses. -/
def In (place : ConditionPlace) (clauses : List (Block × Clause)) : Prop :=
  ∃ block later after, clauses = place.earlier ++ (block, .node place.clause) :: later ∧
    place.clause.conditions = place.before ++ place.condition :: after

/-- The condition is for an attribute that has one already. -/
def Repeats (place : ConditionPlace) : Prop :=
  Claimed place.earlier place.clause.name place.key ∨
    place.key ∈ place.before.map Condition.key

/-- The order in which conditions are read. -/
def Precedes (place other : ConditionPlace) : Prop :=
  place.earlier.length < other.earlier.length ∨
    place.earlier.length = other.earlier.length ∧ place.before.length < other.before.length

end ConditionPlace

/-- The first condition among the clauses that repeats one. -/
structure FirstRepeat (clauses : List (Block × Clause)) (place : ConditionPlace) : Prop where
  isIn : place.In clauses
  repeats : place.Repeats
  first : ∀ other : ConditionPlace, other.In clauses → other.Repeats → ¬ other.Precedes place

/-! ### Relations without a place -/

namespace RelationClause

/-- An end of the relation is no variable, and that is not the one thing it can be: the missing
dependent or head of a relation that is to be excluded with a label. -/
def Unfit (isVar : String → Prop) (clause : RelationClause) : Prop :=
  (¬ isVar clause.head ∨ ¬ isVar clause.dep) ∧
    (clause.negated = true ∨ (¬ isVar clause.head ∧ ¬ isVar clause.dep) ∨ clause.labels = [])

/-- Why the relation is refused, given the names of the variables. -/
def refusal (names : List String) (clause : RelationClause) : PatternError :=
  if clause.negated ∨ (clause.head ∉ names ∧ clause.dep ∉ names) then
    .unboundNode clause.head clause.dep (if clause.head ∈ names then clause.dep else clause.head)
  else .invalidNegatedRelation clause.head clause.dep

end RelationClause

/-- The first relation of a `without` block that is refused. -/
def FirstUnfit (clauses : List (Block × Clause)) (relation : RelationClause) : Prop :=
  ∃ earlier later, clauses = earlier ++ (.without, .relation relation) :: later ∧
    relation.Unfit (· ∈ namesOf clauses) ∧
    ∀ other, (.without, .relation other) ∈ earlier → ¬ other.Unfit (· ∈ namesOf clauses)

/-! ### Attributes without a condition -/

namespace Draft

/-- No node of the draft with the name has a condition on the attribute. -/
def Free (draft : Draft) (name : String) (key : Attribute) : Prop :=
  ∀ node ∈ draft.nodes, node.name = name → node.constrains key = false

variable {draft next : Draft} {name other : String} {key otherKey : Attribute}

theorem free_declare : (draft.declare other).Free name key ↔ draft.Free name key := by
  unfold declare
  split
  · exact Iff.rfl
  · have hnew : ∀ node ∈ [({ name := other } : NodeConstraint)],
        node.name = name → node.constrains key = false := by
      intro node hnode _
      rw [List.mem_singleton.1 hnode]
      rfl
    exact ⟨fun h node hnode => h node (List.mem_append_left _ hnode),
      fun h => List.forall_mem_append.2 ⟨h, hnew⟩⟩

theorem free_constrain (hname : name ∈ draft.names) (negated : Bool) (values : List String) :
    (draft.modify name (·.constrain negated key values)).Free other otherKey ↔
      draft.Free other otherKey ∧ ¬ (name = other ∧ otherKey = key) := by
  obtain ⟨node, hnode, rfl⟩ := node_of_name hname
  refine forall_mem_modify hnode ?_
  rw [NodeConstraint.name_constrain, ← Bool.not_eq_true, NodeConstraint.constrains_constrain,
    not_or, Bool.not_eq_true, not_and]
  exact imp_and

theorem free_iff_of_mem (h : draft.Sound) {node : NodeConstraint} (hnode : node ∈ draft.nodes) :
    draft.Free node.name key ↔ node.constrains key = false := by
  constructor
  · exact fun hfree => hfree node hnode rfl
  · intro hfree other hother hsame
    rw [List.inj_on_of_nodup_map h.nodup hother hnode hsame]
    exact hfree

theorem any_constrains_iff (h : draft.Sound) (hname : name ∈ draft.names) :
    (draft.nodes[draft.var name]?).any (·.constrains key) = false ↔ draft.Free name key := by
  obtain ⟨node, hnode, rfl⟩ := node_of_name hname
  rw [hnode, Option.any_some, free_iff_of_mem h (List.mem_of_getElem? hnode)]

/-! ### Conditions -/

variable (block : Block) {condition : Condition} {conditions : List Condition}

theorem addCondition_of_free (h : draft.Sound) (hname : name ∈ draft.names)
    (hfree : draft.Free name condition.key) :
    ∃ next, addCondition block name draft condition = .ok next ∧
      ∀ other key, next.Free other key ↔
        draft.Free other key ∧ ¬ (name = other ∧ key = condition.key) := by
  refine ⟨draft.modify name (·.constrain (block.negates condition.negated) condition.key
    condition.values), ?_, fun other key => free_constrain hname _ _⟩
  rw [← any_constrains_iff h hname, Condition.key] at hfree
  unfold addCondition
  simp only [hfree, Bool.false_eq_true, if_false]
  rfl

theorem addCondition_of_not_free (h : draft.Sound) (hname : name ∈ draft.names)
    (hfree : ¬ draft.Free name condition.key) :
    addCondition block name draft condition =
      .error (.inconsistentNode name condition.key) := by
  rw [← any_constrains_iff h hname, Bool.not_eq_false, Condition.key] at hfree
  unfold addCondition
  simp only [hfree, if_true]
  rfl

/-- Conditions for different attributes, none of which has one, are all added. -/
theorem foldlM_addCondition_of_free (h : draft.Sound) (hname : name ∈ draft.names)
    (hfree : ∀ before condition after, conditions = before ++ condition :: after →
      draft.Free name condition.key ∧ condition.key ∉ before.map Condition.key) :
    ∃ next, conditions.foldlM (addCondition block name) draft = .ok next ∧
      ∀ other key, next.Free other key ↔ draft.Free other key ∧
        ¬ (name = other ∧ key ∈ conditions.map Condition.key) := by
  induction conditions generalizing draft with
  | nil => exact ⟨draft, rfl, fun other key => by simp⟩
  | cons condition rest ih =>
    obtain ⟨middle, hmiddle, hfreeMiddle⟩ := addCondition_of_free block h hname
      (hfree [] condition rest rfl).1
    have hadds := addCondition_adds h hname hmiddle
    obtain ⟨next, hnext, hfreeNext⟩ := ih hadds.sound ((hadds.mem_names name).2 (.inl hname)) (by
      intro before later after hsplit
      obtain ⟨hold, hnew⟩ := hfree (condition :: before) later after (by rw [hsplit]; rfl)
      rw [List.map_cons, List.mem_cons, not_or] at hnew
      exact ⟨(hfreeMiddle _ _).2 ⟨hold, fun hsame => hnew.1 hsame.2⟩, hnew.2⟩)
    refine ⟨next, ?_, fun other key => ?_⟩
    · rw [List.foldlM_cons, hmiddle]
      exact hnext
    · rw [hfreeNext, hfreeMiddle, and_assoc, ← not_or, ← and_or_left, List.map_cons, List.mem_cons]

/-! ### Relations -/

theorem free_declareEnds (h : draft.Sound) (clause : RelationClause) :
    (draft.declareEnds clause).Free name key ↔ draft.Free name key ∧
      ¬ (Clause.relation clause).Claims draft.names .pattern name key := by
  have hhead := adds_declare h clause.head
  have hends := hhead.trans (adds_declare hhead.sound clause.dep)
  have hnew : clause.dep ∉ (draft.declare clause.head).names ↔
      clause.dep ∉ draft.names ∧ clause.dep ≠ clause.head := by
    rw [hhead.mem_names, List.mem_singleton, not_or]
  unfold declareEnds
  simp only
  split
  · next hold =>
    rw [free_declare]
    refine (and_iff_left ?_).symm
    exact fun hclaims => hnew.2 ⟨hclaims.2.1, hclaims.2.2.1⟩ hold
  · next hfresh =>
    split
    · next hlabels =>
      rw [free_declare, free_declare]
      refine (and_iff_left ?_).symm
      exact fun hclaims => hclaims.2.2.2.1 (List.isEmpty_iff.1 hlabels)
    · next hlabels =>
      have hmem := (hends.mem_names clause.dep).2 (.inr (by simp))
      rw [free_constrain hmem, free_declare, free_declare]
      refine and_congr_right' (not_congr ?_)
      obtain ⟨hdep, hne⟩ := hnew.1 hfresh
      rw [List.isEmpty_iff] at hlabels
      exact ⟨fun hsame => ⟨rfl, hdep, hne, hlabels, hsame⟩, fun hclaims => hclaims.2.2.2.2⟩

theorem free_addRelation (h : draft.Sound) (clause : RelationClause) :
    (draft.addRelation block clause).Free name key ↔ draft.Free name key ∧
      ¬ (Clause.relation clause).Claims draft.names block name key := by
  unfold addRelation
  cases block with
  | pattern => exact free_declareEnds h clause
  | without =>
    refine (and_iff_left ?_).symm
    exact fun hclaims => nomatch hclaims.1

theorem free_addOrder (clause : OrderClause) :
    (draft.addOrder block clause).Free name key ↔ draft.Free name key :=
  free_declare.trans free_declare

end Draft

/-! ### Runs over clauses -/

/-- The draft is what the clauses have made of the empty one, and no attribute has a condition that
they do not claim. -/
structure Tracked (clauses : List (Block × Clause)) (draft : Draft) : Prop
    extends Compiled clauses draft where
  free : ∀ name key, draft.Free name key ↔ ¬ Claimed clauses name key

theorem Clause.claims_congr {known names : List String} (h : ∀ name, name ∈ known ↔ name ∈ names)
    {clause : Clause} {block : Block} {name : String} {key : Attribute} :
    clause.Claims known block name key ↔ clause.Claims names block name key := by
  cases clause with
  | node clause => exact Iff.rfl
  | relation clause => rw [Clause.Claims, Clause.Claims, h]
  | order clause => exact Iff.rfl

namespace ConditionPlace
variable {place : ConditionPlace} {clauses : List (Block × Clause)}

theorem In.append (h : place.In clauses) (more : List (Block × Clause)) :
    place.In (clauses ++ more) := by
  obtain ⟨block, later, after, rfl, hconditions⟩ := h
  exact ⟨block, later ++ more, after, by rw [List.append_assoc, List.cons_append], hconditions⟩

end ConditionPlace

namespace Tracked
variable {clauses : List (Block × Clause)} {draft : Draft}

theorem empty : Tracked [] {} where
  toCompiled := .empty
  free := by
    intro name key
    refine iff_of_true (fun node hnode => (List.not_mem_nil hnode).elim) ?_
    intro hclaimed
    obtain ⟨earlier, entry, later, hsplit, -⟩ := hclaimed
    cases List.append_eq_nil_iff.1 hsplit.symm |>.2

theorem declare (h : Tracked clauses draft) (name : String) :
    (draft.declare name).Sound ∧ name ∈ (draft.declare name).names ∧
      ∀ other key, (draft.declare name).Free other key ↔ ¬ Claimed clauses other key := by
  have hadds := Draft.adds_declare h.sound name
  refine ⟨hadds.sound, (hadds.mem_names name).2 (.inr (List.mem_singleton_self _)), ?_⟩
  intro other key
  rw [Draft.free_declare, h.free]

theorem step {entry : Block × Clause} (h : Tracked clauses draft)
    (hplaces : ∀ place : ConditionPlace, place.In (clauses ++ [entry]) → ¬ place.Repeats) :
    ∃ next, draft.addEntry entry = .ok next ∧ Tracked (clauses ++ [entry]) next := by
  obtain ⟨block, clause⟩ := entry
  obtain ⟨next, hnext, hfree⟩ : ∃ next, draft.addClause block clause = .ok next ∧
      ∀ name key, next.Free name key ↔
        draft.Free name key ∧ ¬ clause.Claims draft.names block name key := by
    cases clause with
    | node clause =>
      obtain ⟨hsound, hname, hdeclared⟩ := h.declare clause.name
      have hconditions : ∀ before condition after,
          clause.conditions = before ++ condition :: after →
          (draft.declare clause.name).Free clause.name condition.key ∧
            condition.key ∉ before.map Condition.key := by
        intro before condition after hsplit
        have hplace := hplaces ⟨clauses, clause, before, condition⟩ ⟨block, [], after, rfl, hsplit⟩
        rw [hdeclared]
        exact not_or.1 hplace
      obtain ⟨next, hnext, hfree⟩ :=
        Draft.foldlM_addCondition_of_free block hsound hname hconditions
      refine ⟨next, hnext, fun name key => ?_⟩
      rw [hfree, Draft.free_declare]
      exact Iff.rfl
    | relation clause => exact ⟨_, rfl, fun name key => Draft.free_addRelation block h.sound clause⟩
    | order clause =>
      refine ⟨_, rfl, fun name key => ?_⟩
      rw [Draft.free_addOrder]
      exact (and_iff_left id).symm
  refine ⟨next, hnext, { h.toCompiled.step hnext with free := fun name key => ?_ }⟩
  rw [hfree, h.free, not_claimed_concat, Clause.claims_congr h.mem_names]

/-- A run over clauses none of whose conditions repeats one comes to an end. -/
theorem run (hplaces : ∀ place : ConditionPlace, place.In clauses → ¬ place.Repeats) :
    ∃ draft, clauses.foldlM Draft.addEntry {} = .ok draft ∧ Tracked clauses draft := by
  induction clauses using List.reverseRecOn with
  | nil => exact ⟨{}, rfl, .empty⟩
  | append_singleton earlier entry ih =>
    obtain ⟨draft, hdraft, htracked⟩ := ih fun place hplace => hplaces place (hplace.append _)
    obtain ⟨next, hnext, hstep⟩ := htracked.step hplaces
    refine ⟨next, ?_, hstep⟩
    rw [List.foldlM_append, hdraft]
    exact (bind_pure _).trans hnext

end Tracked

/-- A run over clauses ends at the first condition that repeats one. -/
theorem foldlM_addEntry_of_firstRepeat {clauses : List (Block × Clause)} {place : ConditionPlace}
    (h : FirstRepeat clauses place) :
    clauses.foldlM Draft.addEntry {} = .error (.inconsistentNode place.clause.name place.key) := by
  obtain ⟨⟨block, later, after, rfl, hconditions⟩, hrepeats, hfirst⟩ := h
  have hearlier : ∀ other : ConditionPlace, other.In place.earlier → ¬ other.Repeats := by
    intro other hother hrepeat
    refine hfirst other (hother.append _) hrepeat (.inl ?_)
    obtain ⟨_, rest, _, hsplit, _⟩ := hother
    rw [hsplit, List.length_append, List.length_cons]
    omega
  obtain ⟨draft, hdraft, htracked⟩ := Tracked.run hearlier
  obtain ⟨hsound, hname, hdeclared⟩ := htracked.declare place.clause.name
  have hbefore : ∀ before condition between, place.before = before ++ condition :: between →
      (draft.declare place.clause.name).Free place.clause.name condition.key ∧
        condition.key ∉ before.map Condition.key := by
    intro before condition between hsplit
    let old : ConditionPlace := ⟨place.earlier, place.clause, before, condition⟩
    have hin : old.In (place.earlier ++ (block, .node place.clause) :: later) := by
      refine ⟨block, later, between ++ place.condition :: after, rfl, ?_⟩
      rw [hconditions, hsplit, List.append_assoc, List.cons_append]
    have hprecedes : old.Precedes place := by
      refine .inr ⟨rfl, ?_⟩
      show before.length < place.before.length
      rw [hsplit, List.length_append, List.length_cons]
      omega
    have hfresh : ¬ old.Repeats := fun hold => hfirst old hin hold hprecedes
    rw [hdeclared]
    exact not_or.1 hfresh
  obtain ⟨middle, hmiddle, hfree⟩ := Draft.foldlM_addCondition_of_free block hsound hname hbefore
  have hadds := Draft.foldlM_addCondition_adds hsound hname hmiddle
  have hstop : ¬ middle.Free place.clause.name place.condition.key := by
    rw [hfree, hdeclared]
    rintro ⟨hunclaimed, hnew⟩
    exact hrepeats.elim hunclaimed fun hold => hnew ⟨rfl, hold⟩
  apply foldlM_eq_error hdraft
  show Draft.addNode block draft place.clause = _
  rw [Draft.addNode, hconditions]
  exact foldlM_eq_error hmiddle
    (Draft.addCondition_of_not_free block hadds.sound ((hadds.mem_names _).2 (.inl hname)) hstop)

theorem ConditionPlace.wellFounded_precedes : WellFounded Precedes := by
  have hlex : WellFounded (Prod.Lex (· < · : Nat → Nat → Prop) (· < · : Nat → Nat → Prop)) :=
    WellFounded.prod_lex wellFounded_lt wellFounded_lt
  refine Subrelation.wf ?_
    (InvImage.wf (fun place : ConditionPlace => (place.earlier.length, place.before.length)) hlex)
  exact fun h => Prod.lex_def.2 h

/-- If there are repetitions, there is a first one. -/
theorem exists_firstRepeat {clauses : List (Block × Clause)} {place : ConditionPlace}
    (hplace : place.In clauses) (hrepeats : place.Repeats) :
    ∃ first, FirstRepeat clauses first := by
  obtain ⟨first, ⟨hin, hrepeat⟩, hmin⟩ := ConditionPlace.wellFounded_precedes.has_min
    {place : ConditionPlace | place.In clauses ∧ place.Repeats} ⟨place, hplace, hrepeats⟩
  exact ⟨first, hin, hrepeat, fun other hother hrepeat => hmin other ⟨hother, hrepeat⟩⟩

/-! ### Resolving relations -/

namespace Draft
variable {draft : Draft}

theorem exists_resolve_of_bound {clause : RelationClause} (block : Block)
    (hhead : clause.head ∈ draft.names) (hdep : clause.dep ∈ draft.names) :
    ∃ relation, draft.resolve (clause, block) = .ok relation := by
  simp only [resolve, endpoint, if_pos hhead, if_pos hdep]
  exact ⟨_, rfl⟩

theorem resolve_without (draft : Draft) (clause : RelationClause) :
    (clause.Unfit (· ∈ draft.names) →
      draft.resolve (clause, .without) = .error (clause.refusal draft.names)) ∧
    (¬ clause.Unfit (· ∈ draft.names) →
      ∃ relation, draft.resolve (clause, .without) = .ok relation) := by
  unfold RelationClause.Unfit RelationClause.refusal
  by_cases hhead : clause.head ∈ draft.names
  · by_cases hdep : clause.dep ∈ draft.names
    · exact ⟨fun hunfit => (hunfit.1.elim (· hhead) (· hdep)).elim,
        fun _ => exists_resolve_of_bound _ hhead hdep⟩
    · simp only [resolve, endpoint, if_pos hhead, if_neg hdep]
      cases hnegated : clause.negated <;> cases hlabels : clause.labels <;>
        simp [Block.negates, hhead, hdep]
  · by_cases hdep : clause.dep ∈ draft.names
    · simp only [resolve, endpoint, if_neg hhead, if_pos hdep]
      cases hnegated : clause.negated <;> cases hlabels : clause.labels <;>
        simp [Block.negates, hhead, hdep]
    · simp [resolve, endpoint, hhead, hdep]

end Draft

section Finish
variable {clauses : List (Block × Clause)} {draft : Draft} (h : Compiled clauses draft)

include h

theorem unfit_iff (relation : RelationClause) :
    relation.Unfit (· ∈ draft.names) ↔ relation.Unfit (· ∈ namesOf clauses) := by
  simp only [RelationClause.Unfit, h.mem_names]

/-- The ends of a relation of the pattern block are variables, so only the other blocks have
relations that are refused. -/
theorem exists_resolve {entry : RelationClause × Block} (hentry : entry ∈ draft.relations)
    (hfit : entry.2 = .without → ¬ entry.1.Unfit (· ∈ namesOf clauses)) :
    ∃ relation, draft.resolve entry = .ok relation := by
  obtain ⟨clause, block⟩ := entry
  rw [h.relations, mem_relations_iff] at hentry
  cases block with
  | pattern =>
    have hends : ∀ name ∈ [clause.head, clause.dep], name ∈ draft.names :=
      fun name hname => (h.mem_names name).2 (List.mem_flatMap.2 ⟨_, hentry, hname⟩)
    exact draft.exists_resolve_of_bound .pattern (hends _ (by simp)) (hends _ (by simp))
  | without => exact (draft.resolve_without clause).2 ((unfit_iff h clause).not.2 (hfit rfl))

theorem resolve_of_unfit {relation : RelationClause}
    (hunfit : relation.Unfit (· ∈ namesOf clauses)) :
    draft.resolve (relation, .without) = .error (relation.refusal (namesOf clauses)) := by
  rw [(draft.resolve_without relation).1 ((unfit_iff h relation).2 hunfit)]
  simp only [RelationClause.refusal, h.mem_names]

theorem exists_finish_iff : (∃ pattern, draft.finish = .ok pattern) ↔ ∀ relation,
    (.without, .relation relation) ∈ clauses → ¬ relation.Unfit (· ∈ namesOf clauses) := by
  constructor
  · rintro ⟨pattern, hpattern⟩ relation hrelation hunfit
    obtain ⟨relations, hrelations, -⟩ := bind_eq_ok hpattern
    obtain ⟨resolved, -, hresolve⟩ := exists_of_mapM_eq_ok hrelations (relation, .without)
      (h.relations ▸ mem_relations_iff.2 hrelation)
    rw [resolve_of_unfit h hunfit] at hresolve
    cases hresolve
  · intro hfit
    have hresolved : ∀ entry ∈ draft.relations, ∃ relation, draft.resolve entry = .ok relation := by
      intro entry hentry
      refine exists_resolve h hentry fun hblock => hfit entry.1 ?_
      rw [← hblock, ← mem_relations_iff, ← h.relations]
      exact hentry
    obtain ⟨relations, hrelations⟩ := exists_mapM_eq_ok hresolved
    refine ⟨{ nodes := draft.nodes, relations, orders := draft.orders }, ?_⟩
    rw [Draft.finish, hrelations]
    rfl

theorem finish_of_firstUnfit {relation : RelationClause} (hfirst : FirstUnfit clauses relation) :
    draft.finish = .error (relation.refusal (namesOf clauses)) := by
  obtain ⟨earlier, later, hsplit, hunfit, hearlier⟩ := hfirst
  have hmapM : draft.relations.mapM draft.resolve =
      .error (relation.refusal (namesOf clauses)) := by
    have hrelations : draft.relations = (earlier.flatMap fun entry => entry.2.relations entry.1) ++
        (relation, .without) :: later.flatMap fun entry => entry.2.relations entry.1 := by
      rw [h.relations, hsplit, List.flatMap_append, List.flatMap_cons]
      rfl
    rw [hrelations]
    refine mapM_eq_error (fun entry hentry => exists_resolve h ?_ fun hblock => hearlier entry.1 ?_)
      (resolve_of_unfit h hunfit)
    · rw [hrelations]
      exact List.mem_append_left _ hentry
    · rw [← hblock, ← mem_relations_iff]
      exact hentry
  rw [Draft.finish, hmapM]
  rfl

end Finish

/-- **How a compilation ends**: well just when no condition is for an attribute that has one already
and no relation of a `without` block is unfit. A condition is refused before any relation is, and
among each kind the first one. -/
theorem compile_outcome (request : Request) :
    ((∃ pattern, request.compile = .ok pattern) ↔
      (∀ place : ConditionPlace, place.In request.clauses → ¬ place.Repeats) ∧
      ∀ relation, (.without, .relation relation) ∈ request.clauses →
        ¬ relation.Unfit request.IsVariable) ∧
    (∀ place, FirstRepeat request.clauses place →
      request.compile = .error (.inconsistentNode place.clause.name place.key)) ∧
    ((∀ place : ConditionPlace, place.In request.clauses → ¬ place.Repeats) →
      ∀ relation, FirstUnfit request.clauses relation →
        request.compile = .error (relation.refusal (namesOf request.clauses))) := by
  have hrepeat : ∀ place, FirstRepeat request.clauses place →
      request.compile = .error (.inconsistentNode place.clause.name place.key) := by
    intro place hplace
    rw [Request.compile, request.draft_eq_foldlM, foldlM_addEntry_of_firstRepeat hplace]
    rfl
  have hrun : (∀ place : ConditionPlace, place.In request.clauses → ¬ place.Repeats) →
      ∃ draft : Draft, Compiled request.clauses draft ∧ request.compile = draft.finish := by
    intro hplaces
    obtain ⟨draft, hdraft, htracked⟩ := Tracked.run hplaces
    refine ⟨draft, htracked.toCompiled, ?_⟩
    rw [Request.compile, request.draft_eq_foldlM, hdraft]
    rfl
  refine ⟨⟨fun hok => ?_, fun hboth => ?_⟩, hrepeat, fun hplaces relation hfirst => ?_⟩
  · have hplaces : ∀ place : ConditionPlace, place.In request.clauses → ¬ place.Repeats := by
      intro place hplace hrepeats
      obtain ⟨first, hfirst⟩ := exists_firstRepeat hplace hrepeats
      obtain ⟨pattern, hpattern⟩ := hok
      rw [hrepeat first hfirst] at hpattern
      cases hpattern
    obtain ⟨draft, hcompiled, hcompile⟩ := hrun hplaces
    rw [hcompile] at hok
    exact ⟨hplaces, (exists_finish_iff hcompiled).1 hok⟩
  · obtain ⟨draft, hcompiled, hcompile⟩ := hrun hboth.1
    rw [hcompile]
    exact (exists_finish_iff hcompiled).2 hboth.2
  · obtain ⟨draft, hcompiled, hcompile⟩ := hrun hplaces
    rw [hcompile]
    exact finish_of_firstUnfit hcompiled hfirst

/-- The label of `B` is claimed by the relation, so its condition is refused before `C` is looked
for; without the condition the relation to `C` is, and without both nothing. -/
theorem compile_of_two_faults :
    let labelled : RelationClause := { head := "A", dep := "B", labels := ["nsubj"] }
    let node : NodeClause := { name := "B", conditions := [.oneOf "deprel" ["obj"] false] }
    let missing : RelationClause := { head := "A", dep := "C" }
    Request.compile { pattern := [.relation labelled, .node node], withouts := [[.relation missing]] } =
        .error (.inconsistentNode "B" .deprel) ∧
      Request.compile { pattern := [.relation labelled], withouts := [[.relation missing]] } =
        .error (.invalidNegatedRelation "A" "C") ∧
      ∃ pattern, Request.compile { pattern := [.relation labelled] } = .ok pattern := by
  intro labelled node missing
  have hplaces : ∀ {clauses : List (Block × Clause)},
      (∀ block clause, (block, .node clause) ∉ clauses) →
        ∀ place : ConditionPlace, place.In clauses → ¬ place.Repeats := by
    rintro clauses hnone place ⟨block, later, after, hsplit, -⟩
    exact absurd (hsplit ▸ List.mem_append_cons_self) (hnone block place.clause)
  refine ⟨?_, ?_, ?_⟩
  · refine (compile_outcome _).2.1
      ⟨[(.pattern, .relation labelled)], node, [], .oneOf "deprel" ["obj"] false⟩ ⟨?_, ?_, ?_⟩
    · exact ⟨.pattern, [(.without, .relation missing)], [], rfl, rfl⟩
    · exact .inl ⟨[], _, [], rfl, rfl, List.not_mem_nil, by decide, by decide, rfl, rfl⟩
    · rintro other ⟨block, later, after, hsplit, -⟩ - (hlt | ⟨-, hlt⟩)
      · rw [List.eq_nil_of_length_eq_zero (Nat.lt_one_iff.1 hlt)] at hsplit
        cases hsplit
      · cases hlt
  · refine (compile_outcome _).2.2 (hplaces ?_) missing
      ⟨[(.pattern, .relation labelled)], [], rfl, ?_, ?_⟩
    · simp [Request.clauses]
    · unfold RelationClause.Unfit
      decide
    · simp
  · exact (compile_outcome _).1.2 ⟨hplaces (by simp [Request.clauses]), by simp [Request.clauses]⟩

end Treebank
