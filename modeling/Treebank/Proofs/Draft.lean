import Mathlib.Data.List.Nodup
import Treebank.Proofs.Failure
import Treebank.Proofs.RequestMeaning

/-! What a clause adds to a draft.

A step of the compiler adds names and relations to a draft and asks more of the nodes that
names stand for: `Draft.Adds`. Steps compose (`Adds.trans`), and the single changes of which
they are made each add their own, a condition for one on an attribute that has none yet
(`accepts_constrain`). So a clause adds its names and asks for what it says, a relation
leaving what it asks of both its ends for later (`addClause_adds`). -/
namespace Treebank

/-! ### Conditions -/

namespace NodeConstraint

theorem meets_iff {columns : Columns} {key : Attribute} {values : List String} :
    meets columns key values = true ↔ key.Meets values false columns := by
  unfold meets Attribute.Meets
  cases key.value? columns <;> simp

theorem avoids_iff {columns : Columns} {key : Attribute} {values : List String} :
    avoids columns key values = true ↔ key.Meets values true columns := by
  unfold avoids Attribute.Meets
  cases key.value? columns <;> by_cases h : values = [] <;> simp [h]

/-- A condition on an attribute that has none yet is one more to meet. -/
theorem accepts_constrain {node : NodeConstraint} {key : Attribute}
    (h : node.constrains key = false) (negated : Bool) (values : List String) (columns : Columns) :
    (node.constrain negated key values).accepts columns = true ↔
      node.accepts columns = true ∧ key.Meets values negated columns := by
  obtain ⟨hmust, hmustNot⟩ := Bool.or_eq_false_iff.1 h
  cases negated with
  | false =>
    have hrows : (node.must.insert key values).rows = node.must.rows ++ [(key, values)] :=
      Table.insertRow_eq_append (by simpa [Table.keys] using hmust)
    simp only [constrain, accepts, Bool.false_eq_true, if_false, hrows, List.all_append,
      List.all_cons, List.all_nil, Bool.and_true, Bool.and_eq_true, ← meets_iff]
    exact and_right_comm
  | true =>
    have hrows : (node.mustNot.insert key values).rows = node.mustNot.rows ++ [(key, values)] :=
      Table.insertRow_eq_append (by simpa [Table.keys] using hmustNot)
    simp only [constrain, accepts, if_true, hrows, List.all_append,
      List.all_cons, List.all_nil, Bool.and_true, Bool.and_eq_true, ← avoids_iff]
    exact and_assoc.symm

theorem constrains_constrain {node : NodeConstraint} {key other : Attribute} {negated : Bool}
    {values : List String} :
    (node.constrain negated key values).constrains other = true ↔
      node.constrains other = true ∨ other = key := by
  unfold constrains
  rw [Bool.or_eq_true, Bool.or_eq_true, List.contains_iff_mem, List.contains_iff_mem,
    List.contains_iff_mem, List.contains_iff_mem]
  cases negated with
  | false =>
    simp only [constrain, Bool.false_eq_true, if_false, Table.mem_keys_insert, or_right_comm]
  | true => simp only [constrain, if_true, Table.mem_keys_insert, or_assoc]

@[simp] theorem name_constrain (node : NodeConstraint) (negated : Bool) (key : Attribute)
    (values : List String) : (node.constrain negated key values).name = node.name := by
  cases negated <;> rfl

end NodeConstraint

/-- The dependent has one of the labels of a relation, if it has any, or none if it is negated. -/
def RelationClause.LabelsDependent (clause : RelationClause) (s : Sentence) (f : String → Nat) :
    Prop :=
  clause.labels ≠ [] →
    Attribute.deprel.Meets clause.labels clause.negated (s.wordAt (f clause.dep)).toColumns

/-- What a clause asks of nodes at once, when the names in `known` are there; what a relation asks of
both its ends comes later. -/
def Clause.Asked (known : List String) (block : Block) (s : Sentence) (f : String → Nat) :
    Clause → Prop
  | node clause => clause.Holds block s f
  | relation clause =>
    block = .pattern → clause.dep ∉ known → clause.dep ≠ clause.head → clause.LabelsDependent s f
  | order clause => clause.Holds block s f

def Clause.relations (block : Block) : Clause → List (RelationClause × Block)
  | relation clause => [(clause, block)]
  | node _ | order _ => []

/-! ### Drafts -/

namespace Draft

/-- Names are there once, and orders are between names that are there. -/
structure Sound (draft : Draft) : Prop where
  nodup : draft.names.Nodup
  orders : ∀ order ∈ draft.orders,
    order.earlier < draft.names.length ∧ order.later < draft.names.length

/-- What a draft asks of the nodes that names stand for, its relations left out. -/
def Holds (draft : Draft) (s : Sentence) (f : String → Nat) : Prop :=
  (∀ node ∈ draft.nodes, node.accepts (s.wordAt (f node.name)).toColumns = true) ∧
    ∀ order ∈ draft.orders, order.Holds s fun var => f (draft.names.getD var "")

/-- The draft `next` is `draft` with more names and relations and with more asked of nodes. -/
structure Adds (draft next : Draft) (names : List String)
    (relations : List (RelationClause × Block)) (asked : Sentence → (String → Nat) → Prop) :
    Prop where
  sound : next.Sound
  start : draft.names <+: next.names
  mem_names : ∀ name, name ∈ next.names ↔ name ∈ draft.names ∨ name ∈ names
  relations : next.relations = draft.relations ++ relations
  holds : ∀ s f, next.Holds s f ↔ draft.Holds s f ∧ asked s f

theorem Adds.refl {draft : Draft} (h : draft.Sound) : Adds draft draft [] [] fun _ _ => True where
  sound := h
  start := List.prefix_refl _
  mem_names := by simp
  relations := (List.append_nil _).symm
  holds := by simp

theorem Adds.trans {draft middle next : Draft} {names moreNames : List String}
    {relations moreRelations : List (RelationClause × Block)}
    {asked moreAsked : Sentence → (String → Nat) → Prop}
    (h : Adds draft middle names relations asked)
    (hmore : Adds middle next moreNames moreRelations moreAsked) :
    Adds draft next (names ++ moreNames) (relations ++ moreRelations) fun s f =>
      asked s f ∧ moreAsked s f where
  sound := hmore.sound
  start := h.start.trans hmore.start
  mem_names := by
    intro name
    rw [hmore.mem_names, h.mem_names, List.mem_append, or_assoc]
  relations := by rw [hmore.relations, h.relations, List.append_assoc]
  holds := by
    intro s f
    rw [hmore.holds, h.holds, and_assoc]

theorem Adds.congr {draft next : Draft} {names others : List String}
    {relations : List (RelationClause × Block)} {asked other : Sentence → (String → Nat) → Prop}
    (h : Adds draft next names relations asked) (hnames : ∀ name, name ∈ others ↔ name ∈ names)
    (hasked : ∀ s f, other s f ↔ asked s f) : Adds draft next others relations other :=
  { h with
    mem_names := fun name => by rw [h.mem_names, hnames]
    holds := fun s f => by rw [h.holds, hasked] }

/-! ### Single changes -/

theorem getD_of_start {names more : List String} (h : names <+: more) {var : Nat}
    (hvar : var < names.length) : more.getD var "" = names.getD var "" := by
  obtain ⟨rest, rfl⟩ := h
  rw [List.getD_eq_getElem?_getD, List.getD_eq_getElem?_getD, List.getElem?_append_left hvar]

/-- Orders stay what they are when names are added. -/
theorem orders_iff_of_start {draft : Draft} (h : draft.Sound) {names : List String}
    (hstart : draft.names <+: names) (s : Sentence) (f : String → Nat) :
    (∀ order ∈ draft.orders, order.Holds s fun var => f (names.getD var "")) ↔
      ∀ order ∈ draft.orders, order.Holds s fun var => f (draft.names.getD var "") := by
  refine forall₂_congr fun order horder => ?_
  obtain ⟨hearlier, hlater⟩ := h.orders order horder
  rw [OrderConstraint.Holds, getD_of_start hstart hearlier, getD_of_start hstart hlater]
  exact Iff.rfl

theorem adds_declare {draft : Draft} (h : draft.Sound) (name : String) :
    Adds draft (draft.declare name) [name] [] fun _ _ => True := by
  unfold declare
  split
  · next hname =>
    refine { Adds.refl h with mem_names := fun other => ?_ }
    rw [List.mem_singleton]
    exact ⟨.inl, fun hother => hother.elim id fun heq => heq ▸ hname⟩
  · next hname =>
    have hnames : ({ draft with nodes := draft.nodes ++ [{ name }] } : Draft).names =
        draft.names ++ [name] := by
      simp [names]
    have hstart : draft.names <+: draft.names ++ [name] := List.prefix_append _ _
    constructor
    case sound =>
      constructor
      · rw [hnames, ← List.concat_eq_append, List.nodup_concat]
        exact ⟨hname, h.nodup⟩
      · intro order horder
        obtain ⟨hearlier, hlater⟩ := h.orders order horder
        rw [hnames, List.length_append]
        exact ⟨Nat.lt_add_right _ hearlier, Nat.lt_add_right _ hlater⟩
    case start =>
      rw [hnames]
      exact hstart
    case mem_names =>
      intro other
      rw [hnames, List.mem_append]
    case relations => exact (List.append_nil _).symm
    case holds =>
      intro s f
      have hnodes : (∀ node ∈ draft.nodes ++ [({ name } : NodeConstraint)],
          node.accepts (s.wordAt (f node.name)).toColumns = true) ↔
            ∀ node ∈ draft.nodes, node.accepts (s.wordAt (f node.name)).toColumns = true := by
        rw [List.forall_mem_append, List.forall_mem_singleton]
        exact and_iff_left rfl
      rw [Holds, hnames, orders_iff_of_start h hstart, hnodes, and_true, Holds]

theorem mem_names_declare (draft : Draft) (name : String) : name ∈ (draft.declare name).names := by
  unfold declare
  split
  · assumption
  · simp [names]

/-- A name keeps its place when another one is declared. -/
theorem var_declare {draft : Draft} {name : String} (h : name ∈ draft.names) (other : String) :
    (draft.declare other).var name = draft.var name := by
  unfold declare
  split
  · rfl
  · rw [var, names, List.map_append]
    exact List.idxOf_append_of_mem h

theorem node_of_name {draft : Draft} {name : String} (h : name ∈ draft.names) :
    ∃ node, draft.nodes[draft.var name]? = some node ∧ node.name = name := by
  have hlt := List.idxOf_lt_length_of_mem h
  have hname : draft.names[draft.var name]? = some name := by
    rw [var, List.getElem?_eq_getElem hlt, List.getElem_idxOf hlt]
  rw [names, List.getElem?_map] at hname
  exact Option.map_eq_some_iff.1 hname

theorem forall_mem_modify {α : Type} {P : α → Prop} {E : Prop} {f : α → α} {xs : List α} {i : Nat}
    {x : α} (hx : xs[i]? = some x) (h : P (f x) ↔ P x ∧ E) :
    (∀ y ∈ xs.modify i f, P y) ↔ (∀ y ∈ xs, P y) ∧ E := by
  induction xs generalizing i with
  | nil => cases hx
  | cons first rest ih =>
    cases i with
    | zero =>
      cases hx
      rw [List.modify_zero_cons, List.forall_mem_cons, List.forall_mem_cons, and_right_comm]
      exact and_congr_left' h
    | succ i =>
      rw [List.modify_succ_cons, List.forall_mem_cons, List.forall_mem_cons, and_assoc]
      exact and_congr_right' (ih hx)

/-- A condition leaves the names as they are. -/
theorem names_constrain (draft : Draft) (name : String) (negated : Bool) (key : Attribute)
    (values : List String) :
    (draft.modify name (·.constrain negated key values)).names = draft.names := by
  apply List.ext_getElem?
  intro i
  simp only [names, modify, List.getElem?_map, List.getElem?_modify]
  cases draft.nodes[i]? <;> by_cases hi : draft.var name = i <;> simp [hi]

theorem adds_constrain {draft : Draft} (h : draft.Sound) {name : String} (hname : name ∈ draft.names)
    {key : Attribute} (hkey : (draft.nodes[draft.var name]?).any (·.constrains key) = false)
    (negated : Bool) (values : List String) :
    Adds draft (draft.modify name (·.constrain negated key values)) [] [] fun s f =>
      key.Meets values negated (s.wordAt (f name)).toColumns := by
  have hnames := draft.names_constrain name negated key values
  constructor
  case sound =>
    constructor
    · rw [hnames]
      exact h.nodup
    · rw [hnames]
      exact h.orders
  case start => exact hnames ▸ List.prefix_refl _
  case mem_names =>
    intro other
    rw [hnames]
    simp
  case relations => exact (List.append_nil _).symm
  case holds =>
    intro s f
    obtain ⟨node, hnode, rfl⟩ := node_of_name hname
    rw [hnode, Option.any_some] at hkey
    rw [Holds, hnames, Holds, and_right_comm]
    refine and_congr_left' (forall_mem_modify hnode ?_)
    rw [NodeConstraint.name_constrain]
    exact NodeConstraint.accepts_constrain hkey negated values _

theorem adds_order {draft : Draft} (h : draft.Sound) (order : OrderConstraint)
    (hearlier : order.earlier < draft.names.length) (hlater : order.later < draft.names.length) :
    Adds draft { draft with orders := draft.orders ++ [order] } [] [] fun s f =>
      order.Holds s fun var => f (draft.names.getD var "") where
  sound := by
    refine ⟨h.nodup, fun other hother => ?_⟩
    rcases List.mem_append.1 hother with hold | hnew
    · exact h.orders other hold
    · rw [List.mem_singleton.1 hnew]
      exact ⟨hearlier, hlater⟩
  start := List.prefix_refl _
  mem_names := fun name => by simp [names]
  relations := (List.append_nil _).symm
  holds := by
    intro s f
    rw [Holds, List.forall_mem_append, List.forall_mem_singleton, ← and_assoc]
    exact Iff.rfl

theorem adds_relation {draft : Draft} (h : draft.Sound) (relation : RelationClause × Block) :
    Adds draft { draft with relations := draft.relations ++ [relation] } [] [relation]
      fun _ _ => True where
  sound := ⟨h.nodup, h.orders⟩
  start := List.prefix_refl _
  mem_names := fun name => by simp [names]
  relations := rfl
  holds := fun _ _ => (and_true _).to_iff.symm

/-! ### Clauses -/

theorem getD_var {draft : Draft} {name : String} (h : name ∈ draft.names) :
    draft.names.getD (draft.var name) "" = name := by
  have hlt := List.idxOf_lt_length_of_mem h
  rw [List.getD_eq_getElem?_getD, var, List.getElem?_eq_getElem hlt]
  exact List.getElem_idxOf hlt

theorem addCondition_adds {draft next : Draft} {block : Block} {name : String}
    {condition : Condition} (h : draft.Sound) (hname : name ∈ draft.names)
    (hadd : addCondition block name draft condition = .ok next) :
    Adds draft next [] [] fun s f =>
      condition.Holds (block.negates condition.negated) (s.wordAt (f name)).toColumns := by
  unfold addCondition at hadd
  simp only at hadd
  split at hadd
  · cases hadd
  · next hkey =>
    cases hadd
    exact adds_constrain h hname (Bool.not_eq_true _ ▸ hkey) _ _

/-- The conditions of a node clause are added one after the other, all to one name. -/
theorem foldlM_addCondition_adds {draft next : Draft} {block : Block} {name : String}
    {conditions : List Condition} (h : draft.Sound) (hname : name ∈ draft.names)
    (hadd : conditions.foldlM (addCondition block name) draft = .ok next) :
    Adds draft next [] [] fun s f => ∀ condition ∈ conditions,
      condition.Holds (block.negates condition.negated) (s.wordAt (f name)).toColumns := by
  induction conditions generalizing draft with
  | nil =>
    cases hadd
    exact (Adds.refl h).congr (fun _ => Iff.rfl) fun _ _ => by simp
  | cons condition rest ih =>
    rw [List.foldlM_cons] at hadd
    obtain ⟨middle, hmiddle, hadd⟩ := bind_eq_ok hadd
    have hfirst := addCondition_adds h hname hmiddle
    have hrest := ih hfirst.sound ((hfirst.mem_names name).2 (.inl hname)) hadd
    exact (hfirst.trans hrest).congr (fun _ => Iff.rfl) fun _ _ => List.forall_mem_cons

theorem addNode_adds {draft next : Draft} {block : Block} {clause : NodeClause} (h : draft.Sound)
    (hadd : draft.addNode block clause = .ok next) :
    Adds draft next [clause.name] [] (clause.Holds block) := by
  have hdeclared := adds_declare h clause.name
  have hname := (hdeclared.mem_names clause.name).2 (.inr (List.mem_singleton_self _))
  have hconditions := foldlM_addCondition_adds hdeclared.sound hname hadd
  exact (hdeclared.trans hconditions).congr (fun _ => Iff.rfl) fun _ _ => (true_and _).to_iff.symm

/-- The node of a name that has just become a variable has no conditions yet. -/
theorem node_of_new_name {draft : Draft} {name : String} (h : name ∉ draft.names)
    {node : NodeConstraint} (hnode : node ∈ (draft.declare name).nodes) (hname : node.name = name) :
    node = { name } := by
  rw [declare, if_neg h] at hnode
  rcases List.mem_append.1 hnode with hold | hnew
  · exact absurd (List.mem_map.2 ⟨node, hold, hname⟩) h
  · exact List.mem_singleton.1 hnew

theorem constrains_of_new_name {draft : Draft} {name : String} (h : name ∉ draft.names)
    (key : Attribute) : ((draft.declare name).nodes[(draft.declare name).var name]?).any
      (·.constrains key) = false := by
  obtain ⟨node, hnode, hname⟩ := node_of_name (draft.mem_names_declare name)
  rw [hnode, node_of_new_name h (List.mem_of_getElem? hnode) hname]
  rfl

theorem declareEnds_adds {draft : Draft} (h : draft.Sound) (clause : RelationClause) :
    Adds draft (draft.declareEnds clause) [clause.head, clause.dep] [] fun s f =>
      clause.dep ∉ draft.names → clause.dep ≠ clause.head → clause.LabelsDependent s f := by
  have hhead := adds_declare h clause.head
  have hends := hhead.trans (adds_declare hhead.sound clause.dep)
  have hnew : clause.dep ∉ (draft.declare clause.head).names ↔
      clause.dep ∉ draft.names ∧ clause.dep ≠ clause.head := by
    rw [hhead.mem_names, List.mem_singleton, not_or]
  unfold declareEnds
  simp only
  -- the dependent is an old name, a new one without labels, or a new one with a condition
  split
  · next hold =>
    have hdeclare : (draft.declare clause.head).declare clause.dep = draft.declare clause.head :=
      if_pos hold
    rw [hdeclare] at hends
    refine hends.congr (fun _ => Iff.rfl) fun s f => iff_of_true ?_ ⟨trivial, trivial⟩
    exact fun hdep hne => absurd hold (hnew.2 ⟨hdep, hne⟩)
  · next hfresh =>
    have hfresh' := hnew.1 hfresh
    split
    · next hlabels =>
      refine hends.congr (fun _ => Iff.rfl) fun s f => iff_of_true ?_ ⟨trivial, trivial⟩
      exact fun _ _ hne => absurd (List.isEmpty_iff.1 hlabels) hne
    · next hlabels =>
      have hdep := (hends.mem_names clause.dep).2 (.inr (by simp))
      have hlabelled := adds_constrain hends.sound hdep (constrains_of_new_name hfresh .deprel)
        clause.negated clause.labels
      refine (hends.trans hlabelled).congr (fun _ => Iff.rfl) fun s f => ?_
      rw [and_true, true_and]
      constructor
      · exact fun hall => hall hfresh'.1 hfresh'.2 fun hnil => hlabels (List.isEmpty_iff.2 hnil)
      · exact fun hmeets _ _ _ => hmeets

theorem addRelation_adds {draft : Draft} (h : draft.Sound) (block : Block)
    (clause : RelationClause) :
    Adds draft (draft.addRelation block clause) ((Clause.relation clause).names block)
      [(clause, block)] ((Clause.relation clause).Asked draft.names block) := by
  unfold addRelation
  simp only
  by_cases hblock : block = .pattern
  · have hends := declareEnds_adds h clause
    rw [if_pos hblock]
    refine (hends.trans (adds_relation hends.sound _)).congr (fun name => ?_) fun s f => ?_
    · rw [Clause.names, if_pos hblock, List.append_nil]
    · rw [Clause.Asked, and_true]
      exact ⟨fun hall => hall hblock, fun hall _ => hall⟩
  · rw [if_neg hblock]
    refine (adds_relation h _).congr (fun name => ?_) fun s f => ?_
    · rw [Clause.names, if_neg hblock]
    · exact iff_of_true (fun hpattern => absurd hpattern hblock) trivial

/-- The constraint asks for the order of the operands as they are written. -/
theorem holds_order_iff {draft : Draft} {clause : OrderClause} (block : Block)
    (hleft : clause.left ∈ draft.names) (hright : clause.right ∈ draft.names) (s : Sentence)
    (f : String → Nat) :
    (({ earlier := draft.var clause.normalized.1, later := draft.var clause.normalized.2
        strict := clause.op.isStrict, negated := block = .without } : OrderConstraint).Holds s
      fun var => f (draft.names.getD var "")) ↔ clause.Holds block s f := by
  obtain ⟨left, op, right⟩ := clause
  have hblock : decide (block = .without) = false ↔ block = .pattern := by
    cases block <;> simp
  unfold OrderConstraint.Holds OrderClause.Holds
  rw [hblock]
  refine iff_congr ?_ Iff.rfl
  cases op <;>
    simp only [OrderClause.normalized, OrderOp.isStrict, OrderOp.Holds, getD_var hleft,
      getD_var hright, if_true, Bool.false_eq_true, if_false]

theorem addOrder_adds {draft : Draft} (h : draft.Sound) (block : Block) (clause : OrderClause) :
    Adds draft (draft.addOrder block clause) [clause.left, clause.right] []
      (clause.Holds block) := by
  have hnames : ∀ name, name ∈ [clause.left, clause.right] ↔
      name ∈ [clause.normalized.1] ++ [clause.normalized.2] := by
    intro name
    rw [OrderClause.normalized]
    cases clause.op <;> simp [or_comm]
  have hearlier := adds_declare h clause.normalized.1
  have hdeclared := hearlier.trans (adds_declare hearlier.sound clause.normalized.2)
  have hmem : ∀ name ∈ [clause.normalized.1] ++ [clause.normalized.2],
      name ∈ ((draft.declare clause.normalized.1).declare clause.normalized.2).names :=
    fun name hname => (hdeclared.mem_names name).2 (.inr hname)
  have horder := adds_order hdeclared.sound
    { earlier := Draft.var _ clause.normalized.1, later := Draft.var _ clause.normalized.2
      strict := clause.op.isStrict, negated := block = .without }
    (List.idxOf_lt_length_of_mem (hmem _ (by simp)))
    (List.idxOf_lt_length_of_mem (hmem _ (by simp)))
  refine (hdeclared.trans horder).congr (fun name => ?_) fun s f => ?_
  · rw [List.append_nil]
    exact hnames name
  · rw [holds_order_iff block (hmem _ ((hnames _).1 (by simp))) (hmem _ ((hnames _).1 (by simp)))]
    exact ⟨fun hholds => ⟨⟨trivial, trivial⟩, hholds⟩, And.right⟩

theorem addClause_adds {draft next : Draft} {block : Block} {clause : Clause} (h : draft.Sound)
    (hadd : draft.addClause block clause = .ok next) :
    Adds draft next (clause.names block) (clause.relations block)
      (clause.Asked draft.names block) := by
  cases clause with
  | node clause => exact addNode_adds h hadd
  | relation clause =>
    cases hadd
    exact addRelation_adds h block clause
  | order clause =>
    cases hadd
    exact addOrder_adds h block clause

end Draft

end Treebank
