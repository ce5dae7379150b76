import Treebank.Proofs.Refusals

/-! The attributes that a node of a pattern has conditions on.

A compiled node has one condition for each attribute that the clauses claim for its name
(`keys_of_compile`). Attributes that are not the same are told apart by their spelling, and by that
alone features that differ in case only are different ones; but they are read from one place in
every token (`sameReading_iff`). So no node has two conditions for what it reads at one place if and
only if the request never spells a feature of a node in two ways (`compile_sameReading_iff`). -/
namespace Treebank

/-! ### Where attributes are read -/

namespace Attribute

/-- The two have the same value in every token. -/
def SameReading (a b : Attribute) : Prop := ∀ columns : Columns, a.value? columns = b.value? columns

theorem sameReading_feature_iff {m n : String} :
    SameReading (.feature m) (.feature n) ↔ Text.fold m = Text.fold n := by
  constructor
  · intro h
    -- a token with the feature `m` and no other
    have hset := h { feats := ⟨[(m, "")]⟩ }
    by_contra hne
    simp [value?, Features.get?, Features.find, hne] at hset
  · intro h columns
    show Features.find (Text.fold m) _ = Features.find (Text.fold n) _
    rw [h]

/-- Attributes are read from the same place if they are the same or are one feature in two
spellings. -/
theorem sameReading_iff {a b : Attribute} : a.SameReading b ↔
    a = b ∨ ∃ m n, a = .feature m ∧ b = .feature n ∧ Text.fold m = Text.fold n := by
  constructor
  · intro h
    -- a token whose columns are all different and that has no features
    have happart := h
      { form := "f", lemmaForm := "l", upos := "u", xpos := "x", feats := ⟨[]⟩, deprel := "d" }
    cases a <;> cases b
    case feature.feature m n => exact .inr ⟨m, n, rfl, rfl, sameReading_feature_iff.1 h⟩
    all_goals first
      | exact .inl rfl
      | simp [value?, Features.get?, Features.find] at happart
  · rintro (rfl | ⟨m, n, rfl, rfl, hfold⟩)
    · exact fun _ => rfl
    · exact sameReading_feature_iff.2 hfold

end Attribute

/-! ### Attributes of a node -/

namespace NodeConstraint

/-- The attributes with a condition, those that are to be met first. -/
def keys (node : NodeConstraint) : List Attribute := node.must.keys ++ node.mustNot.keys

theorem mem_keys_iff {node : NodeConstraint} {key : Attribute} :
    key ∈ node.keys ↔ node.constrains key = true := by
  rw [keys, constrains, List.mem_append, Bool.or_eq_true, List.contains_iff_mem,
    List.contains_iff_mem]

/-- A condition on an attribute that has none yet adds the attribute. -/
theorem keys_constrain {node : NodeConstraint} {key : Attribute} (h : node.constrains key = false)
    (negated : Bool) (values : List String) :
    (node.constrain negated key values).keys.Perm (key :: node.keys) := by
  rw [← Bool.not_eq_true, ← mem_keys_iff, keys, List.mem_append, not_or] at h
  cases negated with
  | false =>
    simp only [constrain, keys, Bool.false_eq_true, if_false, Table.keys_insert_of_not_mem h.1,
      List.append_assoc, List.singleton_append]
    exact List.perm_middle
  | true =>
    simp only [constrain, keys, if_true, Table.keys_insert_of_not_mem h.2, ← List.append_assoc]
    exact List.perm_append_singleton _ _

end NodeConstraint

/-! ### Drafts -/

namespace Draft
variable {draft next : Draft}

/-- No node has two conditions on one attribute. -/
def HasSingleConditions (draft : Draft) : Prop := ∀ node ∈ draft.nodes, node.keys.Nodup

theorem singleConditions_declare (h : draft.HasSingleConditions) (name : String) :
    (draft.declare name).HasSingleConditions := by
  unfold declare
  split
  · exact h
  · intro node hnode
    rcases List.mem_append.1 hnode with hold | hnew
    · exact h node hold
    · rw [List.mem_singleton.1 hnew]
      exact List.nodup_nil

theorem singleConditions_constrain (h : draft.HasSingleConditions) {name : String} {key : Attribute}
    (hfree : (draft.nodes[draft.var name]?).any (·.constrains key) = false) (negated : Bool)
    (values : List String) :
    (draft.modify name (·.constrain negated key values)).HasSingleConditions := by
  intro node hnode
  obtain ⟨i, hi⟩ := List.getElem?_of_mem hnode
  rw [modify, List.getElem?_modify] at hi
  obtain ⟨old, hold, rfl⟩ := Option.map_eq_some_iff.1 hi
  have hnodup := h old (List.mem_of_getElem? hold)
  split
  · next hvar =>
    rw [hvar, hold, Option.any_some] at hfree
    rw [(NodeConstraint.keys_constrain hfree negated values).nodup_iff, List.nodup_cons,
      NodeConstraint.mem_keys_iff, Bool.not_eq_true]
    exact ⟨hfree, hnodup⟩
  · exact hnodup

/-- A clause declares names and puts conditions on attributes of nodes that have none yet. What both
of these keep and what depends on the nodes alone is kept by every clause. -/
theorem addEntry_invariant {P : Draft → Prop} {entry : Block × Clause}
    (hadd : draft.addEntry entry = .ok next) (h : P draft)
    (declare : ∀ {draft : Draft} name, P draft → P (draft.declare name))
    (constrain : ∀ {draft : Draft} {name key} negated values,
      (draft.nodes[draft.var name]?).any (·.constrains key) = false → P draft →
        P (draft.modify name (·.constrain negated key values)))
    (nodes : ∀ {draft next : Draft}, P draft → next.nodes = draft.nodes → P next) : P next := by
  obtain ⟨block, clause⟩ := entry
  cases clause with
  | node clause =>
    refine foldlM_invariant hadd (declare clause.name h) ?_
    intro middle condition after hmiddle hcondition
    unfold addCondition at hcondition
    simp only at hcondition
    split at hcondition
    · cases hcondition
    · next hfree =>
      cases hcondition
      exact constrain _ _ (Bool.not_eq_true _ ▸ hfree) hmiddle
  | relation clause =>
    cases hadd
    have hends : P (if block = .pattern then draft.declareEnds clause else draft) := by
      split
      · unfold declareEnds
        simp only
        split
        · exact declare _ h
        · next hfresh =>
          split
          · exact declare _ (declare _ h)
          · exact constrain _ _ (constrains_of_new_name hfresh _) (declare _ (declare _ h))
      · exact h
    exact nodes hends rfl
  | order clause =>
    cases hadd
    have hends : P ((draft.declare clause.normalized.1).declare clause.normalized.2) :=
      declare _ (declare _ h)
    exact nodes hends rfl

end Draft

/-! ### Compiled patterns -/

/-- A condition of the request is for the feature of the node with the name. -/
def Request.AsksFeature (request : Request) (name feature : String) : Prop :=
  ∃ block clause, (block, .node clause) ∈ request.clauses ∧ clause.name = name ∧
    .feature feature ∈ clause.conditions.map Condition.key

section Compile
variable {request : Request} {draft : Draft} {pattern : Pattern}

/-- Of a relation only the label of its dependent is claimed, so that features are claimed by
conditions alone. -/
theorem claimed_feature_iff {name feature : String} :
    Claimed request.clauses name (.feature feature) ↔ request.AsksFeature name feature := by
  constructor
  · rintro ⟨earlier, ⟨block, clause⟩, later, hsplit, hclaims⟩
    cases clause with
    | node clause => exact ⟨block, clause, hsplit ▸ List.mem_append_cons_self, hclaims⟩
    | relation clause => cases hclaims.2.2.2.2.2
    | order clause => exact hclaims.elim
  · rintro ⟨block, clause, hmem, hasked⟩
    obtain ⟨earlier, later, hsplit⟩ := List.append_of_mem hmem
    exact ⟨earlier, _, later, hsplit, hasked⟩

theorem singleConditions_draft (h : request.draft = .ok draft) : draft.HasSingleConditions := by
  rw [request.draft_eq_foldlM] at h
  exact foldlM_invariant h (fun _ hnode => (List.not_mem_nil hnode).elim)
    fun _ _ _ hmiddle hadd => Draft.addEntry_invariant hadd hmiddle
      (fun name hold => Draft.singleConditions_declare hold name)
      (fun negated values hfree hold => Draft.singleConditions_constrain hold hfree negated values)
      fun hold hnodes node hnode => hold node (hnodes ▸ hnode)

theorem tracked_draft (h : request.draft = .ok draft) : Tracked request.clauses draft := by
  rw [request.draft_eq_foldlM] at h
  have hplaces : ∀ place : ConditionPlace, place.In request.clauses → ¬ place.Repeats := by
    intro place hplace hrepeats
    obtain ⟨first, hfirst⟩ := exists_firstRepeat hplace hrepeats
    rw [foldlM_addEntry_of_firstRepeat hfirst] at h
    cases h
  obtain ⟨last, hlast, htracked⟩ := Tracked.run hplaces
  rw [hlast] at h
  cases h
  exact htracked

theorem keys_of_compile (h : request.compile = .ok pattern) {node : NodeConstraint}
    (hnode : node ∈ pattern.nodes) : node.keys.Nodup ∧
      ∀ key, key ∈ node.keys ↔ Claimed request.clauses node.name key := by
  obtain ⟨draft, hdraft, hfinish⟩ := bind_eq_ok h
  obtain ⟨relations, -, hpattern⟩ := bind_eq_ok hfinish
  cases hpattern
  have htracked := tracked_draft hdraft
  refine ⟨singleConditions_draft hdraft node hnode, fun key => ?_⟩
  rw [NodeConstraint.mem_keys_iff, ← not_iff_not, Bool.not_eq_true, ← htracked.free,
    Draft.free_iff_of_mem htracked.sound hnode]

end Compile

/-- **Which attributes of a node are told apart.** A compiled node has no two conditions on one
attribute, from whichever clauses they come and whether they are to be met or to be avoided. It has
none on two attributes that are read from one place just when the request asks for no feature of the
node in two spellings that differ in case only. -/
theorem compile_sameReading_iff {request : Request} {pattern : Pattern}
    (h : request.compile = .ok pattern) : ∀ node ∈ pattern.nodes,
      (node.must.keys ++ node.mustNot.keys).Nodup ∧
      ((∀ a ∈ node.keys, ∀ b ∈ node.keys, a ≠ b → ¬ a.SameReading b) ↔
        ∀ m n, request.AsksFeature node.name m → request.AsksFeature node.name n →
          Text.fold m = Text.fold n → m = n) := by
  intro node hnode
  obtain ⟨hnodup, hkeys⟩ := keys_of_compile h hnode
  refine ⟨hnodup, ?_⟩
  constructor
  · intro happart m n hm hn hfold
    rw [← claimed_feature_iff, ← hkeys] at hm hn
    by_contra hne
    exact happart _ hm _ hn (fun hsame => hne (Attribute.feature.inj hsame))
      (Attribute.sameReading_feature_iff.2 hfold)
  · intro hspelt a ha b hb hne hsame
    rcases Attribute.sameReading_iff.1 hsame with hab | ⟨m, n, rfl, rfl, hfold⟩
    · exact hne hab
    · rw [hkeys, claimed_feature_iff] at ha hb
      exact hne (congrArg _ (hspelt m n ha hb hfold))

/-- Two features of `N`, one to be met and one to be avoided, are read apart. -/
theorem compile_sameReading_of_two :
    let request : Request := { pattern := [.node { name := "N", conditions :=
      [.oneOf "Number" ["Sing"] false, .oneOf "Gender" ["Fem"] true] }] }
    ∃ pattern, request.compile = .ok pattern ∧ ∀ node ∈ pattern.nodes,
      (node.must.keys ++ node.mustNot.keys).Nodup ∧
        ∀ a ∈ node.keys, ∀ b ∈ node.keys, a ≠ b → ¬ a.SameReading b := by
  intro request
  have hasked : ∀ m, request.AsksFeature "N" m → m = "Number" ∨ m = "Gender" := by
    rintro m ⟨block, clause, hmem, -, hkey⟩
    cases List.mem_singleton.1 hmem
    simpa [Condition.key, Condition.feature, Attribute.ofName] using hkey
  obtain ⟨pattern, hcompile, hnames⟩ :
      ∃ pattern, request.compile = .ok pattern ∧ pattern.names = ["N"] := ⟨_, rfl, rfl⟩
  refine ⟨pattern, hcompile, fun node hnode => ?_⟩
  obtain ⟨hnodup, hiff⟩ := compile_sameReading_iff hcompile node hnode
  refine ⟨hnodup, hiff.2 fun m n hm hn hfold => ?_⟩
  have hname : node.name = "N" :=
    List.mem_singleton.1 (hnames ▸ List.mem_map_of_mem (f := (·.name)) hnode)
  rw [hname] at hm hn
  rcases hasked m hm with rfl | rfl <;> rcases hasked n hn with rfl | rfl
  · rfl
  · exact absurd hfold (by decide)
  · exact absurd hfold (by decide)
  · rfl

/-- The two conditions on the number of `N` are for attributes of their own and are read from one
place. -/
theorem compile_two_spellings :
    let request : Request := { pattern := [.node { name := "N", conditions :=
      [.oneOf "Number" ["Sing"] false, .oneOf "number" ["Plur"] false] }] }
    ∃ pattern node, request.compile = .ok pattern ∧ node ∈ pattern.nodes ∧
      node.must.keys = [.feature "Number", .feature "number"] ∧
      (Attribute.feature "Number").SameReading (.feature "number") :=
  ⟨_, _, rfl, List.mem_singleton_self _, by decide, Attribute.sameReading_feature_iff.2 (by decide)⟩

end Treebank
