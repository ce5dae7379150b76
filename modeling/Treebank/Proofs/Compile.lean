import Treebank.Proofs.Draft

/-! Compiling keeps the meaning of a request.

After a run over clauses the draft asks for what each of them asks for at its place
(`compiled_draft`). Relations are resolved with all names at hand and then ask for what
their clauses do (`holds_of_resolve`). Together that is the meaning of the request, and a
condition on the words that relations introduce (`holds_iff_of_compile`). A compiled pattern
is closed (`closed_of_compile`), as a search needs it. -/
namespace Treebank

/-! ### Runs over clauses -/

theorem forall_split_concat {α : Type} {P : List α → α → Prop} {xs : List α} {x : α} :
    (∀ earlier y later, xs ++ [x] = earlier ++ y :: later → P earlier y) ↔
      (∀ earlier y later, xs = earlier ++ y :: later → P earlier y) ∧ P xs x := by
  constructor
  · intro h
    refine ⟨fun earlier y later heq => h earlier y (later ++ [x]) ?_, h xs x [] rfl⟩
    rw [heq, List.append_assoc, List.cons_append]
  · intro hboth earlier y later heq
    obtain ⟨hold, hnew⟩ := hboth
    rcases List.eq_nil_or_concat later with rfl | ⟨before, last, rfl⟩
    · obtain ⟨rfl, hy⟩ := List.append_inj' heq rfl
      cases hy
      exact hnew
    · rw [List.concat_eq_append, ← List.cons_append, ← List.append_assoc] at heq
      exact hold earlier y before (List.append_inj' heq rfl).1

/-- The draft with one more clause of a block. -/
def Draft.addEntry (draft : Draft) (entry : Block × Clause) : Except PatternError Draft :=
  draft.addClause entry.1 entry.2

theorem Draft.addBlock_eq_foldlM (block : Block) (draft : Draft) (clauses : List Clause) :
    draft.addBlock block clauses = (clauses.map (block, ·)).foldlM Draft.addEntry draft := by
  rw [List.foldlM_map]
  rfl

/-- The clauses of all blocks are added in one run. -/
theorem Request.draft_eq_foldlM (request : Request) :
    request.draft = request.clauses.foldlM Draft.addEntry {} := by
  have hblocks : ∀ (draft : Draft) (blocks : List (List Clause)),
      blocks.foldlM (Draft.addBlock .without) draft =
        (blocks.flatten.map (Block.without, ·)).foldlM Draft.addEntry draft := by
    intro draft blocks
    induction blocks generalizing draft with
    | nil => rfl
    | cons clauses rest ih =>
      rw [List.foldlM_cons, List.flatten_cons, List.map_append, List.foldlM_append,
        Draft.addBlock_eq_foldlM]
      exact bind_congr ih
  rw [Request.draft, Request.clauses, List.foldlM_append, Draft.addBlock_eq_foldlM]
  exact bind_congr fun draft => hblocks draft request.withouts

/-- The draft is what the clauses have made of the empty one. -/
structure Compiled (clauses : List (Block × Clause)) (draft : Draft) : Prop where
  sound : draft.Sound
  mem_names : ∀ name, name ∈ draft.names ↔ name ∈ namesOf clauses
  relations : draft.relations = clauses.flatMap fun entry => entry.2.relations entry.1
  holds : ∀ s f, draft.Holds s f ↔ ∀ earlier entry later, clauses = earlier ++ entry :: later →
    entry.2.Asked (namesOf earlier) entry.1 s f

theorem Clause.asked_congr {clause : Clause} {known names : List String}
    (h : ∀ name, name ∈ known ↔ name ∈ names) (block : Block) (s : Sentence) (f : String → Nat) :
    clause.Asked known block s f ↔ clause.Asked names block s f := by
  cases clause with
  | node clause => exact Iff.rfl
  | relation clause => rw [Clause.Asked, Clause.Asked, h]
  | order clause => exact Iff.rfl

namespace Compiled
variable {clauses : List (Block × Clause)} {draft next : Draft}

theorem empty : Compiled [] {} where
  sound := ⟨List.nodup_nil, fun order horder => by cases horder⟩
  mem_names := fun _ => Iff.rfl
  relations := rfl
  holds := by
    intro s f
    refine iff_of_true ⟨fun _ hnode => (List.not_mem_nil hnode).elim,
      fun _ horder => (List.not_mem_nil horder).elim⟩ ?_
    intro earlier entry later heq
    cases List.append_eq_nil_iff.1 heq.symm |>.2

theorem step {block : Block} {clause : Clause} (h : Compiled clauses draft)
    (hadd : draft.addClause block clause = .ok next) :
    Compiled (clauses ++ [(block, clause)]) next := by
  have hadds := Draft.addClause_adds h.sound hadd
  refine ⟨hadds.sound, fun name => ?_, ?_, fun s f => ?_⟩
  · rw [hadds.mem_names, h.mem_names, namesOf, namesOf, List.flatMap_append, List.mem_append]
    simp
  · rw [hadds.relations, h.relations, List.flatMap_append]
    simp
  · rw [hadds.holds, h.holds, forall_split_concat, Clause.asked_congr h.mem_names]

theorem run {more : List (Block × Clause)} (h : Compiled clauses draft)
    (hadd : more.foldlM Draft.addEntry draft = .ok next) : Compiled (clauses ++ more) next := by
  induction more generalizing clauses draft with
  | nil =>
    cases hadd
    rw [List.append_nil]
    exact h
  | cons entry rest ih =>
    rw [List.foldlM_cons] at hadd
    obtain ⟨middle, hmiddle, hadd⟩ := bind_eq_ok hadd
    rw [List.append_cons]
    exact ih (h.step hmiddle) hadd

end Compiled

theorem compiled_draft {request : Request} {draft : Draft} (h : request.draft = .ok draft) :
    Compiled request.clauses draft := by
  rw [request.draft_eq_foldlM] at h
  exact Compiled.empty.run h

/-! ### Relations -/

namespace Draft
variable {draft : Draft} {clause : RelationClause} {block : Block} {relation : RelationConstraint}

theorem endpoint_isBelow (draft : Draft) (name : String) :
    (draft.endpoint name).IsBelow draft.names.length := by
  unfold endpoint
  split
  · next hname => exact List.idxOf_lt_length_of_mem hname
  · trivial

/-- A relation that is resolved is between what the names are, and if one of them is no variable it
is negated. -/
theorem resolve_cases (h : draft.resolve (clause, block) = .ok relation) :
    relation =
        { name? := clause.name?, head := draft.endpoint clause.head
          dep := draft.endpoint clause.dep, labels := clause.labels
          negated := block.negates clause.negated } ∧
      (clause.head ∈ draft.names ∨ clause.dep ∈ draft.names) := by
  unfold resolve at h
  by_cases hhead : clause.head ∈ draft.names
  · refine ⟨?_, .inl hhead⟩
    by_cases hdep : clause.dep ∈ draft.names
    · simp only [endpoint, if_pos hhead, if_pos hdep] at h ⊢
      cases h
      rfl
    · simp only [endpoint, if_pos hhead, if_neg hdep] at h ⊢
      split at h
      · cases h
      · split at h
        · cases h
        · cases h
          rfl
  · by_cases hdep : clause.dep ∈ draft.names
    · refine ⟨?_, .inr hdep⟩
      simp only [endpoint, if_neg hhead, if_pos hdep] at h ⊢
      split at h
      · cases h
      · split at h
        · cases h
        · cases h
          rfl
    · simp only [endpoint, if_neg hhead, if_neg hdep] at h
      cases h

theorem holds_of_resolve (h : draft.resolve (clause, block) = .ok relation) (s : Sentence)
    (f : String → Nat) :
    (relation.Holds s fun var => f (draft.names.getD var "")) ↔
      clause.Holds (· ∈ draft.names) block s f := by
  obtain ⟨rfl, hsome⟩ := resolve_cases h
  unfold RelationClause.Holds
  by_cases hhead : clause.head ∈ draft.names
  · have hheadEnd : draft.endpoint clause.head = .bound (draft.var clause.head) := if_pos hhead
    by_cases hdep : clause.dep ∈ draft.names
    · have hdepEnd : draft.endpoint clause.dep = .bound (draft.var clause.dep) := if_pos hdep
      simp only [RelationConstraint.Holds, hheadEnd, hdepEnd, getD_var hhead, getD_var hdep]
      exact ⟨fun hholds => ⟨fun _ _ => hholds, fun _ hno => absurd hdep hno, fun hno _ =>
        absurd hhead hno⟩, fun hholds => hholds.1 hhead hdep⟩
    · have hdepEnd : draft.endpoint clause.dep = .unbound clause.dep := if_neg hdep
      simp only [RelationConstraint.Holds, hheadEnd, hdepEnd, getD_var hhead]
      exact ⟨fun hholds => ⟨fun _ hyes => absurd hyes hdep, fun _ _ => hholds, fun hno _ =>
        absurd hhead hno⟩, fun hholds => hholds.2.1 hhead hdep⟩
  · have hdep : clause.dep ∈ draft.names := hsome.resolve_left hhead
    have hheadEnd : draft.endpoint clause.head = .unbound clause.head := if_neg hhead
    have hdepEnd : draft.endpoint clause.dep = .bound (draft.var clause.dep) := if_pos hdep
    simp only [RelationConstraint.Holds, hheadEnd, hdepEnd, getD_var hdep]
    exact ⟨fun hholds => ⟨fun hyes _ => absurd hyes hhead, fun hyes _ => absurd hyes hhead,
      fun _ _ => hholds⟩, fun hholds => hholds.2.2 hhead hdep⟩

theorem getD_names {var : Nat} {node : NodeConstraint} (h : draft.nodes[var]? = some node) :
    draft.names.getD var "" = node.name := by
  rw [List.getD_eq_getElem?_getD, names, List.getElem?_map, h]
  rfl

/-- A finished pattern asks for what the draft asks for and for its relations. -/
theorem holds_of_finish {pattern : Pattern} (h : draft.finish = .ok pattern) (s : Sentence)
    (f : String → Nat) :
    (pattern.Holds s fun var => f (pattern.names.getD var "")) ↔
      draft.Holds s f ∧
        ∀ entry ∈ draft.relations, entry.1.Holds (· ∈ draft.names) entry.2 s f := by
  obtain ⟨relations, hrelations, h⟩ := bind_eq_ok h
  cases h
  have haccepts : (∀ var (node : NodeConstraint), draft.nodes[var]? = some node →
      node.accepts (s.wordAt (f (draft.names.getD var ""))).toColumns = true) ↔
        ∀ node ∈ draft.nodes, node.accepts (s.wordAt (f node.name)).toColumns = true := by
    constructor
    · intro hall node hnode
      obtain ⟨var, hvar⟩ := List.getElem?_of_mem hnode
      rw [← getD_names hvar]
      exact hall var node hvar
    · intro hall var node hvar
      rw [getD_names hvar]
      exact hall node (List.mem_of_getElem? hvar)
  have hresolved : (∀ entry ∈ draft.relations, entry.1.Holds (· ∈ draft.names) entry.2 s f) ↔
      ∀ relation ∈ relations, relation.Holds s fun var => f (draft.names.getD var "") := by
    refine forall_mem_iff_of_forall₂ (forall₂_of_mapM_eq_ok hrelations) ?_
    exact fun entry relation hentry => (holds_of_resolve hentry s f).symm
  rw [hresolved, Holds, ← haccepts, and_assoc]
  exact ⟨fun hholds => ⟨hholds.accepts, hholds.fits⟩, fun hholds => ⟨hholds.1, hholds.2⟩⟩

end Draft

/-- A compiled pattern speaks of its own variables only, so that no check of a search fails. -/
theorem closed_of_compile {request : Request} {pattern : Pattern}
    (h : request.compile = .ok pattern) : pattern.Closed := by
  obtain ⟨draft, hdraft, hfinish⟩ := bind_eq_ok h
  obtain ⟨relations, hrelations, hpattern⟩ := bind_eq_ok hfinish
  cases hpattern
  have hsize : draft.names.length = draft.nodes.length := List.length_map _
  constructor
  · intro order horder
    have hbelow := (compiled_draft hdraft).sound.orders order horder
    rw [hsize] at hbelow
    exact hbelow
  · refine forall_mem_of_mapM_eq_ok hrelations fun entry relation hresolve => ?_
    obtain ⟨clause, block⟩ := entry
    obtain ⟨rfl, -⟩ := Draft.resolve_cases hresolve
    have hends := And.intro (draft.endpoint_isBelow clause.head) (draft.endpoint_isBelow clause.dep)
    rw [hsize] at hends
    exact hends

/-- A label that is asked for or excluded by a relation with labels. -/
theorem RelationClause.labelsDependent_iff {clause : RelationClause} {s : Sentence}
    {f : String → Nat} :
    clause.LabelsDependent s f ↔ (clause.labels ≠ [] →
      ((s.wordAt (f clause.dep)).deprel ∈ clause.labels ↔ clause.negated = false)) := by
  refine imp_congr_right fun hlabels => ?_
  unfold Attribute.Meets Attribute.value?
  cases clause.negated <;> simp [hlabels]

section Clauses
variable {clauses : List (Block × Clause)} {isVar : String → Prop} {s : Sentence}
  {f : String → Nat}

theorem mem_relations_iff {relation : RelationClause} {block : Block} :
    (relation, block) ∈ clauses.flatMap (fun entry => entry.2.relations entry.1) ↔
      (block, .relation relation) ∈ clauses := by
  rw [List.mem_flatMap]
  constructor
  · rintro ⟨⟨other, clause⟩, hmem, hrelation⟩
    cases clause with
    | node clause => cases hrelation
    | relation clause =>
      cases List.mem_singleton.1 hrelation
      exact hmem
    | order clause => cases hrelation
  · exact fun hmem => ⟨_, hmem, List.mem_singleton_self _⟩

/-- All clauses hold if what they ask for at their places is given and their relations hold. -/
theorem holds_of_asked
    (hasked : ∀ earlier entry later, clauses = earlier ++ entry :: later →
      entry.2.Asked (namesOf earlier) entry.1 s f)
    (hrelations : ∀ entry ∈ clauses.flatMap fun entry => entry.2.relations entry.1,
      entry.1.Holds isVar entry.2 s f) :
    ∀ entry ∈ clauses, entry.2.Holds isVar entry.1 s f := by
  intro entry hentry
  obtain ⟨block, clause⟩ := entry
  obtain ⟨earlier, later, hsplit⟩ := List.append_of_mem hentry
  cases clause with
  | node clause => exact hasked earlier _ later hsplit
  | relation clause => exact hrelations (clause, block) (mem_relations_iff.2 hentry)
  | order clause => exact hasked earlier _ later hsplit

theorem relations_of_holds (hholds : ∀ entry ∈ clauses, entry.2.Holds isVar entry.1 s f) :
    ∀ entry ∈ clauses.flatMap fun entry => entry.2.relations entry.1,
      entry.1.Holds isVar entry.2 s f :=
  fun _ hentry => hholds _ (mem_relations_iff.1 hentry)

theorem not_mem_labels_of_asked {clause : RelationClause}
    (hasked : ∀ earlier entry later, clauses = earlier ++ entry :: later →
      entry.2.Asked (namesOf earlier) entry.1 s f)
    (hintroduces : Introduces clauses clause) (hnegated : clause.negated = true) :
    (s.wordAt (f clause.dep)).deprel ∉ clause.labels := by
  obtain ⟨earlier, later, hsplit, hnew, hne⟩ := hintroduces
  intro hlabel
  have hlabels := hasked earlier _ later hsplit rfl hnew hne
  have hiff := RelationClause.labelsDependent_iff.1 hlabels (List.ne_nil_of_mem hlabel)
  rw [hnegated] at hiff
  cases hiff.1 hlabel

/-- A relation that holds gives its dependent one of its labels, so only those that are negated ask
for more than their clauses say. -/
theorem asked_of_holds (hvars : ∀ name ∈ namesOf clauses, isVar name)
    (hholds : ∀ entry ∈ clauses, entry.2.Holds isVar entry.1 s f)
    (hintroduced : ∀ clause, Introduces clauses clause → clause.negated = true →
      (s.wordAt (f clause.dep)).deprel ∉ clause.labels) :
    ∀ earlier entry later, clauses = earlier ++ entry :: later →
      entry.2.Asked (namesOf earlier) entry.1 s f := by
  intro earlier entry later hsplit
  obtain ⟨block, clause⟩ := entry
  have hentry : (block, clause) ∈ clauses := hsplit ▸ List.mem_append_cons_self
  cases clause with
  | node clause => exact hholds _ hentry
  | relation clause =>
    intro hblock hnew hne
    subst hblock
    refine RelationClause.labelsDependent_iff.2 fun hlabels => ?_
    cases hnegated : clause.negated with
    | true =>
      -- the relation may hold by the head alone, so nothing in the clause excludes the label
      have hnone := hintroduced clause ⟨earlier, later, hsplit, hnew, hne⟩ hnegated
      exact iff_of_false hnone (by decide)
    | false =>
      have hends : ∀ name ∈ [clause.head, clause.dep], isVar name :=
        fun name hname => hvars name (List.mem_flatMap.2 ⟨_, hentry, hname⟩)
      have hhangs := ((hholds _ hentry).1 (hends _ (by simp)) (hends _ (by simp))).2
        (by rw [hnegated]; rfl)
      exact iff_of_true (hhangs.2.resolve_left hlabels) rfl
  | order clause => exact hholds _ hentry

end Clauses

/-- The labels of a negated relation that introduces its dependent are not those of that word. -/
def Request.Excludes (request : Request) (s : Sentence) (f : String → Nat) : Prop :=
  ∀ clause, Introduces request.clauses clause → clause.negated = true →
    (s.wordAt (f clause.dep)).deprel ∉ clause.labels

/-- What is asked at the places of the clauses is what all of them say and the labels excluded. -/
theorem Request.asked_iff {request : Request} {s : Sentence} {f : String → Nat} :
    ((∀ earlier entry later, request.clauses = earlier ++ entry :: later →
        entry.2.Asked (namesOf earlier) entry.1 s f) ∧
      ∀ entry ∈ request.clauses.flatMap fun entry => entry.2.relations entry.1,
        entry.1.Holds request.IsVariable entry.2 s f) ↔
    request.Holds s f ∧ request.Excludes s f := by
  constructor
  · intro hboth
    exact ⟨holds_of_asked hboth.1 hboth.2, fun clause => not_mem_labels_of_asked hboth.1⟩
  · intro hboth
    exact ⟨asked_of_holds (fun _ hname => hname) hboth.1 hboth.2, relations_of_holds hboth.1⟩

section Compile
variable {request : Request} {pattern : Pattern} (hcompile : request.compile = .ok pattern)

include hcompile

/-- A pattern is made of a draft of all clauses and has its names. -/
theorem exists_draft_of_compile : ∃ draft, Compiled request.clauses draft ∧
    draft.finish = .ok pattern ∧ pattern.names = draft.names := by
  obtain ⟨draft, hdraft, hfinish⟩ := bind_eq_ok hcompile
  obtain ⟨relations, -, hpattern⟩ := bind_eq_ok hfinish
  cases hpattern
  exact ⟨draft, compiled_draft hdraft, hfinish, rfl⟩

theorem nodup_names_of_compile : pattern.names.Nodup := by
  obtain ⟨draft, hcompiled, -, hnames⟩ := exists_draft_of_compile hcompile
  exact hnames ▸ hcompiled.sound.nodup

theorem mem_names_of_compile (name : String) :
    name ∈ pattern.names ↔ request.IsVariable name := by
  obtain ⟨draft, hcompiled, -, hnames⟩ := exists_draft_of_compile hcompile
  exact hnames ▸ hcompiled.mem_names name

/-- A compiled request asks of the nodes of a map what its clauses say, and excludes labels. -/
theorem holds_iff_of_compile (s : Sentence) (f : String → Nat) :
    (pattern.Holds s fun var => f (pattern.names.getD var "")) ↔
      request.Holds s f ∧ request.Excludes s f := by
  obtain ⟨draft, hcompiled, hfinish, -⟩ := exists_draft_of_compile hcompile
  have hvar : (· ∈ draft.names) = request.IsVariable :=
    funext fun name => propext (hcompiled.mem_names name)
  rw [← Request.asked_iff, Draft.holds_of_finish hfinish, hcompiled.holds, hcompiled.relations,
    hvar]

end Compile

/-- **Compiling a request keeps its meaning, clause by clause**, with one addition: where a negated
relation of the pattern block is the first clause to name its dependent, none of its labels is
the label of that word, whatever word it hangs from. -/
theorem compile_holds {request : Request} {pattern : Pattern} (h : request.compile = .ok pattern) :
    pattern.names.Nodup ∧ (∀ name, name ∈ pattern.names ↔ request.IsVariable name) ∧
    ∀ s f, (pattern.Holds s fun var => f (pattern.names.getD var "")) ↔
      request.Holds s f ∧ ∀ clause, Introduces request.clauses clause → clause.negated = true →
        (s.wordAt (f clause.dep)).deprel ∉ clause.labels :=
  ⟨nodup_names_of_compile h, mem_names_of_compile h, holds_iff_of_compile h⟩

/-- A name that only a `without` block mentions is no variable, and the relation to it asks that there
be no such dependent. -/
theorem compile_without :
    let request : Request :=
      { pattern := [.node { name := "V", conditions := [.oneOf "upos" ["VERB"] false] }]
        withouts := [[.relation { head := "V", dep := "S", labels := ["nsubj"] }]] }
    ∃ pattern, request.compile = .ok pattern ∧ pattern.names = ["V"] ∧
      ¬ request.IsVariable "S" ∧ ∀ s f,
        (pattern.Holds s fun var => f (pattern.names.getD var "")) ↔ request.Holds s f ∧
          ∀ clause, Introduces request.clauses clause → clause.negated = true →
            (s.wordAt (f clause.dep)).deprel ∉ clause.labels := by
  intro request
  have hcompile : ∃ pattern, request.compile = .ok pattern ∧ pattern.names = ["V"] := ⟨_, rfl, rfl⟩
  obtain ⟨pattern, hcompile, hnames⟩ := hcompile
  obtain ⟨-, hvariables, hholds⟩ := compile_holds hcompile
  refine ⟨pattern, hcompile, hnames, ?_, hholds⟩
  rw [← hvariables, hnames]
  decide

/-- The nodes 2 and 0 are as the clause of the request has it, for the word at 0 does not hang from
the one at 2; but its label is the one that the relation excludes. -/
theorem introduced_label_excluded :
    let request : Request :=
      { pattern := [.relation { head := "A", dep := "B", labels := ["nsubj"], negated := true }] }
    let s := (Sentence.ofTokens
      [{ id := .word 1, head := some 2, deprel := "nsubj" },
       { id := .word 2, head := some 0, deprel := "root" },
       { id := .word 3, head := some 2, deprel := "obj" }]).afterBuild
    let f : String → Nat := fun name => if name = "A" then 2 else 0
    ∃ pattern, request.compile = .ok pattern ∧ pattern.names.map f = [2, 0] ∧
      s.outline.built = true ∧ request.Holds s f ∧
      ¬ pattern.Holds s fun var => f (pattern.names.getD var "") := by
  intro request s f
  refine ⟨_, rfl, rfl, by decide +kernel, ?_, ?_⟩
  · intro entry hentry
    cases List.mem_singleton.1 hentry
    have hapart : ¬ s.Hangs 2 0 ["nsubj"] := by decide +kernel
    have hvariables : request.IsVariable "A" ∧ request.IsVariable "B" := by
      unfold Request.IsVariable
      decide
    exact ⟨fun _ _ => iff_of_false hapart (by decide), fun _ hno => absurd hvariables.2 hno,
      fun hno _ => absurd hvariables.1 hno⟩
  · intro hholds
    have haccepts := hholds.accepts 1 _ rfl
    revert haccepts
    decide +kernel

end Treebank
