import Treebank.Proofs.Matches
import Treebank.Proofs.Refusals

/-! What `without` blocks take away.

Each clause of such a block is negated by itself, so a match is lost as soon as one clause of
one block holds of it (`search_withouts`). One more block takes matches away and adds
none, except that a name which it makes a variable can no longer stand for any word in a
relation of another block (`search_addWithout`). -/
namespace Treebank

namespace Clause

/-- The names that stand in the clause. -/
def mentions : Clause → List String
  | node clause => [clause.name]
  | relation clause => [clause.head, clause.dep]
  | order clause => [clause.left, clause.right]

/-- What a clause says depends on which of its names are variables and on the nodes of those. -/
theorem holds_congr {clause : Clause} {block : Block} {isVar other : String → Prop}
    {f g : String → Nat} (s : Sentence) (hvar : ∀ name ∈ clause.mentions, isVar name ↔ other name)
    (hnames : ∀ name ∈ clause.names block, isVar name)
    (hnode : ∀ name ∈ clause.mentions, isVar name → f name = g name) :
    clause.Holds isVar block s f ↔ clause.Holds other block s g := by
  cases clause with
  | node clause =>
    have hname : clause.name ∈ [clause.name] := List.mem_singleton_self _
    rw [Holds, Holds, NodeClause.Holds, hnode _ hname (hnames _ hname)]
    exact Iff.rfl
  | relation clause =>
    have hhead : clause.head ∈ [clause.head, clause.dep] := by simp
    have hdep : clause.dep ∈ [clause.head, clause.dep] := by simp
    rw [Holds, Holds, RelationClause.Holds, RelationClause.Holds, ← hvar _ hhead, ← hvar _ hdep]
    refine and_congr (imp_congr_right fun hyes => imp_congr_right fun hyes' => ?_)
      (and_congr (imp_congr_right fun hyes => imp_congr_right fun _ => ?_)
        (imp_congr_right fun _ => imp_congr_right fun hyes => ?_))
    · rw [hnode _ hhead hyes, hnode _ hdep hyes']
    · rw [hnode _ hhead hyes]
    · rw [hnode _ hdep hyes]
  | order clause =>
    have hleft : clause.left ∈ [clause.left, clause.right] := by simp
    have hright : clause.right ∈ [clause.left, clause.right] := by simp
    rw [Holds, Holds, OrderClause.Holds, hnode _ hleft (hnames _ hleft),
      hnode _ hright (hnames _ hright)]
    exact Iff.rfl

/-- An order or a relation that is not negated, between names among those given. -/
def IsPlain (names : List String) : Clause → Prop
  | node _ => False
  | relation clause => clause.negated = false ∧ clause.head ∈ names ∧ clause.dep ∈ names
  | order clause => clause.left ∈ names ∧ clause.right ∈ names

/-- In a `without` block a clause says the opposite. -/
theorem IsPlain.holds_without_iff {names : List String} {clause : Clause} (h : clause.IsPlain names)
    {isVar : String → Prop} (hnames : ∀ name ∈ names, isVar name) (s : Sentence)
    (f : String → Nat) :
    clause.Holds isVar .without s f ↔ ¬ clause.Holds isVar .pattern s f := by
  cases clause with
  | node clause => exact h.elim
  | relation clause =>
    obtain ⟨hnegated, hhead, hdep⟩ := h
    simp [Holds, RelationClause.Holds, Block.negates, hnegated, hnames _ hhead, hnames _ hdep]
  | order clause => simp [Holds, OrderClause.Holds]

end Clause

/-! ### Rejection -/

/-- A pattern block whose draft is there compiles by itself: both ends of its relations are
variables. -/
theorem exists_compile_pattern {request : Request} {draft : Draft}
    (h : Draft.addBlock .pattern {} request.pattern = .ok draft) :
    ∃ base, ({ request with withouts := [] } : Request).compile = .ok base := by
  have hcompiled := Compiled.empty.run (Draft.addBlock_eq_foldlM .. ▸ h)
  rw [List.nil_append] at hcompiled
  obtain ⟨base, hbase⟩ := (exists_finish_iff hcompiled).2 fun relation hrelation => by
    obtain ⟨clause, -, hclause⟩ := List.mem_map.1 hrelation
    cases hclause
  have hdraft : ({ request with withouts := [] } : Request).draft = .ok draft := by
    rw [Request.draft, h]
    rfl
  refine ⟨base, ?_⟩
  rw [Request.compile, hdraft]
  exact hbase

namespace Request

/-- The names of the clauses of the pattern block. -/
def patternNames (request : Request) : List String :=
  namesOf (request.pattern.map (Block.pattern, ·))

/-- The `without` blocks hold orders and relations that are not negated, between names of the pattern
block. -/
def IsPlain (request : Request) : Prop :=
  ∀ block ∈ request.withouts, ∀ clause ∈ block, clause.IsPlain request.patternNames

theorem clauses_pattern (request : Request) :
    ({ request with withouts := [] } : Request).clauses =
      request.pattern.map (Block.pattern, ·) :=
  List.append_nil _

theorem excludes_iff_of_pattern_eq (request other : Request)
    (h : other.pattern = request.pattern) (s : Sentence) (f : String → Nat) :
    other.Excludes s f ↔ request.Excludes s f := by
  refine forall_congr' fun clause => imp_congr_left ?_
  rw [introduces_iff_pattern, introduces_iff_pattern, h]

variable {request : Request} (hplain : request.IsPlain)
include hplain

theorem IsPlain.isVariable_eq : request.IsVariable = (· ∈ request.patternNames) := by
  funext name
  rw [IsVariable, clauses, namesOf, List.flatMap_append, List.mem_append]
  refine propext (or_iff_left_of_imp fun hname => ?_)
  obtain ⟨entry, hentry, hname⟩ := List.mem_flatMap.1 hname
  obtain ⟨clause, hclause, rfl⟩ := List.mem_map.1 hentry
  obtain ⟨block, hblock, hclause⟩ := List.mem_flatten.1 hclause
  have hplain := hplain block hblock clause hclause
  cases clause with
  | node clause => exact hplain.elim
  | relation clause => cases hname
  | order clause =>
    obtain ⟨hleft, hright⟩ := hplain
    rcases List.mem_cons.1 hname with rfl | hname
    · exact hleft
    · exact List.mem_singleton.1 hname ▸ hright

/-- Where the `without` blocks are plain, a match is one of the pattern block of which no clause of
any of them holds. -/
theorem IsPlain.isMatch_iff {s : Sentence} {binding : String → Option Nat} :
    request.IsMatch s binding ↔ ({ request with withouts := [] } : Request).IsMatch s binding ∧
      ∀ block ∈ request.withouts, ∀ clause ∈ block,
        ¬ clause.Holds request.IsVariable .pattern s (nodeIn binding) := by
  have hvariables : ({ request with withouts := [] } : Request).IsVariable = request.IsVariable := by
    rw [hplain.isVariable_eq]
    funext name
    rw [IsVariable, clauses_pattern]
    rfl
  have hwithouts : (∀ entry ∈ request.withouts.flatten.map (Block.without, ·),
      entry.2.Holds request.IsVariable entry.1 s (nodeIn binding)) ↔
        ∀ block ∈ request.withouts, ∀ clause ∈ block,
          ¬ clause.Holds request.IsVariable .pattern s (nodeIn binding) := by
    rw [List.forall_mem_map, List.forall_mem_flatten]
    refine forall₄_congr fun block hblock clause hclause => ?_
    refine (hplain block hblock clause hclause).holds_without_iff (fun name hname => ?_) s _
    rw [hplain.isVariable_eq]
    exact hname
  have hholds : request.Holds s (nodeIn binding) ↔
      ({ request with withouts := [] } : Request).Holds s (nodeIn binding) ∧
        ∀ block ∈ request.withouts, ∀ clause ∈ block,
          ¬ clause.Holds request.IsVariable .pattern s (nodeIn binding) := by
    rw [Holds, Holds, clauses_pattern, hvariables, ← hwithouts, clauses, List.forall_mem_append]
  have hexcludes := excludes_iff_of_pattern_eq request { request with withouts := [] } rfl s
    (nodeIn binding)
  constructor
  · intro hmatch
    obtain ⟨hpattern, hrest⟩ := hholds.1 hmatch.holds
    exact ⟨⟨hvariables ▸ hmatch.binds, hpattern, hexcludes.2 hmatch.excludes⟩, hrest⟩
  · intro hboth
    obtain ⟨hmatch, hrest⟩ := hboth
    exact ⟨hvariables ▸ hmatch.binds, hholds.2 ⟨hmatch.holds, hrest⟩,
      hexcludes.1 hmatch.excludes⟩

end Request

/-- **A match is rejected by a single clause of a `without` block.** Where these blocks hold orders
and plain relations between names of the pattern block, the matches are those of the pattern
block of which no clause of any of them holds. -/
theorem search_withouts {request : Request} {pattern : Pattern}
    (hcompile : request.compile = .ok pattern) (hplain : request.IsPlain) :
    ∃ base, ({ request with withouts := [] } : Request).compile = .ok base ∧
      ∀ allowed s, Reachable allowed s → s.outline.built = true →
        ∃ found rest, s.search? pattern = some found ∧ s.search? base = some rest ∧
          ∀ binding, (∃ m ∈ found, m.get? = binding) ↔
            (∃ m ∈ rest, m.get? = binding) ∧ ∀ block ∈ request.withouts, ∀ clause ∈ block,
              ¬ clause.Holds request.IsVariable .pattern s (nodeIn binding) := by
  obtain ⟨draft, hdraft, -⟩ := bind_eq_ok hcompile
  obtain ⟨middle, hmiddle, -⟩ := bind_eq_ok hdraft
  obtain ⟨base, hbase⟩ := exists_compile_pattern hmiddle
  refine ⟨base, hbase, fun allowed s h hbuilt => ?_⟩
  obtain ⟨found, hfound, hmatches⟩ := exists_matches hcompile h hbuilt
  obtain ⟨rest, hrest, hbaseMatches⟩ := exists_matches hbase h hbuilt
  refine ⟨found, rest, hfound, hrest, fun binding => ?_⟩
  rw [hmatches, hbaseMatches]
  exact hplain.isMatch_iff

/-- Two blocks, one of two clauses: of the six pairs of words, those are left that stand in the order of
`B` before `A` and are neither head and subject nor head and object. -/
theorem search_two_withouts :
    let s := (Sentence.ofTokens
      [{ id := .word 1, head := some 2, deprel := "nsubj" },
       { id := .word 2, head := some 0, deprel := "root" },
       { id := .word 3, head := some 2, deprel := "obj" }]).step .build
    let request : Request :=
      { pattern := [.node { name := "A", conditions := [] }, .node { name := "B", conditions := [] }]
        withouts :=
          [[.order { left := "A", op := .before, right := "B" },
            .relation { head := "A", dep := "B", labels := ["nsubj"] }],
           [.relation { head := "A", dep := "B", labels := ["obj"] }]] }
    request.IsPlain ∧ ∃ pattern base, request.compile = .ok pattern ∧
      ({ request with withouts := [] } : Request).compile = .ok base ∧ s.outline.built = true ∧
      s.search? pattern = some [⟨[2, 0], ["A", "B"]⟩, ⟨[2, 1], ["A", "B"]⟩] ∧
      ∃ found rest, s.search? pattern = some found ∧ s.search? base = some rest ∧
        ∀ binding, (∃ m ∈ found, m.get? = binding) ↔
          (∃ m ∈ rest, m.get? = binding) ∧ ∀ block ∈ request.withouts, ∀ clause ∈ block,
            ¬ clause.Holds request.IsVariable .pattern s (nodeIn binding) := by
  intro s request
  have hplain : request.IsPlain := by
    intro block hblock clause hclause
    have hnames : "A" ∈ request.patternNames ∧ "B" ∈ request.patternNames := by decide
    rcases List.mem_cons.1 hblock with rfl | hblock
    · rcases List.mem_cons.1 hclause with rfl | hclause
      · exact hnames
      · cases List.mem_singleton.1 hclause
        exact ⟨rfl, hnames⟩
    · cases List.mem_singleton.1 hblock
      cases List.mem_singleton.1 hclause
      exact ⟨rfl, hnames⟩
  obtain ⟨pattern, hpattern⟩ : ∃ pattern, request.compile = .ok pattern := ⟨_, rfl⟩
  obtain ⟨base, hbase, hsearch⟩ := search_withouts hpattern hplain
  have hreachable : Reachable (fun _ => True) s :=
    (Reachable.ofTokens fun _ _ => trivial).step trivial
  have hbuilt : s.outline.built = true := by decide +kernel
  refine ⟨hplain, pattern, base, hpattern, hbase, hbuilt, ?_, hsearch _ s hreachable hbuilt⟩
  cases hpattern
  decide +kernel

/-- Of each of the two pairs of words only one clause of the block holds, and yet none is a match. -/
theorem one_clause_rejects :
    let s := (Sentence.ofTokens
      [{ id := .word 1, head := some 2, deprel := "nsubj" },
       { id := .word 2, head := some 0, deprel := "root" }]).afterBuild
    let order : OrderClause := { left := "A", op := .before, right := "B" }
    let relation : RelationClause := { head := "A", dep := "B", labels := ["nsubj"] }
    let request : Request :=
      { pattern := [.node { name := "A", conditions := [] }, .node { name := "B", conditions := [] }]
        withouts := [[.order order, .relation relation]] }
    let first : Match := ⟨[0, 1], ["A", "B"]⟩
    let second : Match := ⟨[1, 0], ["A", "B"]⟩
    s.outline.built = true ∧ request.IsPlain ∧
      (∃ pattern, request.compile = .ok pattern ∧ s.search? pattern = some []) ∧
      (∃ base, ({ request with withouts := [] } : Request).compile = .ok base ∧
        s.search? base = some [first, second]) ∧
      ¬ relation.Holds request.IsVariable .pattern s (nodeIn first.get?) ∧
      ¬ order.Holds .pattern s (nodeIn second.get?) := by
  intro s order relation request first second
  have hnames : "A" ∈ request.patternNames ∧ "B" ∈ request.patternNames := by decide
  have hplain : request.IsPlain := by
    intro block hblock clause hclause
    cases List.mem_singleton.1 hblock
    rcases List.mem_cons.1 hclause with rfl | hclause
    · exact hnames
    · cases List.mem_singleton.1 hclause
      exact ⟨rfl, hnames⟩
  have hvariables : request.IsVariable "A" ∧ request.IsVariable "B" := by
    rw [hplain.isVariable_eq]
    exact hnames
  refine ⟨by decide +kernel, hplain, ⟨_, rfl, by decide +kernel⟩, ⟨_, rfl, by decide +kernel⟩,
    fun hholds => ?_, fun hholds => ?_⟩
  · have hapart : ¬ s.Hangs 0 1 ["nsubj"] := by decide +kernel
    exact hapart ((hholds.1 hvariables.1 hvariables.2).2 rfl)
  · have hafter : ¬ (s.wordAt 1).id < (s.wordAt 0).id := by decide +kernel
    exact hafter (hholds.2 rfl)

/-! ### One more block -/

namespace Request

/-- The request with one more `without` block. -/
def addWithout (request : Request) (block : List Clause) : Request :=
  { request with withouts := request.withouts ++ [block] }

theorem clauses_addWithout (request : Request) (block : List Clause) :
    (request.addWithout block).clauses = request.clauses ++ block.map (Block.without, ·) := by
  simp [clauses, addWithout]

theorem isVariable_addWithout {request : Request} {name : String} (h : request.IsVariable name)
    (block : List Clause) : (request.addWithout block).IsVariable name := by
  rw [IsVariable, clauses_addWithout, namesOf, List.flatMap_append]
  exact List.mem_append_left _ h

instance (request : Request) : DecidablePred request.IsVariable := fun name =>
  inferInstanceAs (Decidable (name ∈ namesOf request.clauses))

/-- The map on the variables of the request alone. -/
def restrict (request : Request) (binding : String → Option Nat) (name : String) : Option Nat :=
  if request.IsVariable name then binding name else none

theorem restrict_eq_some_iff {request : Request} {binding : String → Option Nat} {name : String}
    {node : Nat} :
    request.restrict binding name = some node ↔
      request.IsVariable name ∧ binding name = some node := by
  unfold restrict
  split
  · next hname => exact (and_iff_right hname).symm
  · next hname => exact iff_of_false (fun h => by cases h) fun h => hname h.1

theorem nodeIn_restrict {request : Request} {binding : String → Option Nat} {name : String}
    (h : request.IsVariable name) : nodeIn (request.restrict binding) name = nodeIn binding name := by
  rw [nodeIn, restrict, if_pos h, nodeIn]

/-- A name of the clause is a variable of `wider` and none of the request. The clause is a relation
then, as the names of other clauses are variables of their request. -/
def Loosens (request wider : Request) (clause : Clause) : Prop :=
  ∃ name ∈ clause.mentions, wider.IsVariable name ∧ ¬ request.IsVariable name

theorem isVariable_of_mem {request : Request} {entry : Block × Clause} (h : entry ∈ request.clauses)
    {name : String} (hname : name ∈ entry.2.names entry.1) : request.IsVariable name :=
  List.mem_flatMap.2 ⟨entry, h, hname⟩

/-- Only what stands in a `without` block can mention names that are no variables. -/
theorem mem_withouts_of_loosens {request wider : Request} {entry : Block × Clause}
    (h : entry ∈ request.clauses) (hloosens : request.Loosens wider entry.2) :
    entry.1 = .without ∧ entry.2 ∈ request.withouts.flatten := by
  rcases List.mem_append.1 h with hpattern | hwithout
  · obtain ⟨clause, -, rfl⟩ := List.mem_map.1 hpattern
    obtain ⟨name, hname, -, hno⟩ := hloosens
    refine absurd (isVariable_of_mem h ?_) hno
    cases clause <;> exact hname
  · obtain ⟨clause, hclause, rfl⟩ := List.mem_map.1 hwithout
    exact ⟨rfl, hclause⟩

section AddWithout
variable {request : Request} {block : List Clause} {s : Sentence} {binding : String → Option Nat}

theorem binds_restrict (hsome : ∃ name, request.IsVariable name)
    (h : Binds (request.addWithout block).IsVariable s binding) :
    Binds request.IsVariable s (request.restrict binding) where
  some_variable := hsome
  binds_iff := by
    intro name
    simp only [restrict_eq_some_iff, exists_and_left]
    exact and_iff_left_of_imp fun hname =>
      (h.binds_iff name).2 (isVariable_addWithout hname block)
  is_word := fun name node hnode => h.is_word name node (restrict_eq_some_iff.1 hnode).2
  distinct := fun name other node hname hother =>
    h.distinct name other node (restrict_eq_some_iff.1 hname).2 (restrict_eq_some_iff.1 hother).2

/-- A clause that is not loosened says the same in the wider request. -/
theorem holds_restrict_iff {entry : Block × Clause} (hentry : entry ∈ request.clauses)
    (h : ¬ request.Loosens (request.addWithout block) entry.2) :
    entry.2.Holds (request.addWithout block).IsVariable entry.1 s (nodeIn binding) ↔
      entry.2.Holds request.IsVariable entry.1 s (nodeIn (request.restrict binding)) := by
  have hvar : ∀ name ∈ entry.2.mentions,
      (request.addWithout block).IsVariable name ↔ request.IsVariable name := by
    intro name hname
    refine ⟨fun hwide => ?_, fun hyes => isVariable_addWithout hyes block⟩
    by_contra hno
    exact h ⟨name, hname, hwide, hno⟩
  refine Clause.holds_congr s hvar (fun name hname => ?_) fun name hname hwide => ?_
  · exact isVariable_addWithout (isVariable_of_mem hentry hname) block
  · exact (nodeIn_restrict ((hvar name hname).1 hwide)).symm

/-- The match of a request with one more block is, on the variables of the request, a match of it
unless the block has loosened a relation which fails. -/
theorem isMatch_restrict_iff (hsome : ∃ name, request.IsVariable name)
    (h : (request.addWithout block).IsMatch s binding) :
    request.IsMatch s (request.restrict binding) ↔
      ∀ clause ∈ request.withouts.flatten, request.Loosens (request.addWithout block) clause →
        clause.Holds request.IsVariable .without s (nodeIn binding) := by
  have hcongr : ∀ entry ∈ request.clauses,
      (entry.2.Holds request.IsVariable entry.1 s (nodeIn (request.restrict binding)) ↔
        entry.2.Holds request.IsVariable entry.1 s (nodeIn binding)) := fun entry hentry =>
    Clause.holds_congr s (fun _ _ => Iff.rfl) (fun _ hname => isVariable_of_mem hentry hname)
      fun _ _ hname => nodeIn_restrict hname
  constructor
  · intro hmatch clause hclause _
    have hentry : (Block.without, clause) ∈ request.clauses :=
      List.mem_append_right _ (List.mem_map_of_mem hclause)
    exact (hcongr _ hentry).1 (hmatch.holds _ hentry)
  · intro hloosened
    refine ⟨binds_restrict hsome h.binds, fun entry hentry => ?_, fun clause hintroduces hnegated => ?_⟩
    · by_cases hloosens : request.Loosens (request.addWithout block) entry.2
      · obtain ⟨hblock, hclause⟩ := mem_withouts_of_loosens hentry hloosens
        rw [hcongr entry hentry, hblock]
        exact hloosened entry.2 hclause hloosens
      · refine (holds_restrict_iff hentry hloosens).1 (h.holds entry ?_)
        rw [clauses_addWithout]
        exact List.mem_append_left _ hentry
    · have hexcludes := (excludes_iff_of_pattern_eq request (request.addWithout block) rfl s
        (nodeIn binding)).1 h.excludes
      obtain ⟨earlier, later, hsplit, -⟩ := id hintroduces
      have hentry : (Block.pattern, .relation clause) ∈ request.clauses :=
        hsplit ▸ List.mem_append_cons_self
      rw [nodeIn_restrict (isVariable_of_mem hentry (by simp [Clause.names]))]
      exact hexcludes clause hintroduces hnegated

end AddWithout
end Request

/-- **One more `without` block adds no matches**, where the request has a variable and no relation of
its `without` blocks is loosened: a match of the longer request is, on the variables of the
request, a match of that exactly if the loosened relations hold as the request has them. -/
theorem search_addWithout {request : Request} {block : List Clause} {pattern wider : Pattern}
    (hcompile : request.compile = .ok pattern)
    (hwider : (request.addWithout block).compile = .ok wider)
    (hsome : ∃ name, request.IsVariable name) {allowed : Step → Prop} {s : Sentence}
    (h : Reachable allowed s) (hbuilt : s.outline.built = true) :
    ∃ found more, s.search? pattern = some found ∧ s.search? wider = some more ∧
      ∀ m ∈ more, (∃ other ∈ found, other.get? = request.restrict m.get?) ↔
        ∀ clause ∈ request.withouts.flatten, request.Loosens (request.addWithout block) clause →
          clause.Holds request.IsVariable .without s (nodeIn m.get?) := by
  obtain ⟨found, hfound, hmatches⟩ := exists_matches hcompile h hbuilt
  obtain ⟨more, hmore, hwiderMatches⟩ := exists_matches hwider h hbuilt
  refine ⟨found, more, hfound, hmore, fun m hm => ?_⟩
  rw [hmatches]
  exact Request.isMatch_restrict_iff hsome ((hwiderMatches _).1 ⟨m, hm, rfl⟩)

/-- The relation to `S` is loosened by the block and holds, so the matches are those of the request. -/
theorem addWithout_loosens :
    let s := (Sentence.ofTokens
      [{ id := .word 1, upos := "NOUN", head := some 2, deprel := "nsubj" },
       { id := .word 2, upos := "VERB", head := some 0, deprel := "root" },
       { id := .word 3, upos := "ADV", head := some 2, deprel := "advmod" }]).step .build
    let request : Request :=
      { pattern := [.node { name := "V", conditions := [.oneOf "upos" ["VERB"] false] }]
        withouts := [[.relation { head := "V", dep := "S", labels := ["iobj"] }]] }
    let block : List Clause := [.node { name := "S", conditions := [] }]
    request.IsVariable "V" ∧ s.outline.built = true ∧
      ∃ pattern wider, request.compile = .ok pattern ∧
        (request.addWithout block).compile = .ok wider ∧
        s.search? pattern = some [⟨[1], ["V"]⟩] ∧
        s.search? wider = some [⟨[1, 0], ["V", "S"]⟩, ⟨[1, 2], ["V", "S"]⟩] ∧
        ∃ found more, s.search? pattern = some found ∧ s.search? wider = some more ∧
          ∀ m ∈ more, (∃ other ∈ found, other.get? = request.restrict m.get?) ↔
            ∀ clause ∈ request.withouts.flatten,
              request.Loosens (request.addWithout block) clause →
                clause.Holds request.IsVariable .without s (nodeIn m.get?) := by
  intro s request block
  obtain ⟨pattern, hpattern⟩ : ∃ pattern, request.compile = .ok pattern := ⟨_, rfl⟩
  obtain ⟨wider, hwider⟩ : ∃ wider, (request.addWithout block).compile = .ok wider := ⟨_, rfl⟩
  have hreachable : Reachable (fun _ => True) s :=
    (Reachable.ofTokens fun _ _ => trivial).step trivial
  have hvariable : request.IsVariable "V" := by decide
  have hbuilt : s.outline.built = true := by decide +kernel
  have hsearch := search_addWithout hpattern hwider ⟨"V", hvariable⟩ hreachable hbuilt
  refine ⟨hvariable, hbuilt, pattern, wider, hpattern, hwider, ?_, ?_, hsearch⟩
  · cases hpattern
    decide +kernel
  · cases hwider
    decide +kernel

/-- The block makes `S` a variable, so a verb with a subject is a match if some other word can be `S`,
and a request without variables has no match to which one could be restricted. -/
theorem addWithout_adds :
    let s := (Sentence.ofTokens
      [{ id := .word 1, upos := "NOUN", head := some 2, deprel := "nsubj" },
       { id := .word 2, upos := "VERB", head := some 0, deprel := "root" },
       { id := .word 3, upos := "ADV", head := some 2, deprel := "advmod" }]).afterBuild
    let request : Request :=
      { pattern := [.node { name := "V", conditions := [.oneOf "upos" ["VERB"] false] }]
        withouts := [[.relation { head := "V", dep := "S", labels := ["nsubj"] }]] }
    let block : List Clause := [.node { name := "S", conditions := [] }]
    s.outline.built = true ∧
      (∃ pattern wider, request.compile = .ok pattern ∧
        (request.addWithout block).compile = .ok wider ∧ s.search? pattern = some [] ∧
        s.search? wider = some [⟨[1, 2], ["V", "S"]⟩]) ∧
      ∃ pattern wider, ({} : Request).compile = .ok pattern ∧
        (({} : Request).addWithout block).compile = .ok wider ∧ s.search? pattern = some [] ∧
        s.search? wider = some [⟨[0], ["S"]⟩, ⟨[1], ["S"]⟩, ⟨[2], ["S"]⟩] := by
  intro s request block
  exact ⟨by decide +kernel, ⟨_, _, rfl, rfl, by decide +kernel, by decide +kernel⟩,
    _, _, rfl, rfl, by decide +kernel, by decide +kernel⟩

end Treebank
