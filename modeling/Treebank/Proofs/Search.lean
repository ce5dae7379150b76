import Mathlib.Data.List.Nodup
import Treebank.Proofs.Failure
import Treebank.Proofs.PatternMeaning
import Treebank.Proofs.Session

/-! What a search finds.

`completions` are the tuples that a search comes to. They are told apart by their first
difference, in the order in which they come (`completions_ascending`), and no tuple is
left out (`mem_completions`). In a sentence with current links every check has an answer,
the one of `Pattern.Holds` (`check?_eq`), as long as no sum of an id and 1 ends the program
(`Pattern.AllowsNext`). So the search finds all matches and nothing else, each once and in
order (`search_outcome`). -/
namespace Treebank

/-! ### Checks -/

section Check
variable {s : Sentence} {tuple : List Nat} (hnodes : ∀ node ∈ tuple, node < s.words.length)

theorem getElem?_eq_getD {var : Nat} (hvar : var < tuple.length) :
    tuple[var]? = some (tuple.getD var 0) := by
  rw [List.getD_eq_getElem?_getD, List.getElem?_eq_getElem hvar]
  rfl

include hnodes

theorem bound?_eq {var : Nat} (hvar : var < tuple.length) :
    bound? s.words.toArray tuple var = some (s.wordAt (tuple.getD var 0)) := by
  have hnode : tuple.getD var 0 < s.words.length :=
    hnodes _ (List.mem_of_getElem? (getElem?_eq_getD hvar))
  rw [bound?, getElem?_eq_getD hvar, Option.bind_eq_bind, Option.bind_some, List.getElem?_toArray]
  exact Sentence.getElem?_words hnode

theorem OrderConstraint.check?_eq {order : OrderConstraint}
    (hearlier : order.earlier < tuple.length) (hlater : order.later < tuple.length)
    {overflow : Overflow}
    (hnext : order.strict = true → ∀ word ∈ s.words, overflow.Allows word.id 1) :
    order.check? s.words.toArray tuple overflow =
      some (decide (order.Holds s (tuple.getD · 0))) := by
  have hword : s.wordAt (tuple.getD order.earlier 0) ∈ s.words :=
    Sentence.wordAt_mem (hnodes _ (List.mem_of_getElem? (getElem?_eq_getD hearlier)))
  rw [OrderConstraint.check?, bound?_eq hnodes hearlier, bound?_eq hnodes hlater]
  simp only [Option.bind_eq_bind, Option.bind_some,
    order.holds?_eq _ fun hstrict => hnext hstrict _ hword]
  show some _ = some _
  congr 1
  rw [Bool.eq_iff_iff, decide_eq_true_iff]
  unfold OrderConstraint.Holds
  cases order.strict <;> cases order.negated <;> simp

omit hnodes in
/-- A dependent is one of the words, so the labels of all of them can be read. -/
theorem Sentence.mapM_dependents (hlinked : s.Linked) (node : Nat) :
    (s.wordAt node).links.dependents.mapM (s.words.toArray[·]?) =
      some ((s.wordAt node).links.dependents.map s.wordAt) := by
  refine mapM_eq_some_map fun dep hdep => ?_
  rw [hlinked.dependents, Sentence.mem_below_iff] at hdep
  rw [List.getElem?_toArray]
  exact Sentence.getElem?_words (Sentence.headNode?_lt hdep).1

theorem RelationConstraint.check?_eq (hlinked : s.Linked) {relation : RelationConstraint}
    (hhead : relation.head.IsBelow tuple.length) (hdep : relation.dep.IsBelow tuple.length) :
    relation.check? s.words.toArray tuple =
      some (decide (relation.Holds s (tuple.getD · 0))) := by
  obtain ⟨name?, head, dep, labels, negated⟩ := relation
  cases head with
  | bound head =>
    cases dep with
    | bound dep =>
      simp only [RelationConstraint.check?, getElem?_eq_getD hhead, bound?_eq hnodes hdep]
      show some _ = some _
      congr 1
      rw [Bool.eq_iff_iff, RelationConstraint.acceptsLabel_eq, decide_eq_true_iff]
      simp only [RelationConstraint.Holds, Sentence.Hangs]
      cases negated <;> simp [imp_iff_not_or]
    | unbound name =>
      simp only [RelationConstraint.check?, bound?_eq hnodes hhead]
      rw [Option.bind_eq_bind, Option.bind_some, Sentence.mapM_dependents hlinked]
      show some _ = some _
      congr 1
      rw [Bool.eq_iff_iff, decide_eq_true_iff]
      simp [RelationConstraint.Holds, Sentence.HasDependent, RelationConstraint.acceptsLabel_eq]
  | unbound name =>
    cases dep with
    | bound dep =>
      simp only [RelationConstraint.check?, bound?_eq hnodes hdep]
      show some _ = some _
      congr 1
      rw [Bool.eq_iff_iff, decide_eq_true_iff, RelationConstraint.acceptsLabel_eq]
      simp [RelationConstraint.Holds, Sentence.HasHead, imp_iff_not_or]
    | unbound other =>
      show some _ = some _
      congr 1

theorem Pattern.check?_eq (hlinked : s.Linked) {pattern : Pattern} (hclosed : pattern.Closed)
    (hsize : tuple.length = pattern.size) {overflow : Overflow}
    (hnext : pattern.AllowsNext s overflow) :
    pattern.check? s.words.toArray tuple overflow =
      some (decide (pattern.Fits s (tuple.getD · 0))) := by
  have horders : pattern.orders.allM (·.check? s.words.toArray tuple overflow) =
      some (pattern.orders.all fun order => decide (order.Holds s (tuple.getD · 0))) := by
    refine allM_eq_some_all fun order horder => ?_
    obtain ⟨hearlier, hlater⟩ := hclosed.orders order horder
    rw [← hsize] at hearlier hlater
    exact OrderConstraint.check?_eq hnodes hearlier hlater (hnext order horder)
  have hrelations : pattern.relations.allM (·.check? s.words.toArray tuple) =
      some (pattern.relations.all fun relation => decide (relation.Holds s (tuple.getD · 0))) := by
    refine allM_eq_some_all fun relation hrelation => ?_
    obtain ⟨hhead, hdep⟩ := hclosed.relations relation hrelation
    rw [← hsize] at hhead hdep
    exact RelationConstraint.check?_eq hnodes hlinked hhead hdep
  have hfits : decide (pattern.Fits s (tuple.getD · 0)) =
      ((pattern.orders.all fun order => decide (order.Holds s (tuple.getD · 0))) &&
        pattern.relations.all fun relation => decide (relation.Holds s (tuple.getD · 0))) := by
    rw [← List.decide_forall_mem, ← List.decide_forall_mem, ← Bool.decide_and]
    rfl
  rw [Pattern.check?, horders, hrelations, hfits, Option.bind_eq_bind, Option.bind_some]
  cases pattern.orders.all fun order => decide (order.Holds s (tuple.getD · 0)) <;> rfl

end Check

/-! ### Tuples -/

/-- The tuples of distinct nodes that begin with `tuple` and go on with one node of each list. -/
def completions : List (List Nat) → List Nat → List (List Nat)
  | [], tuple => [tuple]
  | nodes :: rest, tuple =>
    (nodes.filter (!tuple.contains ·)).flatMap fun node => completions rest (tuple ++ [node])

theorem prefix_of_mem_completions {lists : List (List Nat)} {tuple found : List Nat}
    (h : found ∈ completions lists tuple) : tuple <+: found := by
  induction lists generalizing tuple with
  | nil =>
    rw [completions, List.mem_singleton] at h
    exact h ▸ List.prefix_refl tuple
  | cons nodes rest ih =>
    rw [completions, List.mem_flatMap] at h
    obtain ⟨node, -, h⟩ := h
    exact (List.prefix_append tuple [node]).trans (ih h)

theorem mem_completions {lists : List (List Nat)} {tuple found : List Nat} (hnodup : tuple.Nodup) :
    found ∈ completions lists tuple ↔
      found.Nodup ∧ ∃ more, found = tuple ++ more ∧ List.Forall₂ (· ∈ ·) more lists := by
  induction lists generalizing tuple with
  | nil =>
    simp only [completions, List.mem_singleton, List.forall₂_nil_right_iff]
    constructor
    · intro hfound
      subst hfound
      exact ⟨hnodup, [], (List.append_nil _).symm, rfl⟩
    · intro hmore
      obtain ⟨-, more, rfl, rfl⟩ := hmore
      exact List.append_nil tuple
  | cons nodes rest ih =>
    -- a node that is free keeps the longer tuple distinct, which the next call needs
    have hextend : ∀ node, (tuple ++ [node]).Nodup ↔ node ∉ tuple := by
      intro node
      rw [← List.concat_eq_append, List.nodup_concat]
      exact ⟨And.left, fun hfree => ⟨hfree, hnodup⟩⟩
    simp only [completions, List.mem_flatMap, List.mem_filter]
    constructor
    · intro hsome
      obtain ⟨node, ⟨hnode, hfree⟩, hfound⟩ := hsome
      have hfree : node ∉ tuple := by simpa using hfree
      obtain ⟨hdistinct, more, rfl, hmore⟩ := (ih ((hextend node).2 hfree)).1 hfound
      exact ⟨hdistinct, node :: more, (List.append_cons tuple node more).symm, .cons hnode hmore⟩
    · intro hmore
      obtain ⟨hdistinct, more, rfl, hmore⟩ := hmore
      cases hmore with
      | @cons node _ more _ hnode hmore =>
        have happend := List.append_cons tuple node more
        have hfree := (hextend node).1 (List.Nodup.of_append_left (happend ▸ hdistinct))
        exact ⟨node, ⟨hnode, by simpa using hfree⟩,
          (ih ((hextend node).2 hfree)).2 ⟨hdistinct, more, happend, hmore⟩⟩

/-- Tuples come in the order of the first node in which they differ. -/
theorem completions_ascending {lists : List (List Nat)} (tuple : List Nat)
    (hlists : ∀ nodes ∈ lists, nodes.Pairwise (· < ·)) :
    (completions lists tuple).Pairwise (· < ·) := by
  induction lists generalizing tuple with
  | nil => exact List.pairwise_singleton _ _
  | cons nodes rest ih =>
    rw [completions, List.pairwise_flatMap]
    constructor
    · exact fun node _ => ih (tuple ++ [node]) fun other hother =>
        hlists other (List.mem_cons_of_mem _ hother)
    · -- below two candidates, tuples differ there first
      refine ((hlists nodes List.mem_cons_self).filter _).imp ?_
      intro node later hlt found hfound other hother
      obtain ⟨more, rfl⟩ := prefix_of_mem_completions hfound
      obtain ⟨moreLater, rfl⟩ := prefix_of_mem_completions hother
      rw [← List.append_cons, ← List.append_cons]
      exact List.append_left_lt (List.cons_lt_cons_iff.2 (.inl hlt))

/-- Where all checks have an answer, the search keeps the tuples with the answer yes. -/
theorem Pattern.extend?_eq {pattern : Pattern} {words : Array Word} {p : List Nat → Bool}
    {lists : List (List Nat)} {tuple : List Nat} {overflow : Overflow}
    (h : ∀ found ∈ completions lists tuple, pattern.check? words found overflow = some (p found)) :
    pattern.extend? words lists tuple overflow = some ((completions lists tuple).filter p) := by
  induction lists generalizing tuple with
  | nil =>
    have htuple := h tuple (List.mem_singleton_self tuple)
    rw [Pattern.extend?, htuple, completions]
    cases hp : p tuple <;> simp [hp]
  | cons nodes rest ih =>
    have hnode : ∀ node ∈ nodes.filter (!tuple.contains ·),
        pattern.extend? words rest (tuple ++ [node]) overflow =
          some ((completions rest (tuple ++ [node])).filter p) := by
      intro node hnode
      exact ih fun found hfound => h found (List.mem_flatMap.2 ⟨node, hnode, hfound⟩)
    rw [Pattern.extend?, mapM_eq_some_map hnode, completions, List.filter_flatMap]
    rfl

/-- A variable without candidates leaves nothing to check. -/
theorem Pattern.extend?_of_nil_mem {pattern : Pattern} {words : Array Word}
    {lists : List (List Nat)} (tuple : List Nat) (overflow : Overflow) (h : [] ∈ lists) :
    pattern.extend? words lists tuple overflow = some [] := by
  have hnone : ∀ {lists : List (List Nat)} (tuple : List Nat), [] ∈ lists →
      completions lists tuple = [] := by
    intro lists
    induction lists with
    | nil => exact fun tuple hmem => by cases hmem
    | cons nodes rest ih =>
      intro tuple hmem
      rcases List.mem_cons.1 hmem with rfl | hmem
      · rfl
      · rw [completions, List.flatMap_eq_nil_iff]
        exact fun node _ => ih (tuple ++ [node]) hmem
  rw [Pattern.extend?_eq (p := fun _ => true), hnone tuple h]
  · rfl
  · intro found hfound
    rw [hnone tuple h] at hfound
    cases hfound

/-! ### The search -/

theorem Sentence.mem_candidates {s : Sentence} {constraint : NodeConstraint} {node : Nat} :
    node ∈ s.candidates constraint ↔
      node < s.words.length ∧ constraint.accepts (s.wordAt node).toColumns = true := by
  simp only [candidates, List.mem_map, List.mem_filter, Prod.exists, List.mem_zipIdx_iff_getElem?]
  constructor
  · intro hword
    obtain ⟨word, _, ⟨hword, haccepts⟩, rfl⟩ := hword
    exact ⟨lt_of_getElem?_words hword, by rw [wordAt_eq hword]; exact haccepts⟩
  · intro hnode
    obtain ⟨hlt, haccepts⟩ := hnode
    exact ⟨s.wordAt node, node, ⟨getElem?_words hlt, haccepts⟩, rfl⟩

theorem Sentence.candidates_ascending (s : Sentence) (constraint : NodeConstraint) :
    (s.candidates constraint).Pairwise (· < ·) := by
  rw [candidates, List.pairwise_map]
  refine List.Pairwise.filter _ ?_
  rw [← List.pairwise_map (f := Prod.snd) (R := (· < ·)), List.zipIdx_map_snd]
  exact List.pairwise_lt_range'

/-- One candidate for each variable, in other words a tuple of nodes that the constraints accept. -/
theorem Sentence.forall₂_candidates {s : Sentence} {constraints : List NodeConstraint}
    {tuple : List Nat} :
    List.Forall₂ (· ∈ ·) tuple (constraints.map s.candidates) ↔
      tuple.length = constraints.length ∧ (∀ node ∈ tuple, node < s.words.length) ∧
        ∀ var (constraint : NodeConstraint), constraints[var]? = some constraint →
          constraint.accepts (s.wordAt (tuple.getD var 0)).toColumns = true := by
  rw [List.forall₂_map_right_iff, List.forall₂_iff_get]
  constructor
  · intro hall
    obtain ⟨hlength, hall⟩ := hall
    refine ⟨hlength, fun node hnode => ?_, fun var constraint hconstraint => ?_⟩
    · obtain ⟨var, hvar, rfl⟩ := List.getElem_of_mem hnode
      exact (mem_candidates.1 (hall var hvar (hlength ▸ hvar))).1
    · obtain ⟨hvar, rfl⟩ := List.getElem?_eq_some_iff.1 hconstraint
      have hvar' : var < tuple.length := hlength ▸ hvar
      rw [List.getD_eq_getElem?_getD, List.getElem?_eq_getElem hvar']
      exact (mem_candidates.1 (hall var hvar' hvar)).2
  · intro hall
    obtain ⟨hlength, hnodes, haccepts⟩ := hall
    refine ⟨hlength, fun var hvar hvar' => mem_candidates.2 ⟨?_, ?_⟩⟩
    · exact hnodes _ (List.get_mem tuple ⟨var, hvar⟩)
    · have hword := haccepts var _ (List.getElem?_eq_getElem hvar')
      rw [List.getD_eq_getElem?_getD, List.getElem?_eq_getElem hvar] at hword
      exact hword

theorem Sentence.search?_eq_nil {s : Sentence} {pattern : Pattern} {overflow : Overflow}
    (h : s.outline.built = false ∨ pattern.nodes = []) : s.search? pattern overflow = some [] := by
  have hstops : (!s.outline.built || pattern.isEmpty) = true := by
    rcases h with hbuilt | hvars
    · simp [hbuilt]
    · simp [Pattern.isEmpty, hvars]
  rw [search?, hstops]
  rfl

/-- The look at the candidates of all variables comes to the same as trying them. -/
theorem Sentence.search?_eq_extend? {s : Sentence} {pattern : Pattern} {overflow : Overflow}
    (hbuilt : s.outline.built = true) (hvars : pattern.nodes ≠ []) :
    s.search? pattern overflow =
      (pattern.extend? s.words.toArray (pattern.nodes.map s.candidates) [] overflow).map
        (·.map fun bindings => { bindings, names := pattern.names }) := by
  have hgoes : (!s.outline.built || pattern.isEmpty) = false := by
    simp [hbuilt, Pattern.isEmpty, hvars]
  rw [search?, hgoes, Option.map_eq_bind]
  simp only [Bool.false_eq_true, if_false]
  split
  · next hempty =>
    obtain ⟨nodes, hnodes, hnil⟩ := List.any_eq_true.1 hempty
    rw [List.isEmpty_iff.1 hnil] at hnodes
    rw [Pattern.extend?_of_nil_mem [] overflow hnodes]
    rfl
  · rfl

/-- The tuples that are checked are those of distinct nodes which the constraints accept. -/
theorem Sentence.mem_completions_candidates {s : Sentence} {constraints : List NodeConstraint}
    {tuple : List Nat} :
    tuple ∈ completions (constraints.map s.candidates) [] ↔
      tuple.length = constraints.length ∧ tuple.Nodup ∧ (∀ node ∈ tuple, node < s.words.length) ∧
        ∀ var (constraint : NodeConstraint), constraints[var]? = some constraint →
          constraint.accepts (s.wordAt (tuple.getD var 0)).toColumns = true := by
  have hmem : tuple ∈ completions (constraints.map s.candidates) [] ↔
      tuple.Nodup ∧ List.Forall₂ (· ∈ ·) tuple (constraints.map s.candidates) := by
    rw [mem_completions List.nodup_nil]
    simp
  rw [hmem, forall₂_candidates]
  exact and_left_comm

/-- The tuples of candidates whose nodes fit together. -/
def Sentence.fitting (s : Sentence) (pattern : Pattern) : List (List Nat) :=
  (completions (pattern.nodes.map s.candidates) []).filter fun tuple =>
    decide (pattern.Fits s (tuple.getD · 0))

theorem Sentence.fitting_ascending (s : Sentence) (pattern : Pattern) :
    (s.fitting pattern).Pairwise (· < ·) := by
  refine (completions_ascending [] fun nodes hnodes => ?_).filter _
  obtain ⟨constraint, -, rfl⟩ := List.mem_map.1 hnodes
  exact s.candidates_ascending constraint

theorem Sentence.mem_fitting {s : Sentence} {pattern : Pattern} {tuple : List Nat} :
    tuple ∈ s.fitting pattern ↔
      tuple.length = pattern.size ∧ tuple.Nodup ∧ (∀ node ∈ tuple, node < s.words.length) ∧
        pattern.Holds s (tuple.getD · 0) := by
  rw [fitting, List.mem_filter, mem_completions_candidates, decide_eq_true_iff]
  constructor
  · rintro ⟨⟨hsize, hnodup, hnodes, haccepts⟩, hfits⟩
    exact ⟨hsize, hnodup, hnodes, haccepts, hfits⟩
  · rintro ⟨hsize, hnodup, hnodes, haccepts, hfits⟩
    exact ⟨⟨hsize, hnodup, hnodes, haccepts⟩, hfits⟩

theorem Sentence.search?_eq_fitting {s : Sentence} (hlinked : s.Linked)
    (hbuilt : s.outline.built = true) {pattern : Pattern} (hvars : pattern.nodes ≠ [])
    (hclosed : pattern.Closed) {overflow : Overflow} (hnext : pattern.AllowsNext s overflow) :
    s.search? pattern overflow =
      some ((s.fitting pattern).map fun bindings => { bindings, names := pattern.names }) := by
  have hcheck : ∀ tuple ∈ completions (pattern.nodes.map s.candidates) [],
      pattern.check? s.words.toArray tuple overflow =
        some (decide (pattern.Fits s (tuple.getD · 0))) := by
    intro tuple htuple
    obtain ⟨hsize, -, hnodes, -⟩ := mem_completions_candidates.1 htuple
    exact Pattern.check?_eq hnodes hlinked hclosed hsize hnext
  rw [search?_eq_extend? hbuilt hvars, Pattern.extend?_eq hcheck]
  rfl

/-- With current links no search fails for want of a variable or a word. -/
theorem Sentence.exists_search?_eq {s : Sentence} (hlinked : s.Linked) {pattern : Pattern}
    (hclosed : pattern.Closed) {overflow : Overflow} (hnext : pattern.AllowsNext s overflow) :
    ∃ found, s.search? pattern overflow = some found := by
  by_cases hnone : s.outline.built = false ∨ pattern.nodes = []
  · exact ⟨[], search?_eq_nil hnone⟩
  · rw [not_or, Bool.not_eq_false] at hnone
    exact ⟨_, search?_eq_fitting hlinked hnone.1 hnone.2 hclosed hnext⟩

/-- What is found stands in one order, so patterns with the same names that hold of the same nodes
are searched for alike, however many tuples are tried for either. -/
theorem Sentence.search?_congr {s : Sentence} (hlinked : s.Linked)
    (hbuilt : s.outline.built = true) {pattern other : Pattern} (hclosed : pattern.Closed)
    (hother : other.Closed) (hnames : other.names = pattern.names)
    (h : ∀ node, other.Holds s node ↔ pattern.Holds s node) :
    s.search? other = s.search? pattern := by
  have hsize : other.size = pattern.size := by
    simpa [Pattern.names, Pattern.size] using congrArg List.length hnames
  have hvars : other.nodes = [] ↔ pattern.nodes = [] := by
    rw [← List.length_eq_zero_iff, ← List.length_eq_zero_iff, ← Pattern.size, hsize, Pattern.size]
  by_cases hnil : pattern.nodes = []
  · rw [search?_eq_nil (.inr hnil), search?_eq_nil (.inr (hvars.2 hnil))]
  · have hfitting : s.fitting other = s.fitting pattern := by
      refine (s.fitting_ascending other).eq_of_mem_iff (s.fitting_ascending pattern) fun tuple => ?_
      rw [mem_fitting, mem_fitting, hsize, h]
    rw [search?_eq_fitting hlinked hbuilt hnil hclosed (pattern.allowsNext_wraps s),
      search?_eq_fitting hlinked hbuilt (hvars.not.2 hnil) hother (other.allowsNext_wraps s),
      hfitting, hnames]

/-- **A search finds the matches of a pattern, each once and in order.** Without current links or
without a variable there are none; and that it looks for candidates of all variables before
it tries any makes no difference. It is so if sums wrap around, and also if one that is no number
ends the program, as long as no word has the greatest number for an id or no order is strict. -/
theorem search_outcome (s : Sentence) (pattern : Pattern) (overflow : Overflow) :
    (s.outline.built = false ∨ pattern.nodes = [] → s.search? pattern overflow = some []) ∧
    (s.outline.built = true → pattern.nodes ≠ [] →
      s.search? pattern overflow =
        (pattern.extend? s.words.toArray (pattern.nodes.map s.candidates) [] overflow).map
          (·.map fun bindings => { bindings, names := pattern.names })) ∧
    (∀ allowed, Reachable allowed s → s.outline.built = true → pattern.nodes ≠ [] →
      pattern.Closed → pattern.AllowsNext s overflow →
      ∃ tuples : List (List Nat),
        s.search? pattern overflow =
          some (tuples.map fun bindings => { bindings, names := pattern.names }) ∧
        tuples.Pairwise (· < ·) ∧
        ∀ tuple, tuple ∈ tuples ↔
          tuple.length = pattern.size ∧ tuple.Nodup ∧ (∀ node ∈ tuple, node < s.words.length) ∧
            pattern.Holds s (tuple.getD · 0)) := by
  refine ⟨Sentence.search?_eq_nil, Sentence.search?_eq_extend?, ?_⟩
  intro allowed h hbuilt hvars hclosed hnext
  exact ⟨s.fitting pattern,
    Sentence.search?_eq_fitting (linked_of_built h hbuilt) hbuilt hvars hclosed hnext,
    s.fitting_ascending pattern, fun tuple => Sentence.mem_fitting⟩

/-- Two words below one head: each of them can stand for either variable, and none for both. It
makes no difference that a sum of an id and 1 could end the program. -/
theorem search_two :
    let s := (Sentence.ofTokens
      [{ id := .word 1, upos := "NOUN", head := some 2, deprel := "nsubj" },
       { id := .word 2, upos := "VERB", head := some 0, deprel := "root" },
       { id := .word 3, upos := "NOUN", head := some 2, deprel := "obj" }]).step .build
    let pattern : Pattern :=
      { nodes := [{ name := "V" }, { name := "A" }, { name := "B" }]
        relations := [{ head := .bound 0, dep := .bound 1 }, { head := .bound 0, dep := .bound 2 }]
        orders := [{ earlier := 1, later := 2, strict := true, negated := true }] }
    s.search? pattern .stops = some [⟨[1, 0, 2], ["V", "A", "B"]⟩, ⟨[1, 2, 0], ["V", "A", "B"]⟩] ∧
      ∀ tuple : List Nat, tuple = [1, 0, 2] ∨ tuple = [1, 2, 0] ↔
        tuple.length = 3 ∧ tuple.Nodup ∧ (∀ node ∈ tuple, node < 3) ∧
          pattern.Holds s (tuple.getD · 0) := by
  intro s pattern
  have hreachable : Reachable (fun _ => True) s :=
    (Reachable.ofTokens fun _ _ => trivial).step trivial
  have hclosed : pattern.Closed := ⟨by decide, by decide⟩
  have hnext : pattern.AllowsNext s .stops := by
    unfold Pattern.AllowsNext
    decide +kernel
  have hfound : s.search? pattern .stops =
      some [⟨[1, 0, 2], ["V", "A", "B"]⟩, ⟨[1, 2, 0], ["V", "A", "B"]⟩] := by decide +kernel
  obtain ⟨tuples, hsearch, -, hmem⟩ := (search_outcome s pattern .stops).2.2 _ hreachable
    (by decide +kernel) (by decide) hclosed hnext
  have htuples : tuples = [[1, 0, 2], [1, 2, 0]] := by
    have hbindings := congrArg (Option.map (·.map Match.bindings)) (hsearch.symm.trans hfound)
    simpa [Function.comp_def] using hbindings
  have hlength : s.words.length = 3 := by decide +kernel
  rw [htuples, hlength] at hmem
  refine ⟨hfound, fun tuple => Iff.trans ?_ (hmem tuple)⟩
  simp

end Treebank
