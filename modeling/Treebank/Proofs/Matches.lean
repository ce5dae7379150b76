import Treebank.Proofs.Compile
import Treebank.Proofs.Search

/-! The matches of a request.

A match is read as a map from names to nodes, and so without the order in which the
variables came. `Request.IsMatch` says which maps these are, from the clauses of the
request alone, and a search for the compiled request finds them (`exists_matches`). -/
namespace Treebank

/-! ### Relations that introduce -/

/-- Only relations of the pattern block introduce names, so the other blocks can be left out. -/
theorem introduces_append_without {clauses more : List (Block × Clause)} {clause : RelationClause}
    (hmore : ∀ entry ∈ more, entry.1 = .without) :
    Introduces (clauses ++ more) clause ↔ Introduces clauses clause := by
  constructor
  · intro hintroduces
    obtain ⟨earlier, later, hsplit, hnew, hne⟩ := hintroduces
    rcases List.append_eq_append_iff.1 hsplit with ⟨between, rfl, hrest⟩ | ⟨between, rfl, hrest⟩
    · have hblock := hmore (.pattern, .relation clause) (hrest ▸ by simp)
      cases hblock
    · cases between with
      | nil =>
        have hblock := hmore (.pattern, .relation clause)
          (List.nil_append more ▸ hrest ▸ List.mem_cons_self)
        cases hblock
      | cons entry between =>
        rw [List.cons_append, List.cons.injEq] at hrest
        exact ⟨earlier, between, by rw [hrest.1], hnew, hne⟩
  · intro hintroduces
    obtain ⟨earlier, later, rfl, hnew, hne⟩ := hintroduces
    exact ⟨earlier, later ++ more, by rw [List.append_assoc, List.cons_append], hnew, hne⟩

theorem introduces_iff_pattern {request : Request} {clause : RelationClause} :
    Introduces request.clauses clause ↔
      Introduces (request.pattern.map (Block.pattern, ·)) clause := by
  refine introduces_append_without fun entry hentry => ?_
  obtain ⟨other, -, rfl⟩ := List.mem_map.1 hentry
  rfl

/-! ### Names and variables -/

theorem Pattern.length_names (pattern : Pattern) : pattern.names.length = pattern.size :=
  List.length_map _

/-- A closed pattern looks at the nodes of its own variables only. -/
theorem Pattern.holds_congr {pattern : Pattern} (hclosed : pattern.Closed) (s : Sentence)
    {node other : Nat → Nat} (h : ∀ var < pattern.size, node var = other var) :
    pattern.Holds s node ↔ pattern.Holds s other := by
  have haccepts : (∀ var (constraint : NodeConstraint), pattern.nodes[var]? = some constraint →
      constraint.accepts (s.wordAt (node var)).toColumns = true) ↔
        ∀ var (constraint : NodeConstraint), pattern.nodes[var]? = some constraint →
          constraint.accepts (s.wordAt (other var)).toColumns = true := by
    refine forall₃_congr fun var constraint hvar => ?_
    rw [h var (List.getElem?_eq_some_iff.1 hvar).1]
  have horders : (∀ order ∈ pattern.orders, order.Holds s node) ↔
      ∀ order ∈ pattern.orders, order.Holds s other := by
    refine forall₂_congr fun order horder => ?_
    obtain ⟨hearlier, hlater⟩ := hclosed.orders order horder
    rw [OrderConstraint.Holds, h _ hearlier, h _ hlater]
    exact Iff.rfl
  have hrelations : (∀ relation ∈ pattern.relations, relation.Holds s node) ↔
      ∀ relation ∈ pattern.relations, relation.Holds s other := by
    refine forall₂_congr fun relation hrelation => ?_
    obtain ⟨hhead, hdep⟩ := hclosed.relations relation hrelation
    unfold RelationConstraint.Holds
    -- an end that is no variable stands for no node
    split
    · next head dep hheadEnd hdepEnd =>
      rw [hheadEnd] at hhead
      rw [hdepEnd] at hdep
      rw [h head hhead, h dep hdep]
    · next head name hheadEnd hdepEnd =>
      rw [hheadEnd] at hhead
      rw [h head hhead]
    · next name dep hheadEnd hdepEnd =>
      rw [hdepEnd] at hdep
      rw [h dep hdep]
    · exact Iff.rfl
  constructor
  · intro hholds
    exact ⟨haccepts.1 hholds.accepts, horders.1 hholds.fits.1, hrelations.1 hholds.fits.2⟩
  · intro hholds
    exact ⟨haccepts.2 hholds.accepts, horders.2 hholds.fits.1, hrelations.2 hholds.fits.2⟩

/-- The node that a map binds a name to, and 0 for a name that it does not bind. -/
def nodeIn (binding : String → Option Nat) (name : String) : Nat := (binding name).getD 0

theorem nodeIn_eq {binding : String → Option Nat} {name : String} {node : Nat}
    (h : binding name = some node) : nodeIn binding name = node := by
  rw [nodeIn, h]
  rfl

/-- The map binds the variables, of which there are some, and nothing else, to different words. -/
structure Binds (isVar : String → Prop) (s : Sentence) (binding : String → Option Nat) : Prop where
  some_variable : ∃ name, isVar name
  binds_iff : ∀ name, (∃ node, binding name = some node) ↔ isVar name
  is_word : ∀ name node, binding name = some node → node < s.words.length
  distinct : ∀ name other node, binding name = some node → binding other = some node → name = other

/-- All clauses hold of the words to which the map binds the variables, and no word that a negated
relation introduces has a label which it excludes. -/
structure Request.IsMatch (request : Request) (s : Sentence) (binding : String → Option Nat) :
    Prop where
  binds : Binds request.IsVariable s binding
  holds : request.Holds s (nodeIn binding)
  excludes : request.Excludes s (nodeIn binding)

/-! ### Matches -/

theorem idxOf?_eq_some_iff {names : List String} (h : names.Nodup) {name : String} {var : Nat} :
    names.idxOf? name = some var ↔ names[var]? = some name := by
  rw [List.idxOf?, List.findIdx?_eq_some_iff_getElem, List.getElem?_eq_some_iff]
  constructor
  · intro hfirst
    obtain ⟨hvar, hname, -⟩ := hfirst
    exact ⟨hvar, eq_of_beq hname⟩
  · intro hat
    obtain ⟨hvar, rfl⟩ := hat
    refine ⟨hvar, beq_self_eq_true _, fun earlier hlt heq => ?_⟩
    have hsame := (List.Nodup.getElem_inj_iff h).1 (eq_of_beq heq)
    omega

/-- The names of a match, which are distinct, stand for the nodes at their places. -/
theorem Match.get?_eq_some_iff {found : Match} (h : found.names.Nodup) {name : String}
    {node : Nat} :
    found.get? name = some node ↔
      ∃ var : Nat, found.names[var]? = some name ∧ found.bindings[var]? = some node := by
  rw [Match.get?, Option.bind_eq_bind, Option.bind_eq_some_iff]
  exact exists_congr fun var => and_congr_left' (idxOf?_eq_some_iff h)

section Compile
variable {request : Request} {pattern : Pattern} (hcompile : request.compile = .ok pattern)
include hcompile

/-- A tuple that says of each variable what a map says is a match if the map is. -/
theorem holds_tuple_iff {s : Sentence} {tuple : List Nat} {f : String → Nat}
    (hat : ∀ (var : Nat) (name : String), pattern.names[var]? = some name →
      tuple[var]? = some (f name)) :
    pattern.Holds s (tuple.getD · 0) ↔ request.Holds s f ∧ request.Excludes s f := by
  rw [← holds_iff_of_compile hcompile]
  refine Pattern.holds_congr (closed_of_compile hcompile) s fun var hvar => ?_
  have hname := List.getElem?_eq_getElem (pattern.length_names ▸ hvar)
  rw [List.getD_eq_getElem?_getD, hat var _ hname, List.getD_eq_getElem?_getD, hname]
  rfl

/-- The nodes of a match of the request, in the order of the variables. -/
theorem exists_tuple_of_isMatch {s : Sentence} {binding : String → Option Nat}
    (h : request.IsMatch s binding) :
    pattern.nodes ≠ [] ∧ ∃ tuple : List Nat,
      (tuple.length = pattern.size ∧ tuple.Nodup ∧ (∀ node ∈ tuple, node < s.words.length) ∧
        pattern.Holds s (tuple.getD · 0)) ∧
      Match.get? { bindings := tuple, names := pattern.names } = binding := by
  have hnodup := nodup_names_of_compile hcompile
  have hvariables := mem_names_of_compile hcompile
  have hbinds : ∀ {name}, name ∈ pattern.names → binding name = some (nodeIn binding name) := by
    intro name hname
    obtain ⟨node, hnode⟩ := (h.binds.binds_iff name).2 ((hvariables name).1 hname)
    rw [hnode, nodeIn_eq hnode]
  have hat : ∀ (var : Nat) (name : String), pattern.names[var]? = some name →
      (pattern.names.map (nodeIn binding))[var]? = some (nodeIn binding name) := by
    intro var name hname
    rw [List.getElem?_map, hname]
    rfl
  refine ⟨?_, pattern.names.map (nodeIn binding), ⟨?_, ?_, ?_, ?_⟩, ?_⟩
  · obtain ⟨name, hname⟩ := h.binds.some_variable
    intro hnil
    have hnone := (hvariables name).2 hname
    rw [Pattern.names, hnil] at hnone
    cases hnone
  · rw [List.length_map, pattern.length_names]
  · refine hnodup.map_on fun first hfirst second hsecond heq => ?_
    exact h.binds.distinct first second _ (hbinds hfirst) (heq ▸ hbinds hsecond)
  · intro node hnode
    obtain ⟨name, hname, rfl⟩ := List.mem_map.1 hnode
    exact h.binds.is_word name _ (hbinds hname)
  · exact (holds_tuple_iff hcompile hat).2 ⟨h.holds, h.excludes⟩
  · funext name
    refine Option.ext fun node => ?_
    rw [Match.get?_eq_some_iff hnodup]
    constructor
    · intro hfound
      obtain ⟨var, hname, hnode⟩ := hfound
      rw [hat var name hname] at hnode
      rw [hbinds (List.mem_of_getElem? hname), hnode]
    · intro hnode
      obtain ⟨var, hname⟩ := List.getElem?_of_mem
        ((hvariables name).2 ((h.binds.binds_iff name).1 ⟨node, hnode⟩))
      exact ⟨var, hname, by rw [hat var name hname, nodeIn_eq hnode]⟩

/-- A tuple that is a match binds names as the request asks. -/
theorem isMatch_of_tuple {s : Sentence} {tuple : List Nat} (hvars : pattern.nodes ≠ [])
    (hlength : tuple.length = pattern.size) (hdistinct : tuple.Nodup)
    (hwords : ∀ node ∈ tuple, node < s.words.length) (hholds : pattern.Holds s (tuple.getD · 0)) :
    request.IsMatch s (Match.get? { bindings := tuple, names := pattern.names }) := by
  have hnodup := nodup_names_of_compile hcompile
  have hvariables := mem_names_of_compile hcompile
  have hlookup : ∀ {name : String} {node : Nat},
      Match.get? { bindings := tuple, names := pattern.names } name = some node ↔
        ∃ var : Nat, pattern.names[var]? = some name ∧ tuple[var]? = some node :=
    Match.get?_eq_some_iff hnodup
  have hat : ∀ (var : Nat) (name : String), pattern.names[var]? = some name →
      tuple[var]? =
        some (nodeIn (Match.get? { bindings := tuple, names := pattern.names }) name) := by
    intro var name hname
    have hvar : var < tuple.length := by
      rw [hlength, ← pattern.length_names]
      exact (List.getElem?_eq_some_iff.1 hname).1
    have hnode := List.getElem?_eq_getElem hvar
    rw [nodeIn_eq (hlookup.2 ⟨var, hname, hnode⟩), hnode]
  obtain ⟨hall, hexcludes⟩ := (holds_tuple_iff hcompile hat).1 hholds
  refine ⟨⟨?_, fun name => ?_, ?_, ?_⟩, hall, hexcludes⟩
  · obtain ⟨node, hnode⟩ := List.exists_mem_of_ne_nil _ hvars
    exact ⟨node.name, (hvariables _).1 (List.mem_map_of_mem hnode)⟩
  · rw [← hvariables]
    constructor
    · intro hbound
      obtain ⟨node, hnode⟩ := hbound
      obtain ⟨var, hname, -⟩ := hlookup.1 hnode
      exact List.mem_of_getElem? hname
    · intro hname
      obtain ⟨var, hname⟩ := List.getElem?_of_mem hname
      exact ⟨_, hlookup.2 ⟨var, hname, hat var name hname⟩⟩
  · intro name node hnode
    obtain ⟨var, -, hnode⟩ := hlookup.1 hnode
    exact hwords node (List.mem_of_getElem? hnode)
  · intro name other node hname hother
    obtain ⟨var, hname, hnode⟩ := hlookup.1 hname
    obtain ⟨otherVar, hother, hsame⟩ := hlookup.1 hother
    obtain ⟨hvar, heq⟩ := List.getElem?_eq_some_iff.1 hnode
    obtain ⟨hotherVar, hotherEq⟩ := List.getElem?_eq_some_iff.1 hsame
    have hsameVar := hdistinct.getElem_inj_iff.1 (heq.trans hotherEq.symm)
    rw [hsameVar, hother] at hname
    exact (Option.some.inj hname).symm

/-- A search for a compiled request comes to an end and finds the matches of the request. -/
theorem exists_matches {allowed : Step → Prop} {s : Sentence} (h : Reachable allowed s)
    (hbuilt : s.outline.built = true) :
    ∃ found, s.search? pattern = some found ∧
      ∀ binding, (∃ m ∈ found, m.get? = binding) ↔ request.IsMatch s binding := by
  by_cases hvars : pattern.nodes = []
  · refine ⟨[], Sentence.search?_eq_nil (.inr hvars), fun binding => iff_of_false ?_ ?_⟩
    · exact fun hfound => List.not_mem_nil hfound.choose_spec.1
    · exact fun hmatch => (exists_tuple_of_isMatch hcompile hmatch).1 hvars
  · rw [Sentence.search?_eq_fitting (linked_of_built h hbuilt) hbuilt hvars
      (closed_of_compile hcompile) (pattern.allowsNext_wraps s)]
    refine ⟨_, rfl, fun binding => ?_⟩
    simp only [List.mem_map, exists_exists_and_eq_and, Sentence.mem_fitting]
    constructor
    · intro htuple
      obtain ⟨tuple, ⟨hsize, hnodup, hnodes, hholds⟩, rfl⟩ := htuple
      exact isMatch_of_tuple hcompile hvars hsize hnodup hnodes hholds
    · intro hmatch
      obtain ⟨-, tuple, htuple, hget⟩ := exists_tuple_of_isMatch hcompile hmatch
      exact ⟨tuple, htuple, hget⟩

end Compile

end Treebank
