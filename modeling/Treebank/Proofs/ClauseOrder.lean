import Treebank.Proofs.Matches

/-! The order of the clauses.

The clauses of the pattern block can be read in any order, and so can their matches, as maps
from names to nodes. Only what a negated relation says of a word that it introduces depends
on which clause comes first (`search_perm`). -/
namespace Treebank

section Perm
variable {request other : Request} (hpattern : request.pattern.Perm other.pattern)
  (hwithouts : request.withouts = other.withouts)
include hpattern hwithouts

theorem clauses_perm : request.clauses.Perm other.clauses := by
  rw [Request.clauses, Request.clauses, hwithouts]
  exact (hpattern.map _).append_right _

theorem isVariable_perm : request.IsVariable = other.IsVariable := by
  funext name
  exact propext ((clauses_perm hpattern hwithouts).flatMap_right _).mem_iff

/-- In another order a match is a match if it heeds what negated relations exclude there. -/
theorem isMatch_perm {s : Sentence} {binding : String → Option Nat}
    (h : request.IsMatch s binding) :
    other.IsMatch s binding ↔ other.Excludes s (nodeIn binding) := by
  have hvariables := isVariable_perm hpattern hwithouts
  refine ⟨Request.IsMatch.excludes, fun hexcludes => ⟨hvariables ▸ h.binds, ?_, hexcludes⟩⟩
  intro entry hentry
  rw [← hvariables]
  exact h.holds entry ((clauses_perm hpattern hwithouts).mem_iff.2 hentry)

end Perm

/-- Two requests with the same names introduced by negated relations exclude the same. -/
theorem excludes_congr {request other : Request}
    (h : ∀ clause : RelationClause, clause.negated = true → clause.labels ≠ [] →
      (Introduces request.clauses clause ↔ Introduces other.clauses clause))
    (s : Sentence) (f : String → Nat) : request.Excludes s f ↔ other.Excludes s f := by
  refine forall_congr' fun clause => ?_
  by_cases hlabels : clause.labels = []
  · simp [hlabels]
  · constructor
    · exact fun hall hother hnegated => hall ((h clause hnegated hlabels).2 hother) hnegated
    · exact fun hall hthis hnegated => hall ((h clause hnegated hlabels).1 hthis) hnegated

/-- **The order of the clauses in the pattern block does not matter**, except to negated relations that
introduce their dependent: a match for one order is a match for another if no word that such a
relation introduces there has a label of it. Where the same relations do so in both orders, the
matches are the same. -/
theorem search_perm {request other : Request} {pattern otherPattern : Pattern}
    (hpattern : request.pattern.Perm other.pattern) (hwithouts : request.withouts = other.withouts)
    (hcompile : request.compile = .ok pattern) (hcompileOther : other.compile = .ok otherPattern)
    {allowed : Step → Prop} {s : Sentence} (h : Reachable allowed s)
    (hbuilt : s.outline.built = true) :
    ∃ found others, s.search? pattern = some found ∧ s.search? otherPattern = some others ∧
      (∀ m ∈ found, (∃ m' ∈ others, m'.get? = m.get?) ↔ other.Excludes s (nodeIn m.get?)) ∧
      (∀ m ∈ others, (∃ m' ∈ found, m'.get? = m.get?) ↔ request.Excludes s (nodeIn m.get?)) ∧
      ((∀ clause : RelationClause, clause.negated = true → clause.labels ≠ [] →
          (Introduces request.clauses clause ↔ Introduces other.clauses clause)) →
        ∀ binding, (∃ m ∈ found, m.get? = binding) ↔ ∃ m ∈ others, m.get? = binding) := by
  obtain ⟨found, hfound, hmatches⟩ := exists_matches hcompile h hbuilt
  obtain ⟨others, hothers, hotherMatches⟩ := exists_matches hcompileOther h hbuilt
  have hto : ∀ {binding}, request.IsMatch s binding →
      (other.IsMatch s binding ↔ other.Excludes s (nodeIn binding)) :=
    isMatch_perm hpattern hwithouts
  have hfrom : ∀ {binding}, other.IsMatch s binding →
      (request.IsMatch s binding ↔ request.Excludes s (nodeIn binding)) :=
    isMatch_perm hpattern.symm hwithouts.symm
  refine ⟨found, others, hfound, hothers, fun m hm => ?_, fun m hm => ?_, fun hsame binding => ?_⟩
  · rw [hotherMatches]
    exact hto ((hmatches _).1 ⟨m, hm, rfl⟩)
  · rw [hmatches]
    exact hfrom ((hotherMatches _).1 ⟨m, hm, rfl⟩)
  · rw [hmatches, hotherMatches]
    have hexcludes := excludes_congr hsame s (nodeIn binding)
    constructor
    · exact fun hmatch => (hto hmatch).2 (hexcludes.1 hmatch.excludes)
    · exact fun hmatch => (hfrom hmatch).2 (hexcludes.2 hmatch.excludes)

/-- The relation comes first or last, and the variables change places with it. -/
theorem search_perm_two :
    let s := (Sentence.ofTokens
      [{ id := .word 1, upos := "NOUN", head := some 2, deprel := "nsubj" },
       { id := .word 2, upos := "VERB", head := some 0, deprel := "root" },
       { id := .word 3, upos := "NOUN", head := some 2, deprel := "obj" }]).step .build
    let node : Clause := .node { name := "N", conditions := [.oneOf "upos" ["NOUN"] false] }
    let relation : Clause := .relation { head := "V", dep := "N", labels := ["obj"], negated := true }
    let request : Request := { pattern := [node, .order ⟨"V", .after, "N"⟩, relation] }
    let other : Request := { pattern := [.order ⟨"V", .after, "N"⟩, relation, node] }
    request.pattern.Perm other.pattern ∧ s.outline.built = true ∧
      ∃ pattern otherPattern, request.compile = .ok pattern ∧ other.compile = .ok otherPattern ∧
        s.search? pattern = some [⟨[0, 1], ["N", "V"]⟩, ⟨[0, 2], ["N", "V"]⟩] ∧
        ∃ found others, s.search? pattern = some found ∧ s.search? otherPattern = some others ∧
          (∀ m ∈ found, (∃ m' ∈ others, m'.get? = m.get?) ↔ other.Excludes s (nodeIn m.get?)) ∧
          (∀ m ∈ others, (∃ m' ∈ found, m'.get? = m.get?) ↔ request.Excludes s (nodeIn m.get?)) ∧
          ((∀ clause : RelationClause, clause.negated = true → clause.labels ≠ [] →
              (Introduces request.clauses clause ↔ Introduces other.clauses clause)) →
            ∀ binding, (∃ m ∈ found, m.get? = binding) ↔ ∃ m ∈ others, m.get? = binding) := by
  intro s node relation request other
  obtain ⟨pattern, hcompile⟩ : ∃ pattern, request.compile = .ok pattern := ⟨_, rfl⟩
  obtain ⟨otherPattern, hcompileOther⟩ : ∃ pattern, other.compile = .ok pattern := ⟨_, rfl⟩
  have hperm : request.pattern.Perm other.pattern := by decide
  have hreachable : Reachable (fun _ => True) s :=
    (Reachable.ofTokens fun _ _ => trivial).step trivial
  have hbuilt : s.outline.built = true := by decide +kernel
  refine ⟨hperm, hbuilt, pattern, otherPattern, hcompile, hcompileOther, ?_,
    search_perm hperm rfl hcompile hcompileOther hreachable hbuilt⟩
  cases hcompile
  decide +kernel

/-- The relation introduces `B` if it comes first, and then `B` is no subject, whatever its head. -/
theorem introduction_depends_on_order :
    let s := (Sentence.ofTokens
      [{ id := .word 1, head := some 2, deprel := "nsubj" },
       { id := .word 2, head := some 0, deprel := "root" },
       { id := .word 3, head := some 2, deprel := "obj" }]).afterBuild
    let node : Clause := .node { name := "B", conditions := [] }
    let relation : Clause :=
      .relation { head := "A", dep := "B", labels := ["nsubj"], negated := true }
    let request : Request := { pattern := [relation, node] }
    let other : Request := { pattern := [node, relation] }
    request.pattern.Perm other.pattern ∧ s.outline.built = true ∧
      ∃ pattern otherPattern, request.compile = .ok pattern ∧ other.compile = .ok otherPattern ∧
        ∃ found others, s.search? pattern = some found ∧ s.search? otherPattern = some others ∧
          ∃ m ∈ others, m.get? "A" = some 2 ∧ m.get? "B" = some 0 ∧
            ∀ m' ∈ found, m'.get? "A" = some 2 → m'.get? "B" ≠ some 0 := by
  intro s node relation request other
  refine ⟨by decide, by decide +kernel, _, _, rfl, rfl, ?_⟩
  exact ⟨[⟨[0, 1], ["A", "B"]⟩, ⟨[0, 2], ["A", "B"]⟩, ⟨[1, 2], ["A", "B"]⟩, ⟨[2, 1], ["A", "B"]⟩],
    [⟨[0, 2], ["B", "A"]⟩, ⟨[1, 0], ["B", "A"]⟩, ⟨[1, 2], ["B", "A"]⟩, ⟨[2, 0], ["B", "A"]⟩,
      ⟨[2, 1], ["B", "A"]⟩],
    by decide +kernel, by decide +kernel, ⟨[0, 2], ["B", "A"]⟩, by simp, by decide, by decide,
    by decide⟩

end Treebank
