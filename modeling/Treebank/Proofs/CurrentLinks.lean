import Treebank.Proofs.Rebuild
import Treebank.Proofs.Search

/-! Links that count as current.

A build goes by what was read and edited, so building a linked sentence again changes
nothing (`relink_relink`), and metadata has no part in it (`relink_annotate`). All other steps
take the mark off. So in a session with fresh tokens a sentence that counts as built is
what a build from scratch makes of it (`built_iff_of_reachable`), and what a search finds it
finds by these links. -/
namespace Treebank.Sentence

/-! ### Building again -/

/-- Only what is left without links decides on a build. -/
theorem relink_of_unlinked {s t : Sentence} (h : t.unlinked = s.unlinked) :
    t.relink = s.relink := by
  rw [relink, h, relink]

theorem relink_relink (s : Sentence) : s.relink.1.relink = s.relink :=
  relink_of_unlinked (unlinked_relink s)

/-- The sentence is as a build leaves it. -/
def IsBuilt (s : Sentence) : Prop := s.build = .ok s

theorem isBuilt_of_build {s linked : Sentence} (h : s.build = .ok linked) : linked.IsBuilt := by
  have hagain := s.relink_relink
  rw [build_eq_ok_iff.1 h] at hagain
  exact build_eq_ok_iff.2 hagain

/-! ### Metadata -/

section Annotate
variable (s : Sentence) (metadata : Metadata)

theorem attach_annotate (node : Nat) :
    ({ s with metadata } : Sentence).attach node =
      (s.attach node).map fun t => { t with metadata } := by
  have hnodeOf : ∀ id, ({ s with metadata } : Sentence).nodeOf? id = s.nodeOf? id := fun _ => rfl
  unfold attach
  simp only [hnodeOf]
  cases s.words[node]? with
  | none => rfl
  | some word =>
    simp only
    cases word.head with
    | none => rfl
    | some head =>
      cases head with
      | zero => rfl
      | succ head =>
        simp only
        cases if s.words.length < head + 1 then none else s.nodeOf? (head + 1) <;> rfl

theorem attachAll_annotate (nodes : List Nat) :
    ({ s with metadata } : Sentence).attachAll nodes =
      ({ (s.attachAll nodes).1 with metadata }, (s.attachAll nodes).2) := by
  induction nodes generalizing s with
  | nil => rfl
  | cons node rest ih =>
    rw [attachAll, attach_annotate, attachAll]
    cases s.attach node with
    | ok attached => exact ih attached
    | error error => rfl

theorem resolve_annotate :
    ({ s with metadata } : Sentence).resolve = { s.resolve with metadata } :=
  rfl

/-- Metadata is handed through a build as it is. -/
theorem relink_annotate :
    ({ s with metadata } : Sentence).relink = ({ s.relink.1 with metadata }, s.relink.2) := by
  have hlink : ({ s.unlinked with metadata } : Sentence).link =
      ({ s.unlinked.link.1 with metadata }, s.unlinked.link.2) := by
    have hplace : ({ s.unlinked with metadata } : Sentence).place =
      { s.unlinked.place with metadata } := rfl
    unfold link
    rw [hplace, attachAll_annotate]
    cases s.unlinked.place.attachAll (List.range s.unlinked.words.length) with
    | mk attached error =>
      cases error with
      | some error => rfl
      | none =>
        simp only [resolve_annotate]
        rfl
  have hunlinked : ({ s with metadata } : Sentence).unlinked = { s.unlinked with metadata } := rfl
  unfold relink
  rw [hunlinked, hlink]
  cases s.unlinked.link with
  | mk linked error => cases error <;> rfl

end Annotate

/-! ### Sessions -/

/-- Every step but a build and a change of metadata takes the mark off, or does nothing. -/
theorem step_of_built {s : Sentence} {step : Step} (h : (s.step step).outline.built = true) :
    s.step step = s ∨ s.step step = s.afterBuild ∨
      ∃ metadata, s.outline.built = true ∧ s.step step = { s with metadata } := by
  cases step with
  | push token =>
    simp only [Sentence.step, push] at h
    split at h <;> cases h
  | build => exact .inr (.inl rfl)
  | renumber first => cases h
  | annotate metadata => exact .inr (.inr ⟨metadata, h, rfl⟩)
  | change id f =>
    rw [step_change] at h ⊢
    split at h
    · exact .inl rfl
    · cases h

/-- A build that succeeds leaves the sentence as it would leave it again. -/
theorem relink_afterBuild_of_built {s : Sentence} (h : s.afterBuild.outline.built = true) :
    s.afterBuild.relink = (s.afterBuild, none) := by
  rw [afterBuild] at h ⊢
  rw [relink_relink]
  cases hrun : s.relink with
  | mk linked error =>
    cases error with
    | none => rfl
    | some error =>
      rw [relink_eq_unlinked (congrArg Prod.snd hrun)] at h
      cases h

theorem relink_of_built {allowed : Step → Prop} {s : Sentence} (h : Reachable allowed s)
    (hbuilt : s.outline.built = true) : s.relink = (s, none) := by
  -- the mark is set by builds only, so while it stands nothing but metadata has changed since
  refine Reachable.invariant (P := fun s => s.outline.built = true → s.relink = (s, none))
    ?_ ?_ ?_ ?_ h hbuilt
  · intro hfalse
    cases hfalse
  · intro s line token _ _ htrue
    simp only [push] at htrue
    split at htrue <;> cases htrue
  · intro s metadata hs htrue
    rw [relink_annotate, hs htrue]
  · intro s step _ hs htrue
    rcases step_of_built htrue with hsame | hbuild | ⟨metadata, hold, hannotate⟩
    · rw [hsame] at htrue ⊢
      exact hs htrue
    · rw [hbuild] at htrue ⊢
      exact relink_afterBuild_of_built htrue
    · rw [hannotate, relink_annotate, hs hold]

/-- What counts as built in a session is as a build leaves it, and nothing else is. -/
theorem isBuilt_iff_of_reachable {allowed : Step → Prop} {s : Sentence} (h : Reachable allowed s) :
    s.IsBuilt ↔ s.outline.built = true := by
  constructor
  · intro hbuilt
    obtain ⟨attached, -, hself⟩ := exists_attached hbuilt
    rw [hself]
  · exact fun htrue => build_eq_ok_iff.2 (relink_of_built h htrue)

/-- **A sentence counts as built just when a build from scratch would make it what it is**: from
the same tokens without anything that earlier builds found out. So a search that finds something
finds it by current links, and a build that succeeds makes them current. -/
theorem built_iff_of_reachable {s : Sentence} (h : Reachable Step.IsFresh s) :
    (s.outline.built = true ↔ s.reset.build = .ok s) ∧
    (∀ pattern found, s.search? pattern = some found → found ≠ [] → s.reset.build = .ok s) ∧
    ∀ linked, s.reset.build = .ok linked → s.step .build = linked ∧ linked.outline.built = true := by
  have hreset : s.reset.relink = s.relink := by
    rw [reset_eq_unlinked_iff.2 (rangesUnlinked_of_reachable h)]
    exact relink_of_unlinked (unlinked_unlinked s)
  have hbuild : ∀ linked, s.reset.build = .ok linked ↔ s.relink = (linked, none) := by
    intro linked
    rw [build_eq_ok_iff, hreset]
  have hmark : ∀ linked, s.relink = (linked, none) → linked.outline.built = true := by
    intro linked hrun
    unfold relink at hrun
    split at hrun <;> cases hrun
    rfl
  have hbuilt : s.outline.built = true → s.reset.build = .ok s :=
    fun htrue => (hbuild s).2 (relink_of_built h htrue)
  refine ⟨⟨hbuilt, fun hself => hmark s ((hbuild s).1 hself)⟩, ?_, ?_⟩
  · intro pattern found hsearch hfound
    apply hbuilt
    by_contra hstale
    rw [search?_eq_nil (.inl (Bool.eq_false_iff.2 hstale))] at hsearch
    exact hfound (Option.some.inj hsearch).symm
  · intro linked hrun
    have hlinked := (hbuild linked).1 hrun
    refine ⟨?_, hmark linked hlinked⟩
    show s.relink.1 = linked
    rw [hlinked]

/-- A linked sentence gets an id of its own and still counts as built. -/
theorem built_annotated :
    let s := ((ofTokens
      [{ id := .word 1, form := "a", head := some 0 },
       { id := .empty 1 1, deps := [{ head := 2, deprel := "x" }] },
       { id := .word 2, form := "b", head := some 1, deps := [{ head := 1, deprel := "x" }] }]).step
      .build).step (.annotate { sentId := some "two" })
    s.outline.built = true ∧ s.reset.build = .ok s ∧ s.words.map (·.links.head) = [none, some 0] ∧
      s.reset.words.map (·.links.head) = [none, none] := by
  intro s
  have hpushed : ∀ token ∈ ([
      { id := .word 1, form := "a", head := some 0 },
      { id := .empty 1 1, deps := [{ head := 2, deprel := "x" }] },
      { id := .word 2, form := "b", head := some 1, deps := [{ head := 1, deprel := "x" }] }]
      : List Token), token.toColumns.IsUnlinked := by
    unfold Columns.IsUnlinked
    decide
  have hlinked : Reachable Step.IsFresh (Sentence.step _ .build) :=
    (Reachable.ofTokens hpushed).step trivial
  have hreachable : Reachable Step.IsFresh s := hlinked.step trivial
  have hbuilt : s.outline.built = true := by decide +kernel
  exact ⟨hbuilt, (built_iff_of_reachable hreachable).1.1 hbuilt, by decide +kernel,
    by decide +kernel⟩

end Treebank.Sentence
