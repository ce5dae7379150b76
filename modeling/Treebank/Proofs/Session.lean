import Treebank.Proofs.Blocks
import Treebank.Proofs.Links
import Treebank.Proofs.Reading
import Treebank.Session

/-! What sessions keep.

A property of the empty sentence that every step keeps holds of all reachable sentences
(`Reachable.invariant`); a sentence that is read is made of its tokens and comments
(`read_invariant`). So the ranges of a session with fresh tokens have no links
(`rangesUnlinked_of_reachable`), and a sentence that counts as built has the links of its
heads (`linked_of_built`). -/
namespace Treebank

section Read
variable {P : Sentence → Prop} (empty : P {})
  (token : ∀ {s line token}, Token.read line = .ok token → P s → P (s.push token))
  (annotate : ∀ {s} metadata, P s → P { s with metadata })

include token annotate in
theorem addLine_invariant {s t : Sentence} {number : Nat} {line : List Char} (hs : P s)
    (h : s.addLine number line = .ok t) : P t := by
  unfold Sentence.addLine at h
  split at h
  · cases h
    exact annotate _ hs
  · split at h
    · next hread =>
      cases h
      exact token hread hs
    · cases h

include empty token annotate in
/-- What holds of the empty sentence and stays when a token or a comment that was read is added
holds of what is read. -/
theorem read_invariant {text : List Char} {s : Sentence} (h : Sentence.read text = .ok s) : P s :=
  read_induction (fun _ hs hline => addLine_invariant token annotate
    (hs.elim (fun hempty => hempty ▸ empty) id) hline) h

include empty token annotate in
theorem Reachable.invariant {allowed : Step → Prop} {s : Sentence}
    (step : ∀ {s} step, allowed step → P s → P (s.step step)) (h : Reachable allowed s) : P s := by
  induction h with
  | read hread => exact read_invariant empty token annotate hread
  | @ofTokens tokens htokens =>
    exact List.foldlRecOn tokens Sentence.push empty fun s hs token htoken =>
      step (.push token) (htokens token htoken) hs
  | step _ hallowed ih => exact step _ hallowed ih

end Read

/-! ### Ranges -/

/-- Nothing is linked in the columns of a range. Builds do not look at them. -/
def Sentence.RangesUnlinked (s : Sentence) : Prop :=
  ∀ range ∈ s.multiwords.values, range.toColumns.IsUnlinked

/-- A dependency of a token line is what its column says, and that has no links. -/
theorem Token.isUnlinked_of_read {line : List Char} {token : Token}
    (h : Token.read line = .ok token) : token.toColumns.IsUnlinked :=
  fun dep hdep => ((read_eq_ok h).1.deps dep hdep).headword

theorem Sentence.multiwords_relink (s : Sentence) : s.relink.1.multiwords = s.multiwords := by
  have h := congrArg Sentence.multiwords s.unlinked_relink
  exact h

theorem rangesUnlinked_push {s : Sentence} {token : Token} (hs : s.RangesUnlinked)
    (h : token.toColumns.IsUnlinked) : (s.push token).RangesUnlinked := by
  unfold Sentence.push
  split
  · exact hs
  · intro range hrange
    rcases IdMap.mem_values_insert hrange with rfl | hold
    · exact h
    · exact hs range hold
  · exact hs

/-- Nothing but the ranges there were is filed under the new ids. -/
theorem Sentence.mem_values_renumberRanges {new : Nat → Nat} {ranges : IdMap Multiword}
    {range : Multiword} (h : range ∈ (renumberRanges new ranges).values) :
    ∃ old ∈ ranges.values, range = old.renumber new := by
  refine List.foldlRecOn (motive := fun moved : IdMap Multiword =>
    ∀ range ∈ moved.values, ∃ old ∈ ranges.values, range = old.renumber new)
    ranges.values _ ?_ ?_ range h
  · exact fun range hnone => absurd hnone List.not_mem_nil
  · intro moved hmoved old hold range hrange
    rcases IdMap.mem_values_insert hrange with rfl | hearlier
    · exact ⟨old, hold, rfl⟩
    · exact hmoved range hearlier

theorem rangesUnlinked_renumber {s : Sentence} (hs : s.RangesUnlinked) (first : Nat) :
    (s.renumber first).RangesUnlinked := by
  intro range hrange
  obtain ⟨old, hold, rfl⟩ := Sentence.mem_values_renumberRanges hrange
  exact hs old hold

/-- A change to a word is seen in that word alone, and the links are no longer current. -/
theorem Sentence.step_change (s : Sentence) (id : Nat) (f : Columns → Columns) :
    s.step (.change id f) =
      match s.nodeOf? id with
      | none => s
      | some node =>
        { s.invalidate with
          words := s.words.modify node fun w => { w with toColumns := f w.toColumns } } := by
  simp only [Sentence.step, Sentence.change?]
  cases s.nodeOf? id <;> rfl

theorem rangesUnlinked_of_reachable {s : Sentence} (h : Reachable Step.IsFresh s) :
    s.RangesUnlinked := by
  refine Reachable.invariant ?_ ?_ ?_ ?_ h
  · intro range hrange
    cases hrange
  · intro s line token hread hs
    exact rangesUnlinked_push hs (Token.isUnlinked_of_read hread)
  · exact fun _ hs => hs
  · intro s step hfresh hs
    cases step with
    | push token => exact rangesUnlinked_push hs hfresh
    | build =>
      intro range hrange
      rw [Sentence.step, Sentence.afterBuild, Sentence.multiwords_relink] at hrange
      exact hs range hrange
    | renumber first => exact rangesUnlinked_renumber hs first
    | annotate metadata => exact hs
    | change id f =>
      rw [Sentence.step_change]
      split <;> exact hs

/-! ### Links -/

/-- Only a build makes links current, and only metadata can change while they stay so. -/
theorem linked_of_built {allowed : Step → Prop} {s : Sentence} (h : Reachable allowed s)
    (hbuilt : s.outline.built = true) : s.Linked := by
  have hpush : ∀ (s : Sentence) (token : Token), (s.push token).outline.built = false := by
    intro s token
    unfold Sentence.push
    split <;> rfl
  refine Reachable.invariant (P := fun s => s.outline.built = true → s.Linked) ?_ ?_ ?_ ?_ h hbuilt
  · exact fun hfalse => by cases hfalse
  · intro s line token _ _ htrue
    rw [hpush] at htrue
    cases htrue
  · intro s metadata hs htrue
    obtain ⟨head, dependents, dependentsById, root, roots, maxHeadDistance⟩ := hs htrue
    exact ⟨head, dependents, dependentsById, root, roots, maxHeadDistance⟩
  · intro s step _ hs htrue
    cases step with
    | push token =>
      rw [Sentence.step, hpush] at htrue
      cases htrue
    | build =>
      rw [Sentence.step, Sentence.afterBuild] at htrue ⊢
      cases hrun : s.relink with
      | mk linked error =>
        cases error with
        | none => exact (Sentence.build_linked (Sentence.build_eq_ok_iff.2 hrun)).1
        | some error =>
          rw [Sentence.relink_eq_unlinked (congrArg Prod.snd hrun)] at htrue
          cases htrue
    | renumber first => cases htrue
    | annotate metadata =>
      obtain ⟨head, dependents, dependentsById, root, roots, maxHeadDistance⟩ := hs htrue
      exact ⟨head, dependents, dependentsById, root, roots, maxHeadDistance⟩
    | change id f =>
      rw [Sentence.step_change] at htrue ⊢
      split at htrue
      · exact hs htrue
      · cases htrue

end Treebank
