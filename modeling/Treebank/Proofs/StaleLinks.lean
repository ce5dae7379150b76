import Treebank.Proofs.Navigation
import Treebank.Proofs.Renumbering

/-! Links that may be stale.

Only a build makes or takes back links, and the links that it leaves are sound
(`linksSound_relink`). All other steps leave the links of the words as they are while the
heads change under them, so the links of every session are sound and can be moved along,
whatever the heads say by then (`navigation_of_reachable`). -/
namespace Treebank.Sentence

/-- Sound links stay so in a sentence with the same links and perhaps more words. -/
theorem LinksSound.of_links {s t : Sentence} (h : s.LinksSound)
    (hlinks : ∀ node, (t.wordAt node).links = (s.wordAt node).links)
    (hroot : t.outline.root? = s.outline.root?) (hroots : t.outline.roots = s.outline.roots)
    (hlength : s.words.length ≤ t.words.length) : t.LinksSound := by
  have hup : t.linkedHead = s.linkedHead := funext fun node => congrArg Links.head (hlinks node)
  constructor
  case designated => rw [hroot, hroots, h.designated]
  case root =>
    intro node hnode
    rw [hroot] at hnode
    exact Nat.lt_of_lt_of_le (h.root node hnode) hlength
  case roots =>
    intro node hnode
    rw [hroots] at hnode
    exact Nat.lt_of_lt_of_le (h.roots node hnode) hlength
  case head =>
    intro node head hhead
    rw [hup] at hhead
    exact Nat.lt_of_lt_of_le (h.head node head hhead) hlength
  case dependents =>
    intro head node hnode
    rw [hlinks] at hnode
    exact Nat.lt_of_lt_of_le (h.dependents head node hnode) hlength
  case count =>
    intro node head
    rw [hlinks, hup]
    exact h.count node head
  case distinct =>
    rw [hup]
    exact h.distinct

/-! ### Builds -/

/-- Without any links there is nothing that could be wrong. -/
theorem linksSound_of_no_links {s : Sentence} (hlinks : ∀ node, (s.wordAt node).links = {})
    (houtline : s.outline = {}) : s.LinksSound := by
  have hup : ∀ node, s.linkedHead node = none := fun node => congrArg Links.head (hlinks node)
  constructor
  case designated => rw [houtline]; rfl
  case root =>
    intro node hnode
    rw [houtline] at hnode
    cases hnode
  case roots =>
    intro node hnode
    rw [houtline] at hnode
    cases hnode
  case head =>
    intro node head hhead
    rw [hup] at hhead
    cases hhead
  case dependents =>
    intro head node hnode
    rw [hlinks] at hnode
    cases hnode
  case count =>
    intro node head
    rw [hlinks, hup]
    rfl
  case distinct =>
    intro node a b mid
    exact eq_of_ascend fun other hcircle => by
      obtain ⟨steps, hsteps⟩ := hcircle
      rw [ascend, hup] at hsteps
      cases hsteps

/-- The links of heads that run in no circle are sound. -/
theorem Linked.linksSound {s : Sentence} (h : s.Linked)
    (hfree : ∀ node, ¬ OnCircle s.headNode? node) : s.LinksSound := by
  have hup : s.linkedHead = s.headNode? := funext h.head
  have hroots : ∀ node ∈ s.outline.roots, node < s.words.length := by
    intro node hnode
    rw [h.roots] at hnode
    exact List.mem_range.1 (List.mem_of_mem_filter hnode)
  constructor
  case designated => exact h.root
  case root =>
    intro node hnode
    rw [h.root] at hnode
    exact hroots node (List.mem_of_mem_head? hnode)
  case roots => exact hroots
  case head =>
    intro node head hhead
    rw [hup] at hhead
    exact (headNode?_lt hhead).2
  case dependents =>
    intro head node hnode
    rw [h.dependents] at hnode
    exact (headNode?_lt (mem_below_iff.1 hnode)).1
  case count =>
    intro node head
    rw [h.dependents, hup]
    split
    · next hhead =>
      exact List.count_eq_one_of_mem (nodup_below ..) (mem_below_iff.2 hhead)
    · next hhead => exact List.count_eq_zero.2 fun hmem => hhead (mem_below_iff.1 hmem)
  case distinct =>
    rw [hup]
    exact fun node a b mid => eq_of_ascend hfree

/-- A build that fails leaves no links and one that does not leaves sound ones. -/
theorem linksSound_relink (s : Sentence) : s.relink.1.LinksSound := by
  cases hrun : s.relink with
  | mk linked error =>
    cases error with
    | none =>
      have hbuild := build_eq_ok_iff.2 hrun
      obtain ⟨hlinked, hraw⟩ := build_linked hbuild
      obtain ⟨-, hcircle, -⟩ := free_of_build hbuild
      refine hlinked.linksSound fun node => ?_
      rw [funext (headNode?_of_unlinked hraw)]
      exact hcircle node
    | some error =>
      have hfailed := relink_eq_unlinked (congrArg Prod.snd hrun)
      rw [hrun] at hfailed
      rw [show linked = s.unlinked from hfailed]
      refine linksSound_of_no_links (fun node => ?_) rfl
      rw [wordAt_unlinked]
      rfl

/-! ### Other steps -/

theorem links_wordAt_push (s : Sentence) (token : Token) (node : Nat) :
    ((s.push token).wordAt node).links = (s.wordAt node).links := by
  rw [wordAt, wordAt, words_push]
  rcases Nat.lt_or_ge node s.words.length with hlt | hge
  · rw [List.getD_append _ _ _ _ hlt]
  · -- the new word has no links, and neither has what is read past the last word
    rw [List.getD_append_right _ _ _ _ hge, List.getD_eq_default _ _ hge]
    cases hword : token.word? with
    | none => rfl
    | some word =>
      have hlinks : word.links = {} := by
        unfold Token.word? at hword
        split at hword <;> cases hword
        rfl
      cases node - s.words.length with
      | zero => exact hlinks
      | succ => rfl

theorem linksSound_push {s : Sentence} (h : s.LinksSound) (token : Token) :
    (s.push token).LinksSound := by
  refine h.of_links (s.links_wordAt_push token) ?_ ?_ ?_
  · unfold push
    split <;> rfl
  · unfold push
    split <;> rfl
  · rw [words_push, List.length_append]
    exact Nat.le_add_right _ _

theorem linksSound_step {s : Sentence} (h : s.LinksSound) (step : Step) :
    (s.step step).LinksSound := by
  cases step with
  | push token => exact linksSound_push h token
  | build => exact s.linksSound_relink
  | renumber first =>
    refine h.of_links (fun node => ?_) rfl rfl (Nat.le_of_eq (s.length_words_renumber first).symm)
    rcases Nat.lt_or_ge node s.words.length with hlt | hge
    · show ((s.renumber first).wordAt node).links = _
      rw [wordAt_renumber hlt]
      rfl
    · have hlength := s.length_words_renumber first
      rw [wordAt, wordAt, List.getD_eq_default _ _ hge, List.getD_eq_default]
      exact hlength ▸ hge
  | annotate metadata => exact h.of_links (fun _ => rfl) rfl rfl (Nat.le_refl _)
  | change id f =>
    rw [step_change]
    split
    · exact h
    · next node hnode =>
      refine h.of_links (fun other => ?_) rfl rfl (Nat.le_of_eq (List.length_modify ..).symm)
      have hword := s.invalidate.wordAt_modify node (nodeOf?_eq_some hnode).1
        (fun w => { w with toColumns := f w.toColumns }) other
      refine (congrArg Word.links hword).trans ?_
      split <;> rfl

theorem linksSound_of_reachable {allowed : Step → Prop} {s : Sentence} (h : Reachable allowed s) :
    s.LinksSound := by
  refine Reachable.invariant ?_ ?_ ?_ ?_ h
  · exact linksSound_of_no_links (fun _ => rfl) rfl
  · exact fun {_ _ token} _ hs => linksSound_push hs token
  · exact fun metadata hs => linksSound_step hs (.annotate metadata)
  · exact fun step _ hs => linksSound_step hs step

/-- **The links of a session can be moved along at all times**, also when the heads have changed
since the last build: no move leaves the sentence, and none is cut short. -/
theorem navigation_of_reachable {allowed : Step → Prop} {s : Sentence} (h : Reachable allowed s) :
    s.LinksSound ∧ ∀ node < s.words.length,
      s.headOf? node = some ((s.linkedHead node).map s.wordAt) ∧
      s.dependents? node = some ((s.wordAt node).links.dependents.map s.wordAt) ∧
      (∃ above, s.ancestors? node = some above ∧
        ∀ i, above[i]? = ascend s.linkedHead (i + 1) node) ∧
      (∀ head, ∃ answer, s.commands? head node = some answer ∧
        (answer = true ↔ ∃ steps, ascend s.linkedHead (steps + 1) node = some head)) ∧
      (∃ depth, s.depth? node = some depth) ∧
      ∃ nodes, s.subtree? node = some nodes ∧ s.Descent [node] nodes := by
  have hsound := linksSound_of_reachable h
  refine ⟨hsound, fun node hnode => ⟨headOf?_eq hsound hnode, dependents?_eq hsound hnode,
    ancestors?_eq hsound hnode, commands?_eq hsound hnode, exists_depth? hsound hnode, ?_⟩⟩
  obtain ⟨nodes, hnodes, hwalk, -, -⟩ := exists_subtree? hsound hnode
  exact ⟨nodes, hnodes, hwalk⟩

/-- Two words are linked, then their heads are made a circle, a word is added and all are numbered
from 5 on: the links are still those of the two words. -/
theorem navigation_of_circle :
    let s := ((((ofTokens
      [{ id := .word 1, form := "a", head := some 0 },
       { id := .word 2, form := "b", head := some 1 }]).step .build).step
      (.change 1 fun columns => { columns with head := some 2 })).step
      (.push { id := .word 3, form := "c", head := some 2 })).step (.renumber 5)
    s.outline.built = false ∧ s.cycles = [5] ∧
      s.words.map (·.links.head) = [none, some 0, none] ∧ s.LinksSound ∧
      (∃ above, s.ancestors? 1 = some above ∧
        ∀ i, above[i]? = ascend s.linkedHead (i + 1) 1) ∧
      s.subtree? 0 = some [0, 1] := by
  intro s
  have hpushed : ∀ token ∈ ([
      { id := .word 1, form := "a", head := some 0 },
      { id := .word 2, form := "b", head := some 1 }] : List Token),
      token.toColumns.IsUnlinked := by
    unfold Columns.IsUnlinked
    decide
  have hadded : Step.IsFresh (.push { id := .word 3, form := "c", head := some 2 }) := by
    unfold Step.IsFresh Columns.IsUnlinked
    decide
  have hbuilt : Reachable Step.IsFresh (Sentence.step _ .build) :=
    (Reachable.ofTokens hpushed).step trivial
  have hchanged : Reachable Step.IsFresh
      (Sentence.step _ (.change 1 fun columns => { columns with head := some 2 })) :=
    hbuilt.step trivial
  have hreachable : Reachable Step.IsFresh s := (hchanged.step hadded).step trivial
  obtain ⟨hsound, hmoves⟩ := navigation_of_reachable hreachable
  obtain ⟨-, -, habove, -⟩ := hmoves 1 (by decide +kernel)
  exact ⟨by decide +kernel, by decide +kernel, by decide +kernel, hsound, habove,
    by decide +kernel⟩

end Treebank.Sentence
