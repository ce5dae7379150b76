import Mathlib.Data.List.Nodup
import Treebank.Proofs.Ascent
import Treebank.Proofs.Failure
import Treebank.Proofs.Words
import Treebank.Sentence.Navigation

/-! Moving along links that hold together.

Links are sound when they name words, when heads and dependents say the same, and when no
way up meets a node twice. Then every move from a word of the sentence comes to an end
without leaving it: `ancestors?_eq` gives the whole way up, and `exists_subtree?` all
nodes below in the order in which a walk comes to them that looks back at none. -/
namespace Treebank.Sentence

/-- The node above a node by the links. -/
def linkedHead (s : Sentence) (node : Nat) : Option Nat := (s.wordAt node).links.head

/-- The links name words of the sentence, say the same upwards and downwards, and run in no
circle. They may be those of other heads than the words have now. -/
structure LinksSound (s : Sentence) : Prop where
  /-- The designated root is the first of the roots. -/
  designated : s.outline.root? = s.outline.roots.head?
  root : ∀ node ∈ s.outline.root?, node < s.words.length
  roots : ∀ node ∈ s.outline.roots, node < s.words.length
  head : ∀ node, ∀ head ∈ s.linkedHead node, head < s.words.length
  dependents : ∀ head, ∀ node ∈ (s.wordAt head).links.dependents, node < s.words.length
  /-- A node is once among the dependents of its head and never among those of another. -/
  count : ∀ node head,
    (s.wordAt head).links.dependents.count node = if s.linkedHead node = some head then 1 else 0
  /-- The way up from a node meets no node twice. -/
  distinct : ∀ node a b mid, ascend s.linkedHead a node = some mid →
    ascend s.linkedHead b node = some mid → a = b

/-- A walk over the nodes of a stack, each followed by its dependents. It looks at no node that was
visited before, so it would visit one again, or not end. -/
inductive Descent (s : Sentence) : List Nat → List Nat → Prop
  | done : Descent s [] []
  | visit {node stack rest} : node < s.words.length →
      Descent s ((s.wordAt node).links.dependents ++ stack) rest →
      Descent s (node :: stack) (node :: rest)

/-! ### One link -/

section Sound
variable {s : Sentence} (h : s.LinksSound)

include h

theorem LinksSound.mem_dependents {node head : Nat} :
    node ∈ (s.wordAt head).links.dependents ↔ s.linkedHead node = some head := by
  rw [← List.count_pos_iff, h.count]
  split <;> simp_all

theorem LinksSound.nodup_dependents (head : Nat) :
    (s.wordAt head).links.dependents.Nodup := by
  rw [List.nodup_iff_count_le_one]
  intro node
  rw [h.count]
  split <;> omega

theorem LinksSound.not_onCircle (node : Nat) : ¬ OnCircle s.linkedHead node := by
  intro hcircle
  obtain ⟨steps, hsteps⟩ := hcircle
  have := h.distinct node (steps + 1) 0 node hsteps rfl
  omega

/-- A node with a head is a word: past the last word there are no links. -/
theorem LinksSound.lt_of_linkedHead {node head : Nat} (hhead : s.linkedHead node = some head) :
    node < s.words.length :=
  h.dependents head node (h.mem_dependents.2 hhead)

theorem headOf?_eq {node : Nat} (hnode : node < s.words.length) :
    s.headOf? node = some ((s.linkedHead node).map s.wordAt) := by
  unfold headOf?
  rw [getElem?_words hnode]
  simp only [Option.bind_eq_bind, Option.bind_some]
  rw [show (s.wordAt node).links.head = s.linkedHead node from rfl]
  cases hhead : s.linkedHead node with
  | none => rfl
  | some head =>
    show (s.words[head]?).bind _ = _
    rw [getElem?_words (h.head node head hhead)]
    rfl

theorem dependents?_eq {node : Nat} (hnode : node < s.words.length) :
    s.dependents? node = some ((s.wordAt node).links.dependents.map s.wordAt) := by
  unfold dependents?
  rw [getElem?_words hnode]
  exact mapM_eq_some_map fun dep hdep => getElem?_words (h.dependents node dep hdep)

/-! ### Upwards -/

theorem climb?_eq {steps count node top : Nat} {seen : List Nat} (hsteps : count ≤ steps)
    (htop : ascend s.linkedHead count node = some top) (hlast : s.linkedHead top = none)
    (hseen : ∀ i mid, ascend s.linkedHead (i + 1) node = some mid → mid ∉ seen) :
    ∃ above, s.climb? steps seen (s.linkedHead node) = some above ∧
      ∀ i, above[i]? = ascend s.linkedHead (i + 1) node := by
  -- the way that is left gets shorter, and no node of it has been seen
  induction count generalizing steps node seen with
  | zero =>
    cases htop
    refine ⟨[], ?_, fun i => ?_⟩
    · rw [hlast]
      cases steps <;> rfl
    · rw [ascend, hlast]
      rfl
  | succ count ih =>
    obtain ⟨steps, rfl⟩ := Nat.exists_eq_add_one_of_ne_zero (show steps ≠ 0 by omega)
    obtain ⟨head, hhead, htop⟩ := Option.bind_eq_some_iff.1 htop
    have hnew : head ∉ seen := hseen 0 head (by rw [ascend_one, hhead])
    have hlater : ∀ i mid, ascend s.linkedHead (i + 1) head = some mid → mid ∉ head :: seen := by
      intro i mid hmid hmem
      rcases List.mem_cons.1 hmem with rfl | hold
      · exact h.not_onCircle mid ⟨i, hmid⟩
      · refine hseen (i + 1) mid ?_ hold
        rw [ascend, hhead]
        exact hmid
    obtain ⟨above, habove, hnodes⟩ := ih (Nat.le_of_succ_le_succ hsteps) htop hlater
    refine ⟨head :: above, ?_, fun i => ?_⟩
    · rw [hhead, climb?, if_neg hnew, getElem?_words (h.head node head hhead)]
      simp only [Option.bind_eq_bind, Option.bind_some]
      rw [show (s.wordAt head).links.head = s.linkedHead head from rfl, habove]
      rfl
    · rw [ascend, hhead]
      cases i with
      | zero => rfl
      | succ i => exact hnodes i

/-- The way up that is found is the whole one: it goes on as long as there is a head. -/
theorem ancestors?_eq {node : Nat} (hnode : node < s.words.length) :
    ∃ above, s.ancestors? node = some above ∧
      ∀ i, above[i]? = ascend s.linkedHead (i + 1) node := by
  obtain ⟨count, hcount, top, htop, hlast⟩ :=
    exists_top (fun hhead => h.head _ _ hhead) h.not_onCircle hnode
  have hself : ∀ i mid, ascend s.linkedHead (i + 1) node = some mid → mid ∉ [node] := by
    intro i mid hmid hmem
    rw [List.mem_singleton.1 hmem] at hmid
    exact h.not_onCircle node ⟨i, hmid⟩
  obtain ⟨above, habove, hnodes⟩ :=
    climb?_eq h (show count ≤ s.words.length + 1 by omega) htop hlast hself
  refine ⟨above, ?_, hnodes⟩
  rw [ancestors?, getElem?_words hnode]
  exact habove

theorem commands?_eq {node : Nat} (hnode : node < s.words.length) (head : Nat) :
    ∃ answer, s.commands? head node = some answer ∧
      (answer = true ↔ ∃ steps, ascend s.linkedHead (steps + 1) node = some head) := by
  obtain ⟨above, habove, hnodes⟩ := ancestors?_eq h hnode
  refine ⟨above.contains head, by rw [commands?, habove]; rfl, ?_⟩
  rw [List.contains_iff_mem, List.mem_iff_getElem?]
  simp only [hnodes]

theorem depth?_eq {node : Nat} (hnode : node < s.words.length) {above : List Nat}
    (habove : s.ancestors? node = some above)
    (hnodes : ∀ i, above[i]? = ascend s.linkedHead (i + 1) node) :
    s.depth? node =
      some (if (s.wordAt (above.getLast?.getD node)).head = some 0 then some above.length
        else none) := by
  have htop := ascend_lt (fun hhead => h.head _ _ hhead) hnode (ascend_length hnodes)
  rw [depth?, habove]
  simp only [Option.bind_eq_bind, Option.bind_some, getElem?_words htop]
  rfl

theorem exists_depth? {node : Nat} (hnode : node < s.words.length) :
    ∃ depth, s.depth? node = some depth := by
  obtain ⟨above, habove, hnodes⟩ := ancestors?_eq h hnode
  exact ⟨_, depth?_eq h hnode habove hnodes⟩

/-! ### Downwards -/

/-- What is below a node is the node itself or below one of its dependents. -/
theorem below_iff {node other : Nat} :
    (∃ steps, ascend s.linkedHead steps other = some node) ↔
      other = node ∨ ∃ dep ∈ (s.wordAt node).links.dependents, ∃ steps,
        ascend s.linkedHead steps other = some dep := by
  constructor
  · intro hbelow
    obtain ⟨steps, hsteps⟩ := hbelow
    cases steps with
    | zero => exact .inl (Option.some.inj hsteps)
    | succ steps =>
      rw [ascend_succ] at hsteps
      obtain ⟨dep, hdep, hhead⟩ := Option.bind_eq_some_iff.1 hsteps
      exact .inr ⟨dep, h.mem_dependents.2 hhead, steps, hdep⟩
  · intro hbelow
    rcases hbelow with rfl | ⟨dep, hdep, steps, hsteps⟩
    · exact ⟨0, rfl⟩
    · refine ⟨steps + 1, ?_⟩
      rw [ascend_succ, hsteps]
      exact h.mem_dependents.1 hdep

theorem mem_descent {stack nodes : List Nat} (hwalk : s.Descent stack nodes) {other : Nat} :
    other ∈ nodes ↔ ∃ node ∈ stack, ∃ steps, ascend s.linkedHead steps other = some node := by
  induction hwalk with
  | done => simp
  | @visit node stack rest _ _ ih =>
    simp only [List.mem_cons, ih, List.mem_append, or_and_right, exists_or, exists_eq_left]
    rw [below_iff h, or_assoc]

/-- Nodes that have nothing below them in common are walked without meeting any node twice. -/
theorem nodup_descent {stack nodes : List Nat} (hwalk : s.Descent stack nodes)
    (hapart : stack.Pairwise fun a b => ∀ steps more other,
      ascend s.linkedHead steps other = some a → ascend s.linkedHead more other ≠ some b) :
    nodes.Nodup := by
  induction hwalk with
  | done => exact .nil
  | @visit node stack rest _ hrest ih =>
    obtain ⟨hnode, hstack⟩ := List.pairwise_cons.1 hapart
    have hbelow : ∀ dep ∈ (s.wordAt node).links.dependents, ∀ steps other,
        ascend s.linkedHead steps other = some dep →
        ascend s.linkedHead (steps + 1) other = some node := by
      intro dep hdep steps other hsteps
      rw [ascend_succ, hsteps]
      exact h.mem_dependents.1 hdep
    refine List.nodup_cons.2 ⟨fun hmem => ?_, ih (List.pairwise_append.2 ⟨?_, hstack, ?_⟩)⟩
    · obtain ⟨other, hother, steps, hsteps⟩ := (mem_descent h hrest).1 hmem
      rcases List.mem_append.1 hother with hdep | hold
      · exact h.not_onCircle node ⟨steps, hbelow other hdep steps node hsteps⟩
      · exact hnode other hold 0 steps node rfl hsteps
    · -- two dependents of one node are equally far from what is below both
      refine (h.nodup_dependents node).imp_of_mem fun ha hb hne steps more other hsteps hmore => ?_
      have heq := h.distinct other _ _ node (hbelow _ ha steps other hsteps)
        (hbelow _ hb more other hmore)
      cases heq
      rw [hsteps] at hmore
      exact hne (Option.some.inj hmore)
    · intro dep hdep old hold steps more other hsteps hmore
      exact hnode old hold (steps + 1) more other (hbelow dep hdep steps other hsteps) hmore

/-- From nodes that have no node so many steps below them a walk comes to an end. -/
theorem exists_descent_of_low (height : Nat) {stack tail rest : List Nat}
    (hlt : ∀ node ∈ stack, node < s.words.length)
    (hlow : ∀ node ∈ stack, ∀ other, ascend s.linkedHead height other ≠ some node)
    (htail : s.Descent tail rest) : ∃ nodes, s.Descent (stack ++ tail) nodes := by
  induction height generalizing stack tail rest with
  | zero =>
    cases stack with
    | nil => exact ⟨rest, htail⟩
    | cons node more => exact absurd rfl (hlow node List.mem_cons_self node)
  | succ height ih =>
    induction stack with
    | nil => exact ⟨rest, htail⟩
    | cons node more ihStack =>
      obtain ⟨hnode, hmore⟩ := List.forall_mem_cons.1 hlt
      obtain ⟨hlowNode, hlowMore⟩ := List.forall_mem_cons.1 hlow
      obtain ⟨later, hlater⟩ := ihStack hmore hlowMore
      obtain ⟨nodes, hnodes⟩ := ih (h.dependents node) (fun dep hdep other hother => by
        refine hlowNode other ?_
        rw [ascend_succ, hother]
        exact h.mem_dependents.1 hdep) hlater
      exact ⟨node :: nodes, .visit hnode hnodes⟩

theorem exists_descent {node : Nat} (hnode : node < s.words.length) :
    ∃ nodes, s.Descent [node] nodes := by
  have hlow : ∀ other, ascend s.linkedHead s.words.length other ≠ some node := by
    intro other hother
    -- a way up of so many steps would meet a node twice
    obtain ⟨below, hbelow⟩ := Nat.exists_eq_add_one_of_ne_zero (Nat.ne_zero_of_lt hnode)
    have hfirst := hother
    rw [hbelow] at hfirst
    obtain ⟨head, hhead, -⟩ := Option.bind_eq_some_iff.1 hfirst
    obtain ⟨a, b, mid, hlt, -, ha, hb⟩ :=
      exists_repeat (fun hup => h.head _ _ hup) (h.lt_of_linkedHead hhead) hother
    exact Nat.ne_of_lt hlt (h.distinct other a b mid ha hb)
  have hwalk := exists_descent_of_low h s.words.length (List.forall_mem_singleton.2 hnode)
    (List.forall_mem_singleton.2 hlow) .done
  exact hwalk

omit h in
/-- Looking back changes nothing on a walk that meets no node twice. -/
theorem descend?_eq {stack nodes seen : List Nat} {steps : Nat} (hwalk : s.Descent stack nodes)
    (hnodup : nodes.Nodup) (hseen : ∀ node ∈ nodes, node ∉ seen) (hsteps : nodes.length ≤ steps) :
    s.descend? steps seen stack = some (seen.reverse ++ nodes) := by
  induction hwalk generalizing seen steps with
  | done =>
    rw [List.append_nil]
    cases steps <;> rfl
  | @visit node stack rest hnode _ ih =>
    obtain ⟨steps, rfl⟩ := Nat.exists_eq_add_one_of_ne_zero (show steps ≠ 0 by
      rw [List.length_cons] at hsteps
      omega)
    obtain ⟨hnew, hnodup⟩ := List.nodup_cons.1 hnodup
    obtain ⟨hfresh, hlater⟩ := List.forall_mem_cons.1 hseen
    have hstill : ∀ other ∈ rest, other ∉ node :: seen := by
      intro other hother hmem
      rcases List.mem_cons.1 hmem with rfl | hold
      · exact hnew hother
      · exact hlater other hother hold
    rw [descend?, if_neg hfresh, getElem?_words hnode]
    show s.descend? steps (node :: seen) _ = _
    rw [ih hnodup hstill (Nat.le_of_succ_le_succ hsteps), List.reverse_cons, List.append_assoc]
    rfl

/-- The nodes of a subtree are found in the order of the walk, each of them once. -/
theorem exists_subtree? {node : Nat} (hnode : node < s.words.length) :
    ∃ nodes, s.subtree? node = some nodes ∧ s.Descent [node] nodes ∧ nodes.Nodup ∧
      ∀ other, other ∈ nodes ↔ ∃ steps, ascend s.linkedHead steps other = some node := by
  obtain ⟨nodes, hwalk⟩ := exists_descent h hnode
  have hnodup := nodup_descent h hwalk (List.pairwise_singleton _ node)
  have hmem : ∀ other, other ∈ nodes ↔ ∃ steps, ascend s.linkedHead steps other = some node := by
    intro other
    rw [mem_descent h hwalk]
    simp only [List.mem_singleton, exists_eq_left]
  -- every node but the first stands among the dependents of a word
  have hsub : nodes ⊆ node :: s.words.flatMap fun w => w.links.dependents := by
    intro other hother
    obtain ⟨steps, hsteps⟩ := (hmem other).1 hother
    cases steps with
    | zero =>
      cases hsteps
      exact List.mem_cons_self
    | succ steps =>
      obtain ⟨head, hhead, -⟩ := Option.bind_eq_some_iff.1 hsteps
      refine List.mem_cons_of_mem _ (List.mem_flatMap.2 ⟨_, wordAt_mem (h.head _ _ hhead), ?_⟩)
      exact h.mem_dependents.2 hhead
  have hlength := (hnodup.subperm hsub).length_le
  rw [List.length_cons] at hlength
  refine ⟨nodes, ?_, hwalk, hnodup, hmem⟩
  exact descend?_eq hwalk hnodup (fun _ _ => List.not_mem_nil) hlength

end Sound
end Treebank.Sentence
