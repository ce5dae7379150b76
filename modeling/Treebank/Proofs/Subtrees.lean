import Treebank.Proofs.StaleLinks

/-! Upwards and downwards in a linked sentence.

A walk over a stack of nodes is a walk over each of them in turn (`Descent.append`), and there is
only one (`Descent.eq`). So what is found below a node is the node and then what is found below
each of its dependents, and below the topmost nodes together are all nodes (`subtree_preorder`).
Going up leads through the nodes below which a node is found, and one word further down is one link
more (`navigation_agrees`). -/
namespace Treebank.Sentence

theorem IsBuilt.linksSound {s : Sentence} (h : s.IsBuilt) : s.LinksSound := by
  have hsound := s.linksSound_relink
  rw [build_eq_ok_iff.1 h] at hsound
  exact hsound

/-! ### Walks -/

theorem Descent.append {s : Sentence} {stack more nodes others : List Nat}
    (h : s.Descent stack nodes) (hmore : s.Descent more others) :
    s.Descent (stack ++ more) (nodes ++ others) := by
  induction h with
  | done => exact hmore
  | visit hnode _ ih =>
    rw [List.append_assoc] at ih
    exact .visit hnode ih

theorem Descent.eq {s : Sentence} {stack nodes others : List Nat} (h : s.Descent stack nodes)
    (hother : s.Descent stack others) : nodes = others := by
  induction h generalizing others with
  | done =>
    cases hother
    rfl
  | visit _ _ ih =>
    cases hother with
    | visit _ hrest => rw [ih hrest]

/-- The nodes that hang from nothing. -/
def topmost (s : Sentence) : List Nat :=
  (List.range s.words.length).filter fun node => s.linkedHead node = none

section Sound
variable {s : Sentence} (h : s.LinksSound)

include h

/-- The nodes of a stack are walked one after the other. -/
theorem exists_subtrees {stack : List Nat} (hstack : ∀ node ∈ stack, node < s.words.length) :
    ∃ parts, stack.mapM s.subtree? = some parts ∧ s.Descent stack parts.flatten := by
  induction stack with
  | nil => exact ⟨[], rfl, .done⟩
  | cons node rest ih =>
    obtain ⟨hnode, hrest⟩ := List.forall_mem_cons.1 hstack
    obtain ⟨part, hpart, hwalk, -, -⟩ := exists_subtree? h hnode
    obtain ⟨parts, hparts, hwalks⟩ := ih hrest
    refine ⟨part :: parts, ?_, hwalk.append hwalks⟩
    rw [List.mapM_cons, hpart, hparts]
    rfl

/-- Below a node are the node and what is below its dependents, in their order. -/
theorem subtree?_eq_cons {node : Nat} (hnode : node < s.words.length) :
    ∃ parts, (s.wordAt node).links.dependents.mapM s.subtree? = some parts ∧
      s.subtree? node = some (node :: parts.flatten) ∧ (node :: parts.flatten).Nodup := by
  obtain ⟨parts, hparts, hwalks⟩ := exists_subtrees h (h.dependents node)
  obtain ⟨nodes, hnodes, hwalk, hnodup, -⟩ := exists_subtree? h hnode
  have hself : s.Descent [node] (node :: parts.flatten) := by
    refine .visit hnode ?_
    rw [List.append_nil]
    exact hwalks
  cases hwalk.eq hself
  exact ⟨parts, hparts, hnodes, hnodup⟩

/-- No node is below two that hang from nothing, and every node is below one. -/
theorem exists_topmost_subtrees : ∃ parts, s.topmost.mapM s.subtree? = some parts ∧
    parts.flatten.Perm (List.range s.words.length) := by
  have htop : ∀ node ∈ s.topmost, node < s.words.length := by
    intro node hnode
    exact List.mem_range.1 (List.mem_of_mem_filter hnode)
  obtain ⟨parts, hparts, hwalk⟩ := exists_subtrees h htop
  have hapart : s.topmost.Pairwise fun a b => ∀ steps more other,
      ascend s.linkedHead steps other = some a → ascend s.linkedHead more other ≠ some b := by
    refine (List.nodup_range.filter _).imp_of_mem fun ha hb hne steps more other hsteps hmore => ?_
    have ha := of_decide_eq_true (List.mem_filter.1 ha).2
    have hb := of_decide_eq_true (List.mem_filter.1 hb).2
    exact hne (eq_of_ascend_top hsteps ha hmore hb)
  refine ⟨parts, hparts, ?_⟩
  rw [List.perm_ext_iff_of_nodup (nodup_descent h hwalk hapart) List.nodup_range]
  intro node
  rw [mem_descent h hwalk, List.mem_range]
  constructor
  · rintro ⟨top, htopmost, steps, hsteps⟩
    cases steps with
    | zero =>
      cases hsteps
      exact htop _ htopmost
    | succ steps =>
      obtain ⟨head, hhead, -⟩ := Option.bind_eq_some_iff.1 hsteps
      exact h.lt_of_linkedHead hhead
  · intro hnode
    obtain ⟨steps, -, top, hsteps, hnone⟩ :=
      exists_top (fun hhead => h.head _ _ hhead) h.not_onCircle hnode
    have hlt := ascend_lt (fun hhead => h.head _ _ hhead) hnode hsteps
    exact ⟨top, List.mem_filter.2 ⟨List.mem_range.2 hlt, decide_eq_true hnone⟩, steps, hsteps⟩

/-! ### Ways up -/

/-- The nodes above a node are no longer above one another, and the last hangs from nothing. -/
theorem above_of_ascend {node : Nat} {above : List Nat}
    (hnodes : ∀ i, above[i]? = ascend s.linkedHead (i + 1) node) :
    (node :: above).Nodup ∧ s.linkedHead (above.getLast?.getD node) = none := by
  have hway : ∀ i, (node :: above)[i]? = ascend s.linkedHead i node := by
    intro i
    cases i with
    | zero => rfl
    | succ i => exact hnodes i
  constructor
  · rw [List.nodup_iff_getElem?_ne_getElem?]
    intro i j hlt hj heq
    rw [hway, hway] at heq
    obtain ⟨mid, hmid⟩ := Option.isSome_iff_exists.1
      (show (ascend s.linkedHead j node).isSome by rw [← hway, List.getElem?_eq_getElem hj]; rfl)
    exact Nat.ne_of_lt hlt (h.distinct node i j mid (heq.trans hmid) hmid)
  · have hend := hnodes above.length
    rw [List.getElem?_eq_none (Nat.le_refl _), ascend_succ, ascend_length hnodes] at hend
    exact hend.symm

/-- One link further down there is one more node above, and the topmost is the same. -/
theorem depth?_of_linkedHead {node head : Nat} (hhead : s.linkedHead node = some head) :
    ∃ upper, s.depth? head = some upper ∧ s.depth? node = some (upper.map (· + 1)) := by
  have hnode := h.lt_of_linkedHead hhead
  obtain ⟨above, habove, hnodes⟩ := ancestors?_eq h hnode
  obtain ⟨higher, hhigher, hupper⟩ := ancestors?_eq h (h.head node head hhead)
  have hcons : above = head :: higher := by
    apply List.ext_getElem?
    intro i
    rw [hnodes, ascend, hhead]
    cases i with
    | zero => rfl
    | succ i => exact (hupper i).symm
  refine ⟨_, depth?_eq h (h.head node head hhead) hhigher hupper, ?_⟩
  rw [depth?_eq h hnode habove hnodes, hcons, List.getLast?_cons, Option.getD_some,
    List.length_cons]
  split <;> rfl

/-- What is below a node without being the node is one link or more below it. -/
theorem mem_subtree_and_ne_iff {node head : Nat} {nodes : List Nat}
    (hmem : ∀ other, other ∈ nodes ↔ ∃ steps, ascend s.linkedHead steps other = some head) :
    node ∈ nodes ∧ node ≠ head ↔ ∃ steps, ascend s.linkedHead (steps + 1) node = some head := by
  rw [hmem]
  constructor
  · rintro ⟨⟨steps, hsteps⟩, hne⟩
    cases steps with
    | zero => exact absurd (Option.some.inj hsteps) hne
    | succ steps => exact ⟨steps, hsteps⟩
  · rintro ⟨steps, hsteps⟩
    refine ⟨⟨steps + 1, hsteps⟩, ?_⟩
    rintro rfl
    exact h.not_onCircle node ⟨steps, hsteps⟩

end Sound

/-- **What is found below a node is the pre-order of its tree**: the node, then what is found below
its dependents, one after the other. No node comes twice, and below the nodes that hang from
nothing are all nodes. -/
theorem subtree_preorder {s : Sentence} (h : s.IsBuilt) :
    (∀ node < s.words.length, ∃ parts,
      (s.wordAt node).links.dependents.mapM s.subtree? = some parts ∧
      s.subtree? node = some (node :: parts.flatten) ∧ (node :: parts.flatten).Nodup) ∧
    ∃ parts, s.topmost.mapM s.subtree? = some parts ∧
      parts.flatten.Perm (List.range s.words.length) :=
  ⟨fun _ hnode => subtree?_eq_cons h.linksSound hnode, exists_topmost_subtrees h.linksSound⟩

/-- A tree with a node that has two dependents, and a second one that no root is above. -/
theorem subtree_preorder_of_six :
    let s := ((ofTokens
      [{ id := .word 1, head := some 3 }, { id := .word 2, head := some 1 },
       { id := .word 3, head := some 0 }, { id := .word 4, head := some 3 },
       { id := .word 5 }, { id := .word 6, head := some 5 }]).step .build).step
      (.annotate { sentId := some "six" })
    s.IsBuilt ∧ s.topmost = [2, 4] ∧ s.subtree? 2 = some [2, 0, 1, 3] ∧
      (∃ parts, (s.wordAt 2).links.dependents.mapM s.subtree? = some parts ∧
        s.subtree? 2 = some (2 :: parts.flatten) ∧ (2 :: parts.flatten).Nodup) ∧
      ∃ parts, s.topmost.mapM s.subtree? = some parts ∧ parts.flatten.Perm (List.range 6) := by
  intro s
  have hreachable : Reachable (fun _ => True) s :=
    .step (.step (.ofTokens fun _ _ => trivial) trivial) trivial
  have hbuilt : s.IsBuilt := (isBuilt_iff_of_reachable hreachable).2 (by decide +kernel)
  have hlength : s.words.length = 6 := by decide +kernel
  obtain ⟨hparts, hall⟩ := subtree_preorder hbuilt
  rw [hlength] at hparts hall
  exact ⟨hbuilt, by decide +kernel, by decide +kernel, hparts 2 (by decide), hall⟩

/-- **Ways up and ways down are the same.** A node is above another just when there are links from
one to the other, and just when the other is found below it. The nodes above a node are all on the
way up, the nearest first, and their number is the depth of the node if that way ends at a root. -/
theorem navigation_agrees {s : Sentence} (h : s.IsBuilt) :
    (∀ head < s.words.length, ∀ node < s.words.length, ∃ answer nodes,
      s.commands? head node = some answer ∧ s.subtree? head = some nodes ∧
      (answer = true ↔ ∃ steps, ascend s.linkedHead (steps + 1) node = some head) ∧
      (answer = true ↔ node ∈ nodes ∧ node ≠ head)) ∧
    (∀ node < s.words.length, ∃ above, s.ancestors? node = some above ∧
      (∀ i, above[i]? = ascend s.linkedHead (i + 1) node) ∧ (node :: above).Nodup ∧
      s.linkedHead (above.getLast?.getD node) = none ∧
      s.depth? node =
        some (if (s.wordAt (above.getLast?.getD node)).head = some 0 then some above.length
          else none)) ∧
    ∀ node head, s.linkedHead node = some head →
      ∃ upper, s.depth? head = some upper ∧ s.depth? node = some (upper.map (· + 1)) := by
  have hsound := h.linksSound
  refine ⟨fun head hhead node hnode => ?_, fun node hnode => ?_, fun node head hhead =>
    depth?_of_linkedHead hsound hhead⟩
  · obtain ⟨answer, hanswer, hiff⟩ := commands?_eq hsound hnode head
    obtain ⟨nodes, hnodes, -, -, hmem⟩ := exists_subtree? hsound hhead
    exact ⟨answer, nodes, hanswer, hnodes, hiff, hiff.trans (mem_subtree_and_ne_iff hsound hmem).symm⟩
  · obtain ⟨above, habove, hnodes⟩ := ancestors?_eq hsound hnode
    obtain ⟨hnodup, hlast⟩ := above_of_ascend hsound hnodes
    exact ⟨above, habove, hnodes, hnodup, hlast, depth?_eq hsound hnode habove hnodes⟩

/-- The node 1 is two links below the root, and no root is above the node 5. -/
theorem navigation_agrees_of_six :
    let s := ((ofTokens
      [{ id := .word 1, head := some 3 }, { id := .word 2, head := some 1 },
       { id := .word 3, head := some 0 }, { id := .word 4, head := some 3 },
       { id := .word 5 }, { id := .word 6, head := some 5 }]).step .build).step
      (.annotate { sentId := some "six" })
    s.IsBuilt ∧ s.ancestors? 1 = some [0, 2] ∧ s.depth? 1 = some (some 2) ∧
      s.depth? 5 = some none ∧ s.linkedHead 5 = some 4 ∧
      (∃ answer nodes, s.commands? 2 1 = some answer ∧ s.subtree? 2 = some nodes ∧
        (answer = true ↔ 1 ∈ nodes ∧ 1 ≠ 2)) ∧
      ∃ upper, s.depth? 4 = some upper ∧ s.depth? 5 = some (upper.map (· + 1)) := by
  intro s
  have hreachable : Reachable (fun _ => True) s :=
    .step (.step (.ofTokens fun _ _ => trivial) trivial) trivial
  have hbuilt : s.IsBuilt := (isBuilt_iff_of_reachable hreachable).2 (by decide +kernel)
  obtain ⟨hdown, -, hdepth⟩ := navigation_agrees hbuilt
  obtain ⟨answer, nodes, hanswer, hnodes, -, hiff⟩ :=
    hdown 2 (by decide +kernel) 1 (by decide +kernel)
  exact ⟨hbuilt, by decide +kernel, by decide +kernel, by decide +kernel, by decide +kernel,
    ⟨answer, nodes, hanswer, hnodes, hiff⟩, hdepth 5 4 (by decide +kernel)⟩

end Treebank.Sentence
