import Treebank.Proofs.Unlinked
import Treebank.Proofs.Words

/-! The links that a build makes.

Words are attached in the order of their nodes. `Attached` says what is there after so
many of them, and `Attached.step` that one more keeps to it; a word whose head is none
of the words stops the run (`attach_dangling`). `attachAll_cases` is the whole run, and
`build_linked` what it comes to: in a sentence that a build has linked, the links are
those of its heads (`Linked`). -/
namespace Treebank.Sentence

/-- The word has a head other than 0 that is no word of the sentence. -/
def Dangles (s : Sentence) (word : Word) (head : Nat) : Prop :=
  word.head = some head ∧ 0 < head ∧ (s.words.length < head ∨ ∀ other ∈ s.words, other.id ≠ head)

/-! ### Links as lists of nodes -/

/-- The nodes below `count` that hang from a node. -/
def below (s : Sentence) (count node : Nat) : List Nat :=
  (List.range count).filter (s.headNode? · = some node)

/-- Nodes filed under the ids of their words. -/
def fileById (s : Sentence) (nodes : List Nat) : IdMap Nat :=
  nodes.foldl (fun file node => file.insert (s.wordAt node).id node) ∅

/-- The nodes below `count` with head 0. -/
def tops (s : Sentence) (count : Nat) : List Nat :=
  (List.range count).filter fun node => (s.wordAt node).head = some 0

/-- How far the head of a word is away; 0 if it has none to be attached to. -/
def reach (s : Sentence) (node : Nat) : Nat :=
  match (s.wordAt node).head with
  | some (head + 1) => distance (s.wordAt node).id (head + 1)
  | _ => 0

def longestReach (s : Sentence) (count : Nat) : Nat :=
  (List.range count).foldl (fun longest node => max longest (s.reach node)) 0

theorem nodup_below (s : Sentence) (count node : Nat) : (s.below count node).Nodup :=
  List.nodup_range.filter _

theorem mem_below_iff {s : Sentence} {node head : Nat} :
    node ∈ s.below s.words.length head ↔ s.headNode? node = some head := by
  rw [below, List.mem_filter, List.mem_range, decide_eq_true_iff]
  exact ⟨And.right, fun h => ⟨(headNode?_lt h).1, h⟩⟩

theorem below_succ (s : Sentence) (count node : Nat) :
    s.below (count + 1) node =
      s.below count node ++ if s.headNode? count = some node then [count] else [] := by
  rw [below, List.range_succ, List.filter_append]
  congr 1
  by_cases h : s.headNode? count = some node <;> simp [h]

theorem fileById_append (s : Sentence) (nodes : List Nat) (node : Nat) :
    s.fileById (nodes ++ [node]) = (s.fileById nodes).insert (s.wordAt node).id node := by
  simp [fileById, List.foldl_append]

theorem tops_succ (s : Sentence) (count : Nat) :
    s.tops (count + 1) = s.tops count ++ if (s.wordAt count).head = some 0 then [count] else [] := by
  rw [tops, List.range_succ, List.filter_append]
  congr 1
  by_cases h : (s.wordAt count).head = some 0 <;> simp [h]

theorem longestReach_succ (s : Sentence) (count : Nat) :
    s.longestReach (count + 1) = max (s.longestReach count) (s.reach count) := by
  rw [longestReach, List.range_succ, List.foldl_append]
  rfl

/-! ### The same words under other links -/

theorem wordAt_unlinked (s : Sentence) (node : Nat) :
    s.unlinked.wordAt node = (s.wordAt node).unlinked := by
  rw [wordAt, wordAt, List.getD_eq_getElem?_getD, List.getD_eq_getElem?_getD]
  simp only [unlinked, List.getElem?_map]
  cases s.words[node]? <;> rfl

section Raw
variable {s t : Sentence} (h : t.unlinked = s.unlinked)

include h

theorem length_words_of_unlinked : t.words.length = s.words.length := by
  rw [← length_words_unlinked t, h, length_words_unlinked]

theorem id_wordAt_of_unlinked (node : Nat) : (t.wordAt node).id = (s.wordAt node).id := by
  have hword : (t.wordAt node).unlinked.id = (s.wordAt node).unlinked.id := by
    rw [← wordAt_unlinked, h, wordAt_unlinked]
  exact hword

theorem head_wordAt_of_unlinked (node : Nat) : (t.wordAt node).head = (s.wordAt node).head := by
  have hword : (t.wordAt node).unlinked.head = (s.wordAt node).unlinked.head := by
    rw [← wordAt_unlinked, h, wordAt_unlinked]
  exact hword

theorem nodeOf?_of_unlinked (id : Nat) : t.nodeOf? id = s.nodeOf? id := by
  rw [← nodeOf?_unlinked t, h, nodeOf?_unlinked]

theorem headNode?_of_unlinked (node : Nat) : t.headNode? node = s.headNode? node := by
  rw [← headNode?_unlinked t, h, headNode?_unlinked]

theorem cycles_of_unlinked : t.cycles = s.cycles := by
  rw [← cycles_unlinked t, h, cycles_unlinked]

end Raw

/-! ### One word -/

theorem dangles_iff {s : Sentence} {word : Word} {head : Nat} :
    s.Dangles word head ↔ word.head = some head ∧ 0 < head ∧
      (if s.words.length < head then none else s.nodeOf? head) = none := by
  unfold Dangles
  by_cases hlength : s.words.length < head
  · simp [hlength]
  · simp [hlength, nodeOf?_eq_none_iff]

section Attach
variable {s : Sentence} {node : Nat} (hnode : node < s.words.length)

include hnode

theorem attach_dangling {head : Nat} (h : s.Dangles (s.wordAt node) head) :
    s.attach node = .error (.headOutOfRange (s.wordAt node).id head s.words.length) := by
  obtain ⟨hhead, hpos, hnone⟩ := dangles_iff.1 h
  obtain ⟨head, rfl⟩ := Nat.exists_eq_add_one_of_ne_zero (Nat.ne_of_gt hpos)
  simp only [attach, getElem?_words hnode, hhead, hnone]

theorem attach_free (h : (s.wordAt node).head = none) : s.attach node = .ok s := by
  simp only [attach, getElem?_words hnode, h]

theorem attach_top (h : (s.wordAt node).head = some 0) :
    s.attach node = .ok (s.addRoot node) := by
  simp only [attach, getElem?_words hnode, h]

theorem attach_below {head up : Nat} (h : (s.wordAt node).head = some (head + 1))
    (hup : (if s.words.length < head + 1 then none else s.nodeOf? (head + 1)) = some up) :
    s.attach node = .ok { s.join node up (s.wordAt node).id with
      outline := { s.outline with
        maxHeadDistance :=
          max s.outline.maxHeadDistance (distance (s.wordAt node).id (head + 1)) } } := by
  simp only [attach, getElem?_words hnode, h, hup]

end Attach

theorem wordAt_modify (s : Sentence) (node : Nat) (hnode : node < s.words.length)
    (f : Word → Word) (i : Nat) :
    ({ s with words := s.words.modify node f } : Sentence).wordAt i =
      if node = i then f (s.wordAt i) else s.wordAt i := by
  simp only [wordAt, List.getD_eq_getElem?_getD, List.getElem?_modify]
  by_cases h : node = i
  · subst h
    simp [hnode]
  · simp [h]

/-- Joining changes the head link of one word and the dependents of one. -/
theorem links_join {s : Sentence} {node head : Nat} (hnode : node < s.words.length)
    (hhead : head < s.words.length) (id i : Nat) :
    ((s.join node head id).wordAt i).links =
      { position := (s.wordAt i).links.position
        head := if node = i then some head else (s.wordAt i).links.head
        dependents := (s.wordAt i).links.dependents ++ if head = i then [node] else []
        dependentsById :=
          if head = i then (s.wordAt i).links.dependentsById.insert id node
          else (s.wordAt i).links.dependentsById } := by
  have hattached := wordAt_modify s node hnode (fun w => { w with links.head := some head }) i
  have hjoined := wordAt_modify
    { s with words := s.words.modify node fun w => { w with links.head := some head } }
    head (by simpa using hhead)
    (fun w => { w with
      links.dependents := w.links.dependents ++ [node]
      links.dependentsById := w.links.dependentsById.insert id node }) i
  rw [hattached] at hjoined
  rw [join]
  refine (congrArg Word.links hjoined).trans ?_
  by_cases hi : node = i
  · by_cases hj : head = i <;> simp [hi, hj]
  · by_cases hj : head = i <;> simp [hi, hj]

/-! ### All words -/

/-- The sentence `t` is `s` with fresh links and the words at the nodes below `count` attached. -/
structure Attached (s : Sentence) (count : Nat) (t : Sentence) : Prop where
  unlinked : t.unlinked = s.unlinked
  head : ∀ node, (t.wordAt node).links.head = if node < count then s.headNode? node else none
  dependents : ∀ node, (t.wordAt node).links.dependents = s.below count node
  dependentsById : ∀ node,
    (t.wordAt node).links.dependentsById = s.fileById (s.below count node)
  root : t.outline.root? = t.outline.roots.head?
  roots : t.outline.roots = s.tops count
  maxHeadDistance : t.outline.maxHeadDistance = s.longestReach count

/-- A word that is attached to nothing leaves the links as they are. -/
theorem Attached.skip {s t : Sentence} {count : Nat} (h : Attached s count t)
    (hnone : s.headNode? count = none) (hreach : s.reach count = 0) {root? : Option Nat}
    {roots : List Nat} (hroot : root? = roots.head?)
    (hroots : roots = s.tops (count + 1)) :
    Attached s (count + 1) { t with outline.root? := root?, outline.roots := roots } := by
  have hbelow : ∀ node, s.below (count + 1) node = s.below count node := by
    intro node
    rw [below_succ, hnone]
    simp
  refine ⟨h.unlinked, fun node => ?_, fun node => ?_, fun node => ?_, hroot, hroots, ?_⟩
  · refine (h.head node).trans ?_
    by_cases hcount : node = count
    · simp [hcount, hnone]
    · have hlt : node < count + 1 ↔ node < count := by omega
      simp only [hlt]
  · exact (h.dependents node).trans (hbelow node).symm
  · rw [hbelow node]
    exact h.dependentsById node
  · refine h.maxHeadDistance.trans ?_
    rw [longestReach_succ, hreach, Nat.max_zero]

/-- A word that is attached to another adds its links to what is there. -/
theorem Attached.join {s t : Sentence} {count up : Nat} (h : Attached s count t)
    (hup : s.headNode? count = some up) (hhead : (s.wordAt count).head ≠ some 0)
    (longest : Nat) (hlongest : longest = s.longestReach (count + 1)) :
    Attached s (count + 1) { t.join count up (s.wordAt count).id with
      outline := { t.outline with maxHeadDistance := longest } } := by
  have hlength := length_words_of_unlinked h.unlinked
  obtain ⟨hcount, hlt⟩ := headNode?_lt hup
  have hlinks : ∀ node, ((t.join count up (s.wordAt count).id).wordAt node).links = _ :=
    links_join (by omega) (by omega) (s.wordAt count).id
  have hbelow : ∀ node, s.below (count + 1) node =
      s.below count node ++ if up = node then [count] else [] := by
    intro node
    rw [below_succ, hup]
    simp
  refine ⟨?_, fun node => ?_, fun node => ?_, fun node => ?_, h.root, ?_, hlongest⟩
  · exact (unlinked_join t count up _).trans h.unlinked
  · refine (congrArg Links.head (hlinks node)).trans ?_
    by_cases hnode : count = node
    · subst hnode
      simp [hup]
    · have hiff : node < count + 1 ↔ node < count := by omega
      simp only [if_neg hnode, hiff]
      exact h.head node
  · refine (congrArg Links.dependents (hlinks node)).trans ?_
    rw [hbelow node, h.dependents node]
  · refine (congrArg Links.dependentsById (hlinks node)).trans ?_
    rw [hbelow node, h.dependentsById node]
    by_cases hnode : up = node
    · simp only [if_pos hnode, fileById_append]
    · simp only [if_neg hnode, List.append_nil]
  · refine h.roots.trans ?_
    rw [tops_succ, if_neg hhead, List.append_nil]

/-- The next word is attached, unless its head is no word. -/
theorem Attached.step {s t : Sentence} {count : Nat} (h : Attached s count t)
    (hcount : count < s.words.length) (hfree : ∀ head, ¬ s.Dangles (s.wordAt count) head) :
    ∃ next, t.attach count = .ok next ∧ Attached s (count + 1) next := by
  have hlength := length_words_of_unlinked h.unlinked
  have hcount' : count < t.words.length := by omega
  have hid := id_wordAt_of_unlinked h.unlinked count
  have hhead := head_wordAt_of_unlinked h.unlinked count
  cases hs : (s.wordAt count).head with
  | none =>
    have hnone : s.headNode? count = none := by
      rw [headNode?, getElem?_words hcount, Option.bind_eq_bind, Option.bind_some, hs]
      rfl
    refine ⟨t, attach_free hcount' (hhead.trans hs), ?_⟩
    exact h.skip hnone (by rw [reach, hs]) h.root (by simp [tops_succ, hs, h.roots])
  | some head =>
    cases head with
    | zero =>
      have hnone : s.headNode? count = none := by
        rw [headNode?, getElem?_words hcount, Option.bind_eq_bind, Option.bind_some, hs]
        rfl
      refine ⟨_, attach_top hcount' (hhead.trans hs), ?_⟩
      refine h.skip hnone (by rw [reach, hs]) ?_ (by simp [tops_succ, hs, h.roots])
      rw [h.root, List.head?_append]
      cases t.outline.roots.head? <;> rfl
    | succ head =>
      have hfound : (if s.words.length < head + 1 then none else s.nodeOf? (head + 1)) ≠ none := by
        intro hnone
        exact hfree (head + 1) (dangles_iff.2 ⟨hs, Nat.succ_pos head, hnone⟩)
      obtain ⟨up, hup⟩ := Option.ne_none_iff_exists'.1 hfound
      have hnode : s.headNode? count = some up := by
        refine headNode?_eq_some_iff.2 ⟨hcount, head + 1, hs, Nat.succ_ne_zero head, ?_⟩
        by_cases hlong : s.words.length < head + 1
        · simp [hlong] at hup
        · simpa [hlong] using hup
      have hup' : (if t.words.length < head + 1 then none else t.nodeOf? (head + 1)) = some up := by
        rw [hlength, nodeOf?_of_unlinked h.unlinked]
        exact hup
      refine ⟨_, attach_below hcount' (hhead.trans hs) hup', ?_⟩
      rw [hid]
      exact h.join hnode (by simp [hs]) _ (by rw [longestReach_succ, reach, hs, h.maxHeadDistance])

/-- The first word whose head is no word stops the run; without one all words are attached. -/
theorem attachAll_cases {s t : Sentence} {count rest : Nat} (h : Attached s count t)
    (hrest : count + rest = s.words.length) :
    (∃ node head, count ≤ node ∧ node < s.words.length ∧ s.Dangles (s.wordAt node) head ∧
        (∀ earlier, count ≤ earlier → earlier < node →
          ∀ head, ¬ s.Dangles (s.wordAt earlier) head) ∧
        (t.attachAll (List.range' count rest)).2 =
          some (.headOutOfRange (s.wordAt node).id head s.words.length)) ∨
      (∀ node, count ≤ node → node < s.words.length →
          ∀ head, ¬ s.Dangles (s.wordAt node) head) ∧
        ∃ attached, t.attachAll (List.range' count rest) = (attached, none) ∧
          Attached s s.words.length attached := by
  -- the words left are counted down; what is attached so far is kept by `Attached`
  induction rest generalizing count t with
  | zero =>
    refine .inr ⟨fun node hle hlt => absurd hlt (by omega), t, rfl, ?_⟩
    rw [← hrest]
    exact h
  | succ rest ih =>
    rw [List.range'_succ]
    by_cases hdangles : ∃ head, s.Dangles (s.wordAt count) head
    · obtain ⟨head, hdangles⟩ := hdangles
      refine .inl ⟨count, head, Nat.le_refl count, by omega, hdangles, fun earlier hle hlt =>
        absurd hlt (by omega), ?_⟩
      have hlength := length_words_of_unlinked h.unlinked
      have hdangles' : t.Dangles (t.wordAt count) head := by
        rw [dangles_iff, head_wordAt_of_unlinked h.unlinked, hlength, nodeOf?_of_unlinked h.unlinked]
        exact dangles_iff.1 hdangles
      rw [attachAll, attach_dangling (by omega) hdangles', id_wordAt_of_unlinked h.unlinked, hlength]
    · have hfree : ∀ head, ¬ s.Dangles (s.wordAt count) head :=
        fun head hhead => hdangles ⟨head, hhead⟩
      obtain ⟨next, hnext, hattached⟩ := h.step (by omega) hfree
      rw [attachAll, hnext]
      rcases ih hattached (by omega) with ⟨node, head, hle, hlt, hnode, hearlier, herror⟩ | ⟨hall, hdone⟩
      · refine .inl ⟨node, head, by omega, hlt, hnode, fun earlier hge hlt' => ?_, herror⟩
        rcases Nat.lt_or_eq_of_le hge with hgt | rfl
        · exact hearlier earlier hgt hlt'
        · exact hfree
      · refine .inr ⟨fun node hge hlt => ?_, hdone⟩
        rcases Nat.lt_or_eq_of_le hge with hgt | rfl
        · exact hall node hgt hlt
        · exact hfree

/-! ### A build -/

/-- The links are those of the heads. -/
structure Linked (s : Sentence) : Prop where
  head : ∀ node, (s.wordAt node).links.head = s.headNode? node
  dependents : ∀ node, (s.wordAt node).links.dependents = s.below s.words.length node
  dependentsById : ∀ node,
    (s.wordAt node).links.dependentsById = s.fileById (s.below s.words.length node)
  root : s.outline.root? = s.outline.roots.head?
  roots : s.outline.roots = s.tops s.words.length
  maxHeadDistance : s.outline.maxHeadDistance = s.longestReach s.words.length

theorem getElem?_placeAll (position : Nat) (words : List Word) (empties : IdMap (List EmptyNode))
    (i : Nat) : ∃ position',
      (Word.placeAll position words empties).1[i]? =
        words[i]?.map fun w => { w with links.position := position' } := by
  induction words generalizing position empties i with
  | nil => exact ⟨0, rfl⟩
  | cons word rest ih =>
    cases i with
    | zero => exact ⟨position, rfl⟩
    | succ i =>
      rw [Word.placeAll, List.getElem?_cons_succ, List.getElem?_cons_succ]
      exact ih _ _ i

/-- Before the first word is attached no word has a link. -/
theorem attached_zero (s : Sentence) : Attached s 0 s.unlinked.place := by
  have hlinks : ∀ node, ∃ position,
      (s.unlinked.place.wordAt node).links = ({ position } : Links) := by
    intro node
    obtain ⟨position, hword⟩ := getElem?_placeAll (1 + (s.unlinked.emptiesAt 0).length)
      s.unlinked.words (s.unlinked.empties.modify 0 (EmptyNode.placeAll 1)) node
    rw [wordAt, List.getD_eq_getElem?_getD]
    simp only [place, hword]
    cases hnode : s.unlinked.words[node]? with
    | none => exact ⟨0, rfl⟩
    | some word =>
      obtain ⟨other, _, rfl⟩ := List.mem_map.1 (List.mem_of_getElem? hnode)
      exact ⟨position, rfl⟩
  refine ⟨?_, fun node => ?_, fun node => ?_, fun node => ?_, rfl, rfl, rfl⟩
  · rw [unlinked_place, unlinked_unlinked]
  all_goals
    obtain ⟨position, hposition⟩ := hlinks node
    rw [hposition]
    rfl

theorem wordAt_resolve (s : Sentence) (node : Nat) :
    s.resolve.wordAt node =
      { s.wordAt node with toColumns := (s.wordAt node).toColumns.resolve s.find? } := by
  rw [wordAt, wordAt, List.getD_eq_getElem?_getD, List.getD_eq_getElem?_getD]
  simp only [resolve, List.getElem?_map]
  cases s.words[node]? <;> rfl

/-- When all words are attached, the links are those of the heads. -/
theorem Attached.linked {s t : Sentence} (h : Attached s s.words.length t) : t.resolve.Linked := by
  have hraw : t.resolve.unlinked = s.unlinked := (unlinked_resolve t).trans h.unlinked
  have hlength := length_words_of_unlinked hraw
  have hhead : ∀ node, t.resolve.headNode? node = s.headNode? node := headNode?_of_unlinked hraw
  have hbelow : ∀ node, t.resolve.below t.resolve.words.length node =
      s.below s.words.length node := by
    intro node
    simp only [below, hlength, hhead]
  refine ⟨fun node => ?_, fun node => ?_, fun node => ?_, h.root, ?_, ?_⟩
  · rw [wordAt_resolve, hhead]
    refine (h.head node).trans ?_
    by_cases hnode : node < s.words.length
    · rw [if_pos hnode]
    · rw [if_neg hnode]
      cases hup : s.headNode? node with
      | none => rfl
      | some up => exact absurd (headNode?_lt hup).1 hnode
  · rw [wordAt_resolve, hbelow]
    exact h.dependents node
  · rw [wordAt_resolve, hbelow]
    refine (h.dependentsById node).trans ?_
    simp only [fileById, id_wordAt_of_unlinked hraw]
  · refine h.roots.trans ?_
    simp only [tops, hlength, head_wordAt_of_unlinked hraw]
  · refine h.maxHeadDistance.trans ?_
    simp only [longestReach, reach, hlength, head_wordAt_of_unlinked hraw,
      id_wordAt_of_unlinked hraw]

/-- A build stops at the first word whose head is no word. If there is none, the words are linked
and their heads decide. -/
theorem relink_cases (s : Sentence) :
    (∃ node head, node < s.words.length ∧ s.Dangles (s.wordAt node) head ∧
        (∀ earlier < node, ∀ head, ¬ s.Dangles (s.wordAt earlier) head) ∧
        s.relink.2 = some (.headOutOfRange (s.wordAt node).id head s.words.length)) ∨
      (∀ node < s.words.length, ∀ head, ¬ s.Dangles (s.wordAt node) head) ∧
        ∃ linked : Sentence, linked.Linked ∧ linked.unlinked = s.unlinked ∧
          s.relink = match linked.fault? with
            | some error => (linked.unlinked, some error)
            | none => ({ linked with outline.built := true }, none) := by
  have hcases := attachAll_cases (attached_zero s) (Nat.zero_add s.words.length)
  rw [← List.range_eq_range'] at hcases
  rcases hcases with ⟨node, head, -, hlt, hdangles, hearlier, herror⟩ | ⟨hfree, t, hrun, hattached⟩
  · refine .inl ⟨node, head, hlt, hdangles, fun earlier => hearlier earlier (Nat.zero_le _), ?_⟩
    cases hrun : s.unlinked.place.attachAll (List.range s.words.length) with
    | mk stuck error =>
      rw [hrun] at herror
      cases herror
      simp only [relink, link, length_words_unlinked, hrun]
  · refine .inr ⟨fun node => hfree node (Nat.zero_le _), t.resolve, hattached.linked, ?_, ?_⟩
    · exact (unlinked_resolve t).trans hattached.unlinked
    · cases hfault : t.resolve.fault? <;>
        simp only [relink, link, length_words_unlinked, hrun, hfault]

theorem build_eq_ok_iff {s linked : Sentence} : s.build = .ok linked ↔ s.relink = (linked, none) := by
  unfold build
  rcases s.relink with ⟨t, _ | error⟩ <;> simp

theorem build_eq_error_iff {s : Sentence} {error : TreeError} :
    s.build = .error error ↔ s.relink.2 = some error := by
  unfold build
  rcases s.relink with ⟨t, _ | error⟩ <;> simp

/-- What a build has linked has the links of its heads and is else unchanged. -/
theorem build_linked {s linked : Sentence} (h : s.build = .ok linked) :
    linked.Linked ∧ linked.unlinked = s.unlinked := by
  have hrelink := build_eq_ok_iff.1 h
  rcases relink_cases s with ⟨_, _, _, _, _, herror⟩ | ⟨_, t, hlinked, hraw, hrun⟩
  · rw [hrelink] at herror
    cases herror
  · cases hfault : t.fault? with
    | some error =>
      rw [hfault, hrelink] at hrun
      cases hrun
    | none =>
      rw [hfault, hrelink] at hrun
      cases hrun
      exact ⟨⟨hlinked.head, hlinked.dependents, hlinked.dependentsById, hlinked.root,
        hlinked.roots, hlinked.maxHeadDistance⟩, hraw⟩

/-- A build that succeeds has attached all words and then resolved all edges. -/
theorem exists_attached {s linked : Sentence} (h : s.build = .ok linked) :
    ∃ attached, s.unlinked.place.attachAll (List.range s.words.length) = (attached, none) ∧
      linked = { attached.resolve with outline.built := true } := by
  have hrelink := build_eq_ok_iff.1 h
  cases hrun : s.unlinked.place.attachAll (List.range s.words.length) with
  | mk attached error =>
    simp only [relink, link, length_words_unlinked, hrun] at hrelink
    cases error with
    | some error => cases hrelink
    | none =>
      cases hfault : attached.resolve.fault? with
      | some error =>
        simp only [hfault] at hrelink
        cases hrelink
      | none =>
        simp only [hfault] at hrelink
        cases hrelink
        exact ⟨attached, rfl, rfl⟩

end Treebank.Sentence
