import Treebank.Proofs.NewIds

/-! References in a closed sentence.

A sentence is closed when words have different ids other than 0 and every number that refers to a
word, as a head, as an end of a range or as an anchor, is the id of one. Then a number and the one
it becomes refer to the word at the same node (`sameWord_newId`), and which number it becomes does
not depend on how the words were numbered before (`newId_newId`). So a closed sentence is
renumbered without a loss: all references are kept, and no trace of the old ids is
(`renumber_closed`). -/
namespace Treebank

/-! ### Closed sentences -/

namespace Sentence

/-- The number is the id of a word, or 0, which refers to none. -/
def Resolves (s : Sentence) (ref : Nat) : Prop := ref = 0 ∨ ref ∈ s.words.map (·.id)

instance (s : Sentence) (ref : Nat) : Decidable (s.Resolves ref) :=
  inferInstanceAs (Decidable (_ ∨ _))

/-- Whatever refers to a word refers to one that is there. -/
structure IsClosed (s : Sentence) : Prop extends s.IsAnchored where
  heads : ∀ word ∈ s.words, ∀ head ∈ word.head, s.Resolves head
  edges : ∀ word ∈ s.words, ∀ dep ∈ word.deps, s.Resolves dep.head
  ends : ∀ entry ∈ s.multiwords.entries, entry.2.last ∈ s.words.map (·.id)
  nodeEdges : ∀ entry ∈ s.empties.entries, ∀ node ∈ entry.2, ∀ dep ∈ node.deps, s.Resolves dep.head

theorem IsAnchored.resolves {s : Sentence} (h : s.IsAnchored) {entry : Nat × List EmptyNode}
    (hentry : entry ∈ s.empties.entries) : s.Resolves entry.1 :=
  or_iff_not_imp_left.2 (h.empties entry hentry)

theorem IsAnchored.positive {s : Sentence} (h : s.IsAnchored) : ∀ word ∈ s.words, 0 < word.id :=
  pos_of_zero_not_mem h.start

/-- Numbers in two sentences that refer to the words at one node, or both to none. -/
structure SameWord (s t : Sentence) (old new : Nat) : Prop where
  zero : new = 0 ↔ old = 0
  node : t.nodeOf? new = s.nodeOf? old

end Sentence

/-! ### What follows its references -/

section Follows
variable (refers : Nat → Nat → Prop)

/-- The edge is from a head that the old head has become, and is the old edge else. -/
def EnhancedDep.Follows (old new : EnhancedDep) : Prop :=
  refers old.head new.head ∧ new = { old with head := new.head }

/-- The heads are what the old heads have become; the id is new, and all else is old. -/
def Word.Follows (old new : Word) : Prop :=
  Option.Rel refers old.head new.head ∧
    List.Forall₂ (EnhancedDep.Follows refers) old.deps new.deps ∧
    new = { old with id := new.id, head := new.head, deps := new.deps }

def Multiword.Follows (old new : Multiword) : Prop :=
  refers old.first new.first ∧ refers old.last new.last ∧
    new = { old with first := new.first, last := new.last }

def EmptyNode.Follows (old new : EmptyNode) : Prop :=
  refers old.anchor new.anchor ∧ List.Forall₂ (EnhancedDep.Follows refers) old.deps new.deps ∧
    new = { old with anchor := new.anchor, deps := new.deps }

end Follows

/-- The sentence `t` is `s` with its words numbered from `first` on: references go with the words
that they are to, each list of empty nodes is kept in its order, and nothing else changes. -/
structure Sentence.Follows (s t : Sentence) (first : Nat) : Prop where
  words : List.Forall₂ (Word.Follows (s.SameWord t)) s.words t.words
  ids : ∀ node < s.words.length, (t.wordAt node).id = first + node
  ranges : ∀ old ∈ s.multiwords.entries, ∃ new ∈ t.multiwords.entries,
    s.SameWord t old.1 new.1 ∧ Multiword.Follows (s.SameWord t) old.2 new.2
  noOtherRange : t.multiwords.size = s.multiwords.size
  empties : ∀ old ∈ s.empties.entries, ∃ new ∈ t.empties.entries,
    s.SameWord t old.1 new.1 ∧ List.Forall₂ (EmptyNode.Follows (s.SameWord t)) old.2 new.2
  noOtherAnchor : t.empties.size = s.empties.size
  metadata : t.metadata = s.metadata
  outline : t.outline = { s.outline with built := false }

/-! ### Numbers of a closed sentence -/

namespace Sentence

section Numbers
variable {s : Sentence} (h : s.IsAnchored) {first ref : Nat}

include h

/-- The number of a word is its place among the words counted from the first number. -/
theorem exists_node (first : Nat) (href : ref ∈ s.words.map (·.id)) :
    ∃ node < s.words.length, s.nodeOf? ref = some node ∧
      s.newId first ref = wrappedSum first node := by
  obtain ⟨word, hword, rfl⟩ := List.mem_map.1 href
  obtain ⟨node, hnode, rfl⟩ := mem_words_iff.1 hword
  exact ⟨node, hnode, nodeOf?_id h.ids hnode, newId_id h.ids hnode (h.positive _ hword)⟩

variable (hfits : s.FitsFrom first)

include hfits

theorem ids_renumber : (s.renumber first).words.map (·.id) = List.range' first s.words.length := by
  apply List.ext_getElem
  · simp
  · intro node hnode hrange
    rw [List.length_map] at hnode
    have hid : ((s.renumber first).wordAt node).id = first + node :=
      id_renumber h.ids hfits h.positive (by simpa using hnode)
    rw [wordAt_eq (List.getElem?_eq_getElem hnode)] at hid
    rw [List.getElem_map, hid, List.getElem_range', Nat.one_mul]

theorem mem_ids_renumber (href : ref ∈ s.words.map (·.id)) :
    s.newId first ref ∈ (s.renumber first).words.map (·.id) := by
  obtain ⟨node, hnode, -, hnew⟩ := exists_node h first href
  rw [ids_renumber h hfits, hnew, wrappedSum_eq (hfits node hnode), List.mem_range'_1]
  omega

theorem resolves_renumber (href : s.Resolves ref) :
    (s.renumber first).Resolves (s.newId first ref) := by
  rcases href with rfl | href
  · exact .inl rfl
  · exact .inr (mem_ids_renumber h hfits href)

variable (hfirst : 1 ≤ first)

include hfirst

theorem zero_not_mem_ids_renumber : 0 ∉ (s.renumber first).words.map (·.id) := by
  rw [ids_renumber h hfits, List.mem_range'_1]
  omega

/-- A reference is to the same word before and after. -/
theorem sameWord_newId (href : s.Resolves ref) :
    s.SameWord (s.renumber first) ref (s.newId first ref) := by
  rcases href with rfl | href
  · refine ⟨Iff.rfl, ?_⟩
    have hnone : ∀ t : Sentence, 0 ∉ t.words.map (·.id) → t.nodeOf? 0 = none := by
      intro t hzero
      rw [nodeOf?_eq_none_iff]
      exact fun word hword heq => hzero (heq ▸ List.mem_map_of_mem (f := (·.id)) hword)
    rw [newId_zero, hnone s h.start, hnone _ (zero_not_mem_ids_renumber h hfits hfirst)]
  · obtain ⟨node, hnode, hold, hnew⟩ := exists_node h first href
    rw [wrappedSum_eq (hfits node hnode)] at hnew
    refine ⟨iff_of_false ?_ fun hzero => h.start (hzero ▸ href), ?_⟩
    · omega
    · rw [hold, hnew, nodeOf?_renumber h.ids hfits h.positive hnode]

/-- Two references that are not the same do not become the same. -/
theorem newId_inj_of_resolves {other : Nat} (href : s.Resolves ref) (hother : s.Resolves other)
    (heq : s.newId first ref = s.newId first other) : ref = other := by
  have hstays : ∀ {a b}, s.Names a → s.Resolves b → a ≠ b → s.newId first a ≠ s.newId first b := by
    intro a b ha hb hne hmeets
    obtain ⟨hnot, hnew⟩ := newId_eq_of_ne hfits.length_le ha hne hmeets
    -- the other one is 0, since all other references are to words
    have hzero : b = 0 := by
      refine hb.resolve_right fun hmem => hnot ?_
      obtain ⟨word, hword, rfl⟩ := List.mem_map.1 hmem
      exact ⟨Nat.ne_of_gt (h.positive word hword), word, hword, rfl⟩
    have hpos := newId_pos hfirst hfits (Nat.pos_of_ne_zero ha.1)
    omega
  by_contra hne
  rcases names_or_names hne heq with hnames | hnames
  · exact hstays hnames hother hne heq
  · exact hstays hnames href (Ne.symm hne) heq.symm

/-- Renumbered once more, a reference gets the number that it would have got at once. -/
theorem newId_newId (href : s.Resolves ref) (again : Nat) :
    (s.renumber first).newId again (s.newId first ref) = s.newId again ref := by
  rcases href with rfl | href
  · rfl
  · obtain ⟨node, hnode, hold, hnew⟩ := exists_node h first href
    have hdistinct : ((s.renumber first).words.map (·.id)).Nodup := by
      rw [ids_renumber h hfits]
      exact List.nodup_range'
    have hfound : (s.renumber first).nodeOf? (first + node) = some node :=
      nodeOf?_renumber h.ids hfits h.positive hnode
    rw [hnew, wrappedSum_eq (hfits node hnode), newId_of_nodeOf? hdistinct hfound (by omega),
      newId_of_nodeOf? h.ids hold (Nat.pos_of_ne_zero fun hzero => h.start (hzero ▸ href))]

end Numbers

/-! ### Renumbering a closed sentence -/

section Renumber
variable {s : Sentence} {first : Nat}

theorem IsAnchored.names (h : s.IsAnchored) {ref : Nat} (href : ref ∈ s.words.map (·.id)) :
    s.Names ref := by
  obtain ⟨word, hword, rfl⟩ := List.mem_map.1 href
  exact ⟨Nat.ne_of_gt (h.positive word hword), word, hword, rfl⟩

/-- Ranges that start at different words still do. -/
theorem nodup_starts (h : s.IsAnchored) (hcount : s.words.length ≤ Text.numberBound) :
    (s.multiwords.entries.map fun entry => s.newId first entry.1).Nodup :=
  (IdMap.nodup_newIds_iff s.multiwords).2 fun a ha b hb =>
    newId_inj hcount (h.names (h.ranges a ha)) (h.names (h.ranges b hb))

theorem mem_multiwords_renumber (h : s.IsAnchored) (hcount : s.words.length ≤ Text.numberBound)
    {new : Nat × Multiword} :
    new ∈ (s.renumber first).multiwords.entries ↔ ∃ old ∈ s.multiwords.entries,
      new = (s.newId first old.1, old.2.renumber (s.newId first)) := by
  rw [multiwords_renumber]
  exact IdMap.mem_file (nodup_starts h hcount)

theorem nodup_anchors (h : s.IsAnchored) (hfits : s.FitsFrom first) (hfirst : 1 ≤ first) :
    (s.empties.entries.map fun entry => s.newId first entry.1).Nodup :=
  (IdMap.nodup_newIds_iff s.empties).2 fun _ ha _ hb =>
    newId_inj_of_resolves h hfits hfirst (h.resolves ha) (h.resolves hb)

theorem mem_empties_renumber (h : s.IsAnchored) (hfits : s.FitsFrom first) (hfirst : 1 ≤ first)
    {new : Nat × List EmptyNode} :
    new ∈ (s.renumber first).empties.entries ↔ ∃ old ∈ s.empties.entries,
      new = (s.newId first old.1, old.2.map fun node =>
        node.renumber (s.newId first) (s.newId first node.anchor)) := by
  rw [empties_renumber (nodup_anchors h hfits hfirst)]
  exact IdMap.mem_file (nodup_anchors h hfits hfirst)

theorem isClosed_renumber (h : s.IsClosed) (hfits : s.FitsFrom first) (hfirst : 1 ≤ first) :
    (s.renumber first).IsClosed := by
  have hanchored := h.toIsAnchored
  constructor
  case toIsAnchored =>
    constructor
    case ids =>
      rw [ids_renumber hanchored hfits]
      exact List.nodup_range'
    case start => exact zero_not_mem_ids_renumber hanchored hfits hfirst
    case ranges =>
      intro new hnew
      obtain ⟨old, hold, rfl⟩ := (mem_multiwords_renumber hanchored hfits.length_le).1 hnew
      exact mem_ids_renumber hanchored hfits (h.ranges old hold)
    case empties =>
      intro new hnew
      obtain ⟨old, hold, rfl⟩ := (mem_empties_renumber hanchored hfits hfirst).1 hnew
      exact (resolves_renumber hanchored hfits (h.resolves hold)).resolve_left
  case heads =>
    intro new hnew head hhead
    obtain ⟨old, hold, rfl⟩ := List.mem_map.1 hnew
    obtain ⟨oldHead, holdHead, rfl⟩ := Option.map_eq_some_iff.1 hhead
    exact resolves_renumber hanchored hfits (h.heads old hold oldHead holdHead)
  case edges =>
    intro new hnew dep hdep
    obtain ⟨old, hold, rfl⟩ := List.mem_map.1 hnew
    obtain ⟨oldDep, holdDep, rfl⟩ := List.mem_map.1 hdep
    exact resolves_renumber hanchored hfits (h.edges old hold oldDep holdDep)
  case ends =>
    intro new hnew
    obtain ⟨old, hold, rfl⟩ := (mem_multiwords_renumber hanchored hfits.length_le).1 hnew
    exact mem_ids_renumber hanchored hfits (h.ends old hold)
  case nodeEdges =>
    intro new hnew node hnode dep hdep
    obtain ⟨old, hold, rfl⟩ := (mem_empties_renumber hanchored hfits hfirst).1 hnew
    obtain ⟨oldNode, holdNode, rfl⟩ := List.mem_map.1 hnode
    obtain ⟨oldDep, holdDep, rfl⟩ := List.mem_map.1 hdep
    exact resolves_renumber hanchored hfits (h.nodeEdges old hold oldNode holdNode oldDep holdDep)

/-- Edges that resolve follow their words. -/
theorem forall₂_deps (h : s.IsAnchored) (hfits : s.FitsFrom first) (hfirst : 1 ≤ first)
    {columns : Columns} (hdeps : ∀ dep ∈ columns.deps, s.Resolves dep.head) :
    List.Forall₂ (EnhancedDep.Follows (s.SameWord (s.renumber first))) columns.deps
      (columns.renumberDeps (s.newId first)).deps := by
  rw [Columns.renumberDeps, List.forall₂_map_right_iff, List.forall₂_same]
  exact fun dep hdep => ⟨sameWord_newId h hfits hfirst (hdeps dep hdep), rfl⟩

theorem follows_renumber (h : s.IsClosed) (hfits : s.FitsFrom first) (hfirst : 1 ≤ first) :
    s.Follows (s.renumber first) first := by
  have hanchored := h.toIsAnchored
  constructor
  case words =>
    show List.Forall₂ _ s.words (s.words.map _)
    rw [List.forall₂_map_right_iff, List.forall₂_same]
    intro word hword
    refine ⟨?_, forall₂_deps hanchored hfits hfirst (h.edges word hword), rfl⟩
    show Option.Rel _ word.head (word.head.map (s.newId first))
    cases hhead : word.head with
    | none => exact .none
    | some head =>
      exact .some (sameWord_newId hanchored hfits hfirst (h.heads word hword head hhead))
  case ids => exact fun node hnode => id_renumber h.ids hfits h.positive hnode
  case ranges =>
    intro old hold
    have hstart := sameWord_newId hanchored hfits hfirst (.inr (h.ranges old hold))
    refine ⟨_, (mem_multiwords_renumber hanchored hfits.length_le).2 ⟨old, hold, rfl⟩, hstart,
      ?_, sameWord_newId hanchored hfits hfirst (.inr (h.ends old hold)), rfl⟩
    rwa [← s.rangesFiled old hold] at hstart
  case noOtherRange =>
    rw [multiwords_renumber]
    exact (IdMap.size_file_eq_iff s.multiwords).2 (nodup_starts hanchored hfits.length_le)
  case empties =>
    intro old hold
    have hanchor := sameWord_newId hanchored hfits hfirst (h.resolves hold)
    refine ⟨_, (mem_empties_renumber hanchored hfits hfirst).2 ⟨old, hold, rfl⟩, hanchor, ?_⟩
    rw [List.forall₂_map_right_iff, List.forall₂_same]
    intro node hnode
    refine ⟨?_, forall₂_deps hanchored hfits hfirst (h.nodeEdges old hold node hnode), rfl⟩
    rwa [← s.emptiesFiled old hold node hnode] at hanchor
  case noOtherAnchor =>
    rw [empties_renumber (nodup_anchors hanchored hfits hfirst)]
    exact (IdMap.size_file_eq_iff s.empties).2 (nodup_anchors hanchored hfits hfirst)
  case metadata => rfl
  case outline => rfl

/-! ### Renumbering once more -/

theorem renumberDeps_renumberDeps (h : s.IsAnchored) (hfits : s.FitsFrom first)
    (hfirst : 1 ≤ first) (again : Nat) {columns : Columns}
    (hdeps : ∀ dep ∈ columns.deps, s.Resolves dep.head) :
    ((columns.renumberDeps (s.newId first)).renumberDeps ((s.renumber first).newId again)) =
      columns.renumberDeps (s.newId again) := by
  simp only [Columns.renumberDeps, List.map_map]
  congr 1
  refine List.map_congr_left fun dep hdep => ?_
  simp only [Function.comp_apply, newId_newId h hfits hfirst (hdeps dep hdep)]

theorem renumber_word (h : s.IsClosed) (hfits : s.FitsFrom first) (hfirst : 1 ≤ first)
    (again : Nat) {word : Word} (hword : word ∈ s.words) :
    (word.renumber (s.newId first)).renumber ((s.renumber first).newId again) =
      word.renumber (s.newId again) := by
  have hid := newId_newId h.toIsAnchored hfits hfirst
    (.inr (List.mem_map_of_mem (f := (·.id)) hword)) again
  have hhead : (word.head.map (s.newId first)).map ((s.renumber first).newId again) =
      word.head.map (s.newId again) := by
    rw [Option.map_map]
    exact Option.map_congr fun head hhead =>
      newId_newId h.toIsAnchored hfits hfirst (h.heads word hword head hhead) again
  have hdeps := congrArg Columns.deps
    (renumberDeps_renumberDeps h.toIsAnchored hfits hfirst again (h.edges word hword))
  simp only [Columns.renumberDeps] at hdeps
  simp only [Word.renumber, Columns.renumberDeps, hid, hhead, hdeps]

theorem renumber_range (h : s.IsClosed) (hfits : s.FitsFrom first) (hfirst : 1 ≤ first)
    (again : Nat) {entry : Nat × Multiword} (hentry : entry ∈ s.multiwords.entries) :
    (entry.2.renumber (s.newId first)).renumber ((s.renumber first).newId again) =
      entry.2.renumber (s.newId again) := by
  have hstart := newId_newId h.toIsAnchored hfits hfirst (.inr (h.ranges entry hentry)) again
  have hend := newId_newId h.toIsAnchored hfits hfirst (.inr (h.ends entry hentry)) again
  rw [← s.rangesFiled entry hentry] at hstart
  simp only [Multiword.renumber, hstart, hend]

/-- The last anchor counts, whatever those before it were. -/
theorem renumber_node (h : s.IsClosed) (hfits : s.FitsFrom first) (hfirst : 1 ≤ first)
    (again : Nat) {entry : Nat × List EmptyNode} (hentry : entry ∈ s.empties.entries)
    {node : EmptyNode} (hnode : node ∈ entry.2) (anchor last : Nat) :
    (node.renumber (s.newId first) anchor).renumber ((s.renumber first).newId again) last =
      node.renumber (s.newId again) last := by
  have hdeps := renumberDeps_renumberDeps h.toIsAnchored hfits hfirst again
    (h.nodeEdges entry hentry node hnode)
  simp only [EmptyNode.renumber, hdeps]
  rfl

/-- The lists of empty nodes that come to follow one word are those that did at once, in their
order: no two but the list at 0 and that of one word can meet. -/
theorem filter_empties_renumber (h : s.IsAnchored) (hfits : s.FitsFrom first) (hfirst : 1 ≤ first)
    (again id : Nat) :
    (s.renumber first).empties.entries.filter ((s.renumber first).newId again ·.1 = id) =
      (s.empties.entries.filter (s.newId again ·.1 = id)).map fun entry =>
        (s.newId first entry.1, entry.2.map fun node =>
          node.renumber (s.newId first) (s.newId first node.anchor)) := by
  have hascending : ((s.empties.entries.filter (s.newId again ·.1 = id)).map fun entry =>
      (s.newId first entry.1, entry.2.map fun node =>
        node.renumber (s.newId first) (s.newId first node.anchor))).Pairwise
          fun a b => a.1 < b.1 := by
    rw [List.pairwise_map]
    refine (s.empties.ascending.filter _).imp_of_mem fun {a b} ha hb hlt => ?_
    obtain ⟨ha, hnew⟩ := List.mem_filter.1 ha
    obtain ⟨hb, hnewLater⟩ := List.mem_filter.1 hb
    have hb := (h.resolves hb).resolve_left (Nat.ne_of_gt (Nat.lt_of_le_of_lt (Nat.zero_le _) hlt))
    rcases h.resolves ha with hzero | ha
    · rw [hzero]
      exact newId_pos hfirst hfits (Nat.pos_of_ne_zero (h.names hb).1)
    · have hmeets := (of_decide_eq_true hnew).trans (of_decide_eq_true hnewLater).symm
      exact absurd (newId_inj hfits.length_le (h.names ha) (h.names hb) hmeets) (Nat.ne_of_lt hlt)
  have hascendingNew := (s.renumber first).empties.ascending.filter
    fun entry => decide ((s.renumber first).newId again entry.1 = id)
  have hnodup : ∀ {entries : List (Nat × List EmptyNode)},
      entries.Pairwise (fun a b => a.1 < b.1) → entries.Nodup := fun hlt =>
    hlt.imp fun hlt heq => Nat.ne_of_lt hlt (congrArg Prod.fst heq)
  refine List.Perm.eq_of_pairwise (fun a b _ _ hlt hgt => absurd hlt (Nat.lt_asymm hgt))
    hascendingNew hascending ?_
  rw [List.perm_ext_iff_of_nodup (hnodup hascendingNew) (hnodup hascending)]
  intro entry
  rw [List.mem_filter, List.mem_map, mem_empties_renumber h hfits hfirst]
  constructor
  · rintro ⟨⟨old, hold, rfl⟩, hnew⟩
    rw [newId_newId h hfits hfirst (h.resolves hold)] at hnew
    exact ⟨old, List.mem_filter.2 ⟨hold, hnew⟩, rfl⟩
  · rintro ⟨old, hold, rfl⟩
    obtain ⟨hold, hnew⟩ := List.mem_filter.1 hold
    refine ⟨⟨old, hold, rfl⟩, ?_⟩
    rwa [newId_newId h hfits hfirst (h.resolves hold)]

theorem empties_renumber_again (h : s.IsClosed) (hfits : s.FitsFrom first) (hfirst : 1 ≤ first)
    (again : Nat) :
    ((s.renumber first).renumber again).empties = (s.renumber again).empties := by
  apply IdMap.eq_of_get?
  intro id
  rw [get?_empties_renumber, get?_empties_renumber,
    filter_empties_renumber h.toIsAnchored hfits hfirst]
  simp only [List.map_eq_nil_iff, List.flatMap_map, List.map_map]
  split
  · rfl
  · refine congrArg some (List.flatMap_congr fun entry hentry => ?_)
    exact List.map_congr_left fun node hnode =>
      renumber_node h hfits hfirst again (List.mem_filter.1 hentry).1 hnode _ id

theorem renumber_again (h : s.IsClosed) (hfits : s.FitsFrom first) (hfirst : 1 ≤ first)
    (again : Nat) : (s.renumber first).renumber again = s.renumber again := by
  have hanchored := h.toIsAnchored
  have hmoved := (isClosed_renumber h hfits hfirst).toIsAnchored
  have hcount := hfits.length_le
  apply Sentence.ext
  · show (s.words.map _).map _ = s.words.map _
    rw [List.map_map]
    exact List.map_congr_left fun word hword => renumber_word h hfits hfirst again hword
  · have hnew : ((s.renumber first).multiwords.entries.map fun entry =>
        (s.renumber first).newId again entry.1).Nodup :=
      nodup_starts hmoved (by rwa [length_words_renumber])
    rw [multiwords_renumber, multiwords_renumber s again]
    rw [multiwords_renumber] at hnew ⊢
    refine IdMap.file_file (nodup_starts hanchored hcount) hnew (nodup_starts hanchored hcount)
      fun entry hentry => ?_
    rw [newId_newId hanchored hfits hfirst (.inr (h.ranges entry hentry)),
      renumber_range h hfits hfirst again hentry]
  · exact empties_renumber_again h hfits hfirst again
  · rfl
  · rfl

end Renumber

/-- **A closed sentence is renumbered without a loss**: it stays closed, everything that refers to a
word goes with it and nothing else changes, and only the last numbering of several counts. That is
so for every first number that leaves one for each word, whatever happens with sums that are none;
if it does not, the program ends where such sums end it. -/
theorem renumber_closed {s : Sentence} (h : s.IsClosed) {first : Nat} (hfirst : 1 ≤ first) :
    (s.FitsFrom first → ∀ overflow, ∃ t, s.renumber? first overflow = some t ∧ t.IsClosed ∧
      s.Follows t first ∧ ∀ again, t.renumber? again overflow = s.renumber? again overflow) ∧
    (¬ s.FitsFrom first → s.renumber? first .stops = none) := by
  refine ⟨fun hfits overflow => ?_, renumber?_of_not_fits⟩
  refine ⟨s.renumber first, renumber?_of_fits hfits overflow,
    isClosed_renumber h hfits hfirst, follows_renumber h hfits hfirst, fun again => ?_⟩
  simp only [renumber?_eq, fitsFrom_renumber, renumber_again h hfits hfirst]

/-- Old and new ids overlap: 3, 1, 2 become 2, 3, 4. The greatest first number that leaves one for
each word is 2^64 - 3, and numbered from there before the words get the same ids; from the next one
on the program ends. -/
theorem renumber_closed_of_three :
    let s := ofTokens
      [{ id := .empty 0 1, deps := [{ head := 3, sub? := some 1, deprel := "x" }] },
       { id := .word 3, head := some 1, deps := [{ head := 0, deprel := "root" }] },
       { id := .empty 3 1 }, { id := .empty 3 2 },
       { id := .range 1 2 },
       { id := .word 1, head := some 0 },
       { id := .word 2, head := some 3, deps := [{ head := 1, deprel := "y" }] }]
    s.IsClosed ∧ s.FitsFrom 2 ∧ s.FitsFrom 18446744073709551613 ∧
      s.renumber? 18446744073709551614 .stops = none ∧
      ∃ t far, s.renumber? 2 .stops = some t ∧ s.Follows t 2 ∧
        s.renumber? 18446744073709551613 .stops = some far ∧ far.renumber? 2 .stops = some t ∧
        t.words.map (·.id) = [2, 3, 4] ∧ t.words.map (·.head) = [some 3, some 0, some 2] ∧
        t.multiwords.entries.map (fun entry => (entry.1, entry.2.id)) = [(3, .range 3 4)] ∧
        t.empties.entries.map (fun entry => (entry.1, entry.2.map (·.id))) =
          [(0, [.empty 0 1]), (2, [.empty 2 1, .empty 2 2])] := by
  intro s
  have hclosed : s.IsClosed := by
    refine ⟨⟨?_, ?_, ?_, ?_⟩, ?_, ?_, ?_, ?_⟩ <;> decide +kernel
  have hfits : s.FitsFrom 2 := by decide +kernel
  have hfitsFar : s.FitsFrom 18446744073709551613 := by decide +kernel
  obtain ⟨hnear, -⟩ := renumber_closed hclosed (show 1 ≤ 2 by decide)
  obtain ⟨hlast, -⟩ := renumber_closed hclosed (show 1 ≤ 18446744073709551613 by decide)
  obtain ⟨-, hbeyond⟩ := renumber_closed hclosed (show 1 ≤ 18446744073709551614 by decide)
  obtain ⟨t, ht, -, hfollows, -⟩ := hnear hfits .stops
  obtain ⟨far, hfar, -, -, hagain⟩ := hlast hfitsFar .stops
  obtain rfl := eq_of_renumber? ht
  exact ⟨hclosed, hfits, hfitsFar, hbeyond (by decide +kernel), _, far, ht, hfollows, hfar,
    (hagain 2).trans ht, by decide +kernel, by decide +kernel, by decide +kernel,
    by decide +kernel⟩

end Sentence
end Treebank
