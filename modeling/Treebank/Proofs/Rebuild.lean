import Treebank.Proofs.Session

/-! Building again.

`Sentence.reset` forgets all that builds have ever found out. A sentence that was never
built is one that this leaves as it is (`neverBuilt_iff`). In sessions with fresh tokens
`relink_of_reachable` says that a build sees nothing of earlier ones, that it leaves no
links when it fails, and that it never changes what was read or edited. -/
namespace Treebank

def Multiword.unlinked (range : Multiword) : Multiword :=
  { range with toColumns := range.toColumns.unlinked }

namespace Sentence

/-- The sentence with everything that is found out by builds as it was before any. -/
def reset (s : Sentence) : Sentence :=
  { s.unlinked with
    multiwords := s.multiwords.mapValues fun _ range => range.unlinked
    rangesFiled := s.rangesFiled.mapValues fun _ _ h => h }

/-- Nothing that builds find out is there. -/
structure NeverBuilt (s : Sentence) : Prop where
  outline : s.outline = {}
  root : s.outline.root? = none
  links : ∀ word ∈ s.words, word.links = {}
  words : ∀ word ∈ s.words, word.toColumns.IsUnlinked
  positions : ∀ nodes ∈ s.empties.values, ∀ node ∈ nodes, node.position = 0
  empties : ∀ nodes ∈ s.empties.values, ∀ node ∈ nodes, node.toColumns.IsUnlinked
  ranges : s.RangesUnlinked

end Sentence

theorem Columns.unlinked_eq_self_iff {columns : Columns} :
    columns.unlinked = columns ↔ columns.IsUnlinked :=
  ⟨fun h => h ▸ columns.isUnlinked_unlinked, Columns.unlinked_eq_self⟩

theorem Word.unlinked_eq_self_iff {word : Word} :
    word.unlinked = word ↔ word.links = {} ∧ word.toColumns.IsUnlinked := by
  rw [← Columns.unlinked_eq_self_iff]
  constructor
  · intro h
    exact ⟨(congrArg Word.links h).symm, congrArg Word.toColumns h⟩
  · intro h
    obtain ⟨hlinks, hcolumns⟩ := h
    rw [Word.unlinked, hcolumns, ← hlinks]

theorem EmptyNode.unlinked_eq_self_iff {node : EmptyNode} :
    node.unlinked = node ↔ node.position = 0 ∧ node.toColumns.IsUnlinked := by
  rw [← Columns.unlinked_eq_self_iff]
  constructor
  · intro h
    exact ⟨(congrArg EmptyNode.position h).symm, congrArg EmptyNode.toColumns h⟩
  · intro h
    obtain ⟨hposition, hcolumns⟩ := h
    rw [EmptyNode.unlinked, hcolumns, ← hposition]

theorem Multiword.unlinked_eq_self_iff {range : Multiword} :
    range.unlinked = range ↔ range.toColumns.IsUnlinked := by
  rw [← Columns.unlinked_eq_self_iff]
  constructor
  · exact fun h => congrArg Multiword.toColumns h
  · intro h
    rw [Multiword.unlinked, h]

theorem map_eq_self_iff {α : Type} {f : α → α} {xs : List α} :
    xs.map f = xs ↔ ∀ x ∈ xs, f x = x := by
  have h : xs.map f = xs.map id ↔ ∀ x ∈ xs, f x = id x := List.map_inj_left
  rw [List.map_id] at h
  exact h

theorem IdMap.mapValues_eq_self_iff {α : Type} {f : α → α} {map : IdMap α} :
    (map.mapValues fun _ value => f value) = map ↔ ∀ value ∈ map.values, f value = value := by
  have hentries : (map.mapValues fun _ value => f value) = map ↔
      map.entries.map (fun entry => (entry.1, f entry.2)) = map.entries := by
    constructor
    · exact fun h => congrArg IdMap.entries h
    · intro h
      ext1
      exact h
  rw [hentries, map_eq_self_iff, IdMap.values, List.forall_mem_map]
  constructor
  · exact fun h entry hentry => congrArg Prod.snd (h entry hentry)
  · exact fun h entry hentry => Prod.ext rfl (h entry hentry)

namespace Sentence

theorem reset_eq_unlinked_iff {s : Sentence} : s.reset = s.unlinked ↔ s.RangesUnlinked := by
  have hranges : s.reset = s.unlinked ↔
      (s.multiwords.mapValues fun _ range => range.unlinked) = s.multiwords :=
    ⟨fun h => congrArg Sentence.multiwords h, fun h => Sentence.ext rfl h rfl rfl rfl⟩
  rw [hranges, IdMap.mapValues_eq_self_iff]
  exact forall₂_congr fun _ _ => Multiword.unlinked_eq_self_iff

@[simp] theorem reset_unlinked (s : Sentence) : s.unlinked.reset = s.reset := by
  have hwords := congrArg Sentence.words s.unlinked_unlinked
  have hempties := congrArg Sentence.empties s.unlinked_unlinked
  exact Sentence.ext hwords rfl hempties rfl rfl

/-- A sentence was never built if forgetting what builds find out changes nothing. -/
theorem neverBuilt_iff {s : Sentence} : s.NeverBuilt ↔ s.reset = s := by
  have hwords : s.words.map (·.unlinked) = s.words ↔
      ∀ word ∈ s.words, word.links = {} ∧ word.toColumns.IsUnlinked := by
    rw [map_eq_self_iff]
    exact forall₂_congr fun _ _ => Word.unlinked_eq_self_iff
  have hempties : (s.empties.mapValues fun _ nodes => nodes.map (·.unlinked)) = s.empties ↔
      ∀ nodes ∈ s.empties.values, ∀ node ∈ nodes,
        node.position = 0 ∧ node.toColumns.IsUnlinked := by
    rw [IdMap.mapValues_eq_self_iff]
    refine forall₂_congr fun _ _ => ?_
    rw [map_eq_self_iff]
    exact forall₂_congr fun _ _ => EmptyNode.unlinked_eq_self_iff
  constructor
  · intro h
    have hunlinked : s.unlinked = s := by
      refine Sentence.ext ?_ rfl ?_ rfl h.outline.symm
      · exact hwords.2 fun word hword => ⟨h.links word hword, h.words word hword⟩
      · exact hempties.2 fun nodes hnodes node hnode =>
          ⟨h.positions nodes hnodes node hnode, h.empties nodes hnodes node hnode⟩
    rw [reset_eq_unlinked_iff.2 h.ranges, hunlinked]
  · intro h
    have hword := hwords.1 (congrArg Sentence.words h)
    have hnode := hempties.1 (congrArg Sentence.empties h)
    have houtline : s.outline = {} := (congrArg Sentence.outline h).symm
    constructor
    case outline => exact houtline
    case root => rw [houtline]
    case links => exact fun word hmem => (hword word hmem).1
    case words => exact fun word hmem => (hword word hmem).2
    case positions => exact fun nodes hmem node h => (hnode nodes hmem node h).1
    case empties => exact fun nodes hmem node h => (hnode nodes hmem node h).2
    case ranges =>
      intro range hrange
      have hmap := congrArg Sentence.multiwords h
      exact Multiword.unlinked_eq_self_iff.1 (IdMap.mapValues_eq_self_iff.1 hmap range hrange)

/-- **What a build does is settled by what was read and edited**: the links there are from earlier
builds do not matter, a failure leaves none behind, and nothing else changes. -/
theorem relink_of_reachable {s : Sentence} (h : Reachable Step.IsFresh s) :
    s.reset.relink = s.relink ∧
    (∀ error, s.relink.2 = some error → s.relink.1.NeverBuilt) ∧
    s.relink.1.reset = s.reset ∧ s.relink.1.write = s.write ∧
    s.relink.1.surfaceText = s.surfaceText ∧ s.relink.1.cycles = s.cycles := by
  -- everything goes by the sentence without links: it is all that a build starts from
  have hreset : s.reset = s.unlinked := reset_eq_unlinked_iff.2 (rangesUnlinked_of_reachable h)
  have hraw : s.relink.1.unlinked = s.unlinked := unlinked_relink s
  refine ⟨?_, fun error herror => ?_, ?_, ?_, ?_, ?_⟩
  · rw [hreset, relink, unlinked_unlinked, relink]
  · rw [relink_eq_unlinked herror, neverBuilt_iff, reset_unlinked, hreset]
  · rw [← reset_unlinked, hraw, reset_unlinked]
  · rw [← write_unlinked, hraw, write_unlinked]
  · rw [← surfaceText_unlinked, hraw, surfaceText_unlinked]
  · exact cycles_of_unlinked hraw

/-- Two words are linked, then the first is given the second as its head: the old links are still
there when the circle is found. -/
theorem relink_stale :
    let s := ((ofTokens
      [{ id := .word 1, form := "a", head := some 0 },
       { id := .word 2, form := "b", head := some 1, deps := [{ head := 1, deprel := "x" }] }]).step
      .build).step (.change 1 fun columns => { columns with head := some 2 })
    s.words.map (·.links.head) = [none, some 0] ∧ s.relink.2 = some (.cycle 1) ∧
      s.reset.relink = s.relink ∧ s.relink.1.NeverBuilt := by
  intro s
  have hpushed : ∀ token ∈ ([
      { id := .word 1, form := "a", head := some 0 },
      { id := .word 2, form := "b", head := some 1, deps := [{ head := 1, deprel := "x" }] }]
      : List Token), token.toColumns.IsUnlinked := by
    unfold Columns.IsUnlinked
    decide
  have hbuilt : Reachable Step.IsFresh (Sentence.step _ .build) :=
    (Reachable.ofTokens hpushed).step trivial
  have hreachable : Reachable Step.IsFresh s := hbuilt.step trivial
  have hcycle : s.relink.2 = some (.cycle 1) := by decide +kernel
  obtain ⟨hreset, hfailed, -⟩ := relink_of_reachable hreachable
  exact ⟨by decide +kernel, hcycle, hreset, hfailed _ hcycle⟩

end Sentence
end Treebank
