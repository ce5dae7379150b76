import Mathlib.Data.List.Dedup
import Treebank.Proofs.EdgeSets

/-! What renumbering does to any sentence, whatever its ids are.

A word gets the number that is as far from the first as the last of the words with its id is from
the first word (`exists_isLast`), a range the numbers of the words at its ends, and an empty node
that of its anchor. Ranges that come to start at one number replace one another, so some can be
lost; empty nodes that come to follow one word stay side by side. `renumber_of_read` says for which
sentences the new ids count up without gaps and no range is lost. Once numbered, every id is the
one that it would get (`newId_renumber`), so doing it again changes nothing
(`renumber_renumber`). -/
namespace Treebank

/-! ### Maps under new ids -/

namespace IdMap
variable {α β : Type}

theorem nodup_ids (map : IdMap α) : (map.entries.map Prod.fst).Nodup :=
  List.pairwise_map.2 (map.ascending.imp Nat.ne_of_lt)

theorem eq_of_mem_iff {a b : IdMap α} (h : ∀ entry, entry ∈ a.entries ↔ entry ∈ b.entries) :
    a = b := by
  apply eq_of_get?
  intro id
  apply Option.ext
  intro value
  rw [← mem_entries_iff, ← mem_entries_iff, h]

theorem mem_insert {map : IdMap α} {id : Nat} {value : α} {entry : Nat × α} :
    entry ∈ (map.insert id value).entries ↔
      entry = (id, value) ∨ entry.1 ≠ id ∧ entry ∈ map.entries := by
  obtain ⟨key, other⟩ := entry
  rw [mem_entries_iff, mem_entries_iff, get?_insert]
  by_cases hkey : key = id
  · simp [hkey, eq_comm]
  · simp [hkey]

/-- All entries under new ids; of two that meet, the later one stays. -/
def file (new : Nat → Nat) (f : α → β) (entries : List (Nat × α)) : IdMap β :=
  entries.foldl (fun moved entry => moved.insert (new entry.1) (f entry.2)) ∅

section File
variable {new : Nat → Nat} {f : α → β} {entries : List (Nat × α)}

theorem file_concat (entries : List (Nat × α)) (entry : Nat × α) :
    file new f (entries ++ [entry]) = (file new f entries).insert (new entry.1) (f entry.2) :=
  List.foldl_append

theorem mem_ids_file {id : Nat} :
    id ∈ (file new f entries).entries.map Prod.fst ↔ id ∈ entries.map fun entry => new entry.1 := by
  induction entries using List.reverseRecOn with
  | nil => exact Iff.rfl
  | append_singleton earlier entry ih =>
    rw [List.map_append, List.mem_append, ← ih, file_concat, List.mem_map, List.mem_map]
    constructor
    · rintro ⟨moved, hmoved, rfl⟩
      rcases mem_insert.1 hmoved with rfl | ⟨-, hold⟩
      · exact .inr (List.mem_singleton_self _)
      · exact .inl ⟨moved, hold, rfl⟩
    · rintro (⟨moved, hmoved, rfl⟩ | hnew)
      · by_cases hmeets : moved.1 = new entry.1
        · exact ⟨_, mem_insert.2 (.inl rfl), hmeets.symm⟩
        · exact ⟨moved, mem_insert.2 (.inr ⟨hmeets, hmoved⟩), rfl⟩
      · exact ⟨_, mem_insert.2 (.inl rfl), (List.mem_singleton.1 hnew).symm⟩

/-- There are as many entries as different new ids. -/
theorem size_file :
    (file new f entries).size = (entries.map fun entry => new entry.1).dedup.length := by
  have hperm : ((file new f entries).entries.map Prod.fst).Perm
      (entries.map fun entry => new entry.1).dedup := by
    rw [List.perm_ext_iff_of_nodup (nodup_ids _) (List.nodup_dedup _)]
    intro id
    rw [mem_ids_file, List.mem_dedup]
  rw [← hperm.length_eq, List.length_map]
  rfl

theorem size_file_le (map : IdMap α) : (file new f map.entries).size ≤ map.size := by
  have hlength : (map.entries.map fun entry => new entry.1).length = map.size := List.length_map _
  rw [size_file, ← hlength]
  exact (List.dedup_sublist _).length_le

/-- None is lost just when no two of them meet. -/
theorem size_file_eq_iff (map : IdMap α) : (file new f map.entries).size = map.size ↔
    (map.entries.map fun entry => new entry.1).Nodup := by
  have hlength : (map.entries.map fun entry => new entry.1).length = map.size := List.length_map _
  rw [size_file, ← hlength]
  constructor
  · exact fun heq => List.dedup_eq_self.1 ((List.dedup_sublist _).eq_of_length heq)
  · intro hnodup
    rw [hnodup.dedup]

theorem nodup_newIds_iff (map : IdMap α) : (map.entries.map fun entry => new entry.1).Nodup ↔
    ∀ a ∈ map.entries, ∀ b ∈ map.entries, new a.1 = new b.1 → a.1 = b.1 := by
  have hmap : (map.entries.map fun entry => new entry.1) = (map.entries.map Prod.fst).map new := by
    rw [List.map_map]
    rfl
  rw [hmap, List.nodup_map_iff_inj_on map.nodup_ids]
  simp only [List.forall_mem_map]

/-- Entries that do not meet are all there. -/
theorem mem_file (h : (entries.map fun entry => new entry.1).Nodup) {moved : Nat × β} :
    moved ∈ (file new f entries).entries ↔
      ∃ entry ∈ entries, moved = (new entry.1, f entry.2) := by
  induction entries using List.reverseRecOn with
  | nil => exact ⟨fun hnone => absurd hnone List.not_mem_nil, fun ⟨_, hnone, _⟩ =>
      absurd hnone List.not_mem_nil⟩
  | append_singleton earlier entry ih =>
    rw [List.map_append, List.map_singleton, ← List.concat_eq_append, List.nodup_concat] at h
    rw [file_concat, mem_insert, ih h.2]
    simp only [List.mem_append, List.mem_singleton]
    constructor
    · rintro (rfl | ⟨-, old, hold, rfl⟩)
      · exact ⟨entry, .inr rfl, rfl⟩
      · exact ⟨old, .inl hold, rfl⟩
    · rintro ⟨old, hold | rfl, rfl⟩
      · have hapart : new old.1 ≠ new entry.1 := fun hmeets =>
          h.1 (hmeets ▸ List.mem_map_of_mem (f := fun entry => new entry.1) hold)
        exact .inr ⟨hapart, old, hold, rfl⟩
      · exact .inl rfl

/-- What is at an id goes to the new one, if nothing else does. -/
theorem get?_file {map : IdMap α} (h : (map.entries.map fun entry => new entry.1).Nodup) {id : Nat}
    (hid : ∀ entry ∈ map.entries, new entry.1 = new id → entry.1 = id) :
    (file new f map.entries).get? (new id) = (map.get? id).map f := by
  apply Option.ext
  intro moved
  rw [← mem_entries_iff, mem_file h, Option.map_eq_some_iff]
  constructor
  · rintro ⟨entry, hentry, heq⟩
    obtain ⟨hmeets, rfl⟩ := Prod.mk.inj heq
    exact ⟨entry.2, mem_entries_iff.1 (hid entry hentry hmeets.symm ▸ hentry), rfl⟩
  · rintro ⟨value, hvalue, rfl⟩
    exact ⟨(id, value), mem_entries_iff.2 hvalue, rfl⟩

/-- Filed twice without meeting, entries are where they would be filed at once. -/
theorem file_file {γ : Type} {again once : Nat → Nat} {g : β → γ} {k : α → γ}
    (h : (entries.map fun entry => new entry.1).Nodup)
    (hagain : ((file new f entries).entries.map fun entry => again entry.1).Nodup)
    (honce : (entries.map fun entry => once entry.1).Nodup)
    (hvalue : ∀ entry ∈ entries, (again (new entry.1), g (f entry.2)) = (once entry.1, k entry.2)) :
    file again g (file new f entries).entries = file once k entries := by
  apply eq_of_mem_iff
  intro moved
  rw [mem_file hagain, mem_file honce]
  constructor
  · rintro ⟨middle, hmiddle, rfl⟩
    obtain ⟨entry, hentry, rfl⟩ := (mem_file h).1 hmiddle
    exact ⟨entry, hentry, hvalue entry hentry⟩
  · rintro ⟨entry, hentry, rfl⟩
    exact ⟨_, (mem_file h).2 ⟨entry, hentry, rfl⟩, (hvalue entry hentry).symm⟩

/-- Lists that do not meet are filed as they are. -/
theorem foldl_append_eq_file {f : α → List β} (h : (entries.map fun entry => new entry.1).Nodup) :
    entries.foldl (fun moved entry => moved.append (new entry.1) (f entry.2)) ∅ =
      file new f entries := by
  induction entries using List.reverseRecOn with
  | nil => rfl
  | append_singleton earlier entry ih =>
    rw [List.map_append, List.map_singleton, ← List.concat_eq_append, List.nodup_concat] at h
    have hfree : (file new f earlier).get? (new entry.1) = none := by
      rw [Option.eq_none_iff_forall_not_mem]
      intro values hvalues
      exact h.1 (mem_ids_file.1 (List.mem_map_of_mem (f := Prod.fst) (mem_entries_iff.2 hvalues)))
    rw [List.foldl_append, ih h.2, file_concat]
    show (file new f earlier).append _ _ = _
    rw [append, hfree]
    rfl

end File

/-- All lists together become as much longer as the list that is added. -/
theorem length_values_append (map : IdMap (List α)) (id : Nat) (values : List α) :
    (map.append id values).values.flatten.length =
      map.values.flatten.length + values.length := by
  obtain ⟨entries, hascending⟩ := map
  show ((insertEntry id ((entries.lookup id).getD [] ++ values) entries).map
    Prod.snd).flatten.length = (entries.map Prod.snd).flatten.length + values.length
  induction entries with
  | nil => simp [insertEntry]
  | cons entry rest ih =>
    obtain ⟨hentry, hrest⟩ := List.pairwise_cons.1 hascending
    obtain ⟨key, first⟩ := entry
    rw [lookup_cons, insertEntry]
    by_cases hlt : id < key
    · -- all ids are greater, so there is no list yet
      have hnone : rest.lookup id = none := by
        rw [List.lookup_eq_none_iff]
        intro later hlater
        have hgreater : key < later.1 := hentry later hlater
        simpa using Nat.ne_of_lt (Nat.lt_trans hlt hgreater)
      rw [if_pos hlt, if_neg (Nat.ne_of_lt hlt), hnone]
      simp
      omega
    · rw [if_neg hlt]
      by_cases heq : id = key
      · rw [if_pos heq, if_pos heq]
        simp
        omega
      · rw [if_neg heq, if_neg heq]
        simp only [List.map_cons, List.flatten_cons, List.length_append, ih hrest]
        omega

end IdMap

/-! ### Numbering twice -/

theorem Columns.renumberDeps_of_eq {new : Nat → Nat} (h : ∀ id, new id = id) (columns : Columns) :
    columns.renumberDeps new = columns := by
  simp only [renumberDeps, h, List.map_id']

namespace Sentence

theorem pos_of_zero_not_mem {s : Sentence} (h : 0 ∉ s.words.map (·.id)) :
    ∀ word ∈ s.words, 0 < word.id := by
  intro word hword
  apply Nat.pos_of_ne_zero
  intro hzero
  exact h (hzero ▸ List.mem_map_of_mem (f := (·.id)) hword)

theorem names_id {s : Sentence} {node : Nat} (h : node < s.words.length)
    (hpos : 0 < (s.wordAt node).id) : s.Names (s.wordAt node).id :=
  ⟨Nat.ne_of_gt hpos, s.wordAt node, wordAt_mem h, rfl⟩

/-- A sentence that was numbered keeps its numbers. -/
theorem newId_renumber (s : Sentence) (first id : Nat) :
    (s.renumber first).newId first id = id := by
  by_cases hnames : (s.renumber first).Names id
  · obtain ⟨last, hlast, hnew⟩ := exists_newId first hnames
    have hlt : last < s.words.length := by simpa using hlast.lt
    have hid : s.newId first (s.wordAt last).id = id := by
      have h := hlast.hasId
      rw [wordAt_renumber hlt] at h
      exact h
    have hpos : 0 < (s.wordAt last).id := pos_of_newId_ne_zero (hid ▸ hnames.1)
    obtain ⟨old, hold, hsum⟩ := exists_newId first (names_id hlt hpos)
    -- the last word with the old id is the last one with the new id
    have hsame : s.IsLast (s.wordAt last).id last := by
      refine ⟨hlt, rfl, fun node hafter hnode heq => ?_⟩
      apply hlast.later node hafter (by simpa using hnode)
      rw [wordAt_renumber hnode]
      show s.newId first (s.wordAt node).id = id
      rw [heq, hid]
    rw [hnew, ← hid, hsum, hold.eq hsame]
  · exact newId_of_not_names hnames

/-- A range moves from its first word to what becomes its first word. -/
theorem multiwords_renumber (s : Sentence) (first : Nat) :
    (s.renumber first).multiwords = IdMap.file (s.newId first) (·.renumber (s.newId first))
      s.multiwords.entries := by
  show List.foldl _ ∅ (s.multiwords.entries.map Prod.snd) = _
  rw [List.foldl_map, IdMap.file]
  refine List.foldl_ext _ _ _ fun moved entry hentry => ?_
  rw [← s.rangesFiled entry hentry]
  rfl

theorem empties_renumber {s : Sentence} {first : Nat}
    (h : (s.empties.entries.map fun entry => s.newId first entry.1).Nodup) :
    (s.renumber first).empties = IdMap.file (s.newId first)
      (fun nodes => nodes.map fun node =>
        node.renumber (s.newId first) (s.newId first node.anchor)) s.empties.entries := by
  rw [← IdMap.foldl_append_eq_file h]
  refine List.foldl_ext _ _ _ fun moved entry hentry => congrArg (moved.append _) ?_
  exact List.map_congr_left fun node hnode => by rw [s.emptiesFiled entry hentry node hnode]

/-- Where every number stays, so does the sentence. -/
theorem renumber_eq_self {s : Sentence} {first : Nat} (h : ∀ id, s.newId first id = id)
    (hbuilt : s.outline.built = false) : s.renumber first = s := by
  have hapart : ∀ {α : Type} (map : IdMap α),
      (map.entries.map fun entry => s.newId first entry.1).Nodup := by
    intro α map
    rw [IdMap.nodup_newIds_iff]
    intro a _ b _ heq
    rwa [h, h] at heq
  have hword : ∀ word : Word, word.renumber (s.newId first) = word := by
    intro word
    have hhead : word.head.map (s.newId first) = word.head := by
      cases word.head <;> simp [h]
    rw [Word.renumber, Columns.renumberDeps_of_eq h, hhead, h]
  have hrange : ∀ range : Multiword, range.renumber (s.newId first) = range := by
    intro range
    rw [Multiword.renumber, h, h]
  have hnode : ∀ node : EmptyNode,
      node.renumber (s.newId first) (s.newId first node.anchor) = node := by
    intro node
    rw [EmptyNode.renumber, Columns.renumberDeps_of_eq h, h]
    rfl
  apply Sentence.ext
  · show s.words.map _ = s.words
    simp only [hword, List.map_id']
  · apply IdMap.eq_of_mem_iff
    intro entry
    rw [multiwords_renumber, IdMap.mem_file (hapart _)]
    simp [h, hrange]
  · apply IdMap.eq_of_mem_iff
    intro entry
    rw [empties_renumber (hapart _), IdMap.mem_file (hapart _)]
    simp only [hnode, List.map_id']
    simp [h]
  · rfl
  · show { s.outline with built := false } = s.outline
    rw [← hbuilt]

/-- **Numbering the words from the same number again changes nothing**, whatever their ids were, and
is possible if it was the first time. Where sums wrap around it always is. -/
theorem renumber_renumber (s : Sentence) (first : Nat) :
    (s.renumber first).renumber first = s.renumber first ∧
      s.renumber? first .wraps = some (s.renumber first) ∧
      ∀ overflow, (s.renumber? first overflow).bind (·.renumber? first overflow) =
        s.renumber? first overflow := by
  have hagain := renumber_eq_self (s.newId_renumber first) rfl
  refine ⟨hagain, by rw [renumber?_eq, if_pos (.inl rfl)], fun overflow => ?_⟩
  cases ht : s.renumber? first overflow with
  | none => rfl
  | some t =>
    obtain rfl := eq_of_renumber? ht
    show (s.renumber first).renumber? first overflow = _
    simp only [renumber?_eq, fitsFrom_renumber, hagain] at ht ⊢
    exact ht

/-! ### What is kept -/

section Kept
variable (s : Sentence) (first : Nat)

/-- Two ranges come to start at one number: one starts at a word, the other at no word or another
one, but at what becomes the number of the word (`newId_eq_of_ne`: it is no word then, and the
range starts at that very number). -/
def MergesRanges : Prop :=
  ∃ a ∈ s.multiwords.entries, ∃ b ∈ s.multiwords.entries,
    s.Names a.1 ∧ a.1 ≠ b.1 ∧ s.newId first a.1 = s.newId first b.1

instance : Decidable (s.MergesRanges first) :=
  inferInstanceAs (Decidable (∃ a ∈ s.multiwords.entries, ∃ b ∈ s.multiwords.entries, _))

theorem size_multiwords_renumber_le :
    (s.renumber first).multiwords.size ≤ s.multiwords.size := by
  rw [multiwords_renumber]
  exact IdMap.size_file_le s.multiwords

/-- A range is lost exactly when two of them merge. -/
theorem size_multiwords_renumber_iff :
    (s.renumber first).multiwords.size = s.multiwords.size ↔ ¬ s.MergesRanges first := by
  rw [multiwords_renumber, IdMap.size_file_eq_iff, IdMap.nodup_newIds_iff]
  constructor
  · rintro hinj ⟨a, ha, b, hb, -, hne, hmeets⟩
    exact hne (hinj a ha b hb hmeets)
  · intro hfree a ha b hb hnew
    by_contra hne
    rcases names_or_names hne hnew with hnames | hnames
    · exact hfree ⟨a, ha, b, hb, hnames, hne, hnew⟩
    · exact hfree ⟨b, hb, a, ha, hnames, Ne.symm hne, hnew.symm⟩

/-- No empty node is lost. -/
theorem emptyCount_renumber : (s.renumber first).emptyCount = s.emptyCount := by
  have hfold : ∀ (entries : List (Nat × List EmptyNode)) (moved : IdMap (List EmptyNode)),
      (entries.foldl (fun moved entry => moved.append (s.newId first entry.1)
        (entry.2.map (·.renumber (s.newId first) (s.newId first entry.1))))
          moved).values.flatten.length =
          moved.values.flatten.length + (entries.map Prod.snd).flatten.length := by
    intro entries
    induction entries with
    | nil => intro moved; rfl
    | cons entry rest ih =>
      intro moved
      rw [List.foldl_cons, ih, IdMap.length_values_append, List.length_map, List.map_cons,
        List.flatten_cons, List.length_append, Nat.add_assoc]
  show (renumberEmpties _ _).values.flatten.length = _
  refine (hfold s.empties.entries ∅).trans ?_
  exact Nat.zero_add _

variable {s first}

/-- Every word is numbered as the last one with its id. -/
theorem exists_isLast {node : Nat} (h : node < s.words.length) (hpos : 0 < (s.wordAt node).id) :
    ∃ last, s.IsLast (s.wordAt node).id last ∧
      ((s.renumber first).wordAt node).id = wrappedSum first last := by
  obtain ⟨last, hlast, hnew⟩ := exists_newId first (names_id h hpos)
  refine ⟨last, hlast, ?_⟩
  rw [wordAt_renumber h]
  exact hnew

/-- The new ids count up from the first one exactly when no two words shared one and none of the
new ones is too great for a number. -/
theorem id_renumber_iff (hpositive : ∀ word ∈ s.words, 0 < word.id) :
    (∀ node < s.words.length, ((s.renumber first).wordAt node).id = first + node) ↔
      (s.words.map (·.id)).Nodup ∧ s.FitsFrom first := by
  constructor
  · intro hall
    constructor
    · rw [List.nodup_iff_getElem?_ne_getElem?]
      intro node other hlt hother heq
      rw [List.length_map] at hother
      have hnode : node < s.words.length := by omega
      rw [List.getElem?_map, List.getElem?_map, getElem?_words hnode, getElem?_words hother,
        Option.map_some, Option.map_some, Option.some.injEq] at heq
      have hnew := hall node hnode
      rw [wordAt_renumber hnode] at hnew
      have hnewOther := hall other hother
      rw [wordAt_renumber hother] at hnewOther
      simp only [Word.renumber, heq] at hnew hnewOther
      omega
    · intro node hnode
      obtain ⟨last, -, hid⟩ : ∃ last, s.IsLast (s.wordAt node).id last ∧
          ((s.renumber first).wordAt node).id = wrappedSum first last :=
        exists_isLast hnode (hpositive _ (wordAt_mem hnode))
      rw [← hall node hnode, hid]
      exact wrappedSum_lt first last
  · exact fun ⟨hdistinct, hfits⟩ node hnode => id_renumber hdistinct hfits hpositive hnode

end Kept

/-- **Numbering the words of a sentence that was read**: every word gets the number of the last one
with its id, so the numbers count up from the first one exactly when no two words shared an id and
there are numbers for all words; ranges are lost exactly when two of them merge; no empty node is
lost. Where there are not enough numbers a sum wraps around, or the program ends before anything
changes. -/
theorem renumber_of_read {text : List Char} {s : Sentence} (h : Sentence.read text = .ok s)
    (first : Nat) :
    (∀ overflow, s.renumber? first overflow =
      if overflow = .wraps ∨ s.FitsFrom first then some (s.renumber first) else none) ∧
    (∀ node < s.words.length, ∃ last, s.IsLast (s.wordAt node).id last ∧
      ((s.renumber first).wordAt node).id = wrappedSum first last) ∧
    ((∀ node < s.words.length, ((s.renumber first).wordAt node).id = first + node) ↔
      (s.words.map (·.id)).Nodup ∧ s.FitsFrom first) ∧
    (s.renumber first).multiwords.size ≤ s.multiwords.size ∧
    ((s.renumber first).multiwords.size = s.multiwords.size ↔ ¬ s.MergesRanges first) ∧
    (s.renumber first).emptyCount = s.emptyCount := by
  have hpositive := pos_of_zero_not_mem (zero_not_mem_ids (legible_of_read h).1)
  refine ⟨s.renumber?_eq first, fun node hnode => ?_, id_renumber_iff hpositive,
    s.size_multiwords_renumber_le first, s.size_multiwords_renumber_iff first,
    s.emptyCount_renumber first⟩
  exact exists_isLast hnode (hpositive _ (wordAt_mem hnode))

/-- Ids out of order and a range and an empty node without their words. The word 4 gets the number
7, but no range starts at it, so the one that starts at 7 is kept. -/
theorem renumber_of_read_five :
    let line : String → String := (· ++ "\t_\t_\t_\t_\t_\t_\t_\t_\t_\n")
    let text := (line "4" ++ line "7-8" ++ line "2-4" ++ line "2" ++ line "9.1").toList
    ∃ s, Sentence.read text = .ok s ∧ s.words.map (·.id) = [4, 2] ∧
      s.renumber? 7 .stops = some (s.renumber 7) ∧
      (∀ node < s.words.length, ((s.renumber 7).wordAt node).id = 7 + node) ∧
      s.multiwords.size = 2 ∧ (s.renumber 7).multiwords.size = 2 ∧
      (s.renumber 7).emptyCount = s.emptyCount := by
  intro line text
  have hread : Sentence.read text = .ok (ofTokens
      [{ id := .word 4 }, { id := .range 7 8 }, { id := .range 2 4 }, { id := .word 2 },
       { id := .empty 9 1 }]) := by
    decide +kernel
  obtain ⟨hsome, -, hdense, -, hranges, hempties⟩ := renumber_of_read hread 7
  refine ⟨_, hread, by decide +kernel, ?_, hdense.2 (by decide +kernel), by decide +kernel, ?_,
    hempties⟩
  · rw [hsome, if_pos (by decide +kernel)]
  · rw [hranges.2 (by decide +kernel)]
    decide +kernel

/-- Two words with one id both get the greater number, and of two ranges one is lost: the one from 5
comes to start at 2, where the other is. -/
theorem renumber_loses_range :
    let line : String → String := (· ++ "\t_\t_\t_\t_\t_\t_\t_\t_\t_\n")
    let text := (line "2-3" ++ line "5-6" ++ line "5" ++ line "5").toList
    ∃ s, Sentence.read text = .ok s ∧ (s.renumber 1).words.map (·.id) = [2, 2] ∧
      s.multiwords.size = 2 ∧ (s.renumber 1).multiwords.size = 1 := by
  intro line text
  have hread : Sentence.read text = .ok (ofTokens
      [{ id := .range 2 3 }, { id := .range 5 6 }, { id := .word 5 }, { id := .word 5 }]) := by
    decide +kernel
  exact ⟨_, hread, by decide +kernel, by decide +kernel, by decide +kernel⟩

end Sentence
end Treebank
