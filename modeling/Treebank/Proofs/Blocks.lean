import Mathlib.Data.List.Sort
import Treebank.Proofs.TokenLines
import Treebank.Sentence.Basic
import Treebank.Format.Block

/-! Sentences put together from their written tokens.

A token that is pushed is filed by its kind and number. When the ids of the words are
distinct and every range and empty node has its word, the tokens in the order of their
lines are all tokens of the sentence, and pushing them files each where it was
(`foldl_push_tokens`). -/
namespace Treebank

/-! ### Maps -/

namespace IdMap
variable {α : Type}

theorem eq_of_get? {a b : IdMap α} (h : ∀ id, a.get? id = b.get? id) : a = b := by
  have hirrefl : Std.Irrefl fun x y : Nat × α => x.1 < y.1 := ⟨fun x => Nat.lt_irrefl x.1⟩
  have hantisymm : Std.Antisymm fun x y : Nat × α => x.1 < y.1 :=
    ⟨fun x y hxy hyx => absurd hxy (Nat.lt_asymm hyx)⟩
  refine ext (a.ascending.eq_of_mem_iff b.ascending fun entry => ?_)
  obtain ⟨id, value⟩ := entry
  rw [mem_entries_iff, mem_entries_iff, h]

theorem mem_values_of_get? {map : IdMap α} {id : Nat} {value : α} (h : map.get? id = some value) :
    value ∈ map.values :=
  List.mem_map_of_mem (f := Prod.snd) (mem_entries_iff.2 h)

theorem get?_insert (map : IdMap α) (id other : Nat) (value : α) :
    (map.insert id value).get? other = if other = id then some value else map.get? other := by
  obtain ⟨entries, hascending⟩ := map
  show (insertEntry id value entries).lookup other = if _ then _ else entries.lookup other
  clear hascending
  induction entries with
  | nil => exact lookup_cons id other value []
  | cons entry rest ih =>
    obtain ⟨key, first⟩ := entry
    simp only [insertEntry]
    split
    · exact lookup_cons id other value _
    · split
      · next heq =>
        rw [lookup_cons, lookup_cons, heq]
        split <;> rfl
      · next hne =>
        rw [lookup_cons, lookup_cons, ih]
        by_cases h : other = key
        · rw [if_pos h, if_pos h, if_neg fun heq => hne (heq.symm.trans h)]
        · rw [if_neg h, if_neg h]

theorem mem_values_insert {map : IdMap α} {id : Nat} {value other : α}
    (h : other ∈ (map.insert id value).values) : other = value ∨ other ∈ map.values := by
  obtain ⟨entry, hentry, rfl⟩ := List.mem_map.1 h
  rcases mem_insertEntry hentry with rfl | hold
  · exact .inl rfl
  · exact .inr (List.mem_map_of_mem hold)

end IdMap

/-! ### Tokens -/

namespace Token

/-- The word that is pushed with a token, if it is one. -/
def word? (token : Token) : Option Word :=
  match token.id with
  | .word id => some { token.toColumns with id }
  | _ => none

/-- The range from the word with id `first` on, if the token is one. -/
def rangeFrom? (first : Nat) (token : Token) : Option Multiword :=
  match token.id with
  | .range start last =>
    if start = first then some { token.toColumns with first := start, last } else none
  | _ => none

/-- The empty node after the word with the given id, if the token is one. -/
def emptyAt? (anchor : Nat) (token : Token) : Option EmptyNode :=
  match token.id with
  | .empty main sub =>
    if main = anchor then some { token.toColumns with anchor := main, sub } else none
  | _ => none

theorem token_of_word? {token : Token} {word : Word} (h : token.word? = some word) :
    word.token = token := by
  obtain ⟨columns, id⟩ := token
  cases id with
  | word id => cases h; rfl
  | range first last => cases h
  | empty anchor sub => cases h

theorem token_of_rangeFrom? {first : Nat} {token : Token} {range : Multiword}
    (h : token.rangeFrom? first = some range) : range.token = token := by
  obtain ⟨columns, id⟩ := token
  cases id with
  | word id => cases h
  | range start last =>
    obtain ⟨rfl, heq⟩ := Option.ite_none_right_eq_some.1 h
    cases heq
    rfl
  | empty anchor sub => cases h

theorem token_of_emptyAt? {anchor : Nat} {token : Token} {node : EmptyNode}
    (h : token.emptyAt? anchor = some node) : node.token = token := by
  obtain ⟨columns, id⟩ := token
  cases id with
  | word id => cases h
  | range first last => cases h
  | empty main sub =>
    obtain ⟨rfl, heq⟩ := Option.ite_none_right_eq_some.1 h
    cases heq
    rfl

end Token

attribute [ext] Sentence

namespace Sentence

/-! ### Pushing -/

theorem words_push (s : Sentence) (token : Token) :
    (s.push token).words = s.words ++ token.word?.toList := by
  unfold push Token.word?
  cases token.id <;> simp [invalidate]

theorem multiwords_push (s : Sentence) (token : Token) (first : Nat) :
    (s.push token).multiwords.get? first =
      (token.rangeFrom? first).or (s.multiwords.get? first) := by
  unfold push Token.rangeFrom?
  cases token.id with
  | word id => rfl
  | range start last =>
    simp only [invalidate, IdMap.get?_insert, eq_comm (a := first)]
    split <;> rfl
  | empty anchor sub => rfl

theorem emptiesAt_push (s : Sentence) (token : Token) (anchor : Nat) :
    (s.push token).emptiesAt anchor = s.emptiesAt anchor ++ (token.emptyAt? anchor).toList := by
  unfold push Token.emptyAt? emptiesAt
  cases token.id with
  | word id => simp [invalidate]
  | range first last => simp [invalidate]
  | empty main sub =>
    simp only [invalidate, IdMap.append, IdMap.get?_insert, eq_comm (a := anchor)]
    split
    · next heq => simp [heq]
    · simp

theorem metadata_push (s : Sentence) (token : Token) : (s.push token).metadata = s.metadata := by
  unfold push
  split <;> rfl

section Run
variable (s : Sentence) (tokens : List Token)

theorem words_foldl_push :
    (tokens.foldl push s).words = s.words ++ tokens.filterMap Token.word? := by
  induction tokens generalizing s with
  | nil => simp
  | cons token rest ih =>
    rw [List.foldl_cons, ih, words_push, List.filterMap_cons]
    cases token.word? <;> simp

theorem multiwords_foldl_push (first : Nat) :
    (tokens.foldl push s).multiwords.get? first =
      ((tokens.filterMap (Token.rangeFrom? first)).getLast?).or (s.multiwords.get? first) := by
  induction tokens generalizing s with
  | nil => rfl
  | cons token rest ih =>
    rw [List.foldl_cons, ih, multiwords_push, List.filterMap_cons]
    cases token.rangeFrom? first with
    | none => rfl
    | some range =>
      simp only [List.getLast?_cons]
      cases (rest.filterMap (Token.rangeFrom? first)).getLast? <;> rfl

theorem emptiesAt_foldl_push (anchor : Nat) :
    (tokens.foldl push s).emptiesAt anchor =
      s.emptiesAt anchor ++ tokens.filterMap (Token.emptyAt? anchor) := by
  induction tokens generalizing s with
  | nil => simp
  | cons token rest ih =>
    rw [List.foldl_cons, ih, emptiesAt_push, List.filterMap_cons]
    cases token.emptyAt? anchor <;> simp

end Run

/-! ### Fresh sentences -/

/-- The sentence is as pushing leaves it: nothing is linked, and no list of empty nodes is empty. -/
structure IsFresh (s : Sentence) : Prop where
  links : ∀ word ∈ s.words, word.links = {}
  nodes : ∀ nodes ∈ s.empties.values, nodes ≠ [] ∧ ∀ node ∈ nodes, node.position = 0
  outline : s.outline = {}

theorem isFresh_empty (metadata : Metadata) : IsFresh { metadata } :=
  ⟨fun _ hword => absurd hword List.not_mem_nil, fun _ hnodes => absurd hnodes List.not_mem_nil, rfl⟩

theorem position_emptiesAt {s : Sentence} (h : s.IsFresh) (anchor : Nat) :
    ∀ node ∈ s.emptiesAt anchor, node.position = 0 := by
  unfold emptiesAt
  cases hget : s.empties.get? anchor with
  | none => exact fun node hnode => absurd hnode List.not_mem_nil
  | some nodes => exact (h.nodes nodes (IdMap.mem_values_of_get? hget)).2

theorem isFresh_push {s : Sentence} (h : s.IsFresh) (token : Token) : (s.push token).IsFresh := by
  have houtline : s.invalidate.outline = {} := by rw [invalidate, h.outline]
  unfold push
  split
  · refine ⟨fun word hword => ?_, h.nodes, houtline⟩
    rcases List.mem_append.1 hword with hold | hnew
    · exact h.links word hold
    · rw [List.mem_singleton.1 hnew]
  · exact ⟨h.links, h.nodes, houtline⟩
  · next anchor sub _ =>
    refine ⟨h.links, fun nodes hnodes => ?_, houtline⟩
    rcases IdMap.mem_values_insert hnodes with rfl | hold
    · refine ⟨by simp, fun node hnode => ?_⟩
      rcases List.mem_append.1 hnode with hold | hnew
      · exact position_emptiesAt h anchor node hold
      · rw [List.mem_singleton.1 hnew]
    · exact h.nodes nodes hold

theorem isFresh_foldl_push {s : Sentence} (h : s.IsFresh) (tokens : List Token) :
    (tokens.foldl push s).IsFresh :=
  List.foldlRecOn tokens push h fun _ hs token _ => isFresh_push hs token

/-- A fresh sentence has an entry where it has empty nodes. -/
theorem get?_empties {s : Sentence} (h : s.IsFresh) (anchor : Nat) :
    s.empties.get? anchor = if s.emptiesAt anchor = [] then none else some (s.emptiesAt anchor) := by
  unfold emptiesAt
  cases hget : s.empties.get? anchor with
  | none => rfl
  | some nodes =>
    have hsome : nodes ≠ [] := (h.nodes nodes (IdMap.mem_values_of_get? hget)).1
    exact (if_neg hsome).symm

/-! ### Written tokens -/

/-- Every token of the sentence has its place among the lines, and only one. -/
structure IsAnchored (s : Sentence) : Prop where
  ids : (s.words.map (·.id)).Nodup
  start : 0 ∉ s.words.map (·.id)
  ranges : ∀ entry ∈ s.multiwords.entries, entry.1 ∈ s.words.map (·.id)
  empties : ∀ entry ∈ s.empties.entries, entry.1 ≠ 0 → entry.1 ∈ s.words.map (·.id)

theorem IsAnchored.emptiesAt_eq_nil {s : Sentence} (h : s.IsAnchored) {anchor : Nat}
    (hzero : anchor ≠ 0) (hnone : anchor ∉ s.words.map (·.id)) : s.emptiesAt anchor = [] := by
  have hget : s.empties.get? anchor = none := Option.eq_none_iff_forall_not_mem.2 fun nodes hget =>
    hnone (h.empties (anchor, nodes) (IdMap.mem_entries_iff.2 hget) hzero)
  rw [emptiesAt, hget]
  rfl

theorem IsAnchored.get?_multiwords {s : Sentence} (h : s.IsAnchored) {first : Nat}
    (hnone : first ∉ s.words.map (·.id)) : s.multiwords.get? first = none :=
  Option.eq_none_iff_forall_not_mem.2 fun range hget =>
    hnone (h.ranges (first, range) (IdMap.mem_entries_iff.2 hget))

/-- What stands at one id stands there once for each word that has it. -/
theorem flatMap_of_id {α : Type} (words : List Word) (id : Nat) (values : List α) :
    words.flatMap (fun word => if word.id = id then values else []) =
      (List.replicate (words.countP (·.id = id)) values).flatten := by
  induction words with
  | nil => rfl
  | cons word rest ih =>
    rw [List.flatMap_cons, ih, List.countP_cons]
    by_cases hid : word.id = id <;> simp [hid, List.replicate_succ]

theorem countP_of_nodup {words : List Word} (h : (words.map (·.id)).Nodup) (id : Nat) :
    words.countP (·.id = id) = if id ∈ words.map (·.id) then 1 else 0 := by
  rw [← h.count, List.count, List.countP_map]
  rfl

section Tokens
variable {s : Sentence}

theorem filterMap_tokens {β : Type} (f : Token → Option β) :
    s.tokens.filterMap f = (s.emptiesAt 0).filterMap (fun node => f node.token) ++
      s.words.flatMap fun word =>
        ((s.multiwords.get? word.id).bind fun range => f range.token).toList ++
          ((f word.token).toList ++
            (s.emptiesAt word.id).filterMap fun node => f node.token) := by
  rw [tokens, List.filterMap_append, List.filterMap_map, List.filterMap_flatMap]
  refine congrArg _ (List.flatMap_congr fun word _ => ?_)
  rw [List.filterMap_append, List.filterMap_cons, List.filterMap_map]
  refine congrArg₂ _ ?_ ?_
  · cases s.multiwords.get? word.id with
    | none => rfl
    | some range =>
      simp only [Option.map_some, Option.toList_some, List.filterMap_cons, Option.bind_some]
      cases f range.token <;> rfl
  · cases f word.token <;> rfl

theorem filterMap_word?_tokens (h : s.IsFresh) : s.tokens.filterMap Token.word? = s.words := by
  have hword : ∀ word ∈ s.words, ({ word.toColumns with id := word.id } : Word) = word :=
    fun word hmem => by rw [← h.links word hmem]
  rw [filterMap_tokens]
  simp only [EmptyNode.token, EmptyNode.id, Multiword.token, Multiword.id, Word.token,
    Token.word?, List.filterMap_none, Option.bind_fun_none, Option.toList_none,
    Option.toList_some, List.nil_append, List.append_nil, ← List.map_eq_flatMap]
  exact (List.map_congr_left hword).trans (List.map_id' s.words)

theorem filterMap_rangeFrom?_tokens (s : Sentence) (first : Nat) :
    s.tokens.filterMap (Token.rangeFrom? first) =
      (List.replicate (s.words.countP (·.id = first)) (s.multiwords.get? first).toList).flatten := by
  have hrange : ∀ word ∈ s.words,
      ((s.multiwords.get? word.id).bind fun range =>
        if range.first = first then some range else none).toList =
      if word.id = first then (s.multiwords.get? first).toList else [] := by
    intro word _
    cases hget : s.multiwords.get? word.id with
    | none =>
      by_cases hid : word.id = first
      · rw [if_pos hid, ← hid, hget]
        rfl
      · rw [if_neg hid]
        rfl
    | some range =>
      have hfirst := first_of_get? hget
      by_cases hid : word.id = first
      · rw [if_pos hid, ← hid, hget, Option.bind_some, if_pos hfirst]
      · rw [Option.bind_some, hfirst, if_neg hid, if_neg hid]
        rfl
  rw [filterMap_tokens]
  simp only [EmptyNode.token, EmptyNode.id, Multiword.token, Multiword.id, Word.token,
    Token.rangeFrom?, List.filterMap_none,
    Option.toList_none, List.nil_append, List.append_nil]
  rw [List.flatMap_congr hrange, flatMap_of_id]

theorem filterMap_emptyAt?_tokens (hfresh : s.IsFresh) (hstart : 0 ∉ s.words.map (·.id))
    (anchor : Nat) :
    s.tokens.filterMap (Token.emptyAt? anchor) =
      (List.replicate (if anchor = 0 then 1 else s.words.countP (·.id = anchor))
        (s.emptiesAt anchor)).flatten := by
  have hnodes : ∀ id, (s.emptiesAt id).filterMap (fun node =>
        if node.anchor = anchor then
          some ({ node.toColumns with anchor := node.anchor, sub := node.sub } : EmptyNode)
        else none) =
      if id = anchor then s.emptiesAt anchor else [] := by
    intro id
    split
    · next hid =>
      subst hid
      have hnode : ∀ node ∈ s.emptiesAt id,
          (if node.anchor = id then
            some ({ node.toColumns with anchor := node.anchor, sub := node.sub } : EmptyNode)
          else none) = some node := by
        intro node hmem
        rw [if_pos (anchor_of_mem_emptiesAt hmem), ← position_emptiesAt hfresh id node hmem]
      rw [List.filterMap_congr hnode, List.filterMap_some]
    · next hid =>
      refine List.filterMap_eq_nil_iff.2 fun node hmem => if_neg ?_
      rwa [anchor_of_mem_emptiesAt hmem]
  -- Those before the first word are met at the start of the block, all others after their word.
  rw [filterMap_tokens]
  simp only [EmptyNode.token, EmptyNode.id, Multiword.token, Multiword.id, Word.token,
    Token.emptyAt?, Option.bind_fun_none,
    Option.toList_none, List.nil_append, hnodes]
  rw [flatMap_of_id]
  by_cases hzero : anchor = 0
  · have hnone : s.words.countP (·.id = 0) = 0 := by
      rw [List.countP_eq_zero]
      exact fun word hword hid => hstart (List.mem_map.2 ⟨word, hword, of_decide_eq_true hid⟩)
    simp [hzero, hnone]
  · rw [if_neg (Ne.symm hzero), List.nil_append, if_neg hzero]

theorem foldl_push_tokens (hfresh : s.IsFresh) (h : s.IsAnchored) :
    s.tokens.foldl push { metadata := s.metadata } = s := by
  have hpushed : (s.tokens.foldl push { metadata := s.metadata }).IsFresh :=
    isFresh_foldl_push (isFresh_empty s.metadata) s.tokens
  have hwords := words_foldl_push { metadata := s.metadata } s.tokens
  rw [filterMap_word?_tokens hfresh] at hwords
  have hranges : (s.tokens.foldl push { metadata := s.metadata }).multiwords = s.multiwords := by
    refine IdMap.eq_of_get? fun first => ?_
    rw [multiwords_foldl_push, filterMap_rangeFrom?_tokens, countP_of_nodup h.ids]
    split
    · cases s.multiwords.get? first <;> rfl
    · next hnone => exact (h.get?_multiwords hnone).symm
  have hempties : (s.tokens.foldl push { metadata := s.metadata }).empties = s.empties := by
    refine IdMap.eq_of_get? fun anchor => ?_
    rw [get?_empties hpushed, get?_empties hfresh, emptiesAt_foldl_push,
      filterMap_emptyAt?_tokens hfresh h.start, countP_of_nodup h.ids]
    have hanchor : (List.replicate (if anchor = 0 then 1 else
          if anchor ∈ s.words.map (·.id) then 1 else 0) (s.emptiesAt anchor)).flatten =
        s.emptiesAt anchor := by
      split
      · simp
      · next hzero =>
        split
        · simp
        · next hnone => simp [h.emptiesAt_eq_nil hzero hnone]
    rw [hanchor]
    rfl
  have hmetadata : (s.tokens.foldl push { metadata := s.metadata }).metadata = s.metadata :=
    List.foldlRecOn (motive := fun t : Sentence => t.metadata = s.metadata) s.tokens push rfl
      fun t ht token _ => (metadata_push t token).trans ht
  have houtline : (s.tokens.foldl push { metadata := s.metadata }).outline = s.outline :=
    hpushed.outline.trans hfresh.outline.symm
  exact Sentence.ext hwords hranges hempties hmetadata houtline

end Tokens

end Sentence

end Treebank
