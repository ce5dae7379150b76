import Mathlib.Data.List.Basic
import Treebank.Proofs.RequestText

/-! What readers give.

A reader is described by what it gives for a spelling (`ReadsAs`): the lexemes in front of a
text that fits what must follow them. The descriptions follow the readers: one after the
other (`ReadsAs.bind`), one of several (`ReadsAs.orElse_left`, `ReadsAs.orElse_right`), many
(`many_of_readsAll`), and with separators (`separated_readsAs`). -/
namespace Treebank.Request

/-! ### Gaps are passed over -/

/-- A character that a gap can begin with, and a lexeme cannot. -/
def isGapStart (c : Char) : Bool := isLayout c || c == '%'

/-- No gap begins with such a character. -/
def Solid (p : Char → Bool) : Prop := ∀ c, isGapStart c = true → p c = false

theorem Solid.isGapStart_eq_false {p : Char → Bool} (hp : Solid p) {c : Char} (hc : p c = true) :
    isGapStart c = false := by
  by_contra hgap
  rw [Bool.not_eq_false] at hgap
  rw [hp c hgap] at hc
  cases hc

theorem solid_of_all {p : Char → Bool}
    (h : [' ', '\t', '\r', '\n', '%'].all (fun c => !p c) = true) : Solid p := by
  intro c hc
  rw [← Bool.not_eq_true']
  refine List.all_eq_true.1 h c ?_
  simp only [isGapStart, isLayout, Bool.or_eq_true, beq_iff_eq] at hc
  simp only [List.mem_cons, List.not_mem_nil, or_false]
  tauto

def IsLexeme (lexeme : List Char) : Prop :=
  ∃ c rest, lexeme = c :: rest ∧ isGapStart c = false

theorem skip_cons {c : Char} (h : isGapStart c = false) (text : List Char) :
    skip (c :: text) = c :: text := by
  obtain ⟨hlayout, hcomment⟩ := Bool.or_eq_false_iff.1 h
  rw [skip, skipFrom, if_neg (by simp [hlayout]), if_neg (by simpa using hcomment)]

theorem skipFrom_comment {text : List Char} {c : Char} (h : ∀ d ∈ text, isLineEnd d = false)
    (hend : isLineEnd c = true) (rest : List Char) :
    skipFrom true (text ++ c :: rest) = skip rest := by
  induction text with
  | nil =>
    rw [List.nil_append, skipFrom, hend]
    rfl
  | cons d more ih =>
    obtain ⟨hd, hmore⟩ := List.forall_mem_cons.1 h
    rw [List.cons_append, skipFrom, hd]
    exact ih hmore

theorem skip_gap {gap : List Char} (h : Gap gap) (text : List Char) :
    skip (gap ++ text) = skip text := by
  induction h with
  | nil => rfl
  | blank hblank _ ih =>
    rw [List.cons_append, skip, skipFrom, if_pos hblank]
    exact ih
  | comment hcomment hend _ ih =>
    rw [List.cons_append, List.append_assoc, List.cons_append, skip, skipFrom,
      if_neg (by decide), if_pos rfl, skipFrom_comment hcomment hend]
    exact ih

/-! ### What comes next -/

/-- The text does not go on with such a character. -/
def Stops (p : Char → Bool) (text : List Char) : Prop := ∀ c ∈ text.head?, p c = false

/-- The first character of the next lexeme. -/
def next? (text : List Char) : Option Char := (skip text).head?

/-- What no gap begins with is stopped by a gap, and by the next lexeme if it does not begin so. -/
theorem stops_of_next? {p : Char → Bool} (hp : Solid p) {text : List Char} {c : Char}
    (h : next? text = some c) (hc : p c = false) : Stops p text := by
  intro d hd
  cases text with
  | nil => cases hd
  | cons e rest =>
    cases hd
    cases hstart : isGapStart d with
    | true => exact hp d hstart
    | false =>
      rw [next?, skip_cons hstart] at h
      cases h
      exact hc

namespace Laid
variable {rest text lexeme : List Char} {lexemes : List (List Char)}

/-- The next lexeme, and the others after it. -/
theorem skip_eq (h : Laid rest (lexeme :: lexemes) text) (hlexeme : IsLexeme lexeme) :
    ∃ after, skip text = lexeme ++ after ∧ Laid rest lexemes after := by
  obtain ⟨c, more, rfl, hc⟩ := hlexeme
  cases h with
  | @cons gap _ _ after hgap hafter =>
    refine ⟨after, ?_, hafter⟩
    rw [skip_gap hgap, List.cons_append, skip_cons hc]

theorem next?_eq {c : Char} {more : List Char} (h : Laid rest ((c :: more) :: lexemes) text)
    (hc : isGapStart c = false) : next? text = some c := by
  obtain ⟨after, hskip, -⟩ := h.skip_eq ⟨c, more, rfl, hc⟩
  rw [next?, hskip]
  rfl

/-- A lexeme stops what does not begin like it. -/
theorem stops {p : Char → Bool} (hp : Solid p) {c : Char} {more : List Char}
    (h : Laid rest ((c :: more) :: lexemes) text) (hgap : isGapStart c = false)
    (hc : p c = false) : Stops p text :=
  stops_of_next? hp (h.next?_eq hgap) hc

theorem exists_of_append {front back : List (List Char)} (h : Laid rest (front ++ back) text) :
    ∃ middle, Laid middle front text ∧ Laid rest back middle := by
  induction front generalizing text with
  | nil => exact ⟨text, .nil, h⟩
  | cons lexeme front ih =>
    cases h with
    | cons hgap hafter =>
      obtain ⟨middle, hfront, hback⟩ := ih hafter
      exact ⟨middle, .cons hgap hfront, hback⟩

theorem exists_of_cons (h : Laid rest (lexeme :: lexemes) text) :
    ∃ middle, Laid middle [lexeme] text ∧ Laid rest lexemes middle :=
  @exists_of_append rest text [lexeme] lexemes h

theorem length_le (h : Laid rest lexemes text) : rest.length ≤ text.length := by
  induction h with
  | nil => exact Nat.le_refl _
  | cons _ _ ih =>
    rw [List.length_append, List.length_append]
    omega

theorem length_lt (h : Laid rest (lexeme :: lexemes) text) (hlexeme : IsLexeme lexeme) :
    rest.length < text.length := by
  obtain ⟨c, more, rfl, -⟩ := hlexeme
  cases h with
  | cons _ hafter =>
    have hle := hafter.length_le
    rw [List.length_append, List.length_append, List.length_cons]
    omega

end Laid

/-! ### Readers one after the other -/

section Combinators
variable {α β : Type} {reads other : Reads α} {text rest : List Char} {a : α}

theorem bind_of_some (f : α → Reads β) (h : reads text = some (a, rest)) :
    (reads >>= f) text = f a rest := by
  show (reads text).bind _ = _
  rw [h]
  rfl

theorem bind_of_none (f : α → Reads β) (h : reads text = none) : (reads >>= f) text = none := by
  show (reads text).bind _ = _
  rw [h]
  rfl

theorem orElse_of_some (h : reads text = some (a, rest)) :
    (reads <|> other) text = some (a, rest) := by
  show (reads text <|> other text) = _
  rw [h]
  rfl

theorem orElse_of_none (h : reads text = none) : (reads <|> other) text = other text := by
  show (reads text <|> other text) = _
  rw [h]
  rfl

theorem optional_of_some (h : reads text = some (a, rest)) :
    optional reads text = some (some a, rest) := by
  rw [optional, h]

theorem optional_of_none (h : reads text = none) : optional reads text = some (none, text) := by
  rw [optional, h]

end Combinators

/-- What the reader gives for the lexemes, if what comes after them fits. -/
def ReadsAs {α : Type} (reads : Reads α) (a : α) (lexemes : List (List Char))
    (fits : List Char → Prop) : Prop :=
  ∀ ⦃text rest⦄, Laid rest lexemes text → fits rest → reads text = some (a, rest)

section Sequences
variable {α β : Type} {reads : Reads α} {a : α} {front back : List (List Char)}
  {fits after : List Char → Prop}

/-- What comes after the first lexemes is the others. -/
theorem ReadsAs.bind {f : α → Reads β} {b : β} (h : ReadsAs reads a front fits)
    (hf : ReadsAs (f a) b back after)
    (hback : ∀ ⦃text rest⦄, Laid rest back text → after rest → fits text) :
    ReadsAs (reads >>= f) b (front ++ back) after := by
  intro text rest hlaid hafter
  obtain ⟨middle, hfront, hrest⟩ := hlaid.exists_of_append
  rw [bind_of_some f (h hfront (hback hrest hafter))]
  exact hf hrest hafter

theorem ReadsAs.map {f : α → β} (h : ReadsAs reads a front fits) :
    ReadsAs (reads >>= fun x => pure (f x)) (f a) front fits := by
  intro text rest hlaid hfits
  rw [bind_of_some _ (h hlaid hfits)]
  rfl

theorem ReadsAs.orElse_left {other : Reads α} (h : ReadsAs reads a front fits) :
    ReadsAs (reads <|> other) a front fits :=
  fun _ _ hlaid hfits => orElse_of_some (h hlaid hfits)

theorem ReadsAs.orElse_right {other : Reads α}
    (hnone : ∀ ⦃text rest⦄, Laid rest front text → fits rest → reads text = none)
    (h : ReadsAs other a front fits) : ReadsAs (reads <|> other) a front fits := by
  intro text rest hlaid hfits
  rw [orElse_of_none (hnone hlaid hfits)]
  exact h hlaid hfits

end Sequences

/-! ### Many -/

/-- The texts between which the values are read one by one, until none can be read. -/
inductive ReadsAll {α : Type} (reads : Reads α) : List α → List Char → List Char → Prop
  | nil {text} : reads text = none → ReadsAll reads [] text text
  | cons {a as text middle rest} : reads text = some (a, middle) → middle.length < text.length →
      ReadsAll reads as middle rest → ReadsAll reads (a :: as) text rest

theorem many_of_readsAll {α : Type} {reads : Reads α} {as : List α} {text rest : List Char}
    (h : ReadsAll reads as text rest) : many reads text = some (as, rest) := by
  have hcount : ∀ count, text.length ≤ count → atMost reads count text = some (as, rest) := by
    -- By the values: each leaves a shorter text, so that the count never runs out before them.
    induction h with
    | nil hnone =>
      intro count _
      cases count with
      | zero => rfl
      | succ count => rw [atMost, hnone]
    | cons hsome hshorter _ ih =>
      intro count hlength
      cases count with
      | zero => omega
      | succ count =>
        rw [atMost, hsome]
        show (atMost reads count _).map _ = _
        rw [ih count (by omega)]
        rfl
  exact hcount _ (Nat.le_refl _)

/-! ### Separators -/

theorem symbol_of_skip {mark : String} {text rest : List Char}
    (h : skip text = mark.toList ++ rest) : symbol mark text = some ((), rest) := by
  rw [symbol, lexeme, exactly, List.isPrefixOf?_eq_some_iff_append_eq.2 h.symm]
  rfl

theorem symbol_of_not_prefix {mark : String} {text : List Char}
    (h : ¬ mark.toList <+: skip text) : symbol mark text = none := by
  rw [symbol, lexeme, exactly]
  cases hrest : mark.toList.isPrefixOf? (skip text) with
  | none => rfl
  | some rest => exact absurd ⟨rest, List.isPrefixOf?_eq_some_iff_append_eq.1 hrest⟩ h

/-- A mark cannot be read where another character comes next. -/
theorem symbol_of_next? {mark : String} {c : Char} {more : List Char}
    (hmark : mark.toList = c :: more) {text : List Char} (h : next? text ≠ some c) :
    symbol mark text = none := by
  refine symbol_of_not_prefix fun hprefix => h ?_
  obtain ⟨rest, hrest⟩ := hprefix
  rw [next?, ← hrest, hmark]
  rfl

theorem symbol_readsAs (mark : String) (h : IsLexeme mark.toList) :
    ReadsAs (symbol mark) () [mark.toList] fun _ => True := by
  intro text rest hlaid _
  obtain ⟨after, hskip, hafter⟩ := hlaid.skip_eq h
  cases hafter
  exact symbol_of_skip hskip

theorem joined_cons (c : Char) (first : List (List Char)) (others : List (List (List Char))) :
    joined c (first :: others) = first ++ others.flatMap fun part => [c] :: part := by
  induction others generalizing first with
  | nil =>
    rw [joined, List.intercalate_singleton]
    exact (List.append_nil _).symm
  | cons second others ih =>
    rw [joined, List.intercalate_cons_cons, ← joined, ih, List.flatMap_cons, List.append_assoc]
    rfl

section Separated
variable {α : Type} {reads : Reads α} {spell : α → List (List Char)} {fits : List Char → Prop}
  {c : Char}

theorem separated_of_readsAll {mark : String} {text middle rest : List Char} {first : α}
    {others : List α} (hfirst : reads text = some (first, middle))
    (hothers : ReadsAll (do symbol mark; reads) others middle rest) :
    separated mark reads text = some (first :: others, rest) := by
  rw [separated, bind_of_some _ hfirst, bind_of_some _ (many_of_readsAll hothers)]
  rfl

/-- Parts are read up to the last, after which there is no mark. -/
theorem separated_readsAs (mark : String) (hmark : mark.toList = [c]) (hc : isGapStart c = false)
    (hfits : ∀ ⦃text rest lexemes⦄, Laid rest ([c] :: lexemes) text → fits text) {as : List α}
    (hne : as ≠ []) (h : ∀ a ∈ as, ReadsAs reads a (spell a) fits) :
    ReadsAs (separated mark reads) as (joined c (as.map spell)) fun rest =>
      fits rest ∧ next? rest ≠ some c := by
  intro text rest hlaid hrest
  obtain ⟨hrestFits, hrestMark⟩ := hrest
  have hlexeme : IsLexeme mark.toList := ⟨c, [], hmark, hc⟩
  have hnext : ∀ (others : List α) ⦃text⦄,
      Laid rest (others.flatMap fun a => [c] :: spell a) text → fits text := by
    intro others text hlaid
    cases others with
    | nil =>
      cases hlaid
      exact hrestFits
    | cons a others => exact hfits hlaid
  have hmany : ∀ (others : List α) ⦃text⦄, (∀ a ∈ others, ReadsAs reads a (spell a) fits) →
      Laid rest (others.flatMap fun a => [c] :: spell a) text →
      ReadsAll (do symbol mark; reads) others text rest := by
    intro others
    induction others with
    | nil =>
      intro text _ hlaid
      cases hlaid
      exact .nil (bind_of_none _ (symbol_of_next? hmark hrestMark))
    | cons a others ih =>
      intro text hreads hlaid
      obtain ⟨ha, hothers⟩ := List.forall_mem_cons.1 hreads
      rw [List.flatMap_cons] at hlaid
      obtain ⟨middle, hfirst, hback⟩ := hlaid.exists_of_append
      have hpart : ReadsAs (do symbol mark; reads) a ([c] :: spell a) fits := by
        rw [← List.singleton_append, ← hmark]
        exact (symbol_readsAs mark hlexeme).bind ha fun _ _ _ _ => trivial
      exact .cons (hpart hfirst (hnext others hback)) (hfirst.length_lt ⟨c, [], rfl, hc⟩)
        (ih hothers hback)
  cases as with
  | nil => exact absurd rfl hne
  | cons first others =>
    obtain ⟨hfirst, hothers⟩ := List.forall_mem_cons.1 h
    rw [List.map_cons, joined_cons, List.flatMap_map] at hlaid
    obtain ⟨middle, hfront, hback⟩ := hlaid.exists_of_append
    exact separated_of_readsAll (hfirst hfront (hnext others hback)) (hmany others hothers hback)

end Separated

/-! ### What every reading gives -/

/-- All that the reader gives has the property. -/
def Gives {α : Type} (P : α → Prop) (reads : Reads α) : Prop :=
  ∀ ⦃text a rest⦄, reads text = some (a, rest) → P a

namespace Gives
variable {α β : Type} {P : α → Prop} {Q : β → Prop} {reads : Reads α}

theorem any (reads : Reads α) : Gives (fun _ => True) reads := fun _ _ _ _ => trivial

theorem pure {a : α} (h : P a) : Gives P (pure a : Reads α) := by
  intro text b rest hread
  cases hread
  exact h

theorem bind {f : α → Reads β} (h : Gives P reads) (hf : ∀ a, P a → Gives Q (f a)) :
    Gives Q (reads >>= f) := by
  intro text b rest hread
  obtain ⟨⟨a, middle⟩, hfirst, hsecond⟩ := Option.bind_eq_some_iff.1 hread
  exact hf a (h hfirst) hsecond

theorem orElse {other : Reads α} (h : Gives P reads) (hother : Gives P other) :
    Gives P (reads <|> other) := by
  intro text a rest hread
  cases hfirst : reads text with
  | some found =>
    rw [orElse_of_some hfirst] at hread
    cases hread
    exact h hfirst
  | none =>
    rw [orElse_of_none hfirst] at hread
    exact hother hread

theorem lexeme (h : Gives P reads) : Gives P (lexeme reads) := fun _ _ _ hread => h hread

theorem optional (h : Gives P reads) : Gives (fun found => ∀ a ∈ found, P a) (optional reads) := by
  intro text found rest hread
  unfold Request.optional at hread
  split at hread
  · next hsome =>
    cases hread
    intro a ha
    cases ha
    exact h hsome
  · cases hread
    exact fun a ha => by cases ha

theorem many (h : Gives P reads) : Gives (fun as => ∀ a ∈ as, P a) (many reads) := by
  have hcount : ∀ count, Gives (fun as => ∀ a ∈ as, P a) (atMost reads count) := by
    intro count
    induction count with
    | zero =>
      intro text as rest hread
      cases hread
      simp
    | succ count ih =>
      intro text as rest hread
      unfold atMost at hread
      split at hread
      · cases hread
        simp
      · next hsome =>
        obtain ⟨⟨others, last⟩, hothers, heq⟩ := Option.map_eq_some_iff.1 hread
        cases heq
        exact List.forall_mem_cons.2 ⟨h hsome, ih hothers⟩
  exact fun text as rest hread => hcount _ hread

theorem separated (mark : String) (h : Gives P reads) :
    Gives (fun as => as ≠ [] ∧ ∀ a ∈ as, P a) (separated mark reads) := by
  refine h.bind fun first hfirst => ?_
  refine (many ((any _).bind fun _ _ => h)).bind fun others hothers => ?_
  exact pure ⟨List.cons_ne_nil _ _, List.forall_mem_cons.2 ⟨hfirst, hothers⟩⟩

end Gives

end Treebank.Request
