import Mathlib.Data.List.TakeWhile
import Treebank.Proofs.Readers

/-! Names, labels and values.

Each is read from its spelling if no character that belongs to it comes after it, and what is
read has the form that its spelling needs. Values are the exception, whose quotes end them and
let them be any. -/
namespace Treebank.Request

/-! ### Characters -/

/-- What cannot come after a feature name. -/
def continuesFeature (c : Char) : Bool := isFeatureChar c || c == '['

theorem solid_isNameStart : Solid isNameStart := solid_of_all rfl

theorem solid_isNameChar : Solid isNameChar := solid_of_all rfl

theorem solid_isAlpha : Solid Char.isAlpha := solid_of_all rfl

theorem solid_continuesFeature : Solid continuesFeature := solid_of_all rfl

theorem solid_isLabelChar : Solid isLabelChar := solid_of_all rfl

section Runs
variable {p : Char → Bool} {taken rest : List Char} (h : ∀ c ∈ taken, p c = true)
  (hstops : Stops p rest)

include h hstops

theorem takeWhile_of_stops : (taken ++ rest).takeWhile p = taken := by
  rw [List.takeWhile_append_of_pos h]
  cases rest with
  | nil => exact List.append_nil taken
  | cons c more => rw [List.takeWhile_cons_of_neg (by simp [hstops c rfl]), List.append_nil]

theorem dropWhile_of_stops : (taken ++ rest).dropWhile p = rest := by
  rw [List.dropWhile_append_of_pos h]
  cases rest with
  | nil => rfl
  | cons c more => exact List.dropWhile_cons_of_neg (by simp [hstops c rfl])

theorem runOrNothing_of_stops : runOrNothing p (taken ++ rest) = some (taken, rest) := by
  rw [runOrNothing, takeWhile_of_stops h hstops, dropWhile_of_stops h hstops]

theorem run_of_stops (hne : taken ≠ []) : run p (taken ++ rest) = some (taken, rest) := by
  rw [run, takeWhile_of_stops h hstops, dropWhile_of_stops h hstops]
  cases taken with
  | nil => exact absurd rfl hne
  | cons c more => rfl

end Runs

theorem one_of_head {p : Char → Bool} {c : Char} (h : p c = true) (rest : List Char) :
    one p (c :: rest) = some (c, rest) := if_pos h

theorem one_of_stops {p : Char → Bool} {text : List Char} (h : Stops p text) :
    one p text = none := by
  cases text with
  | nil => rfl
  | cons c rest => exact if_neg (by simp [h c rfl])

/-- A reader of one lexeme that does not begin like the next one. -/
theorem lexeme_one_of_next? {α : Type} {p : Char → Bool} {text : List Char} {c : Char}
    (f : Char → Reads α) (h : next? text = some c) (hc : p c = false) :
    lexeme (one p >>= f) text = none := by
  refine bind_of_none f (one_of_stops fun d hd => ?_)
  obtain rfl : c = d := Option.some.inj (h.symm.trans hd)
  exact hc

/-- A lexeme is read where it is laid if it is read from where it begins. -/
theorem lexeme_readsAs {α : Type} {reads : Reads α} {a : α} {spelling : List Char}
    {fits : List Char → Prop} (hlexeme : IsLexeme spelling)
    (h : ∀ rest, fits rest → reads (spelling ++ rest) = some (a, rest)) :
    ReadsAs (lexeme reads) a [spelling] fits := by
  intro text rest hlaid hfits
  obtain ⟨after, hskip, hafter⟩ := hlaid.skip_eq hlexeme
  cases hafter
  rw [lexeme, hskip]
  exact h rest hfits

/-! ### Names -/

theorem IsName.exists_cons {name : String} (h : IsName name) :
    ∃ c rest, name.toList = c :: rest ∧ isNameStart c = true ∧ isGapStart c = false := by
  obtain ⟨c, rest, hname, hc, -⟩ := h
  exact ⟨c, rest, hname, hc, solid_isNameStart.isGapStart_eq_false hc⟩

theorem ident_readsAs {name : String} (h : IsName name) :
    ReadsAs ident name [name.toList] (Stops isNameChar) := by
  obtain ⟨c, rest, hname, hc, hrest⟩ := h
  refine lexeme_readsAs ⟨c, rest, hname, solid_isNameStart.isGapStart_eq_false hc⟩
    fun after hafter => ?_
  rw [hname, List.cons_append, bind_of_some _ (one_of_head hc _),
    bind_of_some _ (runOrNothing_of_stops hrest hafter), ← hname, String.ofList_toList]
  rfl

theorem ident_of_next? {text : List Char} {c : Char} (h : next? text = some c)
    (hc : isNameStart c = false) : ident text = none :=
  lexeme_one_of_next? _ h hc

theorem one_gives (p : Char → Bool) : Gives (fun c => p c = true) (one p) := by
  intro text c rest hread
  unfold one at hread
  split at hread
  · split at hread
    · next hc =>
      cases hread
      exact hc
    · cases hread
  · cases hread

theorem runOrNothing_gives (p : Char → Bool) :
    Gives (fun taken => ∀ c ∈ taken, p c = true) (runOrNothing p) := by
  intro text taken rest hread
  cases hread
  exact fun c hc => List.mem_takeWhile_imp hc

theorem run_gives (p : Char → Bool) :
    Gives (fun taken => taken ≠ [] ∧ ∀ c ∈ taken, p c = true) (run p) := by
  intro text taken rest hread
  unfold run at hread
  split at hread
  · cases hread
  · next hne =>
    cases hread
    exact ⟨hne, fun c hc => List.mem_takeWhile_imp hc⟩

theorem ident_gives : Gives IsName ident := by
  refine .lexeme ((one_gives isNameStart).bind fun c hc => ?_)
  refine (runOrNothing_gives isNameChar).bind fun rest hrest => .pure ?_
  exact ⟨c, rest, String.toList_ofList, hc, hrest⟩

/-! ### Feature names -/

theorem exactly_append (mark : String) (rest : List Char) :
    exactly mark (mark.toList ++ rest) = some ((), rest) := by
  rw [exactly, List.isPrefixOf?_eq_some_iff_append_eq.2 rfl]
  rfl

theorem exactly_of_head {mark : String} {c : Char} {more text : List Char}
    (hmark : mark.toList = c :: more) (h : text.head? ≠ some c) : exactly mark text = none := by
  cases hrest : mark.toList.isPrefixOf? text with
  | none => rw [exactly, hrest]; rfl
  | some rest =>
    refine absurd ?_ h
    rw [← List.isPrefixOf?_eq_some_iff_append_eq.1 hrest, hmark]
    rfl

/-- The layer of a feature name, or that it has none. -/
theorem optional_layer {name : List Char} (h : IsLayer name) {rest : List Char}
    (hrest : Stops continuesFeature rest) :
    ∃ found, optional layer (name ++ rest) = some (found, rest) ∧ found.getD [] = name := by
  rcases h with rfl | ⟨word, rfl, hne, hword⟩
  · refine ⟨none, optional_of_none (bind_of_none _ (exactly_of_head rfl fun hbracket => ?_)), rfl⟩
    have hstops := hrest '[' hbracket
    cases hstops
  · refine ⟨some ('[' :: (word ++ [']'])), optional_of_some ?_, rfl⟩
    have hstops : Stops isNameChar ([']'] ++ rest) := by
      intro c hc
      cases hc
      rfl
    have hopen : exactly "[" ('[' :: (word ++ ([']'] ++ rest))) =
        some ((), word ++ ([']'] ++ rest)) := exactly_append "[" _
    have hclose : exactly "]" ([']'] ++ rest) = some ((), rest) := exactly_append "]" rest
    rw [List.cons_append, List.append_assoc, layer, bind_of_some _ hopen,
      bind_of_some _ (run_of_stops hword hstops hne), bind_of_some _ hclose]
    rfl

theorem IsFeatureName.exists_cons {feature : String} (h : IsFeatureName feature) :
    ∃ c rest, feature.toList = c :: rest ∧ c.isAlpha = true := by
  obtain ⟨c, rest, layer, hfeature, hc, -⟩ := h
  exact ⟨c, rest ++ layer, hfeature, hc⟩

theorem featureName_readsAs {feature : String} (h : IsFeatureName feature) :
    ReadsAs featureName feature [feature.toList] (Stops continuesFeature) := by
  obtain ⟨c, word, name, hfeature, hc, hword, hlayer⟩ := h
  refine lexeme_readsAs ⟨c, word ++ name, hfeature, solid_isAlpha.isGapStart_eq_false hc⟩
    fun rest hrest => ?_
  have hstops : Stops isFeatureChar (name ++ rest) := by
    intro d hd
    rcases hlayer with rfl | ⟨layer, rfl, -, -⟩
    · exact (Bool.or_eq_false_iff.1 (hrest d hd)).1
    · cases hd
      rfl
  have hrun : runOrNothing (fun c => isNameChar c || c == ':') (word ++ (name ++ rest)) =
      some (word, name ++ rest) := runOrNothing_of_stops hword hstops
  obtain ⟨found, hfound, hname⟩ := optional_layer hlayer hrest
  rw [hfeature, List.cons_append, List.append_assoc, bind_of_some _ (one_of_head hc _),
    bind_of_some _ hrun, bind_of_some _ hfound, hname, List.cons_append, ← hfeature,
    String.ofList_toList]
  rfl

theorem featureName_of_next? {text : List Char} {c : Char} (h : next? text = some c)
    (hc : c.isAlpha = false) : featureName text = none :=
  lexeme_one_of_next? _ h hc

theorem layer_gives : Gives IsLayer layer := by
  refine (Gives.any _).bind fun _ _ => (run_gives isNameChar).bind fun word hword => ?_
  exact (Gives.any _).bind fun _ _ => .pure (.inr ⟨word, rfl, hword⟩)

theorem featureName_gives : Gives IsFeatureName featureName := by
  refine .lexeme ((one_gives Char.isAlpha).bind fun c hc => ?_)
  refine (runOrNothing_gives isFeatureChar).bind fun word hword => ?_
  refine layer_gives.optional.bind fun found hfound => .pure ?_
  refine ⟨c, word, found.getD [], String.toList_ofList, hc, hword, ?_⟩
  cases found with
  | none => exact .inl rfl
  | some name => exact hfound name rfl

/-! ### Labels -/

theorem IsLabel.exists_cons {label : String} (h : IsLabel label) :
    ∃ c rest, label.toList = c :: rest ∧ isLabelChar c = true ∧ isGapStart c = false := by
  obtain ⟨c, rest, hlabel⟩ := List.exists_cons_of_ne_nil h.1
  have hc : isLabelChar c = true := h.2 c (hlabel ▸ List.mem_cons_self)
  exact ⟨c, rest, hlabel, hc, solid_isLabelChar.isGapStart_eq_false hc⟩

theorem label_readsAs {name : String} (h : IsLabel name) :
    ReadsAs label name [name.toList] (Stops isLabelChar) := by
  obtain ⟨c, rest, hname, -, hc⟩ := h.exists_cons
  refine lexeme_readsAs ⟨c, rest, hname, hc⟩ fun after hafter => ?_
  rw [bind_of_some _ (run_of_stops h.2 hafter h.1), String.ofList_toList]
  rfl

theorem label_gives : Gives IsLabel label := by
  refine .lexeme ((run_gives isLabelChar).bind fun name hname => .pure ?_)
  rw [IsLabel, String.toList_ofList]
  exact hname

/-! ### Values -/

/-- Quotes and backslashes in a value are read from their escapes. -/
theorem quotedRest_escape (value rest : List Char) :
    quotedRest (value.flatMap escape ++ '"' :: rest) = some (value, rest) := by
  induction value with
  | nil => rfl
  | cons c value ih =>
    rw [List.flatMap_cons, List.append_assoc, escape]
    split
    · show (quotedRest (value.flatMap escape ++ '"' :: rest)).map _ = _
      rw [ih]
      rfl
    · next hplain =>
      rw [not_or] at hplain
      rw [List.singleton_append, quotedRest, ih]
      · rfl
      · exact hplain.1
      · intro d more hbackslash _
        exact hplain.2 hbackslash

theorem value_readsAs (text : String) : ReadsAs value text [quote text] fun _ => True := by
  refine lexeme_readsAs ⟨'"', _, rfl, rfl⟩ fun rest _ => ?_
  have hopen : exactly "\"" ('"' :: (text.toList.flatMap escape ++ ('"' :: rest))) =
      some ((), text.toList.flatMap escape ++ '"' :: rest) := exactly_append "\"" _
  have hquoted : quoted (quote text ++ rest) = some (text.toList, rest) := by
    rw [quote, List.cons_append, List.append_assoc, List.singleton_append, quoted,
      bind_of_some _ hopen]
    exact quotedRest_escape text.toList rest
  rw [bind_of_some _ (orElse_of_some hquoted), String.ofList_toList]
  rfl

end Treebank.Request
