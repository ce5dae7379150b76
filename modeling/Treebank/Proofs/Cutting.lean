import Treebank.Text.Blank
import Treebank.Text.Line
import Treebank.Text.Number

/-! Text cut and put together again.

Pieces that hold no separator come back when they are joined and cut (`pieces_joinWith`),
and so do lines (`terminated_flatMap`) and the numerals of numbers (`readNumber_write`).
A trimmed text stays as it is, also after a name and an equals sign (`splitFirst_trim_entry`). -/
namespace Treebank.Text

/-! ### Pieces -/

section Pieces
variable {separator : Char}

theorem pieces_of_not_mem {text : List Char} (h : separator ∉ text) :
    pieces separator text = [text] := by
  induction text with
  | nil => rfl
  | cons c rest ih =>
    rw [List.mem_cons, not_or] at h
    rw [pieces, if_neg (Ne.symm h.1), ih h.2]

theorem pieces_append {piece : List Char} (h : separator ∉ piece) (rest : List Char) :
    pieces separator (piece ++ separator :: rest) = piece :: pieces separator rest := by
  induction piece with
  | nil => exact if_pos rfl
  | cons c more ih =>
    rw [List.mem_cons, not_or] at h
    rw [List.cons_append, pieces, if_neg (Ne.symm h.1), ih h.2]

theorem pieces_joinWith {parts : List (List Char)} (hparts : parts ≠ [])
    (h : ∀ part ∈ parts, separator ∉ part) : pieces separator (joinWith separator parts) = parts := by
  induction parts with
  | nil => exact absurd rfl hparts
  | cons part rest ih =>
    obtain ⟨hpart, hrest⟩ := List.forall_mem_cons.1 h
    cases rest with
    | nil => exact pieces_of_not_mem hpart
    | cons next more =>
      rw [joinWith, pieces_append hpart, ih (List.cons_ne_nil _ _) hrest]
      exact List.cons_ne_nil _ _

/-- A piece is made of characters of the text that are no separators. -/
theorem mem_of_mem_pieces {text piece : List Char} (h : piece ∈ pieces separator text) :
    ∀ c ∈ piece, c ∈ text ∧ c ≠ separator := by
  induction text generalizing piece with
  | nil =>
    rw [List.mem_singleton.1 h]
    exact fun c hc => absurd hc List.not_mem_nil
  | cons first rest ih =>
    have hlater : ∀ {piece}, piece ∈ pieces separator rest →
        ∀ c ∈ piece, c ∈ first :: rest ∧ c ≠ separator := fun hpiece c hc =>
      (ih hpiece c hc).imp_left (List.mem_cons_of_mem _)
    unfold pieces at h
    split at h
    · rcases List.mem_cons.1 h with rfl | h
      · exact fun c hc => absurd hc List.not_mem_nil
      · exact hlater h
    · next hfirst =>
      have hhead : ∀ c ∈ [first], c ∈ first :: rest ∧ c ≠ separator := by
        intro c hc
        rw [List.mem_singleton.1 hc]
        exact ⟨List.mem_cons_self, hfirst⟩
      split at h
      · rw [List.mem_singleton.1 h]
        exact hhead
      · next piece' more hpieces =>
        rw [hpieces] at hlater
        rcases List.mem_cons.1 h with rfl | h
        · intro c hc
          rcases List.mem_cons.1 hc with rfl | hc
          · exact hhead c List.mem_cons_self
          · exact hlater List.mem_cons_self c hc
        · exact hlater (List.mem_cons_of_mem _ h)

theorem mem_of_mem_joinWith {parts : List (List Char)} {c : Char}
    (h : c ∈ joinWith separator parts) : c = separator ∨ ∃ part ∈ parts, c ∈ part := by
  induction parts with
  | nil => cases h
  | cons part rest ih =>
    cases rest with
    | nil => exact .inr ⟨part, List.mem_cons_self, h⟩
    | cons next more =>
      rw [joinWith] at h
      · rcases List.mem_append.1 h with h | h
        · exact .inr ⟨part, List.mem_cons_self, h⟩
        · rcases List.mem_cons.1 h with rfl | h
          · exact .inl rfl
          · refine (ih h).imp_right fun hpart => ?_
            obtain ⟨other, hother, hc⟩ := hpart
            exact ⟨other, List.mem_cons_of_mem _ hother, hc⟩
      · exact List.cons_ne_nil _ _

theorem pieces_ne_nil (text : List Char) : pieces separator text ≠ [] := by
  cases text with
  | nil => exact List.cons_ne_nil _ _
  | cons c rest =>
    unfold pieces
    split
    · exact List.cons_ne_nil _ _
    · split <;> exact List.cons_ne_nil _ _

theorem pieces_eq_splitOn (text : List Char) : pieces separator text = text.splitOn separator := by
  induction text with
  | nil => rfl
  | cons c rest ih =>
    rw [List.splitOn_cons_eq_if_modifyHead, ← ih, pieces]
    by_cases hc : c = separator
    · simp [hc]
    · have hsome : pieces separator rest ≠ [] := pieces_ne_nil rest
      obtain ⟨piece, later, hrest⟩ := List.exists_cons_of_ne_nil hsome
      simp [hc, hrest]

theorem joinWith_cons_of_ne_nil {rest : List (List Char)} (h : rest ≠ []) (part : List Char) :
    joinWith separator (part :: rest) = part ++ separator :: joinWith separator rest := by
  cases rest with
  | nil => exact absurd rfl h
  | cons next more => rfl

/-- A separator stands before every part but the first. -/
theorem joinWith_cons (part : List Char) (rest : List (List Char)) :
    joinWith separator (part :: rest) = part ++ rest.flatMap (separator :: ·) := by
  induction rest generalizing part with
  | nil => exact (List.append_nil part).symm
  | cons next more ih =>
    rw [joinWith_cons_of_ne_nil (List.cons_ne_nil _ _), ih, List.flatMap_cons]
    rfl

theorem joinWith_pieces (text : List Char) : joinWith separator (pieces separator text) = text := by
  induction text with
  | nil => rfl
  | cons c rest ih =>
    unfold pieces
    split
    · next hc => rw [joinWith_cons_of_ne_nil (pieces_ne_nil rest), ih, hc, List.nil_append]
    · cases hpieces : pieces separator rest with
      | nil => exact absurd hpieces (pieces_ne_nil rest)
      | cons piece more =>
        rw [hpieces] at ih
        rw [← ih]
        cases more <;> rfl

theorem joinWith_append {parts rest : List (List Char)} (h : parts ≠ []) (hrest : rest ≠ []) :
    joinWith separator (parts ++ rest) =
      joinWith separator parts ++ separator :: joinWith separator rest := by
  induction parts with
  | nil => exact absurd rfl h
  | cons part later ih =>
    cases later with
    | nil => exact joinWith_cons_of_ne_nil hrest part
    | cons next more =>
      rw [List.cons_append, joinWith_cons_of_ne_nil (by simp), ih (List.cons_ne_nil _ _),
        joinWith_cons_of_ne_nil (List.cons_ne_nil _ _), List.append_assoc, List.cons_append]

theorem joinWith_concat {parts : List (List Char)} (h : parts ≠ []) (last : List Char) :
    joinWith separator (parts ++ [last]) = joinWith separator parts ++ separator :: last :=
  joinWith_append h (List.cons_ne_nil last [])

/-- A separator stands after every part but the last. -/
theorem joinWith_append_separator {parts : List (List Char)} (h : parts ≠ []) :
    joinWith separator parts ++ [separator] = parts.flatMap (· ++ [separator]) := by
  induction parts with
  | nil => exact absurd rfl h
  | cons part rest ih =>
    cases rest with
    | nil => exact (List.append_nil _).symm
    | cons next more =>
      rw [joinWith_cons_of_ne_nil (List.cons_ne_nil _ _), List.flatMap_cons,
        ← ih (List.cons_ne_nil _ _)]
      simp

theorem splitFirst_append {before : List Char} (h : separator ∉ before) (after : List Char) :
    splitFirst separator (before ++ separator :: after) = some (before, after) := by
  induction before with
  | nil => exact if_pos rfl
  | cons c more ih =>
    rw [List.mem_cons, not_or] at h
    rw [List.cons_append, splitFirst, if_neg (Ne.symm h.1), ih h.2]
    rfl

theorem splitFirst_of_not_mem {text : List Char} (h : separator ∉ text) :
    splitFirst separator text = none := by
  induction text with
  | nil => rfl
  | cons c rest ih =>
    rw [List.mem_cons, not_or] at h
    rw [splitFirst, if_neg (Ne.symm h.1), ih h.2]
    rfl

theorem eq_append_of_splitFirst {text before after : List Char}
    (h : splitFirst separator text = some (before, after)) :
    text = before ++ separator :: after ∧ separator ∉ before := by
  induction text generalizing before with
  | nil => cases h
  | cons c rest ih =>
    unfold splitFirst at h
    split at h
    · next hc =>
      cases h
      exact ⟨by rw [hc, List.nil_append], List.not_mem_nil⟩
    · next hc =>
      obtain ⟨⟨first, second⟩, hrest, heq⟩ := Option.map_eq_some_iff.1 h
      cases heq
      obtain ⟨rfl, hfirst⟩ := ih hrest
      exact ⟨rfl, fun hmem => (List.mem_cons.1 hmem).elim (Ne.symm hc) hfirst⟩

end Pieces

/-! ### Lines -/

section Lines
variable {α : Type} [DecidableEq α] {mark : α}

theorem terminated_append {line : List α} (h : mark ∉ line) (rest : List α) :
    terminated mark (line ++ mark :: rest) = line :: terminated mark rest := by
  induction line with
  | nil => exact if_pos rfl
  | cons a more ih =>
    rw [List.mem_cons, not_or] at h
    rw [List.cons_append, terminated, if_neg (Ne.symm h.1), ih h.2]

theorem terminated_flatMap {lines : List (List α)} (h : ∀ line ∈ lines, mark ∉ line) :
    terminated mark (lines.flatMap (· ++ [mark])) = lines := by
  induction lines with
  | nil => rfl
  | cons line rest ih =>
    obtain ⟨hline, hrest⟩ := List.forall_mem_cons.1 h
    rw [List.flatMap_cons, List.append_assoc, List.singleton_append, terminated_append hline,
      ih hrest]

theorem not_mem_of_mem_terminated {text line : List α} (h : line ∈ terminated mark text) :
    mark ∉ line := by
  induction text generalizing line with
  | nil => cases h
  | cons a rest ih =>
    unfold terminated at h
    split at h
    · rcases List.mem_cons.1 h with rfl | h
      · exact List.not_mem_nil
      · exact ih h
    · next ha =>
      split at h
      · rw [List.mem_singleton.1 h]
        exact fun hmem => ha (List.mem_singleton.1 hmem).symm
      · next first more hlines =>
        rw [hlines] at ih
        rcases List.mem_cons.1 h with rfl | h
        · exact fun hmem => (List.mem_cons.1 hmem).elim (Ne.symm ha) (ih List.mem_cons_self)
        · exact ih (List.mem_cons_of_mem _ h)

end Lines

/-! ### Ends -/

section Ends
variable {p : Char → Bool}

theorem dropEndWhile_cons_of_not {c : Char} (h : p c = false) (rest : List Char) :
    dropEndWhile p (c :: rest) = c :: dropEndWhile p rest := by
  rw [dropEndWhile]
  cases dropEndWhile p rest with
  | nil => simp [h]
  | cons d more => rfl

/-- What is kept of the second part keeps the first part whole. -/
theorem dropEndWhile_append {back : List Char} (h : dropEndWhile p back ≠ []) (front : List Char) :
    dropEndWhile p (front ++ back) = front ++ dropEndWhile p back := by
  induction front with
  | nil => rfl
  | cons c rest ih =>
    rw [List.cons_append, dropEndWhile, ih]
    cases hkept : rest ++ dropEndWhile p back with
    | nil => exact absurd (List.append_eq_nil_iff.1 hkept).2 h
    | cons d more => rw [List.cons_append, hkept]

theorem dropEndWhile_dropEndWhile (text : List Char) :
    dropEndWhile p (dropEndWhile p text) = dropEndWhile p text := by
  induction text with
  | nil => rfl
  | cons c rest ih =>
    rw [dropEndWhile]
    cases hrest : dropEndWhile p rest with
    | nil =>
      by_cases hc : p c = true
      · simp [hc, dropEndWhile]
      · simp [hc, dropEndWhile]
    | cons d more =>
      rw [hrest] at ih
      rw [dropEndWhile, ih]

/-- What is dropped is an end of the text. -/
theorem exists_append_dropEndWhile (p : Char → Bool) (text : List Char) :
    ∃ dropped, text = dropEndWhile p text ++ dropped ∧ ∀ c ∈ dropped, p c = true := by
  induction text with
  | nil => exact ⟨[], rfl, fun c hc => absurd hc List.not_mem_nil⟩
  | cons c rest ih =>
    obtain ⟨dropped, hrest, hdropped⟩ := ih
    rw [dropEndWhile]
    cases hkept : dropEndWhile p rest with
    | nil =>
      rw [hkept, List.nil_append] at hrest
      by_cases hc : p c = true
      · exact ⟨c :: dropped, by simp [hc, hrest], List.forall_mem_cons.2 ⟨hc, hdropped⟩⟩
      · exact ⟨dropped, by simp [hc, hrest], hdropped⟩
    | cons d more =>
      rw [hkept] at hrest
      exact ⟨dropped, congrArg (c :: ·) hrest, hdropped⟩

theorem mem_of_mem_dropEndWhile {text : List Char} {c : Char} (h : c ∈ dropEndWhile p text) :
    c ∈ text := by
  obtain ⟨dropped, htext, -⟩ := exists_append_dropEndWhile p text
  rw [htext]
  exact List.mem_append_left _ h

theorem length_dropEndWhile_le (p : Char → Bool) (text : List Char) :
    (dropEndWhile p text).length ≤ text.length := by
  obtain ⟨dropped, htext, -⟩ := exists_append_dropEndWhile p text
  rw [congrArg List.length htext, List.length_append]
  exact Nat.le_add_right _ _

theorem dropEndWhile_of_length_le {text : List Char}
    (h : text.length ≤ (dropEndWhile p text).length) : dropEndWhile p text = text := by
  obtain ⟨dropped, htext, -⟩ := exists_append_dropEndWhile p text
  have hlength := congrArg List.length htext
  rw [List.length_append] at hlength
  have hnone : dropped = [] := List.length_eq_zero_iff.1 (by omega)
  rw [hnone, List.append_nil] at htext
  exact htext.symm

theorem dropEndWhile_append_of_forall {back : List Char} (h : ∀ c ∈ back, p c = true)
    (front : List Char) : dropEndWhile p (front ++ back) = dropEndWhile p front := by
  have hback : dropEndWhile p back = [] := by
    induction back with
    | nil => rfl
    | cons c rest ih =>
      obtain ⟨hc, hrest⟩ := List.forall_mem_cons.1 h
      rw [dropEndWhile, ih hrest]
      exact if_pos hc
  induction front with
  | nil => exact hback
  | cons c rest ih => rw [List.cons_append, dropEndWhile, ih, dropEndWhile]

/-- Nothing is dropped from a text whose last character is to be kept. -/
theorem dropEndWhile_eq_self_iff {text : List Char} :
    dropEndWhile p text = text ↔ ∀ c ∈ text.getLast?, p c = false := by
  rcases List.eq_nil_or_concat text with rfl | ⟨front, last, rfl⟩
  · simp [dropEndWhile]
  · simp only [List.concat_eq_append, List.getLast?_concat, Option.mem_def, Option.some.injEq,
      forall_eq']
    cases hlast : p last with
    | true =>
      refine iff_of_false (fun h => ?_) Bool.noConfusion
      -- what is kept would be longer than what it is kept from
      rw [dropEndWhile_append_of_forall (List.forall_mem_singleton.2 hlast)] at h
      have hlength := length_dropEndWhile_le p front
      rw [h, List.length_append, List.length_singleton] at hlength
      omega
    | false =>
      have hkept : dropEndWhile p [last] = [last] := dropEndWhile_cons_of_not hlast []
      rw [dropEndWhile_append (by simp [hkept]), hkept]
      exact iff_of_true rfl rfl

end Ends

theorem mem_of_mem_trim {text : List Char} {c : Char} (h : c ∈ trim text) : c ∈ text :=
  (List.dropWhile_sublist _).subset (mem_of_mem_dropEndWhile h)

theorem dropReturns_eq_self_iff {line : List Char} :
    dropReturns line = line ↔ line.getLast? ≠ some '\r' := by
  rw [dropReturns, dropEndWhile_eq_self_iff]
  cases line.getLast? <;> simp

/-- Only the last of several parts can end in a carriage return. -/
theorem dropReturns_joinWith {parts : List (List Char)} (h : parts ≠ []) (last : List Char) :
    dropReturns (joinWith '\t' (parts ++ [last])) =
      joinWith '\t' (parts ++ [dropReturns last]) := by
  have hlast : dropEndWhile (· = '\r') ('\t' :: last) = '\t' :: dropReturns last :=
    dropEndWhile_cons_of_not rfl last
  rw [joinWith_concat h, joinWith_concat h, dropReturns, dropEndWhile_append (by simp [hlast]),
    hlast]

/-- The text begins with no blank. -/
theorem trim_cons_of_not {c : Char} (h : isBlank c = false) (rest : List Char) :
    trim (c :: rest) = c :: trimEnd rest := by
  rw [trim, List.dropWhile_cons_of_neg (by simp [h]), trimEnd, dropEndWhile_cons_of_not h]
  rfl

theorem trimEnd_trim (text : List Char) : trimEnd (trim text) = trim text :=
  dropEndWhile_dropEndWhile _

theorem trim_trim (text : List Char) : trim (trim text) = trim text := by
  cases htext : text.dropWhile isBlank with
  | nil =>
    have htrim : trim text = [] := by
      rw [trim, htext]
      rfl
    rw [htrim]
    rfl
  | cons c rest =>
    have hc : isBlank c = false := by
      have hhead := List.head_dropWhile_not isBlank (l := text) (by simp [htext])
      simpa [htext] using hhead
    have htrim : trim text = c :: trimEnd rest := by
      rw [trim, htext, trimEnd, dropEndWhile_cons_of_not hc]
      rfl
    rw [htrim, trim_cons_of_not hc, trimEnd, trimEnd, dropEndWhile_dropEndWhile]

/-- Blanks at the end make no difference. -/
theorem trim_append_of_forall {back : List Char} (h : ∀ c ∈ back, isBlank c = true)
    (front : List Char) : trim (front ++ back) = trim front := by
  rw [trim, trim, List.dropWhile_append]
  split
  · next hfront =>
    have hback : back.dropWhile isBlank = [] := by
      rw [← List.append_nil back, List.dropWhile_append_of_pos h]
      rfl
    rw [List.isEmpty_iff.1 hfront, hback]
  · exact dropEndWhile_append_of_forall h _

theorem trim_dropReturns (text : List Char) : trim (dropReturns text) = trim text := by
  obtain ⟨dropped, htext, hdropped⟩ := exists_append_dropEndWhile (· = '\r') text
  have hblank : ∀ c ∈ dropped, isBlank c = true := by
    intro c hc
    rw [of_decide_eq_true (hdropped c hc)]
    rfl
  rw [congrArg trim htext, trim_append_of_forall hblank]
  rfl

theorem trim_blank_cons {c : Char} (h : isBlank c = true) (rest : List Char) :
    trim (c :: rest) = trim rest := by
  rw [trim, List.dropWhile_cons_of_pos h]
  rfl

/-- A trimmed value after a key and an equals sign is still there when the whole is trimmed. -/
theorem splitFirst_trim_entry {key value : List Char} (hstart : key.head?.map isBlank = some false)
    (hkey : '=' ∉ key) (hvalue : trim value = value) :
    ∃ rest, splitFirst '=' (trim (' ' :: (key ++ ' ' :: '=' :: ' ' :: value))) =
      some (key ++ [' '], rest) ∧ trim rest = value := by
  refine ⟨trimEnd (' ' :: value), ?_, ?_⟩
  · have hequals : trimEnd ('=' :: ' ' :: value) = '=' :: trimEnd (' ' :: value) :=
      dropEndWhile_cons_of_not (by decide) _
    have hback : trimEnd ((key ++ [' ']) ++ '=' :: ' ' :: value) =
        (key ++ [' ']) ++ trimEnd ('=' :: ' ' :: value) :=
      dropEndWhile_append (by rw [← trimEnd, hequals]; exact List.cons_ne_nil _ _) _
    have htrim : trim (' ' :: (key ++ ' ' :: '=' :: ' ' :: value)) =
        (key ++ [' ']) ++ '=' :: trimEnd (' ' :: value) := by
      cases key with
      | nil => cases hstart
      | cons c more =>
        have hc : isBlank c = false := Option.some.inj hstart
        rw [← hequals, ← hback, trim_blank_cons (by decide), List.append_assoc,
          List.singleton_append, trim, List.cons_append, List.dropWhile_cons_of_neg (by simp [hc])]
    rw [htrim]
    exact splitFirst_append (by simp [hkey]) _
  · by_cases hempty : value = []
    · rw [hempty]
      decide
    · have hkept : trimEnd value = value := by rw [← hvalue, trimEnd_trim]
      have hall : trimEnd ([' '] ++ value) = [' '] ++ trimEnd value :=
        dropEndWhile_append (by rw [← trimEnd, hkept]; exact hempty) _
      rw [← List.singleton_append, hall, hkept, List.singleton_append,
        trim_blank_cons (by decide), hvalue]

/-! ### Numbers -/

theorem readNumber_write {n : Nat} (h : n < numberBound) : readNumber (writeNumber n) = some n := by
  have hdigits : (writeNumber n).all Char.isDigit = true :=
    List.all_eq_true.2 fun c hc => Nat.isDigit_of_mem_toDigits (by decide) (by decide) hc
  have hvalue : Nat.ofDigitChars 10 (writeNumber n) 0 = n := Nat.ofDigitChars_ten_toDigits
  rw [readNumber, if_pos ⟨Nat.toDigits_ne_nil, hdigits⟩]
  simp only [hvalue, h, if_true]

theorem lt_of_readNumber {text : List Char} {n : Nat} (h : readNumber text = some n) :
    n < numberBound := by
  unfold readNumber at h
  simp only at h
  split at h
  · split at h
    · next hlt =>
      cases h
      exact hlt
    · cases h
  · cases h

theorem writeNumber_of_readWritten {text : List Char} {n : Nat} (h : readWritten text = some n) :
    writeNumber n = text := by
  have hwritten := (Option.filter_eq_some_iff.1 h).2
  simpa using hwritten

theorem exists_writeNumber_eq_cons (n : Nat) :
    ∃ c rest, writeNumber n = c :: rest ∧ c.isDigit = true := by
  obtain ⟨c, rest, heq⟩ := List.exists_cons_of_ne_nil (Nat.toDigits_ne_nil (n := n) (b := 10))
  exact ⟨c, rest, heq, Nat.isDigit_of_mem_toDigits (by decide) (by decide)
    (heq ▸ List.mem_cons_self)⟩

theorem isBlank_of_isDigit {c : Char} (h : c.isDigit = true) : isBlank c = false := by
  have hbounds : 48 ≤ c.toNat ∧ c.toNat ≤ 57 := Char.isDigit_iff_toNat.1 h
  simp [isBlank, blankRanges]
  omega

theorem not_mem_writeNumber {c : Char} (h : c.isDigit = false) (n : Nat) : c ∉ writeNumber n := by
  intro hc
  rw [Nat.isDigit_of_mem_toDigits (by decide) (by decide) hc] at h
  cases h

end Treebank.Text
