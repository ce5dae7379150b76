import Treebank.Token

/-! Escapes in the white space after a token.

A `SpacesAfter` text spells a blank, a tab and a line feed with a backslash and a letter. The
three are replaced one after another, each in the whole of what the replacement before it has
left. `unescape` reads a text once instead. Both give the same where every replacement spares the
later escapes (`replaceEach_eq_unescape`): what it takes out and what it puts in is no part of
them, so they stand in the new text exactly where they stood (`Independent.keeps`). The escapes
of white space are of this kind (`Columns.spacesAfter_eq_unescape`). -/
namespace Treebank
namespace Text

/-- A backslash and `letter`, standing for `char`. -/
structure Escape where
  letter : Char
  char : Char

def Escape.replace (e : Escape) (text : List Char) : List Char :=
  replacePair '\\' e.letter e.char text

/-- The escapes replaced in turn, each in what the ones before it have left of the text. -/
def replaceEach (escapes : List Escape) (text : List Char) : List Char :=
  escapes.foldl (fun text e => e.replace text) text

/-- The text read once from left to right: an escape gives its character, and any other character
stands for itself. -/
def unescape (escapes : List Escape) : List Char → List Char
  | [] => []
  | '\\' :: letter :: rest =>
    match escapes.find? (·.letter = letter) with
    | some e => e.char :: unescape escapes rest
    | none => '\\' :: unescape escapes (letter :: rest)
  | c :: rest => c :: unescape escapes rest

/-- The escapes with the letter are in the new text where they were in the old one: each of them
between what has become of the parts before and after it, and there are no others. -/
def KeepsEscape (rewrite : List Char → List Char) (letter : Char) : Prop :=
  ∀ text before after, rewrite text = before ++ '\\' :: letter :: after ↔
    ∃ front back, text = front ++ '\\' :: letter :: back ∧
      rewrite front = before ∧ rewrite back = after

/-- Replacing the escape leaves those with the letter alone: what it has after its backslash and
what it stands for are neither that letter nor a backslash, and the letter is no backslash. -/
structure Escape.Spares (e : Escape) (letter : Char) : Prop where
  letter_ne_mark : e.letter ≠ '\\'
  char_ne_mark : e.char ≠ '\\'
  letter_ne : e.letter ≠ letter
  char_ne : e.char ≠ letter
  ne_mark : letter ≠ '\\'

def Independent (escapes : List Escape) : Prop :=
  escapes.Pairwise fun e later => e.Spares later.letter

/-- The character, with this text after it, is not the backslash of an escape. -/
def StartsNone (escapes : List Escape) (c : Char) (rest : List Char) : Prop :=
  c = '\\' → ∀ e ∈ escapes, rest.head? ≠ some e.letter

/-! ### One pass -/

section Pass
variable {escapes : List Escape} {e : Escape} {letter c : Char} {rest : List Char}

theorem letter_of_find? (h : escapes.find? (·.letter = letter) = some e) : e.letter = letter := by
  simpa using List.find?_some h

theorem unescape_escape (h : escapes.find? (·.letter = letter) = some e) (rest : List Char) :
    unescape escapes ('\\' :: letter :: rest) = e.char :: unescape escapes rest := by
  rw [unescape, h]

theorem StartsNone.append {back : List Char} (h : StartsNone escapes c rest)
    (hback : ∀ e ∈ escapes, back.head? ≠ some e.letter) :
    StartsNone escapes c (rest ++ back) := by
  intro hc e he
  cases rest with
  | nil => exact hback e he
  | cons d more => exact h hc e he

theorem StartsNone.of_append {front back : List Char} (h : StartsNone escapes c (front ++ back)) :
    StartsNone escapes c front := by
  intro hc e he hhead
  obtain ⟨more, rfl⟩ := List.head?_eq_some_iff.1 hhead
  exact h hc e he rfl

theorem unescape_cons (h : StartsNone escapes c rest) :
    unescape escapes (c :: rest) = c :: unescape escapes rest := by
  by_cases hc : c = '\\'
  · subst hc
    cases rest with
    | nil => rfl
    | cons letter more =>
      have hnone : escapes.find? (·.letter = letter) = none :=
        List.find?_eq_none.2 fun e he heq => h rfl e he (congrArg some (of_decide_eq_true heq).symm)
      rw [unescape, hnone]
  · rw [unescape]
    exact fun _ _ heq _ => hc heq

/-- A text is empty, starts with an escape, or starts with a character that starts none. -/
theorem unescape_induction {motive : List Char → Prop} (escapes : List Escape) (nil : motive [])
    (escape : ∀ e letter rest, escapes.find? (·.letter = letter) = some e → motive rest →
      motive ('\\' :: letter :: rest))
    (cons : ∀ c rest, StartsNone escapes c rest → motive rest → motive (c :: rest))
    (text : List Char) : motive text := by
  induction text using unescape.induct escapes with
  | case1 => exact nil
  | case2 letter rest e hfind ih => exact escape e letter rest hfind ih
  | case3 letter rest hfind ih =>
    refine cons _ _ (fun _ e he heq => ?_) ih
    exact List.find?_eq_none.1 hfind e he (decide_eq_true (Option.some.inj heq).symm)
  | case4 c rest hc ih =>
    refine cons c rest (fun heq e _ hhead => ?_) ih
    obtain ⟨more, rfl⟩ := List.head?_eq_some_iff.1 hhead
    exact hc e.letter more heq rfl

theorem unescape_nil (text : List Char) : unescape [] text = text := by
  induction text using unescape_induction [] with
  | nil => rfl
  | escape e letter rest hfind _ => cases hfind
  | cons c rest hc ih => rw [unescape_cons hc, ih]

theorem unescape_append {back : List Char} (h : ∀ e ∈ escapes, back.head? ≠ some e.letter)
    (front : List Char) :
    unescape escapes (front ++ back) = unescape escapes front ++ unescape escapes back := by
  induction front using unescape_induction escapes with
  | nil => rfl
  | escape e letter rest hfind ih =>
    rw [List.cons_append, List.cons_append, unescape_escape hfind, unescape_escape hfind, ih,
      List.cons_append]
  | cons c rest hc ih =>
    rw [List.cons_append, unescape_cons (hc.append h), unescape_cons hc, ih, List.cons_append]

/-- A first character of the new text that replaces no escape is the first of the old one. -/
theorem exists_of_unescape_eq_cons {text after : List Char}
    (h : unescape escapes text = c :: after) (hc : ∀ e ∈ escapes, e.char ≠ c) :
    ∃ rest, text = c :: rest ∧ unescape escapes rest = after := by
  induction text using unescape_induction escapes with
  | nil => cases h
  | escape e letter rest hfind _ =>
    rw [unescape_escape hfind] at h
    exact absurd (List.cons.inj h).1 (hc e (List.mem_of_find?_eq_some hfind))
  | cons d rest hd _ =>
    rw [unescape_cons hd] at h
    obtain ⟨rfl, hrest⟩ := List.cons.inj h
    exact ⟨rest, rfl, hrest⟩

/-! ### Escapes that are spared -/

theorem unescape_append_escape (h : ∀ e ∈ escapes, e.Spares letter) (front back : List Char) :
    unescape escapes (front ++ '\\' :: letter :: back) =
      unescape escapes front ++ '\\' :: letter :: unescape escapes back := by
  have hstart : ∀ e ∈ escapes, ('\\' :: letter :: back).head? ≠ some e.letter :=
    fun e he heq => (h e he).letter_ne_mark (Option.some.inj heq).symm
  have hmark : StartsNone escapes '\\' (letter :: back) :=
    fun _ e he heq => (h e he).letter_ne (Option.some.inj heq).symm
  have hletter : StartsNone escapes letter back :=
    fun heq e he => absurd heq (h e he).ne_mark
  rw [unescape_append hstart, unescape_cons hmark, unescape_cons hletter]

/-- An escape of the new text was there before, for nothing that is put in is a part of it. -/
theorem exists_of_unescape_eq_append (h : ∀ e ∈ escapes, e.Spares letter)
    {text before after : List Char}
    (htext : unescape escapes text = before ++ '\\' :: letter :: after) :
    ∃ front back, text = front ++ '\\' :: letter :: back ∧
      unescape escapes front = before ∧ unescape escapes back = after := by
  induction text using unescape_induction escapes generalizing before with
  | nil => cases before <;> cases htext
  | escape e other rest hfind ih =>
    rw [unescape_escape hfind] at htext
    cases before with
    | nil =>
      have hspares := h e (List.mem_of_find?_eq_some hfind)
      exact absurd (List.cons.inj htext).1 hspares.char_ne_mark
    | cons b before =>
      obtain ⟨rfl, hrest⟩ := List.cons.inj htext
      obtain ⟨front, back, rfl, rfl, hback⟩ := ih hrest
      exact ⟨'\\' :: other :: front, back, rfl, unescape_escape hfind front, hback⟩
  | cons c rest hc ih =>
    rw [unescape_cons hc] at htext
    cases before with
    | nil =>
      obtain ⟨rfl, hrest⟩ := List.cons.inj htext
      obtain ⟨back, rfl, hback⟩ :=
        exists_of_unescape_eq_cons hrest fun e he => (h e he).char_ne
      exact ⟨[], back, rfl, rfl, hback⟩
    | cons b before =>
      obtain ⟨rfl, hrest⟩ := List.cons.inj htext
      obtain ⟨front, back, rfl, rfl, hback⟩ := ih hrest
      exact ⟨c :: front, back, rfl, unescape_cons hc.of_append, hback⟩

theorem keepsEscape_unescape (h : ∀ e ∈ escapes, e.Spares letter) :
    KeepsEscape (unescape escapes) letter := by
  intro text before after
  constructor
  · exact exists_of_unescape_eq_append h
  · rintro ⟨front, back, rfl, rfl, rfl⟩
    exact unescape_append_escape h front back

end Pass

/-! ### Replacements in turn -/

/-- To replace one escape is to read the text with this escape alone. -/
theorem Escape.replace_eq_unescape (e : Escape) : e.replace = unescape [e] := by
  funext text
  unfold replace
  fun_induction replacePair '\\' e.letter e.char text with
  | case1 => rfl
  | case2 c =>
    have hc : StartsNone [e] c [] := by simp [StartsNone]
    rw [unescape_cons hc]
    rfl
  | case3 c d rest h ih =>
    obtain ⟨rfl, rfl⟩ := h
    rw [ih, unescape_escape (List.find?_cons_of_pos (by simp))]
  | case4 c d rest h ih =>
    have hc : StartsNone [e] c (d :: rest) := by
      intro hmark f hf hhead
      rw [List.mem_singleton.1 hf] at hhead
      exact h ⟨hmark, Option.some.inj hhead⟩
    rw [ih, unescape_cons hc]

/-- Reading the later escapes in what the replacement of one has left reads them all. -/
theorem unescape_replace {e : Escape} {later : List Escape} (h : ∀ f ∈ later, e.Spares f.letter)
    (text : List Char) : unescape later (e.replace text) = unescape (e :: later) text := by
  rw [e.replace_eq_unescape]
  induction text using unescape_induction (e :: later) with
  | nil => rfl
  | escape f letter rest hfind ih =>
    rw [unescape_escape hfind, ← ih]
    by_cases hthis : e.letter = letter
    · rw [List.find?_cons_of_pos (by simp [hthis])] at hfind
      cases hfind
      have hchar : StartsNone later e.char (unescape [e] rest) :=
        fun heq f hf => absurd heq (h f hf).char_ne_mark
      rw [unescape_escape (List.find?_cons_of_pos (by simp [hthis])), unescape_cons hchar]
    · rw [List.find?_cons_of_neg (by simp [hthis])] at hfind
      have hspares : e.Spares letter :=
        letter_of_find? hfind ▸ h f (List.mem_of_find?_eq_some hfind)
      have hkept := unescape_append_escape (List.forall_mem_singleton.2 hspares) [] rest
      rw [List.nil_append] at hkept
      rw [hkept]
      exact unescape_escape hfind _
  | cons c rest hc ih =>
    have hone : StartsNone [e] c rest :=
      fun heq => List.forall_mem_singleton.2 (hc heq e List.mem_cons_self)
    -- the replacement has put no letter of a later escape after a backslash
    have hlater : StartsNone later c (unescape [e] rest) := by
      intro heq f hf hhead
      obtain ⟨after, hafter⟩ := List.head?_eq_some_iff.1 hhead
      obtain ⟨more, rfl, -⟩ :=
        exists_of_unescape_eq_cons hafter (List.forall_mem_singleton.2 (h f hf).char_ne)
      exact hc heq f (List.mem_cons_of_mem e hf) rfl
    rw [unescape_cons hc, ← ih, unescape_cons hone, unescape_cons hlater]

/-- Independent escapes replaced in turn give what reading them in one pass gives. -/
theorem replaceEach_eq_unescape {escapes : List Escape} (h : Independent escapes)
    (text : List Char) : replaceEach escapes text = unescape escapes text := by
  induction escapes generalizing text with
  | nil => exact (unescape_nil text).symm
  | cons e later ih =>
    obtain ⟨hspares, hlater⟩ := List.pairwise_cons.1 h
    calc replaceEach (e :: later) text
      _ = replaceEach later (e.replace text) := rfl
      _ = unescape later (e.replace text) := ih hlater _
      _ = unescape (e :: later) text := unescape_replace hspares text

/-- Where an escape stands for a backslash, its replacement can make another escape. -/
example : replaceEach [⟨'b', '\\'⟩, ⟨'n', '\n'⟩] ['\\', 'b', 'n'] = ['\n'] ∧
    unescape [⟨'b', '\\'⟩, ⟨'n', '\n'⟩] ['\\', 'b', 'n'] = ['\\', 'n'] := by decide

/-- Every replacement keeps the later escapes. -/
theorem Independent.keeps {escapes : List Escape} (h : Independent escapes) :
    escapes.Pairwise fun e later => KeepsEscape e.replace later.letter := by
  refine List.Pairwise.imp (fun {e later} hspares => ?_) h
  rw [e.replace_eq_unescape]
  exact keepsEscape_unescape (List.forall_mem_singleton.2 hspares)

end Text

namespace Columns

/-- The escapes of a `SpacesAfter` text. -/
def spaceEscapes : List Text.Escape := [⟨'s', ' '⟩, ⟨'t', '\t'⟩, ⟨'n', '\n'⟩]

theorem independent_spaceEscapes : Text.Independent spaceEscapes := by
  have hne : spaceEscapes.Pairwise fun e later => e.letter ≠ '\\' ∧ e.char ≠ '\\' ∧
      e.letter ≠ later.letter ∧ e.char ≠ later.letter ∧ later.letter ≠ '\\' := by decide
  exact hne.imp fun ⟨hletter, hchar, hother, hnew, hmark⟩ => ⟨hletter, hchar, hother, hnew, hmark⟩

/-- **A `SpacesAfter` text is read in one pass**: its escapes replaced in turn give what a single
reading gives, and no replacement makes or unmakes an escape that a later one is to replace. -/
theorem spacesAfter_eq_unescape {columns : Columns} {spaces : String}
    (h : columns.misc.get? "SpacesAfter" = some (.text spaces)) :
    columns.spacesAfter = Text.replaceEach spaceEscapes spaces.toList ∧
      columns.spacesAfter = Text.unescape spaceEscapes spaces.toList ∧
      spaceEscapes.Pairwise fun e later => Text.KeepsEscape e.replace later.letter := by
  have hturn : columns.spacesAfter = Text.replaceEach spaceEscapes spaces.toList := by
    rw [spacesAfter, h]
    rfl
  refine ⟨hturn, ?_, independent_spaceEscapes.keeps⟩
  rw [hturn, Text.replaceEach_eq_unescape independent_spaceEscapes]

/-- Runs of backslashes before escapes, letters of escapes with no backslash of their own, and
backslashes before another letter and at the end. -/
theorem spacesAfter_of_backslashes :
    let spaces := "\\\\s\\t\\\\\\n\\\\\\\\sst\\x\\"
    let columns : Columns := { misc := ⟨[("SpacesAfter", .text spaces)]⟩ }
    columns.misc.get? "SpacesAfter" = some (.text spaces) ∧
      columns.spacesAfter = Text.replaceEach spaceEscapes spaces.toList ∧
      columns.spacesAfter = Text.unescape spaceEscapes spaces.toList ∧
      columns.spacesAfter = "\\ \t\\\\\n\\\\\\ st\\x\\".toList := by
  intro spaces columns
  have hspaces : columns.misc.get? "SpacesAfter" = some (.text spaces) := by decide
  obtain ⟨hturn, hpass, -⟩ := spacesAfter_eq_unescape hspaces
  exact ⟨hspaces, hturn, hpass, by decide⟩

end Columns
end Treebank
