import Treebank.Format.Reader
import Treebank.Proofs.Cutting
import Treebank.Proofs.Failure

/-! How a sentence is read.

A sentence is read line by line, so what every line brings about holds of a sentence that
is read (`read_induction`). Lines that are taken up one after the other, and none of which
is blank, are one run (`finish_run`), and a blank line ends it (`finish_blank`). -/
namespace Treebank
open Text

theorem newline_not_mem_of_mem_textLines {text line : List Char} (h : .ok line ∈ textLines text) :
    '\n' ∉ line := by
  obtain ⟨full, hfull, heq⟩ := List.mem_map.1 h
  cases heq
  exact fun hmem => not_mem_of_mem_terminated hfull (mem_of_mem_dropEndWhile hmem)

/-- Lines that are written with a newline after each are the lines of that text, without the
carriage returns at their ends. -/
theorem textLines_terminate {lines : List (List Char)} (hnewline : ∀ line ∈ lines, '\n' ∉ line) :
    textLines (lines.flatMap (· ++ ['\n'])) = lines.map fun line => .ok (dropReturns line) := by
  rw [textLines, terminated_flatMap hnewline]

/-- The lines of a text are there again when they are written with a newline after each. -/
theorem textLines_flatMap {lines : List (List Char)} (hnewline : ∀ line ∈ lines, '\n' ∉ line)
    (hreturn : ∀ line ∈ lines, '\r' ∉ line) :
    textLines (lines.flatMap (· ++ ['\n'])) = lines.map .ok := by
  rw [textLines_terminate hnewline]
  refine List.map_congr_left fun line hline => congrArg Except.ok (dropReturns_eq_self_iff.2 ?_)
  exact fun hlast => hreturn line hline (List.mem_of_getLast? hlast)

theorem isBlankLine_dropReturns {line : List Char} (h : Reader.isBlankLine line = false) :
    Reader.isBlankLine (dropReturns line) = false := by
  rw [Reader.isBlankLine, List.all_eq_false] at h ⊢
  obtain ⟨c, hc, hblank⟩ := h
  obtain ⟨front, back, rfl⟩ := List.append_of_mem hc
  have hreturn : decide (c = '\r') = false := by
    refine decide_eq_false fun heq => hblank ?_
    rw [heq]
    rfl
  refine ⟨c, ?_, hblank⟩
  rw [dropReturns, dropEndWhile_append (by rw [dropEndWhile_cons_of_not hreturn]; simp),
    dropEndWhile_cons_of_not hreturn]
  simp

section Induction
variable {P : Sentence → Prop}
  (take : ∀ {s t : Sentence} {number : Nat} {line : List Char}, '\n' ∉ line → s = {} ∨ P s →
    s.addLine number line = .ok t → P t)

include take in
theorem finish_induction {draft : Option (Except ReadError Sentence)} {number : Nat}
    {lines : List Line} {s : Sentence} {after : Reader}
    (hlines : ∀ line, .ok line ∈ lines → '\n' ∉ line) (hdraft : ∀ s, draft = some (.ok s) → P s)
    (h : Reader.finish draft number lines = some (.ok s, after)) : P s := by
  -- By the recursion of `finish`: between blank lines `draft` holds what its lines have come to.
  fun_induction Reader.finish draft number lines with
  | case1 draft number =>
    obtain ⟨item, hitem, h⟩ := Option.map_eq_some_iff.1 h
    cases h
    exact hdraft s hitem
  | case2 draft number rest => cases h
  | case3 number line rest blank item =>
    cases h
    exact hdraft s rfl
  | case4 number line rest blank ih =>
    exact ih (fun other hother => hlines other (List.mem_cons_of_mem _ hother)) hdraft h
  | case5 draft number line rest blank item ih =>
    refine ih (fun other hother => hlines other (List.mem_cons_of_mem _ hother)) (fun t ht => ?_) h
    obtain ⟨sofar, hsofar, hline⟩ := bind_eq_ok (Option.some.inj ht)
    refine take (hlines line List.mem_cons_self) ?_ hline
    cases draft with
    | none =>
      cases hsofar
      exact .inl rfl
    | some item => exact .inr (hdraft sofar (congrArg some hsofar))

include take in
/-- What every line brings about, added to the empty sentence or to one that has it, holds of the
sentence that is read. -/
theorem read_induction {text : List Char} {s : Sentence} (h : Sentence.read text = .ok s) : P s := by
  unfold Sentence.read at h
  split at h
  · next item after hnext =>
    cases h
    exact finish_induction take (fun _ hline => newline_not_mem_of_mem_textLines hline)
      (fun _ hnone => by cases hnone) hnext
  · cases h

end Induction

/-! ### Items -/

namespace Reader

theorem items_nil {reader : Reader} (h : reader.next? = none) : reader.items = [] := by
  rw [items]
  split
  · rfl
  · next hsome => rw [h] at hsome; cases hsome

theorem items_cons {reader after : Reader} {item : Except ReadError Sentence}
    (h : reader.next? = some (item, after)) : reader.items = item :: after.items := by
  rw [items]
  split
  · next hnone => rw [h] at hnone; cases hnone
  · next hsome =>
    rw [h] at hsome
    cases hsome
    rfl

/-! ### Runs of lines -/

theorem finish_start {line : List Char} (hblank : isBlankLine line = false) (number : Nat)
    (rest : List Line) :
    finish none number (.ok line :: rest) = finish (some (.ok {})) number (.ok line :: rest) := by
  simp only [finish, hblank, Bool.false_eq_true, if_false, Option.getD_none, Option.getD_some]

theorem finish_blank (item : Except ReadError Sentence) (number : Nat) (rest : List Line) :
    finish (some item) number (.ok [] :: rest) = some (item, { rest, number := number + 1 }) :=
  rfl

/-- Lines that stand for `xs` are taken up in turn. -/
theorem finish_run {α : Type} {line : α → List Char} {take : Sentence → α → Sentence} {xs : List α}
    (hblank : ∀ x ∈ xs, isBlankLine (line x) = false)
    (hline : ∀ x ∈ xs, ∀ s number, Sentence.addLine s number (line x) = .ok (take s x))
    (s : Sentence) (number : Nat) (rest : List Line) :
    finish (some (.ok s)) number (xs.map (fun x => .ok (line x)) ++ rest) =
      finish (some (.ok (xs.foldl take s))) (number + xs.length) rest := by
  induction xs generalizing s number with
  | nil => rfl
  | cons x more ih =>
    obtain ⟨hx, hmore⟩ := List.forall_mem_cons.1 hblank
    obtain ⟨hadd, hadds⟩ := List.forall_mem_cons.1 hline
    have hitem : (do (← (some (Except.ok s)).getD (.ok {})).addLine (number + 1) (line x)) =
        .ok (take s x) := hadd s (number + 1)
    rw [List.map_cons, List.cons_append, finish, hx, hitem]
    simp only [Bool.false_eq_true, if_false]
    rw [ih hmore hadds, List.length_cons, List.foldl_cons, Nat.add_assoc, Nat.add_comm 1]

end Reader

end Treebank
