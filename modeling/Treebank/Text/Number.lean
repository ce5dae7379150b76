/-! Numbers.

A number is below 2^64. In text it is a non-empty run of digits with such a value;
leading zeros are allowed. Its written form has none, and `readWritten` accepts that
form only. A sum of two numbers may be none: it then wraps around, or ends the
program, as `Overflow` says. -/
namespace Treebank.Text

/-- Numbers lie below this bound. -/
def numberBound : Nat := Nat.pow 2 64

/-- The value of a run of digits, if it is a number. -/
def readNumber (text : List Char) : Option Nat :=
  if text ≠ [] ∧ text.all Char.isDigit then
    let value := Nat.ofDigitChars 10 text 0
    if value < numberBound then some value else none
  else none

def writeNumber (n : Nat) : List Char := Nat.toDigits 10 n

/-- The number of which the text is the written form. -/
def readWritten (text : List Char) : Option Nat :=
  (readNumber text).filter fun n => writeNumber n = text

example : readNumber "007".toList = some 7 ∧ readWritten "007".toList = none := by decide

end Treebank.Text

/-! ### Sums -/

namespace Treebank
open Text

/-- The sum of two numbers, wrapped around. -/
def wrappedSum (a b : Nat) : Nat := (a + b) % numberBound

theorem wrappedSum_eq {a b : Nat} (h : a + b < numberBound) : wrappedSum a b = a + b :=
  Nat.mod_eq_of_lt h

theorem wrappedSum_lt (a b : Nat) : wrappedSum a b < numberBound :=
  Nat.mod_lt _ (Nat.pow_pos (by decide))

/-- Within the bound different numbers have different sums with a third. -/
theorem wrappedSum_inj {a b c : Nat} (hb : b < numberBound) (hc : c < numberBound)
    (h : wrappedSum a b = wrappedSum a c) : b = c := by
  have hbound : numberBound = 18446744073709551616 := by decide
  unfold wrappedSum at h
  rw [hbound] at hb hc h
  omega

/-- What happens when a sum of two numbers is none. -/
inductive Overflow where
  | wraps
  | stops
deriving DecidableEq

namespace Overflow

/-- The sum of two numbers, unless it ends the program. -/
def sum? (overflow : Overflow) (a b : Nat) : Option Nat :=
  if a + b < numberBound then some (a + b)
  else
    match overflow with
    | wraps => some (wrappedSum a b)
    | stops => none

/-- The sum does not end the program. -/
def Allows (overflow : Overflow) (a b : Nat) : Prop := overflow = wraps ∨ a + b < numberBound

instance (overflow : Overflow) (a b : Nat) : Decidable (overflow.Allows a b) :=
  inferInstanceAs (Decidable (_ ∨ _))

theorem sum?_eq (overflow : Overflow) (a b : Nat) :
    overflow.sum? a b = if overflow.Allows a b then some (wrappedSum a b) else none := by
  unfold sum? Allows
  by_cases h : a + b < numberBound
  · simp [h, wrappedSum_eq h]
  · cases overflow <;> simp [h]

end Overflow
end Treebank
