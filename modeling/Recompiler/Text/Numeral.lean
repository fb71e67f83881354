/-!
# Numerals

Reading numbers. A plus sign in front of the digits is allowed, blanks and separators are not.
-/

namespace Recompiler.Text

inductive NumeralFault where
  | empty
  | badDigit
  | tooLarge
  deriving DecidableEq

def NumeralFault.message : NumeralFault → String
  | .empty => "cannot parse integer from empty string"
  | .badDigit => "invalid digit found in string"
  | .tooLarge => "number too large to fit in target type"

def digit? (c : Char) : Option Nat :=
  if '0' ≤ c ∧ c ≤ '9' then some (c.toNat - '0'.toNat)
  else if 'a' ≤ c ∧ c ≤ 'f' then some (c.toNat - 'a'.toNat + 10)
  else if 'A' ≤ c ∧ c ≤ 'F' then some (c.toNat - 'A'.toNat + 10)
  else none

def digitBelow? (base : Nat) (c : Char) : Option Nat := (digit? c).filter (· < base)

/-- The number written by digits after others that amount to `value`. Reading stops at the first
character that is no digit or takes the number to `limit`. -/
def readDigits (base limit value : Nat) : List Char → Except NumeralFault Nat
  | [] => .ok value
  | c :: rest =>
    match digitBelow? base c with
    | none => .error .badDigit
    | some d =>
      let next := base * value + d
      if next < limit then readDigits base limit next rest else .error .tooLarge

def readNumeral (base limit : Nat) : List Char → Except NumeralFault Nat
  | [] => .error .empty
  | ['+'] => .error .badDigit
  | '+' :: digits => readDigits base limit 0 digits
  | digits => readDigits base limit 0 digits

/-- The number from 0 to 255 that a decimal text writes. Minus zero is zero. -/
def readByte? (text : List Char) : Option Nat :=
  match text with
  | '-' :: digits =>
    if digits = [] then none else (readDigits 10 1 0 digits).toOption
  | _ => (readNumeral 10 256 text).toOption

end Recompiler.Text
