import Recompiler.PowerPC.Word
import Recompiler.Text.Blank
import Recompiler.Text.Numeral

/-!
# Word lists

Guest code as text: one hexadecimal word on a line, with `0x` in front or without. Underscores group
digits, a `#` starts a comment, blank lines count only for the line numbers.
-/

namespace Recompiler.PowerPC

open Text

structure BadWord where
  text : String
  cause : NumeralFault
  deriving DecidableEq

structure BadLine where
  number : Nat
  word : BadWord
  deriving DecidableEq

/-- The digits of a word, without the mark for hexadecimal and without underscores. -/
def wordDigits (text : List Char) : List Char :=
  let digits := match text with
    | '0' :: 'x' :: rest | '0' :: 'X' :: rest => rest
    | _ => text
  digits.filter (· ≠ '_')

def readWord (text : List Char) : Except BadWord Word :=
  match readNumeral 16 (1 <<< 32) (wordDigits text) with
  | .ok value => .ok (BitVec.ofNat 32 value)
  | .error cause => .error ⟨String.ofList text, cause⟩

def linesOf : List Char → List (List Char)
  | [] => [[]]
  | c :: rest =>
    if c = '\n' then [] :: linesOf rest
    else
      match linesOf rest with
      | [] => [[c]]
      | line :: lines => (c :: line) :: lines

/-- What stands on a line before its comment. -/
def codeOfLine (line : List Char) : List Char := trimmed (line.takeWhile (· ≠ '#'))

def readLines (number : Nat) : List (List Char) → Except BadLine (List Word)
  | [] => .ok []
  | line :: rest =>
    match codeOfLine line with
    | [] => readLines (number + 1) rest
    | code =>
      match readWord code with
      | .error word => .error ⟨number, word⟩
      | .ok word => (readLines (number + 1) rest).map (word :: ·)

def readWords (contents : String) : Except BadLine (List Word) :=
  readLines 1 (linesOf contents.toList)

end Recompiler.PowerPC
