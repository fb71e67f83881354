/-!
# Number text

How numbers are written in listings and messages: hexadecimal in lower case after `0x`, with or
without zero padding, signed decimals with an explicit sign, and binary digits.
-/

namespace Recompiler.Text

def zeroPadded (width : Nat) (text : String) : String :=
  String.ofList (List.replicate (width - text.length) '0') ++ text

def blankPadded (width : Nat) (text : String) : String :=
  text ++ String.ofList (List.replicate (width - text.length) ' ')

def rightAligned (width : Nat) (text : String) : String :=
  String.ofList (List.replicate (width - text.length) ' ') ++ text

def hex (n : Nat) : String := "0x" ++ String.ofList (Nat.toDigits 16 n)

def hexPadded (digits n : Nat) : String :=
  "0x" ++ zeroPadded digits (String.ofList (Nat.toDigits 16 n))

def hexWord {w : Nat} (value : BitVec w) : String := hexPadded (w / 4) value.toNat

def binaryPadded (digits n : Nat) : String :=
  zeroPadded digits (String.ofList (Nat.toDigits 2 n))

def decimal (i : Int) : String :=
  match i with
  | .ofNat n => n.repr
  | .negSucc n => "-" ++ (n + 1).repr

def signedDecimal (i : Int) : String :=
  match i with
  | .ofNat n => "+" ++ n.repr
  | .negSucc n => "-" ++ (n + 1).repr

def flag (b : Bool) : String := if b then "true" else "false"

end Recompiler.Text
