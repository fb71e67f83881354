/-!
# Binary floating-point formats

A format has a number of stored fraction bits and a number of exponent bits. A bit pattern denotes a
`Datum`: not a number, an infinity, or a sign with the exact value `significand * 2 ^ exponent`.
`Format.round` goes back: it takes an exact magnitude to the bit pattern of the nearest value of the
format, ties to even, overflow to infinity. All arithmetic of the library is exact arithmetic
followed by one such rounding.
-/

namespace Recompiler.Ieee

/-- A binary interchange format. -/
structure Format where
  fracBits : Nat
  expBits : Nat
  deriving DecidableEq

namespace Format

def single : Format := ⟨23, 8⟩

def double : Format := ⟨52, 11⟩

def maxExp (format : Format) : Nat := (1 <<< format.expBits) - 1

def infinity (format : Format) : Nat := format.maxExp <<< format.fracBits

def signBit (format : Format) : Nat := 1 <<< (format.fracBits + format.expBits)

def minExponent (format : Format) : Int :=
  1 - (((1 <<< (format.expBits - 1)) - 1 : Nat) : Int) - (format.fracBits : Int)

end Format

inductive Datum where
  | nan
  | infinite (negative : Bool)
  | finite (negative : Bool) (significand : Nat) (exponent : Int)
  deriving DecidableEq

namespace Format

def datum (format : Format) (bits : Nat) : Datum :=
  let negative := bits / format.signBit % 2 == 1
  let exp := (bits >>> format.fracBits) % (1 <<< format.expBits)
  let frac := bits % (1 <<< format.fracBits)
  if exp = format.maxExp then
    if frac = 0 then .infinite negative else .nan
  else if exp = 0 then .finite negative frac format.minExponent
  else .finite negative ((1 <<< format.fracBits) + frac) (format.minExponent + exp - 1)

end Format

/-- `n / 2 ^ k` to the nearest whole number, ties to even. -/
def roundShift (n k : Nat) : Nat :=
  let quotient := n >>> k
  let twice := 2 * (n % (1 <<< k))
  if 1 <<< k < twice ∨ (twice = 1 <<< k ∧ quotient % 2 = 1) then quotient + 1 else quotient

namespace Format

def lastPlace (format : Format) (n : Nat) (e : Int) : Int :=
  max format.minExponent (e + (n.log2 : Int) - (format.fracBits : Int))

/-- The magnitude bits of the value nearest to `n * 2 ^ e`. A carry out of the fraction goes into
the exponent, and past the largest exponent stands infinity. -/
def round (format : Format) (n : Nat) (e : Int) : Nat :=
  if n = 0 then 0
  else
    let place := format.lastPlace n e
    let kept :=
      if place ≤ e then n <<< (e - place).toNat else roundShift n (place - e).toNat
    min format.infinity (((place - format.minExponent).toNat <<< format.fracBits) + kept)

def withSign (format : Format) (negative : Bool) (magnitude : Nat) : Nat :=
  if negative then format.signBit + magnitude else magnitude

def defaultNan (format : Format) : Nat := format.infinity + (1 <<< (format.fracBits - 1))

end Format

end Recompiler.Ieee
