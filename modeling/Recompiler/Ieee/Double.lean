import Recompiler.Ieee.Format

/-!
# Double precision

Doubles are 64-bit patterns. Sums, products, quotients, fused products and square roots are computed
exactly and rounded once, to nearest even; an invalid operation gives the default NaN. A sum of zero
is negative only when both terms are.
-/

namespace Recompiler.Ieee

abbrev Double := BitVec 64

namespace Double

def signMask : Double := 0x8000000000000000
def expMask : Double := 0x7FF0000000000000
def fracMask : Double := 0x000FFFFFFFFFFFFF
def quietBit : Double := 0x0008000000000000

def defaultNan : Double := 0x7FF8000000000000

def infinity (negative : Bool) : Double := if negative then signMask ||| expMask else expMask

def zero (negative : Bool) : Double := if negative then signMask else 0

def isNan (bits : Double) : Bool := bits &&& expMask == expMask && bits &&& fracMask != 0

def isNegative (bits : Double) : Bool := bits &&& signMask != 0

def quiet (bits : Double) : Double := bits ||| quietBit

def datum (bits : Double) : Datum := Format.double.datum bits.toNat

/-- The double nearest to `± n * 2 ^ e`. -/
def ofExact (negative : Bool) (n : Nat) (e : Int) : Double :=
  BitVec.ofNat 64 (Format.double.withSign negative (Format.double.round n e))

def ofInt (i : Int) (e : Int) : Double := ofExact (i < 0) i.natAbs e

def signed (negative : Bool) (n : Nat) : Int := if negative then -(n : Int) else (n : Int)

def sumExact (s : Bool) (n : Nat) (e : Int) (t : Bool) (m : Nat) (f : Int) : Double :=
  let base := min e f
  let total := signed s (n <<< (e - base).toNat) + signed t (m <<< (f - base).toNat)
  if total = 0 then zero (s && t) else ofInt total base

def sum : Datum → Datum → Double
  | .nan, _ | _, .nan => defaultNan
  | .infinite s, .infinite t => if s = t then infinity s else defaultNan
  | .infinite s, .finite .. => infinity s
  | .finite .., .infinite t => infinity t
  | .finite s n e, .finite t m f => sumExact s n e t m f

def product : Datum → Datum → Datum
  | .nan, _ | _, .nan => .nan
  | .infinite s, .infinite t => .infinite (s != t)
  | .infinite s, .finite t m _ => if m = 0 then .nan else .infinite (s != t)
  | .finite s n _, .infinite t => if n = 0 then .nan else .infinite (s != t)
  | .finite s n e, .finite t m f => .finite (s != t) (n * m) (e + f)

def ofDatum : Datum → Double
  | .nan => defaultNan
  | .infinite s => infinity s
  | .finite s n e => ofExact s n e

/-- How many extra bits a quotient or a root is computed to. They leave more than two bits below the
last place of a double, so one bit for "inexact" decides every tie. -/
def guardBits : Nat := 128

def sticky (n : Nat) (exact : Bool) : Nat := 2 * n + (if exact then 0 else 1)

def quotient : Datum → Datum → Double
  | .nan, _ | _, .nan => defaultNan
  | .infinite _, .infinite _ => defaultNan
  | .infinite s, .finite t _ _ => infinity (s != t)
  | .finite s _ _, .infinite t => zero (s != t)
  | .finite s n e, .finite t m f =>
    if m = 0 then
      if n = 0 then defaultNan else infinity (s != t)
    else
      let scaled := n <<< guardBits
      ofExact (s != t) (sticky (scaled / m) (scaled % m == 0)) (e - f - guardBits - 1)

/-- The largest number whose square is at most `n`, for `n < 4 ^ fuel`. -/
def squareRoot : Nat → Nat → Nat
  | 0, _ => 0
  | fuel + 1, n =>
    let root := 2 * squareRoot fuel (n / 4)
    if (root + 1) * (root + 1) ≤ n then root + 1 else root

def root : Datum → Double
  | .nan => defaultNan
  | .infinite s => if s then defaultNan else infinity false
  | .finite s n e =>
    if n = 0 then zero s
    else if s then defaultNan
    else
      let shift := guardBits + (e % 2).toNat
      let scaled := n <<< shift
      let whole := squareRoot scaled.log2 scaled
      ofExact false (sticky whole (whole * whole == scaled)) ((e - shift) / 2 - 1)

def add (a b : Double) : Double := sum a.datum b.datum

def negate (a : Double) : Double := a ^^^ signMask

def sub (a b : Double) : Double := sum a.datum (datum (negate b))

def mul (a b : Double) : Double := ofDatum (product a.datum b.datum)

def div (a b : Double) : Double := quotient a.datum b.datum

def fma (a b c : Double) : Double := sum (product a.datum b.datum) c.datum

def sqrt (a : Double) : Double := root a.datum

def one : Double := 0x3FF0000000000000

/-- A whole number in the order of the doubles that are not NaN; both zeros have the same. -/
def key (bits : Double) : Int := signed bits.isNegative (bits &&& ~~~signMask).toNat

def compare? (a b : Double) : Option Ordering :=
  if a.isNan || b.isNan then none else some (compare a.key b.key)

/-- The signed word nearest to zero from the value, at most the largest and at least the smallest
word. A NaN gives zero. -/
def toWord (bits : Double) : BitVec 32 :=
  match bits.datum with
  | .nan => 0
  | .infinite s => if s then BitVec.intMin 32 else BitVec.intMax 32
  | .finite s n e =>
    let whole := if 0 ≤ e then n <<< e.toNat else n >>> (-e).toNat
    if s then
      if 1 <<< 31 ≤ whole then BitVec.intMin 32 else BitVec.ofInt 32 (-(whole : Int))
    else if 1 <<< 31 ≤ whole then BitVec.intMax 32
    else BitVec.ofNat 32 whole

end Double

end Recompiler.Ieee
