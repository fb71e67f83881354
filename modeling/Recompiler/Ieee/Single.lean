import Recompiler.Ieee.Double

/-!
# Single precision

Singles are 32-bit patterns. Between singles and doubles there are two kinds of conversion.
`toDouble` and `ofDouble` work on values and round to nearest even. `load` and `store` work on bit
patterns, the way the guest moves singles to and from memory: they keep signalling NaNs, and `store`
truncates.
-/

namespace Recompiler.Ieee

abbrev Single := BitVec 32

namespace Single

def signMask : Single := 0x80000000
def expMask : Single := 0x7F800000
def fracMask : Single := 0x007FFFFF

def isNan (bits : Single) : Bool := bits &&& expMask == expMask && bits &&& fracMask != 0

def isNegative (bits : Single) : Bool := bits &&& signMask != 0

def datum (bits : Single) : Datum := Format.single.datum bits.toNat

def key (bits : Single) : Int := Double.signed bits.isNegative (bits &&& ~~~signMask).toNat

def compare? (a b : Single) : Option Ordering :=
  if a.isNan || b.isNan then none else some (compare a.key b.key)

def toDouble (bits : Single) : Double :=
  if bits.isNan then
    (bits &&& signMask).setWidth 64 <<< 32 ||| Double.expMask
      ||| (((bits &&& fracMask) ||| 0x00400000).setWidth 64 <<< 29)
  else Double.ofDatum bits.datum

def ofDouble (bits : Double) : Single :=
  if bits.isNan then
    ((bits >>> 32).setWidth 32 &&& signMask) ||| 0x7FC00000
      ||| ((bits >>> 29).setWidth 32 &&& 0x003FFFFF)
  else
    match bits.datum with
    | .nan => 0x7FC00000
    | .infinite s => BitVec.ofNat 32 (Format.single.withSign s Format.single.infinity)
    | .finite s n e => BitVec.ofNat 32 (Format.single.withSign s (Format.single.round n e))

/-! ## Loads and stores -/

/-- The sign and the topmost exponent bit, `fill` in the three exponent bits that a single does not
have, and the other bits of the single. -/
def splice (x fill : BitVec 64) : Double :=
  ((x &&& 0xC0000000) <<< 32) ||| (fill <<< 61 ||| fill <<< 60 ||| fill <<< 59)
    ||| ((x &&& 0x3FFFFFFF) <<< 29)

def leadingBit : BitVec 64 := 0x00800000

theorem and_leadingBit_eq_zero {frac : BitVec 64} (h : frac.toNat < 0x1000000) :
    frac &&& leadingBit = 0 ↔ frac.toNat < 0x800000 := by
  have hbit : leadingBit = BitVec.twoPow 64 23 := by decide
  have htest : frac.getLsbD 23 = decide (0x800000 ≤ frac.toNat) := by
    rw [BitVec.getLsbD, Nat.testBit_eq_decide_div_mod_eq, decide_eq_decide]
    omega
  have hne : BitVec.twoPow 64 23 ≠ 0 := by decide
  rw [hbit, BitVec.and_twoPow, htest]
  by_cases hlt : frac.toNat < 0x800000
  · simp [hlt, Nat.not_le.2 hlt]
  · simp only [decide_eq_true (Nat.le_of_not_lt hlt), if_true, hne, hlt]

/-- A fraction that is not zero and has no leading one yet. -/
structure Denormal (frac : BitVec 64) : Prop where
  pos : 0 < frac.toNat
  lt : frac.toNat < 0x800000

namespace Denormal

variable {frac : BitVec 64}

theorem of_fraction {x : BitVec 64} (h : x &&& 0x007FFFFF ≠ 0) : Denormal (x &&& 0x007FFFFF) where
  pos := Nat.pos_of_ne_zero fun hzero => h (BitVec.eq_of_toNat_eq hzero)
  lt := Nat.lt_of_le_of_lt Nat.and_le_right (by decide)

theorem toNat_double (h : Denormal frac) : (frac <<< 1).toNat = 2 * frac.toNat := by
  have hlt := h.lt
  rw [BitVec.toNat_shiftLeft, Nat.shiftLeft_eq]
  omega

theorem double (h : Denormal frac) (hbit : frac <<< 1 &&& leadingBit = 0) :
    Denormal (frac <<< 1) := by
  have hlt := h.lt
  have hpos := h.pos
  have hdouble := h.toNat_double
  rw [and_leadingBit_eq_zero (by omega)] at hbit
  exact ⟨by omega, hbit⟩

end Denormal

def normalise (exp frac : BitVec 64) (h : Denormal frac) : BitVec 64 × BitVec 64 :=
  if hbit : frac <<< 1 &&& leadingBit = 0 then normalise (exp - 1) (frac <<< 1) (h.double hbit)
  else (exp - 1, frac <<< 1)
termination_by 0x800000 - frac.toNat
decreasing_by
  have hlt := h.lt
  have hpos := h.pos
  rw [h.toNat_double]
  omega

/-- The double that a single becomes when it is loaded. The bits are moved apart, and denormal
numbers are normalised first. -/
def load (bits : Single) : Double :=
  let x := bits.setWidth 64
  let exp := (x >>> 23) &&& 0xFF
  if 0 < exp ∧ exp < 255 then splice x (if exp >>> 7 = 0 then 1 else 0)
  else if h : exp = 0 ∧ x &&& 0x007FFFFF ≠ 0 then
    let (exp, frac) := normalise (1023 - 126) (x &&& 0x007FFFFF) (.of_fraction h.2)
    ((x &&& 0x80000000) <<< 32) ||| (exp <<< 52) ||| ((frac &&& 0x007FFFFF) <<< 29)
  else splice x (exp >>> 7)

def unsplice (x : BitVec 64) : Single :=
  ((x >>> 32 &&& (0xC0000000 : BitVec 64)) ||| (x >>> 29 &&& (0x3FFFFFFF : BitVec 64))).setWidth 32

/-- The single that is stored for a double. Values in the denormal range of singles lose their low
bits; for all others, also for those below it, bits are left out. -/
def store (x : Double) : Single :=
  let exp := ((x >>> 52) &&& 0x7FF).toNat
  if 896 < exp ∨ x &&& ~~~Double.signMask = 0 then unsplice x
  else if 874 ≤ exp then
    let significand := signMask ||| ((x &&& Double.fracMask) >>> 21).setWidth 32
    (significand >>> (905 - exp)) ||| ((x >>> 32).setWidth 32 &&& signMask)
  else unsplice x

end Single

namespace Double

/-- The nearest single, as a double. A NaN keeps its sign and the payload bits of a single, and
becomes quiet. -/
def roundToSingle (bits : Double) : Double :=
  if bits.isNan then (bits &&& signMask) ||| defaultNan ||| (bits &&& 0x0007FFFFE0000000)
  else (Single.ofDouble bits).toDouble

def isExactSingle (bits : Double) : Bool := bits.roundToSingle == bits

def roundBit : Double := 0x08000000

/-- The significand rounded to 25 bits, ties away from zero. A carry may go into the exponent. -/
def roundTo25Bits (bits : Double) : Double :=
  (bits &&& ~~~(0x0FFFFFFF : Double)) + ((bits &&& roundBit) <<< 1)

/-- The result of an operation with NaNs passed on: the first NaN operand, made quiet, else the
default NaN for an invalid operation. -/
def propagate (result : Double) (operands : List Double) : Double :=
  match operands.find? isNan with
  | some nan => nan.quiet
  | none => if result.isNan then defaultNan else result

/-- The reciprocal, rounded to single. A NaN comes back quiet with its whole payload. -/
def reciprocal (bits : Double) : Double :=
  if bits.isNan then bits.quiet else roundToSingle (div one bits)

def reciprocalSqrt (bits : Double) : Double :=
  if bits.isNan then bits.quiet
  else if bits &&& ~~~signMask == 0 then infinity bits.isNegative
  else if bits.isNegative then defaultNan
  else if bits == expMask then 0
  else div one (sqrt bits)

end Double

end Recompiler.Ieee
