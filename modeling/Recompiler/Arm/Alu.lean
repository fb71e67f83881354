import Recompiler.Arithmetic
import Recompiler.Arm.Inst

/-!
# What instructions compute

The value of each operation as a function of its operands. Integer operations take and give whole
registers of 64 bits; the 32-bit ones look at the low words and clear the high word.
-/

namespace Recompiler.Arm

open Ieee

def low (x : BitVec 64) : BitVec 32 := x.setWidth 32

def ofWord (w : BitVec 32) : BitVec 64 := w.setWidth 64

@[simp] theorem low_ofWord (w : BitVec 32) : low (ofWord w) = w := by
  simp [low, ofWord]

def Flags.ofSum (sum : CarrySum) : Flags := ⟨sum.value.msb, sum.value == 0, sum.carry, sum.overflow⟩

/-- `a - b` as a sum; the carry says that there was no borrow. -/
def subtract (a b : BitVec 32) : CarrySum := addWithCarry a (~~~b) true

def UnaryOp.eval (op : UnaryOp) (x : BitVec 64) : BitVec 64 :=
  match op with
  | .mov32 => ofWord (low x)
  | .mov64 => x
  | .mvn32 => ofWord (~~~low x)
  | .neg32 => ofWord (-low x)
  | .sxtb32 => ofWord ((x.setWidth 8).signExtend 32)
  | .sxth32 => ofWord ((x.setWidth 16).signExtend 32)
  | .sxtw64 => (low x).signExtend 64
  | .clz32 => ofWord (low x).clz

def BinaryOp.eval (op : BinaryOp) (a b : BitVec 64) : BitVec 64 :=
  match op with
  | .add32 => ofWord (low a + low b)
  | .sub32 => ofWord (low a - low b)
  | .sub64 => a - b
  | .mul32 => ofWord (low a * low b)
  | .smull => (low a).signExtend 64 * (low b).signExtend 64
  | .umull => ofWord (low a) * ofWord (low b)
  | .sdiv32 => ofWord ((low a).sdiv (low b))
  | .udiv32 => ofWord (low a / low b)
  | .and32 => ofWord (low a &&& low b)
  | .orr32 => ofWord (low a ||| low b)
  | .orr64 => a ||| b
  | .eor32 => ofWord (low a ^^^ low b)
  | .bic32 => ofWord (low a &&& ~~~low b)
  | .orn32 => ofWord (low a ||| ~~~low b)
  | .eon32 => ofWord (low a ^^^ ~~~low b)
  | .lslv64 => a <<< (b.toNat % 64)
  | .lsrv64 => a >>> (b.toNat % 64)
  | .asrv64 => a.sshiftRight (b.toNat % 64)
  | .rorv32 => ofWord ((low a).rotateRight (b.toNat % 32))

def FlagOp.eval (op : FlagOp) (a b : BitVec 32) : BitVec 32 × Flags :=
  match op with
  | .adds =>
    let sum := addWithCarry a b false
    (sum.value, .ofSum sum)
  | .subs =>
    let sum := subtract a b
    (sum.value, .ofSum sum)
  | .ands => (a &&& b, .ofLogical (a &&& b))

def ImmOp.eval (op : ImmOp) (a value : BitVec 32) : BitVec 32 :=
  match op with
  | .add => a + value
  | .and => a &&& value
  | .orr => a ||| value
  | .eor => a ^^^ value

/-- Amounts count modulo the width. -/
def ShiftOp.eval (op : ShiftOp) (x : BitVec 64) (amount : Nat) : BitVec 64 :=
  match op with
  | .lsl32 => ofWord (low x <<< (amount % 32))
  | .lsr32 => ofWord (low x >>> (amount % 32))
  | .asr32 => ofWord ((low x).sshiftRight (amount % 32))
  | .ror32 => ofWord ((low x).rotateRight (amount % 32))
  | .lsl64 => x <<< (amount % 64)
  | .lsr64 => x >>> (amount % 64)

def fieldMask (width : Nat) : BitVec 32 :=
  if 32 ≤ width then BitVec.allOnes 32 else 1#32 <<< width - 1

/-- The new word from the previous word of the destination and the source. -/
def FieldOp.eval (op : FieldOp) (old src : BitVec 32) (lsb width : Nat) : BitVec 32 :=
  let shift := lsb % 32
  match op with
  | .ubfx => (src >>> shift) &&& fieldMask width
  | .ubfiz => (src &&& fieldMask width) <<< shift
  | .bfi =>
    let mask := fieldMask width <<< shift
    (old &&& ~~~mask) ||| ((src <<< shift) &&& mask)
  | .bfxil =>
    let mask := fieldMask width
    (old &&& ~~~mask) ||| ((src >>> shift) &&& mask)

def TestOp.eval (op : TestOp) (a b : BitVec 32) : Flags :=
  match op with
  | .cmp => .ofSum (subtract a b)
  | .cmn => .ofSum (addWithCarry a b false)
  | .tst => .ofLogical (a &&& b)

def TestImmOp.eval (op : TestImmOp) (a value : BitVec 32) : Flags :=
  match op with
  | .cmp => .ofSum (subtract a value)
  | .cmn => .ofSum (addWithCarry a value false)

def FpOp.eval (op : FpOp) (a b : Double) : Double :=
  let result :=
    match op with
    | .add => Double.add a b
    | .sub => Double.sub a b
    | .mul => Double.mul a b
    | .div => Double.div a b
  Double.propagate result [a, b]

def FusedOp.eval (op : FusedOp) (n m a : Double) : Double :=
  let result :=
    match op with
    | .fmadd => Double.fma n m a
    | .fmsub => Double.fma (Double.negate n) m a
    | .fnmadd => Double.fma (Double.negate n) m (Double.negate a)
    | .fnmsub => Double.fma n m (Double.negate a)
  Double.propagate result [n, m, a]

def FpUnary.eval (op : FpUnary) (a : Double) : Double :=
  match op with
  | .neg => Double.negate a
  | .abs => a &&& ~~~Double.signMask
  | .roundSingle => Double.roundToSingle a

/-! ## Denormal numbers

With `flush` set, comparisons and conversions take denormal operands for zeros of the same sign, and
conversions give such zeros for denormal results.
-/

def flushDouble (flush : Bool) (a : Double) : Double :=
  if flush && a &&& Double.expMask == 0 then a &&& Double.signMask else a

def flushSingle (flush : Bool) (a : Single) : Single :=
  if flush && a &&& Single.expMask == 0 then a &&& Single.signMask else a

def widenSingle (flush : Bool) (a : Single) : Double := Single.toDouble (flushSingle flush a)

def narrowDouble (flush : Bool) (a : Double) : Single :=
  flushSingle flush (Single.ofDouble (flushDouble flush a))

def CvtOp.eval (op : CvtOp) (flush : Bool) (src : BitVec 128) : BitVec 128 :=
  match op with
  | .widen => join (widenSingle flush (src.extractLsb' 0 32)) 0
  | .narrow => (narrowDouble flush (lane src 0)).setWidth 128
  | .widenPair =>
    join (widenSingle flush (src.extractLsb' 0 32)) (widenSingle flush (src.extractLsb' 32 32))
  | .narrowPair =>
    join (narrowDouble flush (lane src 1) ++ narrowDouble flush (lane src 0)) 0

def greaterMagnitude (flush : Bool) (a b : Single) : Single :=
  let magnitude (x : Single) : Single := flushSingle flush x &&& ~~~Single.signMask
  if Single.compare? (magnitude a) (magnitude b) = some .gt then BitVec.allOnes 32 else 0

/-- Compute the selected lanes, keeping the upper lane of `old` if it is not selected. -/
def onLanes (lanes : Lanes) (old : BitVec 128) (f : Nat → BitVec 64) : BitVec 128 :=
  match lanes with
  | .lower => join (f 0) (lane old 1)
  | .both => join (f 0) (f 1)

end Recompiler.Arm
