import Recompiler.Ieee.ResultClass
import Recompiler.PowerPC.Decode
import Recompiler.PowerPC.State
import Recompiler.PowerPC.Status

/-!
# Floating-point instructions

The result of each floating-point instruction on lanes, and its effect on the state. The result
class in the status word is kept only when asked for.
-/

namespace Recompiler.PowerPC

open Ieee

def negateUnlessNan (bits : Double) : Double := if bits.isNan then bits else bits.negate

namespace FpArith

/-- Arithmetic on one lane. In single precision the third operand is rounded to 25 bits first. -/
def apply (op : FpArith) (single : Bool) (a b c : Double) : Double :=
  let c := if single && op.usesC then c.roundTo25Bits else c
  match op with
  | .add => (a.add b).propagate [a, b]
  | .sub => (a.sub b).propagate [a, b]
  | .div => (a.div b).propagate [a, b]
  | .mul => (a.mul c).propagate [a, c]
  | .madd => (Double.fma a c b).propagate [a, c, b]
  | .msub => (Double.fma a c b.negate).propagate [a, c, b]
  | .nmadd => negateUnlessNan ((Double.fma a c b).propagate [a, c, b])
  | .nmsub => negateUnlessNan ((Double.fma a c b.negate).propagate [a, c, b])

end FpArith

def FpMove.apply (op : FpMove) (bits : Double) : Double :=
  match op with
  | .mr => bits
  | .neg => bits ^^^ Double.signMask
  | .abs => bits &&& ~~~Double.signMask
  | .nabs => bits ||| Double.signMask

def wordInDouble (word : BitVec 32) : Double := 0xFFF8000000000000 ||| word.setWidth 64

/-- Conversion to a signed word, rounding toward zero. A NaN gives the smallest word. -/
def truncateToWord (bits : Double) : BitVec 32 :=
  if bits.isNan then 0x80000000 else bits.toWord

def floatCondition (a b : Double) : BitVec 4 :=
  match a.compare? b with
  | some order => Condition.ofOrdering order
  | none => Condition.so

def isNonnegative (bits : Double) : Bool :=
  match bits.compare? 0 with
  | some .lt | none => false
  | some _ => true

namespace State

def noteClass (state : State) (fprf : Bool) (bits : Double) (single : Bool) : State :=
  if fprf then state.setFpscr (Status.withClass state.fpscr (bits.classifyAs single)) else state

/-- Condition field 1 takes the exception summary from the top of the status word. -/
def recordFloat (state : State) : State :=
  state.setCrField 1 ((state.fpscr >>> 28).setWidth 4)

def stepFloat (state : State) (fprf : Bool) (word : Word) (op : FloatOp) : State :=
  let d := word.rd
  let a : Double := state.ps0 word.ra
  let b : Double := state.ps0 word.rb
  let c : Double := state.ps0 word.frc
  match op with
  | .arith .double op =>
    let result := op.apply false a b c
    (state.setPs0 d result).noteClass fprf result false
  | .arith .single op =>
    let result := (op.apply true a b c).roundToSingle
    (state.setPs d result result).noteClass fprf result true
  | .arith .paired op =>
    let low := (op.apply true a b c).roundToSingle
    let high :=
      (op.apply true (state.ps1 word.ra) (state.ps1 word.rb) (state.ps1 word.frc)).roundToSingle
    (state.setPs d low high).noteClass fprf low true
  | .move true op => state.setPs d (op.apply b) (op.apply (state.ps1 word.rb))
  | .move false op => state.setPs0 d (op.apply b)
  | .fsel => state.setPs0 d (if isNonnegative a then c else b)
  | .frsp =>
    let result := b.roundToSingle
    (state.setPs d result result).noteClass fprf result true
  | .fctiwz => state.setPs0 d (wordInDouble (truncateToWord b))
  | .fres =>
    let result := b.reciprocal
    (state.setPs d result result).noteClass fprf result true
  | .frsqrte =>
    let result := b.reciprocalSqrt
    (state.setPs0 d result).noteClass fprf result false
  | .fcmp _ =>
    let bits := floatCondition a b
    let state := state.setCrField word.crfd bits
    if fprf then state.setFpscr (Status.withCompare state.fpscr bits) else state

end State

end Recompiler.PowerPC
