import Recompiler.Ieee.Single

/-!
# Result classes

The five-bit code that describes a floating-point result in the status word.
-/

namespace Recompiler.Ieee

def resultClass (negative expZero expMax fracZero : Bool) : BitVec 5 :=
  if expZero then
    match fracZero, negative with
    | true, false => 0x02
    | true, true => 0x12
    | false, false => 0x14
    | false, true => 0x18
  else if expMax then
    match fracZero, negative with
    | true, false => 0x05
    | true, true => 0x09
    | false, _ => 0x11
  else if negative then 0x08
  else 0x04

def Double.classify (bits : Double) : BitVec 5 :=
  resultClass bits.isNegative (bits &&& expMask == 0) (bits &&& expMask == expMask)
    (bits &&& fracMask == 0)

def Single.classify (bits : Single) : BitVec 5 :=
  resultClass bits.isNegative (bits &&& expMask == 0) (bits &&& expMask == expMask)
    (bits &&& fracMask == 0)

/-- The class of a result held as a double, seen in the precision of the operation. -/
def Double.classifyAs (bits : Double) (single : Bool) : BitVec 5 :=
  if single then (Single.store bits).classify else bits.classify

end Recompiler.Ieee
