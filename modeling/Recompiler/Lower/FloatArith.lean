import Recompiler.Ieee.Single
import Recompiler.Lower.Operand

/-!
# Floating-point arithmetic

A single multiplication sees its third operand rounded to 25 bits, which changes nothing on an exact
single. Single results are rounded and, unless paired, put into both lanes.
-/

namespace Recompiler.Lower

open Alloc Arm Emit Ieee PowerPC

/-- The bits of an operand that its rounding to 25 bits keeps, together with the bit that decides
it. -/
def keepMask : BitVec 64 := 0xFFFFFFFFF8000000

/-- Round lanes to 25 bits. The deciding bit is among the bits kept, so adding it once more carries
it to the place above. -/
def roundTo25Code (dst src : HostReg) (lanes : Lanes) : List Inst :=
  [.vmovImm vectorScratch keepMask,
    .vand dst src vectorScratch,
    .vmovImm vectorScratch Double.roundBit,
    .vand vectorScratch src vectorScratch,
    .vadd64 lanes dst dst vectorScratch]

def roundTo25 (dst src : HostReg) (lanes : Lanes) : EmitM Unit := do
  if dst = src then throw (.roundingInPlace dst)
  emitAll (roundTo25Code dst src lanes)

def formLanes : FpForm → Lanes
  | .paired => .both
  | .double | .single => .lower

def lowerOnly : FpForm → Bool
  | .paired => false
  | .double | .single => true

def singleResult : FpForm → Bool
  | .double => false
  | .single | .paired => true

def arithInputs (word : Word) (op : FpArith) : List GuestReg :=
  [word.ra] ++ (if op.usesB then [word.rb] else []) ++ (if op.usesC then [word.frc] else [])

def arithInst (op : FpArith) (lanes : Lanes) (dst a b c : HostReg) : Inst :=
  match op with
  | .div => .farith .div lanes dst a b
  | .sub => .farith .sub lanes dst a b
  | .add => .farith .add lanes dst a b
  | .mul => .farith .mul lanes dst a c
  | .madd => .ffused .fmadd lanes dst a c b
  | .msub => .ffused .fnmsub lanes dst a c b
  | .nmadd => .ffused .fnmadd lanes dst a c b
  | .nmsub => .ffused .fmsub lanes dst a c b

def finishForm (form : FpForm) (dst : HostReg) : List Inst :=
  match form with
  | .double => []
  | .single => [.funary .roundSingle .lower dst dst, .dup dst dst]
  | .paired => [.funary .roundSingle .both dst dst]

def roundedOperand (src : HostReg) (lanes : Lanes) : EmitM HostReg := do
  let temp ← scratchVector
  roundTo25 temp src lanes
  return temp

def readFprIf (used : Bool) (reg : GuestReg) (other : HostReg) : EmitM HostReg :=
  if used then readFpr reg else return other

def roundedIf (rounding : Bool) (src : HostReg) (lanes : Lanes) : EmitM (Option HostReg) :=
  if rounding then some <$> roundedOperand src lanes else return none

def releaseHeldVector : Option HostReg → EmitM Unit
  | some temp => releaseVector temp
  | none => return ()

def floatArith (form : FpForm) (op : FpArith) : EmitM Unit := do
  flushCarry
  let e ← get
  let word := e.word
  let lanes := formLanes form
  let inputs := arithInputs word op
  let inputsSingle := e.vectors.allSingle inputs (lowerOnly form)
  let rounding :=
    op.usesC && singleResult form && !e.vectors.isSingle word.frc (lowerOnly form)
  let a ← readFpr word.ra
  let b ← readFprIf op.usesB word.rb a
  let c ← readFprIf op.usesC word.frc a
  let temp ← roundedIf rounding c lanes
  let dst ← writeFpr word.rd (form = .double)
    (if singleResult form then .bothSingle else .double)
  emit (arithInst op lanes dst a b (temp.getD c))
  releaseHeldVector temp
  emitAll (finishForm form dst)
  checkSingle (inputs.map (·.val)) (lowerOnly form) inputsSingle
  updateClass dst (singleResult form)

end Recompiler.Lower
