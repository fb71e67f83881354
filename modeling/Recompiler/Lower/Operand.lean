import Recompiler.Emit.Call

/-!
# Operands and results of integer instructions

When all operands of an instruction are constants its result is a constant too, and no code is
emitted. Otherwise operands are read first and the destination is bound after them, so that a
destination that is also an operand still has its old value when the code reads it.
-/

namespace Recompiler.Lower

open Arm Emit PowerPC

/-- An operand: a constant or a host register that holds it. -/
inductive Source where
  | constant (value : BitVec 32)
  | reg (reg : HostReg)
  deriving DecidableEq

def currentWord : EmitM Word := do
  return (← get).word

def wantsCa : EmitM Bool := do
  return (← get).hints.wantsCa

def source (reg : GuestReg) : EmitM Source := do
  match ← gprConstant? reg with
  | some value => return .constant value
  | none => return .reg (← readGpr reg)

def record (host : HostReg) : EmitM Unit := do
  if (← currentWord).rc then recordReg host

def recordFolded (value : BitVec 32) : EmitM Unit := do
  if (← currentWord).rc then recordConstant value

def fold (dst : GuestReg) (value : BitVec 32) : EmitM Unit := do
  foldGpr dst value
  recordFolded value

def scratchConstant (value : BitVec 32) : EmitM HostReg := do
  let temp ← scratch
  emit (.movImm32 temp value)
  return temp

def releaseHeld : Option HostReg → EmitM Unit
  | some temp => release temp
  | none => return ()

def moveGpr (dst src : GuestReg) : EmitM Unit := do
  match ← gprConstant? src with
  | some value => fold dst value
  | none =>
    let old ← readGpr src
    if dst = src then record old
    else
      let new ← writeGpr dst false
      emit (.unary .mov32 new old)
      record new

def emitMove (dst src : HostReg) : EmitM Unit := do
  if dst ≠ src then emit (.unary .mov32 dst src)

def emitAddConstant (dst src : HostReg) (value : BitVec 32) : EmitM Unit := do
  if value ≠ 0 then emit (.imm32 .add dst src value) else emitMove dst src

def emitAdd (dst a b : HostReg) : EmitM Unit := do
  emit (if ← wantsCa then .setFlags .adds dst a b else .binary .add32 dst a b)

def emitSub (dst a b : HostReg) : EmitM Unit := do
  emit (if ← wantsCa then .setFlags .subs dst a b else .binary .sub32 dst a b)

def emitAdc (dst a b : HostReg) : EmitM Unit := do
  emit (if ← wantsCa then .adcs32 dst a b else .adc32 dst a b)

def addConstantCarrying (dst src : HostReg) (value : BitVec 32) : EmitM Unit := do
  emit (if ← wantsCa then .addsImm32 dst src value else .imm32 .add dst src value)
  carryFromFlags

end Recompiler.Lower
