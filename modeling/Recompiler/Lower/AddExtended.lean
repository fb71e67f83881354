import Recompiler.Lower.Operand

/-!
# Addition with the carry bit

`adde`, `addze`, `subfe` and `subfze` add the carry bit to a sum. How depends on where the carry is:
a constant is added to the other constants, the host flag goes into an add with carry, and a carry
in guest memory is either added as a number or brought to the flag first.
-/

namespace Recompiler.Lower

open Arm Emit PowerPC

def scratchCarry : EmitM HostReg := do
  let temp ← scratch
  emit (.load .byte temp stateReg (← get).layout.xerCa)
  return temp

/-- The carry out of a constant sum to which the carry is added: certain when the sum overflows by
itself, impossible when it is below the largest word, and the incoming carry in between. -/
def carryOfConstantSum (sum : BitVec 64) : EmitM Unit := do
  if 0xFFFFFFFF < sum then carryConstant true
  else if sum < 0xFFFFFFFF then carryConstant false
  else if (← get).carry = .inHostCarry then carryFromFlags

def addCarryToConstants (dst : GuestReg) (x y : BitVec 32) : EmitM Source := do
  let sum := x.setWidth 64 + y.setWidth 64
  let carry := (← get).carry
  match carry.constant? with
  | some ca =>
    let total := sum + (if ca then 1 else 0)
    foldGpr dst (total.setWidth 32)
    carryConstant (0xFFFFFFFF < total)
    return .constant (total.setWidth 32)
  | none =>
    if carry = .inHostCarry then
      let rd ← writeGpr dst false
      emit (.movImm32 rd (sum.setWidth 32))
      emit (.adc32 rd rd zeroReg)
      carryOfConstantSum sum
      return .reg rd
    else
      let ca ← scratchCarry
      let rd ← writeGpr dst false
      emitAddConstant rd ca (sum.setWidth 32)
      release ca
      carryOfConstantSum sum
      return .reg rd

def addFlagToRegConstant (dst : GuestReg) (r : HostReg) (imm : BitVec 32) : EmitM Source := do
  let temp ← if imm = 0 then pure none else some <$> scratchConstant imm
  let rd ← writeGpr dst false
  emitAdc rd r (temp.getD zeroReg)
  releaseHeld temp
  carryFromFlags
  return .reg rd

def addCarryToRegConstant (dst : GuestReg) (r : HostReg) (imm : BitVec 32) : EmitM Source := do
  match (← get).carry with
  | .constantTrue =>
    let rd ← writeGpr dst false
    if imm = BitVec.allOnes 32 then
      emitMove rd r
      carryConstant true
    else addConstantCarrying rd r (imm + 1)
    return .reg rd
  | .constantFalse =>
    let rd ← writeGpr dst false
    if imm = 0 then
      emitMove rd r
      carryConstant false
    else addConstantCarrying rd r imm
    return .reg rd
  | .inGuestState =>
    if imm = 0 then
      let ca ← scratchCarry
      let rd ← writeGpr dst false
      emitAdd rd r ca
      release ca
      carryFromFlags
      return .reg rd
    else
      loadCarryIntoFlags
      addFlagToRegConstant dst r imm
  | .inHostCarry => addFlagToRegConstant dst r imm

def carryIntoFlags : EmitM Unit := do
  match (← get).carry with
  | .constantTrue => emit (.test .cmp zeroReg zeroReg)
  | .inGuestState => loadCarryIntoFlags
  | .constantFalse | .inHostCarry => return ()

def addCarryToRegs (dst : GuestReg) (x y : HostReg) : EmitM Source := do
  if (← get).carry = .constantFalse then
    let rd ← writeGpr dst false
    emitAdd rd x y
    carryFromFlags
    return .reg rd
  else
    carryIntoFlags
    let rd ← writeGpr dst false
    emitAdc rd x y
    carryFromFlags
    return .reg rd

def complement : Source → EmitM (Source × Option HostReg)
  | .constant value => return (.constant (~~~value), none)
  | .reg reg => do
    let temp ← scratch
    emit (.unary .mvn32 temp reg)
    return (.reg temp, some temp)

/-- `adde`, `addze`, `subfe`, `subfze`. -/
def addExtended (inverted second : Bool) : EmitM Unit := do
  let word ← currentWord
  let a ← source word.ra
  let (x, temp) ← if inverted then complement a else pure (a, none)
  let y ← if second then source word.rb else pure (.constant 0)
  let result ←
    match x, y with
    | .constant x, .constant y => addCarryToConstants word.rd x y
    | .reg r, .constant i | .constant i, .reg r => addCarryToRegConstant word.rd r i
    | .reg x, .reg y => addCarryToRegs word.rd x y
  releaseHeld temp
  match result with
  | .constant value => recordFolded value
  | .reg rd => record rd

end Recompiler.Lower
