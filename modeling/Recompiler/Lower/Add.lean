import Recompiler.Lower.Operand

/-!
# Addition and subtraction
-/

namespace Recompiler.Lower

open Arm Emit PowerPC

/-- Whether a sum carries: the second operand is past the complement of the first. -/
def sumCarries (a b : BitVec 32) : Bool := ~~~a < b

/-- `addi` and `addis`. Register 0 as the operand stands for zero. -/
def addImm (shifted : Bool) : EmitM Unit := do
  let word ← currentWord
  let imm := if shifted then word.simm <<< 16 else word.simm
  if word.ra = 0 then foldGpr word.rd imm
  else
    match ← gprConstant? word.ra with
    | some a => foldGpr word.rd (a + imm)
    | none =>
      unless word.rd = word.ra ∧ imm = 0 do
        let ra ← readGpr word.ra
        let rd ← writeGpr word.rd false
        emitAddConstant rd ra imm

def add : EmitM Unit := do
  let word ← currentWord
  let a ← source word.ra
  let b ← source word.rb
  match a, b with
  | .constant x, .constant y => fold word.rd (x + y)
  | .reg r, .constant i | .constant i, .reg r =>
    let rd ← writeGpr word.rd false
    emitAddConstant rd r i
    record rd
  | .reg ra, .reg rb =>
    let rd ← writeGpr word.rd false
    emit (.binary .add32 rd ra rb)
    record rd

def addc : EmitM Unit := do
  let word ← currentWord
  let a ← source word.ra
  let b ← source word.rb
  match a, b with
  | .constant x, .constant y =>
    fold word.rd (x + y)
    carryConstant (sumCarries x y)
  | .reg r, .constant i | .constant i, .reg r =>
    let rd ← writeGpr word.rd false
    addConstantCarrying rd r i
    record rd
  | .reg ra, .reg rb =>
    let rd ← writeGpr word.rd false
    emitAdd rd ra rb
    carryFromFlags
    record rd

def addCarryingImm (recording : Bool) : EmitM Unit := do
  let word ← currentWord
  match ← gprConstant? word.ra with
  | some a =>
    foldGpr word.rd (a + word.simm)
    carryConstant (sumCarries a word.simm)
    if recording then recordConstant (a + word.simm)
  | none =>
    let ra ← readGpr word.ra
    let rd ← writeGpr word.rd false
    addConstantCarrying rd ra word.simm
    if recording then recordReg rd

def subf : EmitM Unit := do
  let word ← currentWord
  if word.ra = word.rb then fold word.rd 0
  else
    match ← gprConstant? word.ra, ← gprConstant? word.rb with
    | some a, some b => fold word.rd (b - a)
    | some a, none =>
      let rb ← readGpr word.rb
      let rd ← writeGpr word.rd false
      emitAddConstant rd rb (-a)
      record rd
    | none, b =>
      if b = some 0 then
        let ra ← readGpr word.ra
        let rd ← writeGpr word.rd false
        emit (.unary .neg32 rd ra)
        record rd
      else
        let ra ← readGpr word.ra
        let rb ← readGpr word.rb
        let rd ← writeGpr word.rd false
        emit (.binary .sub32 rd rb ra)
        record rd

def subfc : EmitM Unit := do
  let word ← currentWord
  match ← gprConstant? word.ra, ← gprConstant? word.rb with
  | some a, some b =>
    fold word.rd (b - a)
    carryConstant (a ≤ b)
  | _, _ =>
    let ra ← readGpr word.ra
    let rb ← readGpr word.rb
    let rd ← writeGpr word.rd false
    emitSub rd rb ra
    carryFromFlags
    record rd

/-- `subfic`: the immediate minus the operand. Minus one less the operand is its complement and
never borrows. -/
def subfic : EmitM Unit := do
  let word ← currentWord
  let imm := word.simm
  match ← gprConstant? word.ra with
  | some a =>
    foldGpr word.rd (imm - a)
    carryConstant (a ≤ imm)
  | none =>
    let ra ← readGpr word.ra
    if imm = BitVec.allOnes 32 then
      let rd ← writeGpr word.rd false
      emit (.unary .mvn32 rd ra)
      carryConstant true
    else if imm = 0 then
      let rd ← writeGpr word.rd false
      emit (if ← wantsCa then .negs32 rd ra else .unary .neg32 rd ra)
      carryFromFlags
    else
      let temp ← scratchConstant imm
      let rd ← writeGpr word.rd false
      emitSub rd temp ra
      release temp
      carryFromFlags

def neg : EmitM Unit := do
  let word ← currentWord
  match ← gprConstant? word.ra with
  | some a => fold word.rd (-a)
  | none =>
    let ra ← readGpr word.ra
    let rd ← writeGpr word.rd false
    emit (.unary .neg32 rd ra)
    record rd

end Recompiler.Lower
