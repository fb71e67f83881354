import Recompiler.Lower.Operand

/-!
# Multiplication and division
-/

namespace Recompiler.Lower

open Arm Emit PowerPC

def mulli : EmitM Unit := do
  let word ← currentWord
  let imm := word.simm
  match ← gprConstant? word.ra with
  | some a => foldGpr word.rd (a * imm)
  | none =>
    if imm = 0 then foldGpr word.rd 0
    else
      let ra ← readGpr word.ra
      if imm = 1 then
        unless word.rd = word.ra do
          let rd ← writeGpr word.rd false
          emit (.unary .mov32 rd ra)
      else
        let temp ← scratchConstant imm
        let rd ← writeGpr word.rd false
        emit (.binary .mul32 rd ra temp)
        release temp

/-- A product of registers. A high half is shifted down from the 64-bit product. -/
def mulRegs (op : MulOp) (dst a b : GuestReg) : EmitM Unit := do
  let ra ← readGpr a
  let rb ← readGpr b
  let rd ← writeGpr dst false
  match op with
  | .low => emit (.binary .mul32 rd ra rb)
  | .highSigned => emitAll [.binary .smull rd ra rb, .shift .lsr64 rd rd 32]
  | .highUnsigned => emitAll [.binary .umull rd ra rb, .shift .lsr64 rd rd 32]
  record rd

def product (op : MulOp) (a b : BitVec 32) : BitVec 32 :=
  match op with
  | .low => a * b
  | .highSigned => ((a.signExtend 64 * b.signExtend 64).sshiftRight 32).setWidth 32
  | .highUnsigned => ((a.setWidth 64 * b.setWidth 64) >>> 32).setWidth 32

def mul (op : MulOp) : EmitM Unit := do
  let word ← currentWord
  match ← gprConstant? word.ra, ← gprConstant? word.rb with
  | some a, some b => fold word.rd (product op a b)
  | _, _ => mulRegs op word.rd word.ra word.rb

def powerOfTwo? (value : BitVec 32) : Option Nat :=
  (List.range 32).find? fun n => value = 1#32 <<< n

def divideByPower (dst a : GuestReg) (n : Nat) : EmitM Unit := do
  let ra ← readGpr a
  let rd ← writeGpr dst false
  if n = 0 then emitMove rd ra else emit (.shift .lsr32 rd ra n)
  record rd

def divideUnsigned (dst a b : GuestReg) : EmitM Unit := do
  let ra ← readGpr a
  let rb ← readGpr b
  let rd ← writeGpr dst false
  emit (.binary .udiv32 rd ra rb)
  record rd

def divwu : EmitM Unit := do
  let word ← currentWord
  match ← gprConstant? word.ra, ← gprConstant? word.rb with
  | some a, some b => fold word.rd (if b = 0 then 0 else a / b)
  | none, some b =>
    if b = 0 then fold word.rd 0
    else
      match powerOfTwo? b with
      | some n => divideByPower word.rd word.ra n
      | none => divideUnsigned word.rd word.ra word.rb
  | _, none => divideUnsigned word.rd word.ra word.rb

/-- Signed division with the two undefined cases checked at run time: both give the sign of the
dividend in every bit. The checks need the flags, so the carry is put away first. -/
def divideChecked (dst a b : GuestReg) : EmitM Unit := do
  flushCarry
  let ra ← readGpr a
  let rb ← readGpr b
  let temp ← scratch
  let rd ← writeGpr dst false
  let fast ← newLabel
  let slow ← newLabel
  let done ← newLabel
  branchTo (.branchIfZero rb 0) slow
  emit (.movImm32 temp 0x80000000)
  emit (.test .cmp ra temp)
  branchTo (.branchIf .ne 0) fast
  emit (.testImm .cmn rb 1)
  branchTo (.branchIf .eq 0) slow
  placeLabel fast
  emit (.binary .sdiv32 rd ra rb)
  branchTo (.branch 0) done
  placeLabel slow
  emit (.shift .asr32 rd ra 31)
  placeLabel done
  release temp
  record rd

/-- Signed division by a constant, for which at most one of the undefined cases remains. -/
def divideByConstant (dst a b : GuestReg) (divisor : BitVec 32) : EmitM Unit := do
  if divisor = 0 then
    let ra ← readGpr a
    let rd ← writeGpr dst false
    emit (.shift .asr32 rd ra 31)
    record rd
  else if divisor = BitVec.allOnes 32 then divideChecked dst a b
  else
    let ra ← readGpr a
    let temp ← scratchConstant divisor
    let rd ← writeGpr dst false
    emit (.binary .sdiv32 rd ra temp)
    release temp
    record rd

def divwValue (a b : BitVec 32) : BitVec 32 :=
  if b.toInt = 0 ∨ (a.toInt = -0x80000000 ∧ b.toInt = -1) then a.sshiftRight 31
  else BitVec.ofInt 32 (a.toInt.tdiv b.toInt)

def divw : EmitM Unit := do
  let word ← currentWord
  match ← gprConstant? word.ra, ← gprConstant? word.rb with
  | some a, some b => fold word.rd (divwValue a b)
  | none, some b => divideByConstant word.rd word.ra word.rb b
  | _, none => divideChecked word.rd word.ra word.rb

end Recompiler.Lower
