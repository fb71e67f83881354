import Recompiler.Lower.Operand

/-!
# Shifts
-/

namespace Recompiler.Lower

open Arm Emit PowerPC

def shiftBy (left : Bool) (dst src : GuestReg) (n : Nat) : EmitM Unit := do
  let rs ← readGpr src
  let ra ← writeGpr dst false
  emit (.shift (if left then .lsl32 else .lsr32) ra rs n)
  record ra

/-- A shift by a register. The 64-bit shift moves everything out of the low word from 32 on. -/
def shiftByReg (left : Bool) (dst s b : GuestReg) : EmitM Unit := do
  let rs ← readGpr s
  let rb ← readGpr b
  let ra ← writeGpr dst false
  if left then emitAll [.binary .lslv64 ra rs rb, .unary .mov32 ra ra]
  else emit (.binary .lsrv64 ra rs rb)
  record ra

def shiftValue (left : Bool) (s b : BitVec 32) : BitVec 32 :=
  let n := b &&& 0x3F
  if n &&& 0x20 ≠ 0 then 0 else if left then s <<< n else s >>> n

def shift (left : Bool) : EmitM Unit := do
  let word ← currentWord
  match ← gprConstant? word.rd, ← gprConstant? word.rb with
  | some s, some b => fold word.ra (shiftValue left s b)
  | none, some b =>
    if b.getLsbD 5 then fold word.ra 0
    else if b.toNat % 32 = 0 then moveGpr word.ra word.rd
    else shiftBy left word.ra word.rd (b.toNat % 32)
  | _, none => shiftByReg left word.ra word.rd word.rb

/-- The carry is whether two registers have a common bit. A scratch register, which may be one of
them, is used up. -/
def carryFromCommonBits (temp a b : HostReg) : EmitM Unit := do
  emit (.test .tst a b)
  emit (.cset32 temp .ne)
  carryFromReg temp
  release temp

/-- A constant shifted arithmetically by less than 64. The carry is that a negative number lost a
one. -/
def shiftAlgebraicValue (s : BitVec 32) (n : Nat) : BitVec 32 × Bool :=
  let negative := s.slt 0
  if 32 ≤ n then (if negative then BitVec.allOnes 32 else 0, negative)
  else (s.sshiftRight n, negative && (n ≠ 0 && s <<< (32 - n) ≠ 0))

def shiftAlgebraicBy (dst src : GuestReg) (n : Nat) : EmitM Unit := do
  match ← gprConstant? src with
  | some s =>
    let (value, carry) := shiftAlgebraicValue s n
    fold dst value
    carryConstant carry
  | none =>
    if n = 0 then
      moveGpr dst src
      carryConstant false
    else
      let rs ← readGpr src
      if ← wantsCa then
        let temp ← scratch
        emit (.shift .lsl32 temp rs (32 - n))
        let ra ← writeGpr dst false
        emit (.shift .asr32 ra rs n)
        carryFromCommonBits temp temp ra
        record ra
      else
        let ra ← writeGpr dst false
        emit (.shift .asr32 ra rs n)
        dropCarry
        record ra

def shiftAlgebraicOut (dst src : GuestReg) : EmitM Unit := do
  let rs ← readGpr src
  if ← wantsCa then
    let temp ← scratch
    emit (.shift .lsr32 temp rs 31)
    let ra ← writeGpr dst false
    emit (.shift .asr32 ra rs 31)
    carryFromReg temp
    release temp
    record ra
  else
    let ra ← writeGpr dst false
    emit (.shift .asr32 ra rs 31)
    dropCarry
    record ra

/-- An arithmetic shift by a register. The operand goes to the high word; after the shift the high
word is the result and the low word has the bits that were shifted out. -/
def shiftAlgebraicByReg (dst s b : GuestReg) : EmitM Unit := do
  let rs ← readGpr s
  let rb ← readGpr b
  let temp ← scratch
  emit (.shift .lsl64 temp rs 32)
  emit (.binary .asrv64 temp temp rb)
  let ra ← writeGpr dst false
  emit (.shift .lsr64 ra temp 32)
  if ← wantsCa then carryFromCommonBits temp ra temp
  else
    dropCarry
    release temp
  record ra

def srawi : EmitM Unit := do
  let word ← currentWord
  shiftAlgebraicBy word.ra word.rd word.sh

def sraw : EmitM Unit := do
  let word ← currentWord
  match ← gprConstant? word.rd, ← gprConstant? word.rb with
  | some s, some b =>
    let (value, carry) := shiftAlgebraicValue s (b &&& 0x3F).toNat
    fold word.ra value
    carryConstant carry
  | none, some b =>
    if b.getLsbD 5 then shiftAlgebraicOut word.ra word.rd
    else shiftAlgebraicBy word.ra word.rd (b.toNat % 32)
  | _, none => shiftAlgebraicByReg word.ra word.rd word.rb

end Recompiler.Lower
