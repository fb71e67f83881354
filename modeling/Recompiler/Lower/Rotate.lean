import Recompiler.Lower.Operand

/-!
# Rotate and mask

The host has no instruction for a rotation under an arbitrary mask. Masks that end at the right
places are bitfield moves; the others need the mask in a register.
-/

namespace Recompiler.Lower

open Arm Emit PowerPC

def rightRotation (sh : Nat) : Nat := (32 - sh) % 32

/-- Where a mask without a gap begins and ends. The mask between its first and its last one is made
again, which tells masks that wrap around. -/
def maskBounds (mask : BitVec 32) : Option (Nat × Nat) :=
  if mask = 0 then none
  else
    let mb := mask.clz.toNat
    let me := 31 - mask.ctz.toNat
    if rotationMask mb me = mask then some (mb, me) else none

/-- The bitfield move, its lowest bit and its width, that rotates and masks at once. The field comes
from the top, or is shifted up with its high bits dropped. -/
def fieldMove? (sh : Nat) (mask : BitVec 32) : Option (FieldOp × Nat × Nat) :=
  match maskBounds mask with
  | some (mb, me) =>
    if me = 31 ∧ 31 < sh + mb then some (.ubfx, 32 - sh, 32 - mb)
    else if me = 31 - sh ∧ sh + mb < 32 then some (.ubfiz, sh, 32 - sh - mb)
    else none
  | none => none

def rotateMask (dst src : GuestReg) (sh : Nat) (mask : BitVec 32) : EmitM Unit := do
  match ← gprConstant? src with
  | some s => fold dst (s.rotateLeft sh &&& mask)
  | none =>
    if mask = BitVec.allOnes 32 ∧ sh = 0 then moveGpr dst src
    else
      let rs ← readGpr src
      if mask = BitVec.allOnes 32 then
        let ra ← writeGpr dst false
        emit (.shift .ror32 ra rs (32 - sh))
        record ra
      else if sh = 0 then
        let ra ← writeGpr dst false
        emit (.imm32 .and ra rs mask)
        record ra
      else
        match fieldMove? sh mask with
        | some (op, lsb, width) =>
          let ra ← writeGpr dst false
          emit (.bitfield op ra rs lsb width)
          record ra
        | none =>
          let temp ← scratchConstant mask
          let ra ← writeGpr dst false
          emit (.andRor32 ra temp rs (rightRotation sh))
          release temp
          record ra

def rlwinm : EmitM Unit := do
  let word ← currentWord
  rotateMask word.ra word.rd word.sh (rotationMask word.mb word.me)

def rotateByReg (dst s b : GuestReg) (mask : BitVec 32) : EmitM Unit := do
  let rs ← readGpr s
  let rb ← readGpr b
  let temp ← scratch
  emit (.unary .neg32 temp rb)
  emit (.binary .rorv32 temp rs temp)
  let ra ← writeGpr dst false
  emit (if mask = BitVec.allOnes 32 then .unary .mov32 ra temp else .imm32 .and ra temp mask)
  release temp
  record ra

def rlwnm : EmitM Unit := do
  let word ← currentWord
  let mask := rotationMask word.mb word.me
  match ← gprConstant? word.rb with
  | some b => rotateMask word.ra word.rd (b.toNat % 32) mask
  | none => rotateByReg word.ra word.rd word.rb mask

def insertConstant (dst : GuestReg) (mask bits : BitVec 32) : EmitM Unit := do
  let ra ← writeGpr dst true
  emit (.imm32 .and ra ra (~~~mask))
  if bits ≠ 0 then emit (.imm32 .orr ra ra bits)
  record ra

def insertField (dst : GuestReg) (rs : HostReg) (sh mb me : Nat) : EmitM Unit := do
  let lsb := 31 - me
  let rotate := (32 - sh + lsb) % 32
  let temp ←
    if rotate = 0 then pure none
    else do
      let temp ← scratch
      emit (.shift .ror32 temp rs rotate)
      pure (some temp)
  let ra ← writeGpr dst true
  emit (.bitfield .bfi ra (temp.getD rs) lsb (me - mb + 1))
  releaseHeld temp
  record ra

def insertWrapping (dst : GuestReg) (rs : HostReg) (sh : Nat) (mask : BitVec 32) :
    EmitM Unit := do
  let ra ← writeGpr dst true
  let temp ← scratch
  let kept ← scratch
  emit (.movImm32 temp mask)
  emit (.binary .bic32 kept ra temp)
  emit (.andRor32 temp temp rs (rightRotation sh))
  emit (.binary .orr32 ra temp kept)
  release kept
  release temp
  record ra

def insertRotated (dst src : GuestReg) (sh mb me : Nat) : EmitM Unit := do
  let rs ← readGpr src
  if me = 31 ∧ (sh = 0 ∨ 32 ≤ sh + mb) then
    let ra ← writeGpr dst true
    emit (.bitfield .bfxil ra rs (rightRotation sh) (32 - mb))
    record ra
  else if mb ≤ me then insertField dst rs sh mb me
  else insertWrapping dst rs sh (rotationMask mb me)

def rlwimi : EmitM Unit := do
  let word ← currentWord
  let sh := word.sh
  let mask := rotationMask word.mb word.me
  match ← gprConstant? word.ra, ← gprConstant? word.rd with
  | some a, some s => fold word.ra ((s.rotateLeft sh &&& mask) ||| (a &&& ~~~mask))
  | _, s =>
    if word.ra = word.rd ∧ sh = 0 then record (← readGpr word.ra)
    else if mask = BitVec.allOnes 32 then rotateMask word.ra word.rd sh mask
    else
      match s with
      | some s => insertConstant word.ra mask (s.rotateLeft sh &&& mask)
      | none => insertRotated word.ra word.rd sh word.mb word.me

end Recompiler.Lower
