import Recompiler.Lower.Operand

/-!
# Logical instructions
-/

namespace Recompiler.Lower

open Arm Emit PowerPC

def immLogicKind : ImmLogic → BoolOp
  | .or => .or
  | .xor => .xor
  | .and => .and

def immLogicOp : BoolOp → ImmOp
  | .or => .orr
  | .xor => .eor
  | _ => .and

/-- `ori`, `xori`, `andi.` and their shifted forms. -/
def logicImm (op : ImmLogic) (shifted : Bool) : EmitM Unit := do
  let word ← currentWord
  let kind := immLogicKind op
  let imm := if shifted then word.uimm <<< 16 else word.uimm
  let recording : Bool := kind = BoolOp.and
  let folded :=
    match ← gprConstant? word.rd with
    | some s => some (kind.apply s imm)
    | none => if kind = BoolOp.and ∧ imm = 0 then some 0 else none
  match folded with
  | some value =>
    foldGpr word.ra value
    if recording then recordConstant value
  | none =>
    if kind ≠ BoolOp.and ∧ imm = 0 then
      unless word.ra = word.rd do
        let rs ← readGpr word.rd
        let ra ← writeGpr word.ra false
        emit (.unary .mov32 ra rs)
    else
      let rs ← readGpr word.rd
      let ra ← writeGpr word.ra false
      emit (.imm32 (immLogicOp kind) ra rs imm)
      if recording then recordReg ra

def commutes : BoolOp → Bool
  | .andc | .orc => false
  | _ => true

def complementsResult : BoolOp → Bool
  | .nand | .nor => true
  | _ => false

def boolImm (op : BoolOp) (imm : BitVec 32) : ImmOp × BitVec 32 :=
  match op with
  | .and | .nand => (.and, imm)
  | .andc => (.and, ~~~imm)
  | .or | .nor => (.orr, imm)
  | .orc => (.orr, ~~~imm)
  | .xor => (.eor, imm)
  | .eqv => (.eor, ~~~imm)

def boolReg : BoolOp → BinaryOp
  | .and | .nand => .and32
  | .andc => .bic32
  | .or | .nor => .orr32
  | .orc => .orn32
  | .xor => .eor32
  | .eqv => .eon32

def finishBool (op : BoolOp) (dst : HostReg) : EmitM Unit := do
  if complementsResult op then emit (.unary .mvn32 dst dst)
  record dst

def boolSame (op : BoolOp) (dst src : GuestReg) : EmitM Unit := do
  match op with
  | .and | .or => moveGpr dst src
  | .nand | .nor =>
    let rs ← readGpr src
    let ra ← writeGpr dst false
    emit (.unary .mvn32 ra rs)
    record ra
  | .orc | .eqv => fold dst (BitVec.allOnes 32)
  | .andc | .xor => fold dst 0

def boolConstant (op : BoolOp) (dst src : GuestReg) (imm : BitVec 32) : EmitM Unit := do
  let rs ← readGpr src
  let ra ← writeGpr dst false
  let (immOp, value) := boolImm op imm
  emit (.imm32 immOp ra rs value)
  finishBool op ra

def boolRegs (op : BoolOp) (dst s b : GuestReg) : EmitM Unit := do
  let rs ← readGpr s
  let rb ← readGpr b
  let ra ← writeGpr dst false
  emit (.binary (boolReg op) ra rs rb)
  finishBool op ra

def bool (op : BoolOp) : EmitM Unit := do
  let word ← currentWord
  let s := word.rd
  let b := word.rb
  match ← gprConstant? s, ← gprConstant? b with
  | some vs, some vb => fold word.ra (op.apply vs vb)
  | vs, vb =>
    if s = b then boolSame op word.ra s
    else
      match vs, vb with
      | _, some vb => boolConstant op word.ra s vb
      | some vs, none =>
        if commutes op then boolConstant op word.ra b vs else boolRegs op word.ra s b
      | none, none => boolRegs op word.ra s b

def unaryOp : PowerPC.UnaryOp → Arm.UnaryOp
  | .extsb => .sxtb32
  | .extsh => .sxth32
  | .cntlzw => .clz32

def unaryValue (op : PowerPC.UnaryOp) (s : BitVec 32) : BitVec 32 :=
  match op with
  | .extsb => (s.setWidth 8).signExtend 32
  | .extsh => (s.setWidth 16).signExtend 32
  | .cntlzw => s.clz

def unary (op : PowerPC.UnaryOp) : EmitM Unit := do
  let word ← currentWord
  match ← gprConstant? word.rd with
  | some s => fold word.ra (unaryValue op s)
  | none =>
    let rs ← readGpr word.rd
    let ra ← writeGpr word.ra false
    emit (.unary (unaryOp op) ra rs)
    record ra

end Recompiler.Lower
