import Recompiler.Lower.Operand

/-!
# Integer compares

A compare writes the 64-bit difference of the extended operands to the condition field, which is the
form that condition fields have in memory.
-/

namespace Recompiler.Lower

open Arm Emit PowerPC

def extend (signed : Bool) (value : BitVec 32) : BitVec 64 :=
  if signed then value.signExtend 64 else value.setWidth 64

def rightConstant? (word : Word) (signed immediate : Bool) : EmitM (Option (BitVec 32)) := do
  match immediate with
  | true => return some (if signed then word.simm else word.uimm)
  | false => gprConstant? word.rb

def startCompare (signed : Bool) (field ra : HostReg) : EmitM Unit :=
  emit (.unary (if signed then .sxtw64 else .mov32) field ra)

def compareConstant (signed : Bool) (crf : CrField) (a : GuestReg) (b : BitVec 32) :
    EmitM Unit := do
  let ra ← readGpr a
  let field ← writeCr crf
  startCompare signed field ra
  let value := -extend signed b
  if value ≠ 0 then emit (.addImm64 field field value)

def compareRegs (signed : Bool) (crf : CrField) (a b : GuestReg) : EmitM Unit := do
  let ra ← readGpr a
  let rb ← readGpr b
  let field ← writeCr crf
  startCompare signed field ra
  if signed then
    let temp ← scratch
    emit (.unary .sxtw64 temp rb)
    emit (.binary .sub64 field field temp)
    release temp
  else emit (.binary .sub64 field field rb)

def integerCompare (signed immediate : Bool) : EmitM Unit := do
  let word ← currentWord
  match ← gprConstant? word.ra, ← rightConstant? word signed immediate with
  | some a, some b => setCrConstant word.crfd (extend signed a - extend signed b)
  | none, some b => compareConstant signed word.crfd word.ra b
  | _, none => compareRegs signed word.crfd word.ra word.rb

end Recompiler.Lower
