import Recompiler.PowerPC.Op
import Recompiler.PowerPC.Word

/-!
# Decoding

Which operation a word denotes. A word without an operation here may still be one that only the
interpreter knows.
-/

namespace Recompiler.PowerPC

def FpArith.ofSubop5? : Nat → Option FpArith
  | 18 => some .div
  | 20 => some .sub
  | 21 => some .add
  | 25 => some .mul
  | 28 => some .msub
  | 29 => some .madd
  | 30 => some .nmsub
  | 31 => some .nmadd
  | _ => none

def FpMove.ofSubop10? : Nat → Option FpMove
  | 40 => some .neg
  | 72 => some .mr
  | 136 => some .nabs
  | 264 => some .abs
  | _ => none

namespace IntOp

def ofOpcode? : Nat → Option IntOp
  | 7 => some .mulli
  | 8 => some .subfic
  | 10 => some (.compare false true)
  | 11 => some (.compare true true)
  | 12 => some (.addCarryingImm false)
  | 13 => some (.addCarryingImm true)
  | 14 => some (.addImm false)
  | 15 => some (.addImm true)
  | 20 => some .rlwimi
  | 21 => some .rlwinm
  | 23 => some .rlwnm
  | 24 => some (.logicImm .or false)
  | 25 => some (.logicImm .or true)
  | 26 => some (.logicImm .xor false)
  | 27 => some (.logicImm .xor true)
  | 28 => some (.logicImm .and false)
  | 29 => some (.logicImm .and true)
  | _ => none

def ofSubop10? : Nat → Option IntOp
  | 0 => some (.compare true false)
  | 32 => some (.compare false false)
  | 24 => some (.shift true)
  | 26 => some (.unary .cntlzw)
  | 28 => some (.bool .and)
  | 60 => some (.bool .andc)
  | 124 => some (.bool .nor)
  | 284 => some (.bool .eqv)
  | 316 => some (.bool .xor)
  | 412 => some (.bool .orc)
  | 444 => some (.bool .or)
  | 476 => some (.bool .nand)
  | 536 => some (.shift false)
  | 792 => some .sraw
  | 824 => some .srawi
  | 922 => some (.unary .extsh)
  | 954 => some (.unary .extsb)
  | _ => none

/-- XO forms of opcode 31. The high halves of products have no overflow-enable bit. -/
def ofSubop9? (subop : Nat) (oe : Bool) : Option IntOp :=
  match subop with
  | 8 => some .subfc
  | 10 => some .addc
  | 11 => if oe then none else some (.mul .highUnsigned)
  | 40 => some .subf
  | 75 => if oe then none else some (.mul .highSigned)
  | 104 => some .neg
  | 136 => some (.addExtended true true)
  | 138 => some (.addExtended false true)
  | 200 => some (.addExtended true false)
  | 202 => some (.addExtended false false)
  | 235 => some (.mul .low)
  | 266 => some .add
  | 459 => some .divwu
  | 491 => some .divw
  | _ => none

def ofRegisterForm? (word : Word) : Option IntOp :=
  (ofSubop10? word.subop10).or (ofSubop9? word.subop9 word.oe)

end IntOp

namespace FloatOp

def ofPaired? (word : Word) : Option FloatOp :=
  match FpArith.ofSubop5? word.subop5 with
  | some op => some (.arith .paired op)
  | none => (FpMove.ofSubop10? word.subop10).map (.move true)

def ofSingle? (word : Word) : Option FloatOp :=
  if word.subop5 = 24 then some .fres
  else (FpArith.ofSubop5? word.subop5).map (.arith .single)

def ofSubop10? : Nat → Option FloatOp
  | 0 => some (.fcmp false)
  | 32 => some (.fcmp true)
  | 12 => some .frsp
  | 15 => some .fctiwz
  | subop => (FpMove.ofSubop10? subop).map (.move false)

def ofDouble? (word : Word) : Option FloatOp :=
  if word.subop5 = 23 then some .fsel
  else if word.subop5 = 26 then some .frsqrte
  else
    match FpArith.ofSubop5? word.subop5 with
    | some op => some (.arith .double op)
    | none => ofSubop10? word.subop10

end FloatOp

def Op.decode (word : Word) : Option Op :=
  match word.opcode with
  | 4 => (FloatOp.ofPaired? word).map .float
  | 31 => (IntOp.ofRegisterForm? word).map .int
  | 59 => (FloatOp.ofSingle? word).map .float
  | 63 => (FloatOp.ofDouble? word).map .float
  | opcode => (IntOp.ofOpcode? opcode).map .int

end Recompiler.PowerPC
