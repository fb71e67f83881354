import Recompiler.PowerPC.Op

/-!
# Mnemonics

The assembler names of the instruction families.
-/

namespace Recompiler.PowerPC

def BoolOp.mnemonic : BoolOp → String
  | .and => "and"
  | .andc => "andc"
  | .or => "or"
  | .orc => "orc"
  | .nor => "nor"
  | .nand => "nand"
  | .xor => "xor"
  | .eqv => "eqv"

def ImmLogic.mnemonic : ImmLogic → Bool → String
  | .or, false => "ori"
  | .or, true => "oris"
  | .xor, false => "xori"
  | .xor, true => "xoris"
  | .and, false => "andi."
  | .and, true => "andis."

def UnaryOp.mnemonic : UnaryOp → String
  | .extsb => "extsb"
  | .extsh => "extsh"
  | .cntlzw => "cntlzw"

def MulOp.mnemonic : MulOp → String
  | .low => "mullw"
  | .highSigned => "mulhw"
  | .highUnsigned => "mulhwu"

def IntOp.mnemonic : IntOp → String
  | .addImm false => "addi"
  | .addImm true => "addis"
  | .addCarryingImm false => "addic"
  | .addCarryingImm true => "addic."
  | .subfic => "subfic"
  | .mulli => "mulli"
  | .logicImm op shifted => op.mnemonic shifted
  | .compare true true => "cmpi"
  | .compare false true => "cmpli"
  | .compare true false => "cmp"
  | .compare false false => "cmpl"
  | .rlwimi => "rlwimi"
  | .rlwinm => "rlwinm"
  | .rlwnm => "rlwnm"
  | .shift true => "slw"
  | .shift false => "srw"
  | .sraw => "sraw"
  | .srawi => "srawi"
  | .bool op => op.mnemonic
  | .unary op => op.mnemonic
  | .add => "add"
  | .addc => "addc"
  | .addExtended false true => "adde"
  | .addExtended false false => "addze"
  | .addExtended true true => "subfe"
  | .addExtended true false => "subfze"
  | .subf => "subf"
  | .subfc => "subfc"
  | .neg => "neg"
  | .mul op => op.mnemonic
  | .divw => "divw"
  | .divwu => "divwu"

def FpArith.stem : FpArith → String
  | .div => "div"
  | .sub => "sub"
  | .add => "add"
  | .mul => "mul"
  | .msub => "msub"
  | .madd => "madd"
  | .nmsub => "nmsub"
  | .nmadd => "nmadd"

def FpArith.mnemonic (op : FpArith) : FpForm → String
  | .double => "f" ++ op.stem
  | .single => "f" ++ op.stem ++ "s"
  | .paired => "ps_" ++ op.stem

def FpMove.stem : FpMove → String
  | .neg => "neg"
  | .mr => "mr"
  | .nabs => "nabs"
  | .abs => "abs"

def FloatOp.mnemonic : FloatOp → String
  | .arith form op => op.mnemonic form
  | .move packed op => (if packed then "ps_" else "f") ++ op.stem
  | .fsel => "fsel"
  | .frsp => "frsp"
  | .fctiwz => "fctiwz"
  | .fres => "fres"
  | .frsqrte => "frsqrte"
  | .fcmp ordered => if ordered then "fcmpo" else "fcmpu"

def Op.mnemonic : Op → String
  | .int op => op.mnemonic
  | .float op => op.mnemonic

end Recompiler.PowerPC
