/-!
# Operations

The instruction families of the guest and what each of them touches besides its operands: the carry
bit, the overflow bits and the floating-point result class. Families whose members differ only in a
choice of operand or operator are one constructor with that choice as an argument.
-/

namespace Recompiler.PowerPC

inductive OpClass where
  | integer
  | floatingPoint
  deriving DecidableEq

inductive BoolOp where
  | and
  | andc
  | or
  | orc
  | nor
  | nand
  | xor
  | eqv
  deriving DecidableEq

def BoolOp.apply (op : BoolOp) (s b : BitVec 32) : BitVec 32 :=
  match op with
  | .and => s &&& b
  | .andc => s &&& ~~~b
  | .or => s ||| b
  | .orc => s ||| ~~~b
  | .nor => ~~~(s ||| b)
  | .nand => ~~~(s &&& b)
  | .xor => s ^^^ b
  | .eqv => ~~~(s ^^^ b)

/-- A logical operation with an immediate. Only the conjunction records. -/
inductive ImmLogic where
  | or
  | xor
  | and
  deriving DecidableEq

inductive UnaryOp where
  | extsb
  | extsh
  | cntlzw
  deriving DecidableEq

inductive MulOp where
  | low
  | highSigned
  | highUnsigned
  deriving DecidableEq

inductive IntOp where
  | addImm (shifted : Bool)
  | addCarryingImm (record : Bool)
  | subfic
  | mulli
  | logicImm (op : ImmLogic) (shifted : Bool)
  | compare (signed immediate : Bool)
  | rlwimi
  | rlwinm
  | rlwnm
  | shift (left : Bool)
  | sraw
  | srawi
  | bool (op : BoolOp)
  | unary (op : UnaryOp)
  | add
  | addc
  /-- `adde`, `addze`, `subfe`, `subfze`: the first operand or its complement, plus the second
  operand or zero, plus the carry. -/
  | addExtended (inverted second : Bool)
  | subf
  | subfc
  | neg
  | mul (op : MulOp)
  | divw
  | divwu
  deriving DecidableEq

inductive FpForm where
  /-- Double result in the lower lane, upper lane kept. -/
  | double
  /-- Single result in both lanes. -/
  | single
  /-- Both lanes, each rounded to single. -/
  | paired
  deriving DecidableEq

inductive FpArith where
  | div
  | sub
  | add
  | mul
  | msub
  | madd
  | nmsub
  | nmadd
  deriving DecidableEq

namespace FpArith

def usesC : FpArith → Bool
  | .div | .sub | .add => false
  | _ => true

def usesB : FpArith → Bool
  | .mul => false
  | _ => true

end FpArith

inductive FpMove where
  | neg
  | mr
  | nabs
  | abs
  deriving DecidableEq

inductive FloatOp where
  | arith (form : FpForm) (op : FpArith)
  | move (packed : Bool) (op : FpMove)
  | fsel
  | frsp
  | fctiwz
  | fres
  | frsqrte
  /-- `fcmpu`, and `fcmpo` which differs in exceptions only. -/
  | fcmp (ordered : Bool)
  deriving DecidableEq

inductive Op where
  | int (op : IntOp)
  | float (op : FloatOp)
  deriving DecidableEq

namespace IntOp

def readsCa : IntOp → Bool
  | .addExtended .. => true
  | _ => false

def writesCa : IntOp → Bool
  | .addc | .addExtended .. | .subfc | .addCarryingImm _ | .subfic | .sraw | .srawi => true
  | _ => false

def hasOe : IntOp → Bool
  | .add | .addc | .addExtended .. | .subf | .subfc | .neg | .mul .low | .divw | .divwu => true
  | _ => false

/-- Whether the result is recorded in condition field 0, given the record bit. Immediate forms have
no record bit: some always record, the others never. -/
def records (rc : Bool) : IntOp → Bool
  | .addCarryingImm record => record
  | .logicImm op _ => op = .and
  | .addImm _ | .subfic | .mulli | .compare .. => false
  | _ => rc

end IntOp

namespace FloatOp

def writesFprf : FloatOp → Bool
  | .arith .. | .frsp | .fres | .frsqrte | .fcmp _ => true
  | _ => false

def isCompare : FloatOp → Bool
  | .fcmp _ => true
  | _ => false

end FloatOp

namespace Op

def opClass : Op → OpClass
  | .int _ => .integer
  | .float _ => .floatingPoint

def readsCa : Op → Bool
  | .int op => op.readsCa
  | .float _ => false

def writesCa : Op → Bool
  | .int op => op.writesCa
  | .float _ => false

def hasOe : Op → Bool
  | .int op => op.hasOe
  | .float _ => false

def writesFprf : Op → Bool
  | .int _ => false
  | .float op => op.writesFprf

def isFcmp : Op → Bool
  | .int _ => false
  | .float op => op.isCompare

end Op

end Recompiler.PowerPC
