import Recompiler.PowerPC.Op
import Recompiler.PowerPC.Word

/-!
# Assembling

The word of each instruction, with operands in the order of the assembler. Register operands are
bytes and are not masked: one above 31 spills into the neighbouring fields.
-/

namespace Recompiler.PowerPC.Assemble

/-! ## Forms -/

def field {w : Nat} (value : BitVec w) (position : Nat) : Word := value.setWidth 32 <<< position

def dForm (opcode : BitVec 6) (t a : BitVec 8) (imm : BitVec 16) : Word :=
  field opcode 26 ||| field t 21 ||| field a 16 ||| field imm 0

def xForm (opcode : BitVec 6) (t a b : BitVec 8) (extended : BitVec 10) : Word :=
  field opcode 26 ||| field t 21 ||| field a 16 ||| field b 11 ||| field extended 1

def aForm (opcode : BitVec 6) (t a b c : BitVec 8) (extended : BitVec 5) : Word :=
  xForm opcode t a b (extended.setWidth 10) ||| field c 6

def mForm (opcode : BitVec 6) (s a : BitVec 8) (sh mb me : BitVec 32) : Word :=
  field opcode 26 ||| field s 21 ||| field a 16 ||| field (sh &&& 0x1F) 11 |||
    field (mb &&& 0x1F) 6 ||| field (me &&& 0x1F) 1

def withRc (word : Word) : Word := word ||| 1

def withOe (word : Word) : Word := word ||| 1#32 <<< 10

/-- A condition field as the target operand of a compare. -/
def compareTarget (crf : BitVec 8) : BitVec 8 := crf <<< 2

/-! ## Immediate forms -/

def addi (d a : BitVec 8) (imm : BitVec 16) : Word := dForm 14 d a imm

def addis (d a : BitVec 8) (imm : BitVec 16) : Word := dForm 15 d a imm

def li (d : BitVec 8) (imm : BitVec 16) : Word := addi d 0 imm

def lis (d : BitVec 8) (imm : BitVec 16) : Word := addis d 0 imm

def addic (recording : Bool) (d a : BitVec 8) (imm : BitVec 16) : Word :=
  dForm (if recording then 13 else 12) d a imm

def subfic (d a : BitVec 8) (imm : BitVec 16) : Word := dForm 8 d a imm

def mulli (d a : BitVec 8) (imm : BitVec 16) : Word := dForm 7 d a imm

def logicImm (op : ImmLogic) (shifted : Bool) (a s : BitVec 8) (imm : BitVec 16) : Word :=
  let opcode : BitVec 6 :=
    match op with
    | .or => 24
    | .xor => 26
    | .and => 28
  dForm (if shifted then opcode + 1 else opcode) s a imm

def compareImm (signed : Bool) (crf a : BitVec 8) (imm : BitVec 16) : Word :=
  dForm (if signed then 11 else 10) (compareTarget crf) a imm

/-! ## Register forms -/

def add (d a b : BitVec 8) : Word := xForm 31 d a b 266

def addc (d a b : BitVec 8) : Word := xForm 31 d a b 10

def adde (d a b : BitVec 8) : Word := xForm 31 d a b 138

def addze (d a : BitVec 8) : Word := xForm 31 d a 0 202

def subf (d a b : BitVec 8) : Word := xForm 31 d a b 40

def subfc (d a b : BitVec 8) : Word := xForm 31 d a b 8

def subfe (d a b : BitVec 8) : Word := xForm 31 d a b 136

def subfze (d a : BitVec 8) : Word := xForm 31 d a 0 200

def neg (d a : BitVec 8) : Word := xForm 31 d a 0 104

def mul (op : MulOp) (d a b : BitVec 8) : Word :=
  xForm 31 d a b <|
    match op with
    | .low => 235
    | .highSigned => 75
    | .highUnsigned => 11

def divw (d a b : BitVec 8) : Word := xForm 31 d a b 491

def divwu (d a b : BitVec 8) : Word := xForm 31 d a b 459

def bool (op : BoolOp) (a s b : BitVec 8) : Word :=
  xForm 31 s a b <|
    match op with
    | .and => 28
    | .andc => 60
    | .nor => 124
    | .eqv => 284
    | .xor => 316
    | .orc => 412
    | .or => 444
    | .nand => 476

def mr (a s : BitVec 8) : Word := bool .or a s s

def shift (left : Bool) (a s b : BitVec 8) : Word := xForm 31 s a b (if left then 24 else 536)

def sraw (a s b : BitVec 8) : Word := xForm 31 s a b 792

def srawi (a s sh : BitVec 8) : Word := xForm 31 s a (sh &&& 0x1F) 824

def unary (op : UnaryOp) (a s : BitVec 8) : Word :=
  xForm 31 s a 0 <|
    match op with
    | .extsb => 954
    | .extsh => 922
    | .cntlzw => 26

def compareReg (signed : Bool) (crf a b : BitVec 8) : Word :=
  xForm 31 (compareTarget crf) a b (if signed then 0 else 32)

def rlwinm (a s : BitVec 8) (sh mb me : BitVec 32) : Word := mForm 21 s a sh mb me

def rlwnm (a s b : BitVec 8) (mb me : BitVec 32) : Word := mForm 23 s a (b.setWidth 32) mb me

def rlwimi (a s : BitVec 8) (sh mb me : BitVec 32) : Word := mForm 20 s a sh mb me

/-! ## Floating-point forms -/

def floatArith (form : FpForm) (op : FpArith) (d a b c : BitVec 8) : Word :=
  let opcode : BitVec 6 :=
    match form with
    | .double => 63
    | .single => 59
    | .paired => 4
  aForm opcode d a b c <|
    match op with
    | .div => 18
    | .sub => 20
    | .add => 21
    | .mul => 25
    | .msub => 28
    | .madd => 29
    | .nmsub => 30
    | .nmadd => 31

/-- Arithmetic on two operands. A multiplication has its second operand in the third field. -/
def floatBinary (form : FpForm) (op : FpArith) (d a b : BitVec 8) : Word :=
  if op.usesB then floatArith form op d a b 0 else floatArith form op d a 0 b

def floatFused (form : FpForm) (op : FpArith) (d a c b : BitVec 8) : Word :=
  floatArith form op d a b c

def floatMove (packed : Bool) (op : FpMove) (d b : BitVec 8) : Word :=
  xForm (if packed then 4 else 63) d 0 b <|
    match op with
    | .mr => 72
    | .neg => 40
    | .abs => 264
    | .nabs => 136

def fsel (d a c b : BitVec 8) : Word := aForm 63 d a b c 23

def frsp (d b : BitVec 8) : Word := xForm 63 d 0 b 12

def fctiwz (d b : BitVec 8) : Word := xForm 63 d 0 b 15

def fres (d b : BitVec 8) : Word := aForm 59 d 0 b 0 24

def frsqrte (d b : BitVec 8) : Word := aForm 63 d 0 b 0 26

def fcmp (ordered : Bool) (crf a b : BitVec 8) : Word :=
  xForm 63 (compareTarget crf) a b (if ordered then 32 else 0)

/-! ## Words outside every family -/

def mfcr (d : BitVec 8) : Word := xForm 31 d 0 0 19

def mffs (d : BitVec 8) : Word := xForm 63 d 0 0 583

def lwz (d a : BitVec 8) (offset : BitVec 16) : Word := dForm 32 d a offset

end Recompiler.PowerPC.Assemble
