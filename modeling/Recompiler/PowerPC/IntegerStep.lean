import Recompiler.Arithmetic
import Recompiler.PowerPC.Decode
import Recompiler.PowerPC.State

/-!
# Integer instructions

The result of each integer instruction as a function of its operands, and its effect on the state.
Record forms and compares leave the SO bit of the condition field clear.
-/

namespace Recompiler.PowerPC

/-- What an integer instruction computes. The overflow is `none` where the instruction leaves the
overflow bits alone, whatever the overflow-enable bit. -/
structure IntResult where
  value : BitVec 32
  carry : Option Bool := none
  overflow : Option Bool := none
  deriving DecidableEq

namespace IntResult

def carrying (sum : CarrySum) : IntResult := { value := sum.value, carry := some sum.carry }

def ofSum (sum : CarrySum) : IntResult := ⟨sum.value, some sum.carry, some sum.overflow⟩

end IntResult

def ImmLogic.apply (op : ImmLogic) (s imm : BitVec 32) : BitVec 32 :=
  match op with
  | .or => s ||| imm
  | .xor => s ^^^ imm
  | .and => s &&& imm

def UnaryOp.apply (op : UnaryOp) (s : BitVec 32) : BitVec 32 :=
  match op with
  | .extsb => (s.setWidth 8).signExtend 32
  | .extsh => (s.setWidth 16).signExtend 32
  | .cntlzw => s.clz

def MulOp.apply (op : MulOp) (a b : BitVec 32) : BitVec 32 :=
  match op with
  | .low => (a.signExtend 64 * b.signExtend 64).setWidth 32
  | .highSigned => ((a.signExtend 64 * b.signExtend 64).sshiftRight 32).setWidth 32
  | .highUnsigned => ((a.setWidth 64 * b.setWidth 64) >>> 32).setWidth 32

/-- The signed quotient, and whether it is undefined: division by zero and of the smallest word by
minus one give the sign of the dividend in every bit. -/
def signedQuotient (a b : BitVec 32) : BitVec 32 × Bool :=
  if b = 0 ∨ (a = BitVec.intMin 32 ∧ b = BitVec.allOnes 32) then (a.sshiftRight 31, true)
  else (a.sdiv b, false)

def unsignedQuotient (a b : BitVec 32) : BitVec 32 × Bool := (a / b, b = 0)

/-- An arithmetic right shift by less than 64, and whether a negative operand lost a one. -/
def shiftAlgebraic (s : BitVec 32) (n : Nat) : BitVec 32 × Bool :=
  (s.sshiftRight n, s.msb && s.toNat % (1 <<< min n 32) ≠ 0)

/-- A shift by the low six bits of `b`; 32 and more shift everything out. -/
def shiftLogical (left : Bool) (s b : BitVec 32) : BitVec 32 :=
  let n := b.toNat % 64
  if left then s <<< n else s >>> n

def shiftedImm (shifted : Bool) (imm : BitVec 32) : BitVec 32 :=
  if shifted then imm <<< 16 else imm

def insertUnderMask (mask inserted kept : BitVec 32) : BitVec 32 :=
  (inserted &&& mask) ||| (kept &&& ~~~mask)

namespace IntOp

/-- The register that an instruction writes. Logical, shift and rotate forms write their second
field; compares write none. -/
def target (op : IntOp) (word : Word) : Option GuestReg :=
  match op with
  | .compare .. => none
  | .logicImm .. | .rlwimi | .rlwinm | .rlwnm | .shift _ | .sraw | .srawi | .bool _ | .unary _ =>
    some word.ra
  | _ => some word.rd

/-- The result of an instruction on the values of its registers and the carry. Compares have
none. -/
def result (op : IntOp) (word : Word) (a b s : BitVec 32) (ca : Bool) : IntResult :=
  match op with
  | .addImm shifted =>
    { value := (if word.ra = 0 then 0 else a) + shiftedImm shifted word.simm }
  | .addCarryingImm _ => .carrying (addWithCarry a word.simm false)
  | .subfic => .carrying (addWithCarry (~~~a) word.simm true)
  | .mulli => { value := a * word.simm }
  | .logicImm op shifted => { value := op.apply s (shiftedImm shifted word.uimm) }
  | .compare .. => { value := 0 }
  | .rlwinm => { value := s.rotateLeft word.sh &&& rotationMask word.mb word.me }
  | .rlwnm => { value := s.rotateLeft (b.toNat % 32) &&& rotationMask word.mb word.me }
  | .rlwimi =>
    { value := insertUnderMask (rotationMask word.mb word.me) (s.rotateLeft word.sh) a }
  | .shift left => { value := shiftLogical left s b }
  | .sraw =>
    let (value, carry) := shiftAlgebraic s (b.toNat % 64)
    { value, carry := some carry }
  | .srawi =>
    let (value, carry) := shiftAlgebraic s word.sh
    { value, carry := some carry }
  | .bool op => { value := op.apply s b }
  | .unary op => { value := op.apply s }
  | .add =>
    let sum := addWithCarry a b false
    { value := sum.value, overflow := some sum.overflow }
  | .addc => .ofSum (addWithCarry a b false)
  | .addExtended inverted second =>
    .ofSum (addWithCarry (if inverted then ~~~a else a) (if second then b else 0) ca)
  | .subf =>
    let sum := addWithCarry (~~~a) b true
    { value := sum.value, overflow := some sum.overflow }
  | .subfc => .ofSum (addWithCarry (~~~a) b true)
  | .neg => { value := -a, overflow := some (a = BitVec.intMin 32) }
  | .mul op =>
    let lost := a.toInt * b.toInt ≠ (a * b).toInt
    { value := op.apply a b, overflow := some (op = .low ∧ lost) }
  | .divw =>
    let (value, undefined) := signedQuotient a b
    { value, overflow := some undefined }
  | .divwu =>
    let (value, undefined) := unsignedQuotient a b
    { value, overflow := some undefined }

def compareOperand (word : Word) (signed immediate : Bool) (b : BitVec 32) : BitVec 32 :=
  match immediate, signed with
  | true, true => word.simm
  | true, false => word.uimm
  | false, _ => b

end IntOp

def compareWords (signed : Bool) (a b : BitVec 32) : Ordering :=
  if signed then compare a.toInt b.toInt else compare a.toNat b.toNat

namespace State

/-- Summary overflow sticks; overflow is replaced. -/
def recordOverflow (state : State) (overflow : Bool) : State :=
  state.setXerSoOv (if overflow then 3 else state.xerSoOv &&& 2)

def writeCarry (state : State) : Option Bool → State
  | some carry => state.setXerCa carry
  | none => state

def writeResult (state : State) (reg : GuestReg) (result : IntResult) (oe record : Bool) : State :=
  let state :=
    match result.overflow with
    | some overflow => if oe then state.recordOverflow overflow else state
    | none => state
  let state := (state.setGpr reg result.value).writeCarry result.carry
  if record then state.setCrField 0 (Condition.ofSign result.value) else state

def stepInteger (state : State) (word : Word) (op : IntOp) : State :=
  let a := state.gpr word.ra
  let b := state.gpr word.rb
  match op with
  | .compare signed immediate =>
    state.setCrField word.crfd
      (Condition.ofOrdering
        (compareWords signed a (IntOp.compareOperand word signed immediate b)))
  | _ =>
    match op.target word with
    | some reg =>
      state.writeResult reg (op.result word a b (state.gpr word.rd) state.xerCa)
        word.oe (op.records word.rc)
    | none => state

end State

end Recompiler.PowerPC
