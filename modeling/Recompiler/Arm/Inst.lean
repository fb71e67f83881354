import Recompiler.Arm.Element
import Recompiler.Arm.Flags
import Recompiler.Arm.Routine

/-!
# Host instructions

The symbolic instructions that blocks are compiled to. Forms of 32 bits write the low word of their
destination and clear the high word. Register 31 reads as zero in every integer position. Branch
offsets count instructions from the branch itself.
-/

namespace Recompiler.Arm

inductive UnaryOp where
  | mov32
  | mov64
  | mvn32
  | neg32
  | sxtb32
  | sxth32
  | sxtw64
  | clz32
  deriving DecidableEq

inductive BinaryOp where
  | add32
  | sub32
  | sub64
  | mul32
  | smull
  | umull
  | sdiv32
  | udiv32
  | and32
  | orr32
  | orr64
  | eor32
  | bic32
  | orn32
  | eon32
  | lslv64
  | lsrv64
  | asrv64
  | rorv32
  deriving DecidableEq

inductive FlagOp where
  | adds
  | subs
  | ands
  deriving DecidableEq

inductive ImmOp where
  | add
  | and
  | orr
  | eor
  deriving DecidableEq

inductive ShiftOp where
  | lsl32
  | lsr32
  | asr32
  | ror32
  | lsl64
  | lsr64
  deriving DecidableEq

inductive FieldOp where
  | ubfx
  | ubfiz
  | bfi
  | bfxil
  deriving DecidableEq

inductive TestOp where
  | cmp
  | cmn
  | tst
  deriving DecidableEq

inductive TestImmOp where
  | cmp
  | cmn
  deriving DecidableEq

inductive MemSize where
  | byte
  | word
  | double
  deriving DecidableEq

inductive FpOp where
  | add
  | sub
  | mul
  | div
  deriving DecidableEq

/-- Fused arithmetic on the operands `n`, `m` and `a`. -/
inductive FusedOp where
  | fmadd
  | fmsub
  | fnmadd
  | fnmsub
  deriving DecidableEq

inductive FpUnary where
  | neg
  | abs
  | roundSingle
  deriving DecidableEq

/-- A conversion between singles and doubles within a vector register. -/
inductive CvtOp where
  | widen
  | narrow
  | widenPair
  | narrowPair
  deriving DecidableEq

inductive Inst where
  | movImm32 (dst : HostReg) (value : BitVec 32)
  | movImm64 (dst : HostReg) (value : BitVec 64)
  | unary (op : UnaryOp) (dst src : HostReg)
  | binary (op : BinaryOp) (dst a b : HostReg)
  | setFlags (op : FlagOp) (dst a b : HostReg)
  | adc32 (dst a b : HostReg)
  | adcs32 (dst a b : HostReg)
  | imm32 (op : ImmOp) (dst src : HostReg) (value : BitVec 32)
  | addsImm32 (dst src : HostReg) (value : BitVec 32)
  | addImm64 (dst src : HostReg) (value : BitVec 64)
  | negs32 (dst src : HostReg)
  | andRor32 (dst a b : HostReg) (rotate : Nat)
  | shift (op : ShiftOp) (dst src : HostReg) (amount : Nat)
  | bitfield (op : FieldOp) (dst src : HostReg) (lsb width : Nat)
  | test (op : TestOp) (a b : HostReg)
  | testImm (op : TestImmOp) (src : HostReg) (value : BitVec 32)
  | cset32 (dst : HostReg) (cond : Cond)
  | csel32 (dst a b : HostReg) (cond : Cond)
  | load (size : MemSize) (dst base : HostReg) (offset : BitVec 32)
  | store (size : MemSize) (src base : HostReg) (offset : BitVec 32)
  | loadVector (dst base : HostReg) (offset : BitVec 32)
  | storeVector (src base : HostReg) (offset : BitVec 32)
  | branch (offset : Int)
  | branchIf (cond : Cond) (offset : Int)
  | branchIfZero (reg : HostReg) (offset : Int)
  | call (routine : Routine)
  | push (regs : RegSet)
  | pop (regs : RegSet)
  | interpret (word : BitVec 32)
  | exit
  | farith (op : FpOp) (lanes : Lanes) (dst a b : HostReg)
  | ffused (op : FusedOp) (lanes : Lanes) (dst n m a : HostReg)
  | funary (op : FpUnary) (lanes : Lanes) (dst src : HostReg)
  | fcmp (a : HostReg) (b : Option HostReg)
  | fcmpSingle (src : HostReg)
  | fabsSingle (dst src : HostReg)
  | fcsel (dst a b : HostReg) (cond : Cond)
  | fcvt (op : CvtOp) (dst src : HostReg)
  | fcvtzs (dst src : HostReg)
  | fmovToGeneral (size : ElemSize) (dst src : HostReg)
  | fmovFromGeneral (size : ElemSize) (dst src : HostReg)
  | umov (size : ElemSize) (dst src : HostReg) (index : Nat)
  | insGeneral (size : ElemSize) (dst : HostReg) (index : Nat) (src : HostReg)
  | insElement (size : ElemSize) (dst : HostReg) (dstIndex : Nat) (src : HostReg) (srcIndex : Nat)
  | dup (dst src : HostReg)
  | vmov (dst src : HostReg)
  | vmovImm (dst : HostReg) (value : BitVec 64)
  | vand (dst a b : HostReg)
  | vadd64 (lanes : Lanes) (dst a b : HostReg)
  | facgtSingle (dst a b : HostReg)
  deriving DecidableEq

namespace Inst

def isTerminating : Inst → Bool
  | .branch _ | .exit => true
  | _ => false

def isBranch : Inst → Bool
  | .branch _ | .branchIf .. | .branchIfZero .. => true
  | _ => false

def branchOffset? : Inst → Option Int
  | .branch offset | .branchIf _ offset | .branchIfZero _ offset => some offset
  | _ => none

def withOffset? (offset : Int) : Inst → Option Inst
  | .branch _ => some (.branch offset)
  | .branchIf cond _ => some (.branchIf cond offset)
  | .branchIfZero reg _ => some (.branchIfZero reg offset)
  | _ => none

def writesFlags : Inst → Bool
  | .setFlags .. | .adcs32 .. | .addsImm32 .. | .negs32 .. | .test .. | .testImm .. | .fcmp ..
  | .fcmpSingle _ | .call _ | .interpret _ => true
  | _ => false

def target? : Inst → Option HostReg
  | .movImm32 dst _ | .movImm64 dst _ | .unary _ dst _ | .binary _ dst _ _ | .setFlags _ dst _ _
  | .adc32 dst _ _ | .adcs32 dst _ _ | .imm32 _ dst _ _ | .addsImm32 dst _ _ | .addImm64 dst _ _
  | .negs32 dst _ | .andRor32 dst _ _ _ | .shift _ dst _ _ | .bitfield _ dst _ _ _
  | .cset32 dst _ | .csel32 dst _ _ _ | .load _ dst _ _ | .fcvtzs dst _
  | .fmovToGeneral _ dst _ | .umov _ dst _ _ => some dst
  | _ => none

end Inst

end Recompiler.Arm
