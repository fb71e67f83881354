import Recompiler.Arm.Inst

/-!
# Instruction patterns

Descriptions of instructions with some fields left open, and the search for a run of instructions
that fits a list of them.
-/

namespace Recompiler.Arm

/-- What a field has to be; `none` leaves it open. -/
abbrev Want (α : Type) := Option α

def Want.fits {α : Type} [DecidableEq α] (want : Want α) (value : α) : Bool :=
  match want with
  | none => true
  | some expected => value = expected

inductive Pattern where
  | any
  | satisfying (test : Inst → Bool)
  | movImm32 (dst : Want HostReg) (value : Want (BitVec 32))
  | add32 (dst a b : Want HostReg)
  | adds32 (dst a b : Want HostReg)
  | adc32 (dst a b : Want HostReg)
  | adcs32 (dst a b : Want HostReg)
  | subs32 (dst a b : Want HostReg)
  | addsImm32 (dst src : Want HostReg) (value : Want (BitVec 32))
  | cset32 (dst : Want HostReg) (cond : Want Cond)
  | loadByte (dst : Want HostReg) (offset : Want (BitVec 32))
  | storeByte (src : Want HostReg) (offset : Want (BitVec 32))
  | storeWord (src : Want HostReg) (offset : Want (BitVec 32))
  | branchIf (cond : Want Cond)
  | call (routine : Want Routine)
  | interpret (word : Want (BitVec 32))
  | farith (op : Want FpOp) (lanes : Want Lanes)
  | ffused (op : Want FusedOp) (lanes : Want Lanes)
  | roundSingle (lanes : Want Lanes)
  | exit

namespace Pattern

def fits3 (dst a b : Want HostReg) (dst' a' b' : HostReg) : Bool :=
  dst.fits dst' && a.fits a' && b.fits b'

def fits : Pattern → Inst → Bool
  | .any, _ => true
  | .satisfying test, inst => test inst
  | .movImm32 dst value, .movImm32 dst' value' => dst.fits dst' && value.fits value'
  | .add32 dst a b, .binary .add32 dst' a' b' => fits3 dst a b dst' a' b'
  | .adds32 dst a b, .setFlags .adds dst' a' b' => fits3 dst a b dst' a' b'
  | .adc32 dst a b, .adc32 dst' a' b' => fits3 dst a b dst' a' b'
  | .adcs32 dst a b, .adcs32 dst' a' b' => fits3 dst a b dst' a' b'
  | .subs32 dst a b, .setFlags .subs dst' a' b' => fits3 dst a b dst' a' b'
  | .addsImm32 dst src value, .addsImm32 dst' src' value' =>
    dst.fits dst' && src.fits src' && value.fits value'
  | .cset32 dst cond, .cset32 dst' cond' => dst.fits dst' && cond.fits cond'
  | .loadByte dst offset, .load .byte dst' _ offset' => dst.fits dst' && offset.fits offset'
  | .storeByte src offset, .store .byte src' _ offset' => src.fits src' && offset.fits offset'
  | .storeWord src offset, .store .word src' _ offset' => src.fits src' && offset.fits offset'
  | .branchIf cond, .branchIf cond' _ => cond.fits cond'
  | .call routine, .call routine' => routine.fits routine'
  | .interpret word, .interpret word' => word.fits word'
  | .farith op lanes, .farith op' lanes' _ _ _ => op.fits op' && lanes.fits lanes'
  | .ffused op lanes, .ffused op' lanes' _ _ _ _ => op.fits op' && lanes.fits lanes'
  | .roundSingle lanes, .funary .roundSingle lanes' _ _ => lanes.fits lanes'
  | .exit, .exit => true
  | _, _ => false

def fitsStart : List Pattern → List Inst → Bool
  | [], _ => true
  | _ :: _, [] => false
  | pattern :: patterns, inst :: code => pattern.fits inst && fitsStart patterns code

def find? (patterns : List Pattern) : List Inst → Option Nat
  | [] => if patterns.isEmpty then some 0 else none
  | inst :: code =>
    if fitsStart patterns (inst :: code) then some 0 else (find? patterns code).map (· + 1)

def count (pattern : Pattern) (code : List Inst) : Nat := code.countP pattern.fits

inductive Mismatch where
  | notFound
  | count (patterns insts : Nat)
  | differs (index : Nat)
  deriving DecidableEq

def Mismatch.text : Mismatch → String
  | .notFound => "Pattern not found in instruction sequence."
  | .count patterns insts => s!"Instruction count mismatch: expected {patterns}, got {insts}."
  | .differs index => s!"Instruction mismatch at index {index}:"

def search (patterns : List Pattern) (code : List Inst) : Except Mismatch Unit :=
  if (find? patterns code).isSome then .ok () else .error .notFound

def describe (patterns : List Pattern) (code : List Inst) : Except Mismatch Unit :=
  if patterns.length ≠ code.length then .error (.count patterns.length code.length)
  else
    match (code.zip patterns).findIdx? fun (inst, pattern) => !pattern.fits inst with
    | some index => .error (.differs index)
    | none => .ok ()

end Pattern

end Recompiler.Arm
