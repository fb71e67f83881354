import Recompiler.Alloc.Slot

/-!
# The floating-point cache

Besides its binding, each floating-point slot has a precision: which of its lanes are known to be
exact singles. The precision of a value about to be written takes effect at the end of the
instruction, so that questions asked until then are about the operands.
-/

namespace Recompiler.Alloc

open Arm

/-- Which lanes of a register are known to be exact singles. -/
inductive Precision where
  | double
  | lowerSingle
  | bothSingle
  deriving DecidableEq

def Precision.isSingle : Precision → (lowerOnly : Bool) → Bool
  | .double, _ => false
  | .lowerSingle, lowerOnly => lowerOnly
  | .bothSingle, _ => true

structure Vectors where
  cache : Cache 32
  precision : Bank 32 Precision := .replicate 32 .double
  /-- The precision of values written by the current instruction. -/
  pending : Bank 32 (Option Precision) := .replicate 32 none

namespace Vectors

def new (order : List HostReg) : Vectors := { cache := .new .vector order }

def isSingle (vectors : Vectors) (reg : GuestReg) (lowerOnly : Bool) : Bool :=
  (vectors.precision.get reg).isSingle lowerOnly

def seedSingles (vectors : Vectors) (mask : BitVec 32) : Vectors :=
  { vectors with
    precision := (List.finRange 32).foldl
      (fun bank reg => if mask.getLsbD reg.val then bank.set reg .bothSingle else bank)
      vectors.precision }

def resetPrecision (vectors : Vectors) : Vectors :=
  { vectors with precision := .replicate 32 .double, pending := .replicate 32 none }

def setPending (vectors : Vectors) (reg : GuestReg) (precision : Precision) : Vectors :=
  { vectors with pending := vectors.pending.set reg (some precision) }

def allSingle (vectors : Vectors) (regs : List GuestReg) (lowerOnly : Bool) : Bool :=
  regs.all fun reg => vectors.isSingle reg lowerOnly

/-- Whether the registers of these numbers are all single; a number without a register is not. -/
def allNumberedSingle (vectors : Vectors) (numbers : List Nat) (lowerOnly : Bool) : Bool :=
  numbers.all fun n => if h : n < 32 then vectors.isSingle ⟨n, h⟩ lowerOnly else false

theorem allNumberedSingle_val (vectors : Vectors) (regs : List GuestReg) (lowerOnly : Bool) :
    vectors.allNumberedSingle (regs.map (·.val)) lowerOnly = vectors.allSingle regs lowerOnly := by
  simp [allNumberedSingle, allSingle, Function.comp_def]

def checkSingle (vectors : Vectors) (numbers : List Nat) (lowerOnly expected : Bool) :
    Except Fault Unit :=
  let actual := vectors.allNumberedSingle numbers lowerOnly
  if actual = expected then .ok () else .error (.precisionChanged numbers expected actual)

def commit (vectors : Vectors) : Vectors :=
  { vectors with
    precision := (List.finRange 32).foldl
      (fun bank reg =>
        match vectors.pending.get reg with
        | some precision => bank.set reg precision
        | none => bank)
      vectors.precision
    pending := .replicate 32 none }

def endInstruction (vectors : Vectors) : Except Fault Vectors :=
  match vectors.cache.endInstruction with
  | .error fault => .error fault
  | .ok cache => .ok { vectors with cache }.commit

end Vectors

end Recompiler.Alloc
