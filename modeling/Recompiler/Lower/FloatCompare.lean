import Recompiler.Lower.Operand
import Recompiler.PowerPC.Condition
import Recompiler.PowerPC.Status

/-!
# Floating-point compares

The near code writes the outcome "equal"; the other outcomes are written by far code.
-/

namespace Recompiler.Lower

open Alloc Arm Emit PowerPC

def outcomeCode (field : HostReg) (status : Option HostReg) (bits : BitVec 4) : List Inst :=
  .movImm64 field (Condition.encode bits) ::
    match status with
    | some reg => [.imm32 .orr reg reg (bits.setWidth 32 <<< Status.classShift)]
    | none => []

/-- The outcomes other than "equal" with the conditions that lead to them. Compared with itself, a
register is equal or unordered. -/
def otherOutcomes (same : Bool) : List (Cond × BitVec 4) :=
  if same then [(.vs, Condition.so)]
  else [(.gt, Condition.gt), (.mi, Condition.lt), (.vs, Condition.so)]

/-- A scratch register that holds the status word without the outcome of the last compare, if the
outcome is to be kept there. -/
def scratchStatus (keep : Bool) : EmitM (Option HostReg) := do
  if keep then
    let temp ← scratch
    emit (.load .word temp stateReg (← get).layout.fpscr)
    emit (.imm32 .and temp temp (~~~Status.compareMask))
    return some temp
  else return none

def branchToOutcomes : List (Cond × BitVec 4) → EmitM (List (Nat × BitVec 4))
  | [] => return []
  | (cond, bits) :: rest => do
    let label ← newLabel
    branchTo (.branchIf cond 0) label
    return (label, bits) :: (← branchToOutcomes rest)

def placeOutcomes (field : HostReg) (status : Option HostReg) (done : Nat) :
    List (Nat × BitVec 4) → EmitM Unit
  | [] => return ()
  | (label, bits) :: rest => do
    placeLabel label
    emitAll (outcomeCode field status bits)
    branchTo (.branch 0) done
    placeOutcomes field status done rest

def floatCompare : EmitM Unit := do
  flushCarry
  let e ← get
  let word := e.word
  let a ← readFpr word.ra
  let b ← readFpr word.rb
  let field ← writeCr word.crfd
  let status ← scratchStatus (e.config.fprf && e.hints.wantsFprf)
  emit (.fcmp a (some b))
  let done ← newLabel
  let targets ← branchToOutcomes (otherOutcomes (word.ra = word.rb))
  emitAll (outcomeCode field status Condition.eq)
  placeLabel done
  match status with
  | some reg => emit (.store .word reg stateReg e.layout.fpscr)
  | none => pure ()
  switchTo .far
  placeOutcomes field status done targets
  switchTo .near
  releaseHeld status

end Recompiler.Lower
