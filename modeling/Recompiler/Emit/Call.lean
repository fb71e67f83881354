import Recompiler.Emit.CarryBit

/-!
# Calls of support routines

The argument and result registers of a routine are locked before the operands of the instruction are
bound. Each call then saves the registers in use that the routine destroys. A call may be emitted
more than once, and in either region, until the registers are unlocked.
-/

namespace Recompiler.Emit

open Alloc Arm

structure PreparedCall where
  routine : Routine
  locked : RegSet

def passedIn (convention : Convention) : RegSet :=
  let arg := RegSet.empty.insert convention.arg
  match convention.result with
  | some result => arg.insert result
  | none => arg

def prepareCall (routine : Routine) : EmitM PreparedCall := do
  let locked := passedIn routine.convention
  lockRegs locked
  return ⟨routine, locked⟩

def PreparedCall.saved (call : PreparedCall) (cache : Cache 40) : RegSet :=
  (cache.callerSavedInUse.inter call.routine.convention.clobbers).sdiff call.locked

def PreparedCall.code (call : PreparedCall) (saved : RegSet) (setup teardown : List Inst) :
    List Inst :=
  (if saved.isEmpty then [] else [.push saved]) ++ setup ++ [.call call.routine] ++ teardown ++
    (if saved.isEmpty then [] else [.pop saved])

def emitCall (call : PreparedCall) (setup teardown : List Inst) : EmitM Unit :=
  modify fun e =>
    { e with
      code := e.code.emitAll (call.code (call.saved e.integers) setup teardown)
      stats := { e.stats with helperCalls := e.stats.helperCalls + 1 } }

def finishCall (call : PreparedCall) : EmitM Unit := unlockRegs call.locked

/-- Note the class of the result in the lower lane of a vector register, if somebody looks at it. -/
def updateClass (vector : HostReg) (single : Bool) : EmitM Unit := do
  let e ← get
  if e.config.fprf && e.hints.wantsFprf then
    let routine : Routine := if single then .fprfSingle else .fprfDouble
    let call ← prepareCall routine
    emitCall call [.fmovToGeneral .double routine.convention.arg vector] []
    finishCall call

end Recompiler.Emit
