import Recompiler.Lower.Operand

/-!
# Reciprocals

Both reciprocals are computed by support routines.
-/

namespace Recompiler.Lower

open Alloc Arm Emit PowerPC

def resultReg (routine : Routine) : HostReg := routine.convention.result.getD routine.convention.arg

/-- Pass the lower lane of the operand through a routine. The code that takes the result is given as
a function of the destination and the result register. -/
def callOnLane (routine : Routine) (keep : Bool) (take : HostReg → HostReg → Inst) :
    EmitM HostReg := do
  let word ← currentWord
  let call ← prepareCall routine
  let src ← readFpr word.rb
  let dst ← writeFpr word.rd keep .double
  emitCall call [.fmovToGeneral .double routine.convention.arg src]
    [take dst (resultReg routine)]
  finishCall call
  return dst

def fres : EmitM Unit := do
  flushCarry
  let dst ← callOnLane .fres false fun dst result => .fmovFromGeneral .double dst result
  emit (.dup dst dst)
  updateClass dst true

def frsqrte : EmitM Unit := do
  flushCarry
  let dst ← callOnLane .frsqrte true fun dst result => .insGeneral .double dst 0 result
  updateClass dst false

end Recompiler.Lower
