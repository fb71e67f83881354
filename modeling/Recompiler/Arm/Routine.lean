import Recompiler.Arm.Roles
import Recompiler.Ieee.ResultClass
import Recompiler.PowerPC.State
import Recompiler.PowerPC.Status

/-!
# Support routines

Routines that compiled code calls for what it does not do inline. Each has its own register
convention: one argument, at most one result, and the registers it destroys.
-/

namespace Recompiler.Arm

open Ieee PowerPC

inductive Routine where
  | fprfSingle
  | fprfDouble
  | fres
  | frsqrte
  | singleToDouble
  | doubleToSingle
  deriving DecidableEq

structure Convention where
  arg : HostReg
  result : Option HostReg
  /-- Registers whose contents do not survive the call, the result among them. -/
  clobbers : RegSet
  deriving DecidableEq

namespace Routine

def name : Routine → String
  | .fprfSingle => "fprf_single"
  | .fprfDouble => "fprf_double"
  | .fres => "fres"
  | .frsqrte => "frsqrte"
  | .singleToDouble => "cstd"
  | .doubleToSingle => "cdts"

def convention : Routine → Convention
  | .fprfSingle | .fprfDouble => ⟨0, none, RegSet.ofList [0, 1, 2, 3, 4, 30]⟩
  | .fres | .frsqrte => ⟨1, some 0, RegSet.ofList [0, 1, 2, 3, 4, 30]⟩
  | .doubleToSingle => ⟨0, some 1, RegSet.ofList [0, 1, 2, 3, 30]⟩
  | .singleToDouble => ⟨0, some 1, RegSet.ofList [0, 1, 2, 3, 4, 30]⟩

/-- The value of the result register for a value of the argument register, if there is a result. -/
def value (routine : Routine) (arg : BitVec 64) : Option (BitVec 64) :=
  match routine with
  | .fprfSingle | .fprfDouble => none
  | .fres => some (Double.reciprocal arg)
  | .frsqrte => some (Double.reciprocalSqrt arg)
  | .singleToDouble => some (Single.load (arg.setWidth 32))
  | .doubleToSingle => some ((Single.store arg).setWidth 64)

def effect (routine : Routine) (arg : BitVec 64) (state : State) : State :=
  match routine with
  | .fprfSingle => state.setFpscr (Status.withClass state.fpscr (Double.classifyAs arg true))
  | .fprfDouble => state.setFpscr (Status.withClass state.fpscr (Double.classifyAs arg false))
  | _ => state

end Routine

end Recompiler.Arm
