import Recompiler.PowerPC.FloatStep
import Recompiler.PowerPC.IntegerStep

/-!
# The interpreter

Executes words on the guest state one at a time. Besides the families that are compiled it
knows the overflow-enable variants, the floating-point record forms, and two words outside every
family: reading the condition register and reading the status word.
-/

namespace Recompiler.PowerPC

structure Interpreter where
  fprf : Bool := false
  deriving DecidableEq

def State.conditionWord (state : State) : BitVec 32 :=
  (List.range 8).foldl
    (fun word field => word ||| ((state.crField field).setWidth 32 <<< (28 - 4 * field))) 0

namespace Interpreter

def stepOp (interpreter : Interpreter) (state : State) (word : Word) : Op → State
  | .int op => state.stepInteger word op
  | .float op =>
    let state := state.stepFloat interpreter.fprf word op
    if word.rc && !op.isCompare then state.recordFloat else state

/-- Execute a word outside every family. -/
def stepOther (state : State) (word : Word) : Except Fault State :=
  if word.opcode = 31 ∧ word.subop10 = 19 then
    .ok (state.setGpr word.rd state.conditionWord)
  else if word.opcode = 63 ∧ word.subop10 = 583 then
    let state := state.setPs0 word.rd (wordInDouble state.fpscr)
    .ok (if word.rc then state.recordFloat else state)
  else .error (.noInterpreter word)

def step (interpreter : Interpreter) (state : State) (word : Word) : Except Fault State :=
  match Op.decode word with
  | some op => .ok (interpreter.stepOp state word op)
  | none => stepOther state word

def run (interpreter : Interpreter) (state : State) : List Word → Except Fault State
  | [] => .ok state
  | word :: words =>
    match interpreter.step state word with
    | .ok state => interpreter.run state words
    | .error fault => .error fault

end Interpreter

end Recompiler.PowerPC
