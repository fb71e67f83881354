import Recompiler.Arm.Machine
import Recompiler.Block.Compiler
import Recompiler.PowerPC.Difference

/-!
# Agreement with the interpreter

Running compiled blocks on the host machine, and comparing what they do with what the interpreter
does.
-/

namespace Recompiler.Block

open Arm PowerPC

/-- Run a block on a fresh machine. The state is what the machine left, also after a fault. -/
def CompiledBlock.run (block : CompiledBlock) (state : State) (flush : Bool)
    (interpreter : Interpreter) : State × Option Fault :=
  let (machine, fault) := Machine.run { state, flush, interpreter } block.code
  (machine.state, fault)

def compileStandard (config : Config) (words : List Word) : Except Fault CompiledBlock :=
  match Compiler.new config .standard with
  | .error fault => .error fault
  | .ok compiler => compiler.compile words none

def runWords (config : Config) (words : List Word) (state : State) (flush : Bool) :
    Except Fault (CompiledBlock × State) :=
  match compileStandard config words with
  | .error fault => .error fault
  | .ok block =>
    match block.run state flush { fprf := config.fprf } with
    | (_, some fault) => .error fault
    | (after, none) => .ok (block, after)

inductive Disagreement where
  | interpreterFailed (fault : Fault)
  | blockFailed (fault : Fault)
  | diverges (differences : List Difference)
  deriving DecidableEq

def quotedFault (fault : Fault) : String := fault.kind.name ++ "(\"" ++ fault.detail ++ "\")"

def Disagreement.headline : Disagreement → String
  | .interpreterFailed fault => "interpreter failed: " ++ quotedFault fault
  | .blockFailed fault => "compiled block failed: " ++ quotedFault fault
  | .diverges _ => "Translated block diverges from the interpreter:"

def checkAgreement (config : Config) (words : List Word) (state : State) :
    Except Disagreement CompiledBlock :=
  match Interpreter.run { fprf := config.fprf } state words with
  | .error fault => .error (.interpreterFailed fault)
  | .ok expected =>
    match runWords config words state false with
    | .error fault => .error (.blockFailed fault)
    | .ok (block, actual) =>
      match expected.differences actual with
      | [] => .ok block
      | differences => .error (.diverges differences)

end Recompiler.Block
