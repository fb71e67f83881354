import Recompiler.Lower.Add
import Recompiler.Lower.AddExtended
import Recompiler.Lower.Compare
import Recompiler.Lower.Conversion
import Recompiler.Lower.FloatArith
import Recompiler.Lower.FloatCompare
import Recompiler.Lower.FloatMove
import Recompiler.Lower.Logical
import Recompiler.Lower.Multiply
import Recompiler.Lower.Reciprocal
import Recompiler.Lower.Rotate
import Recompiler.Lower.Shift

/-!
# Lowering by family
-/

namespace Recompiler.Lower

open Emit PowerPC

def lowerInteger : IntOp → EmitM Unit
  | .addImm shifted => addImm shifted
  | .addCarryingImm recording => addCarryingImm recording
  | .subfic => subfic
  | .mulli => mulli
  | .logicImm op shifted => logicImm op shifted
  | .compare signed immediate => integerCompare signed immediate
  | .rlwimi => rlwimi
  | .rlwinm => rlwinm
  | .rlwnm => rlwnm
  | .shift left => shift left
  | .sraw => sraw
  | .srawi => srawi
  | .bool op => bool op
  | .unary op => unary op
  | .add => add
  | .addc => addc
  | .addExtended inverted second => addExtended inverted second
  | .subf => subf
  | .subfc => subfc
  | .neg => neg
  | .mul op => mul op
  | .divw => divw
  | .divwu => divwu

def lowerFloat : FloatOp → EmitM Unit
  | .arith form op => floatArith form op
  | .move packed op => floatMove packed op
  | .fsel => fsel
  | .frsp => frsp
  | .fctiwz => fctiwz
  | .fres => fres
  | .frsqrte => frsqrte
  | .fcmp _ => floatCompare

def lower : Op → EmitM Unit
  | .int op => lowerInteger op
  | .float op => lowerFloat op

end Recompiler.Lower
