import Recompiler.PowerPC.Op
import Recompiler.Register

/-!
# Compiler settings
-/

namespace Recompiler.Block

open PowerPC

structure Config where
  integerDisabled : Bool := false
  floatingPointDisabled : Bool := false
  /-- Keep the class of floating-point results in the status word. -/
  fprf : Bool := false
  /-- Leave the carry bit in the host carry flag as long as the next instruction wants it there. -/
  lazyCarry : Bool := true
  /-- Convert between singles and doubles by routine only, without the inline path. -/
  exactConversions : Bool := false
  generalPool : Option (List HostReg) := none
  vectorPool : Option (List HostReg) := none
  deriving DecidableEq

def Config.disabled (config : Config) : OpClass → Bool
  | .integer => config.integerDisabled
  | .floatingPoint => config.floatingPointDisabled

end Recompiler.Block
