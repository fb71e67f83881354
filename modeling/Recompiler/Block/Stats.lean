/-!
# Statistics of a block
-/

namespace Recompiler.Block

structure Stats where
  guestCount : Nat := 0
  lowered : Nat := 0
  deferred : Nat := 0
  hostInstructions : Nat := 0
  constantFolds : Nat := 0
  spills : Nat := 0
  helperCalls : Nat := 0
  carryFlushes : Nat := 0
  deriving DecidableEq

end Recompiler.Block
