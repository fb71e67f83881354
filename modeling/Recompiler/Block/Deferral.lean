import Recompiler.Block.Config
import Recompiler.PowerPC.Decode

/-!
# Deferral

Which words a block leaves to the interpreter, and why. The decision depends on the word and the
settings only, so it is made before any code is emitted for the word.
-/

namespace Recompiler.Block

open PowerPC

/-- Why a word is left to the interpreter. -/
inductive Deferral where
  | overflowEnable
  | recordFloat
  | disabled (cls : OpClass)
  | unimplemented
  deriving DecidableEq

def Deferral.text : Deferral → String
  | .overflowEnable => "overflow-enable variant"
  | .recordFloat => "floating-point record form"
  | .disabled .integer => "integer translation disabled"
  | .disabled .floatingPoint => "floating-point translation disabled"
  | .unimplemented => "unimplemented"

def Config.opDeferral? (config : Config) (word : Word) (op : Op) : Option Deferral :=
  if config.disabled op.opClass then some (.disabled op.opClass)
  else if op.hasOe && word.oe then some .overflowEnable
  else if op.opClass = .floatingPoint ∧ word.rc ∧ !op.isFcmp then some .recordFloat
  else none

def Config.deferral? (config : Config) (word : Word) : Option Deferral :=
  match Op.decode word with
  | some op => config.opDeferral? word op
  | none => some .unimplemented

end Recompiler.Block
