import Recompiler.PowerPC.Decode

/-!
# Hints

What is known about each instruction of a block from the instructions around it. Going backward, the
carry bit and the class of the last floating-point result are wanted when a later instruction, or
the code after the block, may look at them. Going forward, some floating-point registers are known
to hold exact singles. A word that is not decoded may read anything and change every
floating-point register.
-/

namespace Recompiler.Block

open PowerPC

structure Hints where
  wantsCa : Bool := true
  /-- It reads the carry bit, so the host carry flag is a good place for it. -/
  wantsCaInFlags : Bool := false
  wantsFprf : Bool := true
  /-- Registers that hold exact singles in both lanes. -/
  singles : BitVec 32 := 0
  /-- Registers whose lanes were last written by rounding to single. -/
  storeSafe : BitVec 32 := 0
  deriving DecidableEq

/-! ## Backward: what is wanted -/

structure Wanted where
  ca : Bool
  fprf : Bool
  deriving DecidableEq

namespace Wanted

def all : Wanted := ⟨true, true⟩

/-- What is wanted before an instruction, from what is wanted after it. A compare leaves one bit of
the result class as it was, so the class is still wanted before it. -/
def before (after : Wanted) : Option Op → Wanted
  | none => all
  | some op =>
    { ca := if op.writesCa then op.readsCa else after.ca
      fprf := after.fprf && !(op.writesFprf && !op.isFcmp) }

def scan : List Word → Wanted × List Wanted
  | [] => (all, [])
  | word :: words =>
    let (after, rest) := scan words
    (after.before (Op.decode word), after :: rest)

end Wanted

/-! ## Forward: what is single -/

structure Singles where
  single : BitVec 32
  safe : BitVec 32
  deriving DecidableEq

def withBit (mask : BitVec 32) (reg : GuestReg) (b : Bool) : BitVec 32 :=
  if b then mask ||| 1#32 <<< reg.val else mask &&& ~~~(1#32 <<< reg.val)

namespace Singles

def none : Singles := ⟨0, 0⟩

def update (known : Singles) (reg : GuestReg) (f : BitVec 32 → Bool) : Singles :=
  ⟨withBit known.single reg (f known.single), withBit known.safe reg (f known.safe)⟩

/-- What is known after a floating-point instruction. A reciprocal passes a NaN on with its whole
payload, so its result need not be single. -/
def afterFloat (known : Singles) (word : Word) : FloatOp → Singles
  | .arith .double _ | .fctiwz | .fres | .frsqrte => known.update word.rd fun _ => false
  | .arith .. | .frsp => known.update word.rd fun _ => true
  | .move true _ => known.update word.rd fun mask => mask.getLsbD word.rb.val
  | .move false _ =>
    known.update word.rd fun mask => mask.getLsbD word.rb.val && mask.getLsbD word.rd.val
  | .fsel =>
    known.update word.rd fun mask =>
      mask.getLsbD word.rb.val && mask.getLsbD word.frc.val && mask.getLsbD word.rd.val
  | .fcmp _ => known

def after (known : Singles) (word : Word) : Singles :=
  match Op.decode word with
  | .none => none
  | some (.int _) => known
  | some (.float op) => known.afterFloat word op

def scan (known : Singles) : List Word → List Singles
  | [] => []
  | word :: words => known :: (known.after word).scan words

end Singles

/-! ## Both together -/

def Hints.combine (word : Word) (wanted : Wanted) (known : Singles) : Hints where
  wantsCa := wanted.ca
  wantsCaInFlags := (Op.decode word).any Op.readsCa
  wantsFprf := wanted.fprf
  singles := known.single
  storeSafe := known.safe

def analyze (words : List Word) : List Hints :=
  let wanted := (Wanted.scan words).2
  let known := Singles.none.scan words
  (words.zip (wanted.zip known)).map fun (word, after, before) => .combine word after before

end Recompiler.Block
