import Recompiler.Arm.Inst
import Recompiler.Fault

/-!
# Code buffers

Code is collected in two regions: near code, the body of a block, and far code, the rare paths that
stand behind it. Branches name labels; their offsets are filled in when the regions are laid out one
after the other.
-/

namespace Recompiler.Emit

open Arm

inductive Region where
  | near
  | far
  deriving DecidableEq

structure Position where
  region : Region
  index : Nat
  deriving DecidableEq

structure Fixup where
  branch : Position
  label : Nat
  deriving DecidableEq

structure CodeBuffer where
  near : Array Inst := #[]
  far : Array Inst := #[]
  region : Region := .near
  /-- The place of each label, once it has one. -/
  labels : Array (Option Position) := #[]
  fixups : Array Fixup := #[]

namespace CodeBuffer

def code (buffer : CodeBuffer) : Region → Array Inst
  | .near => buffer.near
  | .far => buffer.far

def here (buffer : CodeBuffer) : Position :=
  ⟨buffer.region, (buffer.code buffer.region).size⟩

def emit (buffer : CodeBuffer) (inst : Inst) : CodeBuffer :=
  match buffer.region with
  | .near => { buffer with near := buffer.near.push inst }
  | .far => { buffer with far := buffer.far.push inst }

def emitAll (buffer : CodeBuffer) (insts : List Inst) : CodeBuffer := insts.foldl emit buffer

def size (buffer : CodeBuffer) : Nat := buffer.near.size + buffer.far.size

def isEmpty (buffer : CodeBuffer) : Bool := buffer.size == 0

def switchTo (buffer : CodeBuffer) (region : Region) : CodeBuffer := { buffer with region }

def freshLabel (buffer : CodeBuffer) : Nat := buffer.labels.size

def addLabel (buffer : CodeBuffer) : CodeBuffer :=
  { buffer with labels := buffer.labels.push none }

def placeLabel (buffer : CodeBuffer) (label : Nat) : CodeBuffer :=
  { buffer with labels := buffer.labels.setIfInBounds label (some buffer.here) }

def branchTo (buffer : CodeBuffer) (inst : Inst) (label : Nat) : CodeBuffer :=
  { buffer with fixups := buffer.fixups.push ⟨buffer.here, label⟩ }.emit inst

/-! ## Layout -/

def place? (buffer : CodeBuffer) (label : Nat) : Option Position := buffer.labels[label]?.join

def finalIndex (buffer : CodeBuffer) (position : Position) : Nat :=
  match position.region with
  | .near => position.index
  | .far => buffer.near.size + position.index

def resolve (buffer : CodeBuffer) (code : Array Inst) (fixup : Fixup) :
    Except Fault (Array Inst) :=
  match buffer.place? fixup.label with
  | none => .error (.unresolvedLabel fixup.label)
  | some target =>
    let source := buffer.finalIndex fixup.branch
    let offset := (buffer.finalIndex target : Int) - (source : Int)
    match (code[source]?).bind (Inst.withOffset? offset) with
    | none => .error (.notABranch source)
    | some inst => .ok (code.setIfInBounds source inst)

/-- Near code followed by far code, with all branches resolved. -/
def finish (buffer : CodeBuffer) : Except Fault (Array Inst) :=
  buffer.fixups.toList.foldlM buffer.resolve (buffer.near ++ buffer.far)

end CodeBuffer

end Recompiler.Emit
