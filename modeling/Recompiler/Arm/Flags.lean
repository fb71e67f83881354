/-!
# Flags and conditions

The four condition flags of the host and the conditions that branches and selections test.
-/

namespace Recompiler.Arm

/-- Negative, zero, carry, overflow. -/
structure Flags where
  n : Bool := false
  z : Bool := false
  c : Bool := false
  v : Bool := false
  deriving DecidableEq

namespace Flags

def toNat (flags : Flags) : Nat :=
  8 * flags.n.toNat + 4 * flags.z.toNat + 2 * flags.c.toNat + flags.v.toNat

def ofNat (bits : Nat) : Flags :=
  ⟨bits.testBit 3, bits.testBit 2, bits.testBit 1, bits.testBit 0⟩

def ofLogical (result : BitVec 32) : Flags := { n := result.msb, z := result == 0 }

def ofComparison : Option Ordering → Flags
  | none => { c := true, v := true }
  | some .eq => { z := true, c := true }
  | some .lt => { n := true }
  | some .gt => { c := true }

end Flags

inductive Cond where
  | eq
  | ne
  | cs
  | cc
  | mi
  | pl
  | vs
  | vc
  | hi
  | ls
  | ge
  | lt
  | gt
  | le
  deriving DecidableEq

namespace Cond

def holds (cond : Cond) (flags : Flags) : Bool :=
  match cond with
  | .eq => flags.z
  | .ne => !flags.z
  | .cs => flags.c
  | .cc => !flags.c
  | .mi => flags.n
  | .pl => !flags.n
  | .vs => flags.v
  | .vc => !flags.v
  | .hi => flags.c && !flags.z
  | .ls => !flags.c || flags.z
  | .ge => flags.n == flags.v
  | .lt => flags.n != flags.v
  | .gt => !flags.z && flags.n == flags.v
  | .le => flags.z || flags.n != flags.v

def invert : Cond → Cond
  | .eq => .ne
  | .ne => .eq
  | .cs => .cc
  | .cc => .cs
  | .mi => .pl
  | .pl => .mi
  | .vs => .vc
  | .vc => .vs
  | .hi => .ls
  | .ls => .hi
  | .ge => .lt
  | .lt => .ge
  | .gt => .le
  | .le => .gt

def text : Cond → String
  | .eq => "eq"
  | .ne => "ne"
  | .cs => "cs"
  | .cc => "cc"
  | .mi => "mi"
  | .pl => "pl"
  | .vs => "vs"
  | .vc => "vc"
  | .hi => "hi"
  | .ls => "ls"
  | .ge => "ge"
  | .lt => "lt"
  | .gt => "gt"
  | .le => "le"

end Cond

end Recompiler.Arm
