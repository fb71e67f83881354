/-!
# The floating-point status word

Bits 12 to 16 describe the last result. The lower four of them are also what a compare writes.
-/

namespace Recompiler.PowerPC.Status

def classShift : Nat := 12

def classMask : BitVec 32 := 0x1F000

/-- The bits that a compare writes. -/
def compareMask : BitVec 32 := 0xF000

def withClass (status : BitVec 32) (cls : BitVec 5) : BitVec 32 :=
  (status &&& ~~~classMask) ||| (cls.setWidth 32 <<< classShift)

def withCompare (status : BitVec 32) (field : BitVec 4) : BitVec 32 :=
  (status &&& ~~~compareMask) ||| (field.setWidth 32 <<< classShift)

end Recompiler.PowerPC.Status
