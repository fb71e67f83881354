/-!
# Word arithmetic

Addition with a carry, as both machines define it: the sum modulo `2 ^ 32`, the carry out of the top
bit, and whether the sum of the signed operands is out of range.
-/

namespace Recompiler

structure CarrySum where
  value : BitVec 32
  carry : Bool
  overflow : Bool
  deriving DecidableEq

def addWithCarry (a b : BitVec 32) (carry : Bool) : CarrySum :=
  let total := a.toNat + b.toNat + carry.toNat
  let value := BitVec.ofNat 32 total
  { value
    carry := 1 <<< 32 ≤ total
    overflow := a.toInt + b.toInt + (carry.toNat : Int) ≠ value.toInt }

end Recompiler
