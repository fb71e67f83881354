/-!
# Vector registers and their elements

A vector register is 128 bits wide. It is read and written by elements of one, four or eight bytes,
numbered from the low end; an eight-byte element is a lane.
-/

namespace Recompiler.Arm

inductive ElemSize where
  | byte
  | single
  | double
  deriving DecidableEq

namespace ElemSize

def bits : ElemSize → Nat
  | .byte => 8
  | .single => 32
  | .double => 64

def letter : ElemSize → String
  | .byte => "b"
  | .single => "s"
  | .double => "d"

def capital : ElemSize → String
  | .byte => "B"
  | .single => "S"
  | .double => "D"

def holds (size : ElemSize) (index : Nat) : Bool := size.bits * index < 128

end ElemSize

/-- Which lanes of a vector register an operation computes. An operation on the lower lane keeps
the upper lane of its destination. -/
inductive Lanes where
  | lower
  | both
  deriving DecidableEq

def lane (v : BitVec 128) (index : Nat) : BitVec 64 := v.extractLsb' (64 * index) 64

def join (low high : BitVec 64) : BitVec 128 := high ++ low

def elementMask (size : ElemSize) : BitVec 128 := (BitVec.allOnes size.bits).setWidth 128

def element (v : BitVec 128) (size : ElemSize) (index : Nat) : BitVec 64 :=
  (v.extractLsb' (size.bits * index) size.bits).setWidth 64

def withElement (v : BitVec 128) (size : ElemSize) (index : Nat) (value : BitVec 64) :
    BitVec 128 :=
  let shift := size.bits * index
  let mask := elementMask size
  (v &&& ~~~(mask <<< shift)) ||| ((value.setWidth 128 &&& mask) <<< shift)

@[simp] theorem lane_join_zero (low high : BitVec 64) : lane (join low high) 0 = low := by
  apply BitVec.eq_of_getLsbD_eq
  intro i hi
  simp only [lane, join, BitVec.getLsbD_extractLsb', BitVec.getLsbD_append]
  simp [hi]

@[simp] theorem lane_join_one (low high : BitVec 64) : lane (join low high) 1 = high := by
  apply BitVec.eq_of_getLsbD_eq
  intro i hi
  simp only [lane, join, BitVec.getLsbD_extractLsb', BitVec.getLsbD_append]
  simp [hi]

theorem join_lanes (v : BitVec 128) : join (lane v 0) (lane v 1) = v := by
  apply BitVec.eq_of_getLsbD_eq
  intro i hi
  simp only [join, lane, BitVec.getLsbD_append, BitVec.getLsbD_extractLsb']
  by_cases h : i < 64
  · simp [h]
  · have h' : i - 64 < 64 := by omega
    have hsum : 64 * 1 + (i - 64) = i := by omega
    simp [h, h', hsum]

end Recompiler.Arm
