/-!
# Byte memory

A block of bytes, read and written as little-endian words. `load` and `store` count in bytes and do
not check bounds: a byte outside the block reads as zero and is not written.
-/

namespace Recompiler

structure Memory where
  bytes : Array (BitVec 8)
  deriving DecidableEq

namespace Memory

def zeros (size : Nat) : Memory := ⟨Array.replicate size 0⟩

def size (memory : Memory) : Nat := memory.bytes.size

/-- The byte at `offset`, zero outside the block. -/
def byte (memory : Memory) (offset : Nat) : BitVec 8 := memory.bytes.getD offset 0

def setByte (memory : Memory) (offset : Nat) (value : BitVec 8) : Memory :=
  ⟨memory.bytes.setIfInBounds offset value⟩

def load (memory : Memory) (w offset : Nat) : Nat → BitVec w
  | 0 => 0
  | count + 1 =>
    memory.load w offset count ||| ((memory.byte (offset + count)).setWidth w <<< (8 * count))

def store {w : Nat} (memory : Memory) (offset : Nat) (value : BitVec w) : Nat → Memory
  | 0 => memory
  | count + 1 =>
    (memory.store offset value count).setByte (offset + count) (value.extractLsb' (8 * count) 8)

@[simp] theorem size_setByte (memory : Memory) (offset : Nat) (value : BitVec 8) :
    (memory.setByte offset value).size = memory.size := by
  simp [setByte, size]

@[simp] theorem size_store {w : Nat} (memory : Memory) (offset : Nat) (value : BitVec w)
    (count : Nat) : (memory.store offset value count).size = memory.size := by
  induction count with
  | zero => rfl
  | succ count ih => simp [store, ih]

theorem byte_setByte (memory : Memory) (offset i : Nat) (value : BitVec 8)
    (h : offset < memory.size) :
    (memory.setByte offset value).byte i = if i = offset then value else memory.byte i := by
  unfold size at h
  by_cases hi : i = offset
  · subst hi
    simp [byte, setByte, h]
  · have hne : offset ≠ i := fun he => hi he.symm
    simp [byte, setByte, hi, hne]

/-- A store changes exactly the bytes it covers. -/
theorem byte_store {w : Nat} (memory : Memory) (offset i : Nat) (value : BitVec w) (count : Nat)
    (h : offset + count ≤ memory.size) :
    (memory.store offset value count).byte i =
      if offset ≤ i ∧ i < offset + count then value.extractLsb' (8 * (i - offset)) 8
      else memory.byte i := by
  induction count with
  | zero =>
    have hnot : ¬(offset ≤ i ∧ i < offset + 0) := by omega
    rw [store, if_neg hnot]
  | succ count ih =>
    rw [store, byte_setByte _ _ _ _ (by simp; omega), ih (by omega)]
    by_cases hlast : i = offset + count
    · subst hlast
      simp
    · by_cases hin : offset ≤ i ∧ i < offset + count
      · have hin' : offset ≤ i ∧ i < offset + (count + 1) := by omega
        rw [if_neg hlast, if_pos hin, if_pos hin']
      · have hout : ¬(offset ≤ i ∧ i < offset + (count + 1)) := by omega
        rw [if_neg hlast, if_neg hin, if_neg hout]

end Memory

end Recompiler
