import Recompiler.Register

/-!
# Sets of host registers

A set of general registers as one bit per register. Membership is the view by which sets are known.
-/

namespace Recompiler.Arm

structure RegSet where
  bits : BitVec 256
  deriving DecidableEq

namespace RegSet

def empty : RegSet := ⟨0⟩

def contains (set : RegSet) (reg : Nat) : Bool := set.bits.getLsbD reg

def insert (set : RegSet) (reg : HostReg) : RegSet := ⟨set.bits ||| 1#256 <<< reg.val⟩

def erase (set : RegSet) (reg : HostReg) : RegSet := ⟨set.bits &&& ~~~(1#256 <<< reg.val)⟩

def union (left right : RegSet) : RegSet := ⟨left.bits ||| right.bits⟩

def inter (left right : RegSet) : RegSet := ⟨left.bits &&& right.bits⟩

def sdiff (left right : RegSet) : RegSet := ⟨left.bits &&& ~~~right.bits⟩

def ofList (regs : List HostReg) : RegSet := regs.foldl insert empty

def toList (set : RegSet) : List HostReg := (List.finRange 256).filter fun reg => set.contains reg

def size (set : RegSet) : Nat := set.toList.length

def isEmpty (set : RegSet) : Bool := set.bits == 0

def text (set : RegSet) : String :=
  "\x7b" ++ String.intercalate ", " (set.toList.map fun reg => "x" ++ reg.val.repr) ++ "\x7d"

@[simp] theorem contains_empty (reg : Nat) : empty.contains reg = false := by
  simp [contains, empty]

private theorem getLsbD_singleton (reg other : HostReg) :
    (1#256 <<< reg.val).getLsbD other.val = (reg == other) := by
  have ho := other.isLt
  by_cases h : reg = other
  · subst h
    simp
  · have hv : reg.val ≠ other.val := fun he => h (Fin.ext he)
    have hf : (reg == other) = false := by simpa using h
    rw [hf]
    simp
    omega

theorem contains_insert (set : RegSet) (reg other : HostReg) :
    (set.insert reg).contains other = (set.contains other || reg == other) := by
  rw [contains, insert, BitVec.getLsbD_or, getLsbD_singleton, contains]

theorem contains_erase (set : RegSet) (reg other : HostReg) :
    (set.erase reg).contains other = (set.contains other && reg != other) := by
  have ho := other.isLt
  rw [contains, erase, BitVec.getLsbD_and, BitVec.getLsbD_not, getLsbD_singleton, contains]
  simp [ho, bne]

@[simp] theorem contains_inter (left right : RegSet) (reg : Nat) :
    (left.inter right).contains reg = (left.contains reg && right.contains reg) := by
  simp [contains, inter]

theorem mem_toList (set : RegSet) (reg : HostReg) :
    reg ∈ set.toList ↔ set.contains reg = true := by
  simp [toList]

end RegSet

end Recompiler.Arm
