/-!
# Register banks

A bank holds one value for each index below its size. Everything indexed by a register number, on
either side of the compiler, is kept in one. A bank is known by `get`; the lemmas say what `set`
does to it.
-/

namespace Recompiler

/-- One value of type `α` for each index below `n`. -/
structure Bank (n : Nat) (α : Type) where
  cells : Vector α n

namespace Bank

variable {n : Nat} {α : Type}

def replicate (n : Nat) (a : α) : Bank n α := ⟨Vector.replicate n a⟩

def get (bank : Bank n α) (i : Fin n) : α := bank.cells[i.val]

def set (bank : Bank n α) (i : Fin n) (a : α) : Bank n α := ⟨bank.cells.set i.val a i.isLt⟩

@[simp] theorem get_replicate (a : α) (i : Fin n) : (replicate n a).get i = a := by
  simp [replicate, get]

@[simp] theorem get_set_self (bank : Bank n α) (i : Fin n) (a : α) : (bank.set i a).get i = a := by
  simp [set, get]

theorem get_set_of_ne (bank : Bank n α) {i j : Fin n} (a : α) (h : j ≠ i) :
    (bank.set i a).get j = bank.get j := by
  have hv : i.val ≠ j.val := fun he => h (Fin.ext he.symm)
  simp [set, get, hv]

theorem get_set (bank : Bank n α) (i j : Fin n) (a : α) :
    (bank.set i a).get j = if j = i then a else bank.get j := by
  by_cases h : j = i
  · subst h
    simp
  · simp [h, get_set_of_ne bank a h]

@[ext] theorem ext {left right : Bank n α} (h : ∀ i, left.get i = right.get i) : left = right := by
  cases left with | mk l =>
  cases right with | mk r =>
  congr 1
  apply Vector.ext
  intro i hi
  exact h ⟨i, hi⟩

end Bank

end Recompiler
