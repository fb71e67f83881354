import Mathlib.Algebra.Group.Nat.Defs
import Mathlib.Tactic.Common
import Recompiler.Arm.Alu

/-!
# Sums with carries

Equations between the sums that the two machines compute.
-/

namespace Recompiler

theorem addWithCarry_comm (a b : BitVec 32) (ca : Bool) :
    addWithCarry a b ca = addWithCarry b a ca := by
  simp only [addWithCarry, Nat.add_comm a.toNat, Int.add_comm a.toInt]

theorem toNat_addWithCarry (a b : BitVec 32) (ca : Bool) :
    (addWithCarry a b ca).value.toNat = (a.toNat + b.toNat + ca.toNat) % 2 ^ 32 := by
  simp only [addWithCarry, BitVec.toNat_ofNat]

theorem carry_addWithCarry (a b : BitVec 32) (ca : Bool) :
    (addWithCarry a b ca).carry = decide (2 ^ 32 ≤ a.toNat + b.toNat + ca.toNat) := rfl

theorem value_addWithCarry_false (a b : BitVec 32) : (addWithCarry a b false).value = a + b := by
  apply BitVec.eq_of_toNat_eq
  rw [toNat_addWithCarry, BitVec.toNat_add, Bool.toNat_false, Nat.add_zero]

/-- Adding the complement and one is subtracting. -/
theorem value_addWithCarry_not (a b : BitVec 32) : (addWithCarry a (~~~b) true).value = a - b := by
  apply BitVec.eq_of_toNat_eq
  have hb := b.isLt
  rw [toNat_addWithCarry, BitVec.toNat_sub, BitVec.toNat_not, Bool.toNat_true]
  congr 1
  omega

/-- Minus one less a word is its complement, and there is no borrow. -/
theorem addWithCarry_not_allOnes (a : BitVec 32) :
    (addWithCarry (~~~a) (BitVec.allOnes 32) true).value = ~~~a ∧
      (addWithCarry (~~~a) (BitVec.allOnes 32) true).carry = true := by
  refine ⟨?_, ?_⟩
  · apply BitVec.eq_of_toNat_eq
    have ha := (~~~a).isLt
    rw [toNat_addWithCarry, BitVec.toNat_allOnes, Bool.toNat_true]
    omega
  · rw [carry_addWithCarry, BitVec.toNat_allOnes, Bool.toNat_true, decide_eq_true_iff]
    omega

/-! ## Adding the carry last -/

/-- Adding the carry to a sum. -/
theorem value_addWithCarry_sum (a b : BitVec 32) (ca : Bool) :
    (addWithCarry a b ca).value =
      (BitVec.ofBool ca).setWidth 32 + (addWithCarry a b false).value := by
  apply BitVec.eq_of_toNat_eq
  rw [BitVec.toNat_add, toNat_addWithCarry, toNat_addWithCarry]
  cases ca <;> simp
  omega

theorem value_addWithCarry_adc (a b : BitVec 32) (ca : Bool) :
    (addWithCarry a b ca).value = (addWithCarry (addWithCarry a b false).value 0 ca).value := by
  apply BitVec.eq_of_toNat_eq
  simp only [toNat_addWithCarry, Bool.toNat_false, Nat.add_zero, BitVec.ofNat_eq_ofNat,
    BitVec.toNat_ofNat, Nat.zero_mod]
  omega

/-- Adding the largest word and a carry changes nothing. -/
theorem addWithCarry_allOnes (a : BitVec 32) :
    (addWithCarry a (BitVec.allOnes 32) true).value = a ∧
      (addWithCarry a (BitVec.allOnes 32) true).carry = true := by
  have h := addWithCarry_not_allOnes (~~~a)
  rwa [BitVec.not_not] at h

theorem addWithCarry_zero (a : BitVec 32) :
    (addWithCarry a 0 false).value = a ∧ (addWithCarry a 0 false).carry = false := by
  refine ⟨?_, ?_⟩
  · rw [value_addWithCarry_false, BitVec.ofNat_eq_ofNat, BitVec.add_zero]
  · rw [carry_addWithCarry, decide_eq_false_iff_not]
    have ha := a.isLt
    simp only [BitVec.ofNat_eq_ofNat, BitVec.toNat_ofNat, Nat.zero_mod, Bool.toNat_false]
    omega

/-- Below the largest word the carry may be added to the constant. -/
theorem addWithCarry_succ (a : BitVec 32) {b : BitVec 32} (hb : b ≠ BitVec.allOnes 32) :
    (addWithCarry a b true).value = (addWithCarry a (b + 1) false).value ∧
      (addWithCarry a b true).carry = (addWithCarry a (b + 1) false).carry := by
  rw [Ne, ← BitVec.toNat_inj, BitVec.toNat_allOnes] at hb
  have hlt := b.isLt
  have hsucc : (b + 1).toNat = b.toNat + 1 := by
    rw [BitVec.toNat_add, BitVec.ofNat_eq_ofNat, BitVec.toNat_ofNat,
      Nat.mod_eq_of_lt (by decide : 1 < 2 ^ 32), Nat.mod_eq_of_lt (by omega)]
  refine ⟨?_, ?_⟩
  · apply BitVec.eq_of_toNat_eq
    rw [toNat_addWithCarry, toNat_addWithCarry, hsucc, Bool.toNat_true, Bool.toNat_false]
    omega
  · simp only [carry_addWithCarry, hsucc, Bool.toNat_true, Bool.toNat_false, Nat.add_zero,
      Nat.add_assoc]

/-- The carry may be added as a number. -/
theorem addWithCarry_ofBool (a : BitVec 32) (ca : Bool) :
    (addWithCarry a 0 ca).value = (addWithCarry a ((BitVec.ofBool ca).setWidth 32) false).value ∧
      (addWithCarry a 0 ca).carry =
        (addWithCarry a ((BitVec.ofBool ca).setWidth 32) false).carry := by
  have hca : ((BitVec.ofBool ca).setWidth 32).toNat = ca.toNat := by cases ca <;> rfl
  refine ⟨?_, ?_⟩
  · apply BitVec.eq_of_toNat_eq
    simp only [toNat_addWithCarry, hca, BitVec.ofNat_eq_ofNat, BitVec.toNat_ofNat, Nat.zero_mod,
      Bool.toNat_false, Nat.add_zero]
  · simp only [carry_addWithCarry, hca, BitVec.ofNat_eq_ofNat, BitVec.toNat_ofNat, Nat.zero_mod,
      Bool.toNat_false, Nat.add_zero]

end Recompiler
