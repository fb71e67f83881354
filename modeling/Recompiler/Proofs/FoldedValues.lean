import Mathlib.Algebra.Group.Nat.Defs
import Mathlib.Tactic.Common
import Recompiler.Lower.Add
import Recompiler.Lower.Logical
import Recompiler.Lower.Multiply
import Recompiler.Lower.Shift
import Recompiler.PowerPC.IntegerStep
import Recompiler.Proofs.WordArithmetic

/-!
# Values of constant operands

A translator that knows its operands computes the result itself, with formulas and carry tests of
its own. What it computes is what the interpreter computes.
-/

namespace Recompiler.Lower

open PowerPC

/-! ## Sums -/

/-- The second operand is past the complement of the first exactly when the sum does not fit. -/
theorem sumCarries_eq (a b : BitVec 32) : sumCarries a b = (addWithCarry a b false).carry := by
  have ha := a.isLt
  rw [carry_addWithCarry, sumCarries, decide_eq_decide, BitVec.lt_def, BitVec.toNat_not,
    Bool.toNat_false]
  omega

theorem value_addWithCarry_complement (a b : BitVec 32) :
    (addWithCarry (~~~a) b true).value = b - a :=
  (congrArg CarrySum.value (addWithCarry_comm _ _ _)).trans (value_addWithCarry_not _ _)

/-- A difference carries when it does not borrow. -/
theorem carry_addWithCarry_complement (a b : BitVec 32) :
    (addWithCarry (~~~a) b true).carry = decide (a ≤ b) := by
  have ha := a.isLt
  rw [carry_addWithCarry, decide_eq_decide, BitVec.le_def, BitVec.toNat_not, Bool.toNat_true]
  omega

section WideSum

variable (x y : BitVec 32)

/-- A sum of two words fits into 64 bits, also with a carry. -/
theorem toNat_wideSum : (x.setWidth 64 + y.setWidth 64).toNat = x.toNat + y.toNat := by
  have hx := x.isLt
  have hy := y.isLt
  rw [BitVec.toNat_add, BitVec.toNat_setWidth, BitVec.toNat_setWidth]
  omega

theorem toNat_wideTotal (ca : Bool) :
    (x.setWidth 64 + y.setWidth 64 + if ca then 1 else 0).toNat =
      x.toNat + y.toNat + ca.toNat := by
  have hx := x.isLt
  have hy := y.isLt
  have hca : (if ca then 1 else 0 : BitVec 64).toNat = ca.toNat := by cases ca <;> rfl
  have hle := ca.toNat_le
  rw [BitVec.toNat_add, toNat_wideSum, hca]
  omega

theorem setWidth_wideSum :
    (x.setWidth 64 + y.setWidth 64).setWidth 32 = (addWithCarry x y false).value := by
  apply BitVec.eq_of_toNat_eq
  rw [BitVec.toNat_setWidth, toNat_wideSum, toNat_addWithCarry, Bool.toNat_false, Nat.add_zero]

theorem setWidth_wideTotal (ca : Bool) :
    (x.setWidth 64 + y.setWidth 64 + if ca then 1 else 0).setWidth 32 =
      (addWithCarry x y ca).value := by
  apply BitVec.eq_of_toNat_eq
  rw [BitVec.toNat_setWidth, toNat_wideTotal, toNat_addWithCarry]

theorem wideTotal_carries (ca : Bool) :
    decide (0xFFFFFFFF < x.setWidth 64 + y.setWidth 64 + if ca then 1 else 0) =
      (addWithCarry x y ca).carry := by
  rw [carry_addWithCarry, decide_eq_decide, BitVec.lt_def, toNat_wideTotal]
  exact Iff.rfl

/-- With a carry that is not known, the sum of the words leaves at most that carry to pass on. -/
theorem carry_wideSum (ca : Bool) :
    (if 0xFFFFFFFF < x.setWidth 64 + y.setWidth 64 then true
      else if x.setWidth 64 + y.setWidth 64 < 0xFFFFFFFF then false else ca) =
      (addWithCarry x y ca).carry := by
  have hle := ca.toNat_le
  have hmax : (0xFFFFFFFF : BitVec 64).toNat = 0xFFFFFFFF := rfl
  simp only [carry_addWithCarry, BitVec.lt_def, toNat_wideSum, hmax]
  split
  · exact (decide_eq_true (by omega)).symm
  · split
    · exact (decide_eq_false (by omega)).symm
    · have hone : ca = true ↔ ca.toNat = 1 := by cases ca <;> simp
      rw [Bool.eq_iff_iff, decide_eq_true_iff, hone]
      omega

end WideSum

/-! ## Products and quotients -/

/-- The low half of a product does not depend on how its operands are extended. -/
theorem setWidth_mul_signExtend (a b : BitVec 32) :
    (a.signExtend 64 * b.signExtend 64).setWidth 32 = a * b := by
  have hlow : ∀ x : BitVec 32, (x.signExtend 64).setWidth 32 = x := by
    intro x
    apply BitVec.eq_of_getLsbD_eq
    intro i hi
    have hwide : i < 64 := by omega
    rw [BitVec.getLsbD_setWidth, BitVec.getLsbD_signExtend, if_pos hi]
    simp [hi, hwide]
  rw [BitVec.setWidth_mul _ _ (by decide), hlow, hlow]

theorem product_eq (op : MulOp) (a b : BitVec 32) : product op a b = op.apply a b := by
  cases op with
  | low => exact (setWidth_mul_signExtend a b).symm
  | highSigned | highUnsigned => rfl

theorem divwValue_eq (a b : BitVec 32) : divwValue a b = (signedQuotient a b).1 := by
  have hzero : b.toInt = 0 ↔ b = 0 := BitVec.toInt_inj (y := 0)
  have hmin : a.toInt = -0x80000000 ↔ a = BitVec.intMin 32 :=
    BitVec.toInt_inj (y := BitVec.intMin 32)
  have hone : b.toInt = -1 ↔ b = BitVec.allOnes 32 := BitVec.toInt_inj (y := BitVec.allOnes 32)
  unfold divwValue signedQuotient
  simp only [hzero, hmin, hone]
  split
  · rfl
  · apply BitVec.eq_of_toInt_eq
    rw [BitVec.toInt_ofInt, BitVec.toInt_sdiv]

theorem quotient_eq (a b : BitVec 32) :
    (if b = 0 then 0 else a / b) = (unsignedQuotient a b).1 := by
  rw [unsignedQuotient]
  split
  · next hzero => rw [hzero, BitVec.ofNat_eq_ofNat, BitVec.udiv_zero]
  · rfl

/-! ## Shifts -/

theorem ne_zero_iff_getLsbD {n : Nat} (x : BitVec n) : x ≠ 0 ↔ ∃ i, x.getLsbD i = true := by
  constructor
  · intro h
    by_contra hall
    apply h
    apply BitVec.eq_of_getLsbD_eq
    intro i _
    have hzero : (0 : BitVec n).getLsbD i = false := BitVec.getLsbD_zero
    rw [hzero]
    exact eq_false_of_ne_true fun hi => hall ⟨i, hi⟩
  · rintro ⟨i, hi⟩ rfl
    simp at hi

/-- What a right shift loses is not zero. -/
theorem lost_iff (s : BitVec 32) (n : Nat) :
    s.toNat % (1 <<< min n 32) ≠ 0 ↔ ∃ j, j < n ∧ s.getLsbD j = true := by
  have hbit : ∀ j, (s.toNat % 2 ^ min n 32).testBit j = (decide (j < n) && s.getLsbD j) := by
    intro j
    rw [Nat.testBit_mod_two_pow, ← BitVec.testBit_toNat]
    by_cases hj : j < 32
    · have hmin : j < min n 32 ↔ j < n := by omega
      rw [decide_eq_decide.2 hmin]
    · have hout : s.toNat.testBit j = false := by
        rw [BitVec.testBit_toNat]
        exact BitVec.getLsbD_of_ge s j (by omega)
      simp [hout]
  rw [Nat.one_shiftLeft]
  constructor
  · intro h
    obtain ⟨j, hj⟩ := Nat.exists_testBit_of_ne_zero h
    rw [hbit, Bool.and_eq_true, decide_eq_true_eq] at hj
    exact ⟨j, hj⟩
  · rintro ⟨j, hj, hs⟩ hz
    have hbit' := hbit j
    rw [hz] at hbit'
    simp [hj, hs] at hbit'

theorem shiftAlgebraic_snd (s : BitVec 32) (n : Nat) : (shiftAlgebraic s n).2 = true ↔
    s.msb = true ∧ ∃ j, j < n ∧ s.getLsbD j = true := by
  rw [← lost_iff]
  simp [shiftAlgebraic]

theorem msb_eq (s : BitVec 32) : s.msb = s.getLsbD 31 := by
  rw [BitVec.msb_eq_getLsbD_last]

/-- From 32 on the sign is all there is. -/
theorem shiftAlgebraic_out (s : BitVec 32) {n : Nat} (h : 32 ≤ n) :
    shiftAlgebraic s n = (s.sshiftRight 31, s.msb) := by
  refine Prod.ext ?_ ?_
  · apply BitVec.eq_of_getLsbD_eq
    intro i hi
    have h₁ : ¬n + i < 32 := by omega
    rw [shiftAlgebraic, BitVec.getLsbD_sshiftRight, BitVec.getLsbD_sshiftRight, if_neg h₁]
    by_cases hz : i = 0
    · simp [hz, msb_eq]
    · have h₂ : ¬31 + i < 32 := by omega
      rw [if_neg h₂]
  · rw [Bool.eq_iff_iff, shiftAlgebraic_snd]
    constructor
    · exact fun hs => hs.1
    · intro hs
      exact ⟨hs, 31, by omega, (msb_eq s).symm.trans hs⟩

theorem amount_ge_of_bit_five {b : BitVec 32} (h : b.getLsbD 5 = true) : 32 ≤ b.toNat % 64 := by
  have hbit : b.toNat.testBit 5 = true := by rw [BitVec.testBit_toNat, h]
  rw [Nat.testBit_eq_decide_div_mod_eq] at hbit
  have := of_decide_eq_true hbit
  omega

theorem shiftLogical_out {left : Bool} {b : BitVec 32} (h : b.getLsbD 5 = true) (s : BitVec 32) :
    shiftLogical left s b = 0 := by
  have hge := amount_ge_of_bit_five h
  unfold shiftLogical
  cases left with
  | true => exact BitVec.shiftLeft_eq_zero hge
  | false => exact BitVec.ushiftRight_eq_zero hge

/-- Bit 5 of the amount tells whether everything is shifted out. -/
theorem and_bit_five (b : BitVec 32) : b &&& 0x3F &&& 0x20 ≠ 0 ↔ b.getLsbD 5 = true := by
  have hmask : (0x3F : BitVec 32) &&& 0x20 = BitVec.twoPow 32 5 := by decide
  have hne : BitVec.twoPow 32 5 ≠ 0 := by decide
  rw [BitVec.and_assoc, hmask, BitVec.and_twoPow]
  cases b.getLsbD 5 with
  | true => simpa using hne
  | false => simp

theorem toNat_and_amount (b : BitVec 32) : (b &&& 0x3F).toNat = b.toNat % 64 :=
  (BitVec.toNat_and _ _).trans (Nat.and_two_pow_sub_one_eq_mod b.toNat 6)

theorem shiftValue_eq (left : Bool) (s b : BitVec 32) :
    shiftValue left s b = shiftLogical left s b := by
  unfold shiftValue
  by_cases hout : b.getLsbD 5 = true
  · rw [if_pos ((and_bit_five b).2 hout), shiftLogical_out hout]
  · rw [if_neg fun h => hout ((and_bit_five b).1 h), shiftLogical, BitVec.shiftLeft_eq',
      BitVec.ushiftRight_eq', toNat_and_amount]

/-- Below 32, what is shifted out to the right is what stays when it is shifted left. -/
theorem shiftLeft_ne_zero_iff (s : BitVec 32) {n : Nat} (h : n < 32) :
    s <<< (32 - n) ≠ 0 ↔ ∃ j, j < n ∧ s.getLsbD j = true := by
  rw [ne_zero_iff_getLsbD]
  constructor
  · rintro ⟨i, hi⟩
    simp only [BitVec.getLsbD_shiftLeft, Bool.and_eq_true, decide_eq_true_eq, Bool.not_eq_true',
      decide_eq_false_iff_not] at hi
    exact ⟨i - (32 - n), by omega, hi.2⟩
  · rintro ⟨j, hj, hs⟩
    refine ⟨j + (32 - n), ?_⟩
    have hin : j + (32 - n) < 32 := by omega
    rw [BitVec.getLsbD_shiftLeft, Nat.add_sub_cancel, hs]
    simp [hin]

theorem shiftAlgebraicValue_eq (s : BitVec 32) (n : Nat) :
    shiftAlgebraicValue s n = shiftAlgebraic s n := by
  have hsign : s.slt 0 = s.msb := BitVec.slt_zero_eq_msb
  unfold shiftAlgebraicValue
  rw [hsign]
  by_cases hout : 32 ≤ n
  · rw [if_pos hout, shiftAlgebraic_out s hout]
    refine Prod.ext ?_ rfl
    apply BitVec.eq_of_getLsbD_eq
    intro i hi
    have hfill : ∀ negative : Bool,
        (if negative then BitVec.allOnes 32 else 0).getLsbD i = negative := by
      intro negative
      cases negative with
      | true => rw [if_pos rfl, BitVec.getLsbD_allOnes, decide_eq_true hi]
      | false => exact BitVec.getLsbD_zero
    have hshift : (s.sshiftRight 31).getLsbD i = s.msb := by
      rw [BitVec.getLsbD_sshiftRight, decide_eq_false (by omega)]
      split
      · rw [msb_eq, show 31 + i = 31 by omega]
        rfl
      · rfl
    exact (hfill s.msb).trans hshift.symm
  · rw [if_neg hout]
    refine Prod.ext rfl ?_
    rw [Bool.eq_iff_iff, shiftAlgebraic_snd, ← shiftLeft_ne_zero_iff s (Nat.lt_of_not_le hout)]
    by_cases hzero : n = 0
    · subst hzero
      simp
    · simp [hzero]

/-! ## Logical operations and compares -/

theorem apply_immLogicKind (op : ImmLogic) (s imm : BitVec 32) :
    (immLogicKind op).apply s imm = op.apply s imm := by
  cases op <;> rfl

theorem unaryValue_eq (op : PowerPC.UnaryOp) (s : BitVec 32) : unaryValue op s = op.apply s := by
  cases op <;> rfl

/-- A compare with an immediate takes it as the compare takes its operands. -/
theorem compareOperand_immediate (word : Word) (signed : Bool) (b : BitVec 32) :
    IntOp.compareOperand word signed true b = if signed then word.simm else word.uimm := by
  cases signed <;> rfl

end Recompiler.Lower
