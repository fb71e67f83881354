import Mathlib.Algebra.Group.Nat.Defs
import Mathlib.Tactic.Common
import Recompiler.Arm.Alu
import Recompiler.Lower.Rotate
import Recompiler.PowerPC.IntegerStep

/-!
# Rotations, masks and fields

What the bits of a rotated and masked word are, and which host operations give the same word.
-/

namespace Recompiler

open Arm PowerPC

theorem getLsbD_fieldMask (width : Nat) {i : Nat} (hi : i < 32) :
    (fieldMask width).getLsbD i = decide (i < width) := by
  unfold fieldMask
  split
  · next hw =>
    rw [BitVec.getLsbD_allOnes]
    simp only [hi, decide_true]
    exact (decide_eq_true (by omega)).symm
  · next hw =>
    have hpow : 2 ^ width < 2 ^ 32 := Nat.pow_lt_pow_right (by decide) (by omega)
    have hpos : 0 < 2 ^ width := Nat.two_pow_pos width
    have hnat : (1#32 <<< width - 1).toNat = 2 ^ width - 1 := by
      rw [BitVec.toNat_sub, BitVec.toNat_shiftLeft, Nat.shiftLeft_eq, BitVec.ofNat_eq_ofNat,
        BitVec.toNat_ofNat, Nat.mod_eq_of_lt (by decide : 1 < 2 ^ 32), Nat.one_mul,
        Nat.mod_eq_of_lt hpow]
      omega
    rw [BitVec.getLsbD, hnat, Nat.testBit_two_pow_sub_one]

theorem getLsbD_rotationMask {mb me i : Nat} (hmb : mb < 32) (hme : me < 32) (hi : i < 32) :
    (rotationMask mb me).getLsbD i =
      if me < mb then decide (i + mb < 32) || decide (31 ≤ i + me)
      else decide (i + mb < 32) && decide (31 ≤ i + me) := by
  have hpast : (if me < 31 then BitVec.allOnes 32 >>> (me + 1) else 0).getLsbD i =
      decide (i + me < 31) := by
    split
    · rw [BitVec.getLsbD_ushiftRight, BitVec.getLsbD_allOnes, decide_eq_decide]
      omega
    · rw [BitVec.ofNat_eq_ofNat, BitVec.getLsbD_zero]
      exact (decide_eq_false (by omega)).symm
  have hupTo : (BitVec.allOnes 32 >>> (mb % 32)).getLsbD i = decide (i + mb < 32) := by
    rw [BitVec.getLsbD_ushiftRight, BitVec.getLsbD_allOnes, decide_eq_decide]
    omega
  have hle : decide (31 ≤ i + me) = !decide (i + me < 31) := by
    rw [← decide_not, decide_eq_decide]
    omega
  simp only [rotationMask]
  rw [hle]
  split
  · rw [BitVec.getLsbD_not, BitVec.getLsbD_xor, hpast, hupTo]
    by_cases h₁ : i + mb < 32 <;> by_cases h₂ : i + me < 31 <;> simp [h₁, h₂, hi]
    omega
  · rw [BitVec.getLsbD_xor, hpast, hupTo]
    by_cases h₁ : i + mb < 32 <;> by_cases h₂ : i + me < 31 <;> simp [h₁, h₂]
    omega

theorem getLsbD_rotateLeft_word (x : BitVec 32) {sh i : Nat} (hs : sh < 32) (hi : i < 32) :
    (x.rotateLeft sh).getLsbD i = x.getLsbD ((i + (32 - sh)) % 32) := by
  rw [BitVec.getLsbD_rotateLeft, Nat.mod_eq_of_lt hs]
  by_cases h : i < sh
  · rw [decide_eq_true h, cond_true, Nat.mod_eq_of_lt (by omega), Nat.add_comm]
  · rw [decide_eq_false h, cond_false, decide_eq_true hi, Bool.true_and]
    congr 1
    omega

theorem getLsbD_rotateRight_word (x : BitVec 32) {n i : Nat} (hn : n < 32) (hi : i < 32) :
    (x.rotateRight n).getLsbD i = x.getLsbD ((i + n) % 32) := by
  rw [BitVec.getLsbD_rotateRight, Nat.mod_eq_of_lt hn]
  by_cases h : i < 32 - n
  · rw [decide_eq_true h, cond_true, Nat.mod_eq_of_lt (by omega), Nat.add_comm]
  · rw [decide_eq_false h, cond_false, decide_eq_true hi, Bool.true_and]
    congr 1
    omega

theorem rotateLeft_zero (x : BitVec 32) : x.rotateLeft 0 = x := by
  apply BitVec.eq_of_getLsbD_eq
  intro i hi
  rw [getLsbD_rotateLeft_word x (by decide) hi]
  congr 1
  omega

/-- A left rotation is the opposite right rotation. -/
theorem rotateRight_rightRotation (x : BitVec 32) {sh : Nat} (hs : sh < 32) :
    x.rotateRight ((32 - sh) % 32) = x.rotateLeft sh := by
  apply BitVec.eq_of_getLsbD_eq
  intro i hi
  rw [getLsbD_rotateLeft_word x hs hi, getLsbD_rotateRight_word x (Nat.mod_lt _ (by decide)) hi]
  congr 1
  omega

theorem rotateRight_zero (x : BitVec 32) : x.rotateRight 0 = x := by
  have h := rotateRight_rightRotation x (by decide : 0 < 32)
  rwa [rotateLeft_zero] at h

/-- A rotation by a register, whose low bits count. -/
theorem rotateRight_neg (x b : BitVec 32) :
    x.rotateRight ((ofWord (-b)).toNat % 32) = x.rotateLeft (b.toNat % 32) := by
  have hb := b.isLt
  have hnat : (ofWord (-b)).toNat % 32 = (32 - b.toNat % 32) % 32 := by
    rw [ofWord, BitVec.toNat_setWidth, BitVec.toNat_neg]
    omega
  rw [hnat, rotateRight_rightRotation x (Nat.mod_lt _ (by decide))]

/-! ## The ends of a mask -/

section Bounds

variable {x mask : BitVec 32} {i mb me : Nat}

/-- A one stands below the leading zeros. -/
theorem add_clz_lt (h : x.getLsbD i = true) : i + x.clz.toNat < 32 := by
  by_contra hout
  have hle : 2 ^ (32 - x.clz.toNat) ≤ 2 ^ i := Nat.pow_le_pow_right (by decide) (by omega)
  have hzero : x.toNat.testBit i = false :=
    Nat.testBit_lt_two_pow (Nat.lt_of_lt_of_le BitVec.toNat_lt_two_pow_sub_clz hle)
  rw [BitVec.testBit_toNat, h] at hzero
  cases hzero

/-- A one stands above the trailing zeros. -/
theorem ctz_le (h : x.getLsbD i = true) : x.ctz.toNat ≤ i := by
  by_contra hbelow
  rw [BitVec.getLsbD_false_of_lt_ctz (Nat.lt_of_not_le hbelow)] at h
  cases h

theorem getLsbD_rotationMask_of_le (hle : mb ≤ me) (hme : me < 32) (hi : i < 32) :
    (rotationMask mb me).getLsbD i = true ↔ i + mb < 32 ∧ 31 ≤ i + me := by
  rw [getLsbD_rotationMask (by omega) hme hi, if_neg (by omega), Bool.and_eq_true,
    decide_eq_true_iff, decide_eq_true_iff]

/-- The bounds of a mask are found exactly when it does not wrap around. -/
theorem maskBounds_eq_some_iff : Lower.maskBounds mask = some (mb, me) ↔
    mb ≤ me ∧ me < 32 ∧ rotationMask mb me = mask := by
  unfold Lower.maskBounds
  constructor
  · intro h
    split at h
    · cases h
    · next hne =>
      dsimp only at h
      split at h
      · next hmask =>
        cases h
        have hin := add_clz_lt (BitVec.getLsbD_true_ctz_of_ne_zero hne)
        exact ⟨by omega, by omega, hmask⟩
      · cases h
  · rintro ⟨hle, hme, rfl⟩
    have hbit := fun {i : Nat} (hi : i < 32) => getLsbD_rotationMask_of_le hle hme hi
    have hfirst := (hbit (by omega : 31 - mb < 32)).2 (by omega)
    have hlast := (hbit (by omega : 31 - me < 32)).2 (by omega)
    have hne : rotationMask mb me ≠ 0 := by
      intro hzero
      rw [hzero] at hlast
      simp at hlast
    -- the first one and the last one are at both ends of the mask
    have hclz := (hbit (by omega)).1 (BitVec.getLsbD_true_clz_of_ne_zero (by decide) hne)
    have hone := BitVec.getLsbD_true_ctz_of_ne_zero hne
    have hctz := (hbit (Nat.lt_of_le_of_lt (Nat.le_add_right _ _) (add_clz_lt hone))).1 hone
    have hupper := add_clz_lt hfirst
    have hlower := ctz_le hlast
    have hmb : (rotationMask mb me).clz.toNat = mb := by omega
    have hme : 31 - (rotationMask mb me).ctz.toNat = me := by omega
    rw [if_neg hne]
    dsimp only
    rw [hmb, hme, if_pos rfl]

end Bounds

/-! ## Fields at either end -/

section Fields

variable (x old : BitVec 32) {sh mb me : Nat}

/-- A field that ends at the bottom is extracted. -/
theorem extract_eq (hs : sh < 32) (hmb : mb < 32) (h : 32 ≤ sh + mb) :
    FieldOp.eval .ubfx old x (32 - sh) (32 - mb) = x.rotateLeft sh &&& rotationMask mb 31 := by
  apply BitVec.eq_of_getLsbD_eq
  intro i hi
  simp only [FieldOp.eval, BitVec.getLsbD_and, BitVec.getLsbD_ushiftRight]
  rw [getLsbD_fieldMask _ hi, getLsbD_rotationMask hmb (by decide) hi,
    getLsbD_rotateLeft_word x hs hi, if_neg (by omega)]
  by_cases hin : i + mb < 32
  · rw [decide_eq_true (by omega : i < 32 - mb), decide_eq_true hin,
      decide_eq_true (by omega : 31 ≤ i + 31)]
    congr 2
    omega
  · rw [decide_eq_false (by omega : ¬ i < 32 - mb), decide_eq_false hin, Bool.false_and]
    simp only [Bool.and_false]

/-- A field that ends at the amount of the rotation is moved up. -/
theorem moveUp_eq (hmb : mb < 32) (h : sh + mb < 32) :
    FieldOp.eval .ubfiz old x sh (32 - sh - mb) =
      x.rotateLeft sh &&& rotationMask mb (31 - sh) := by
  apply BitVec.eq_of_getLsbD_eq
  intro i hi
  simp only [FieldOp.eval, BitVec.getLsbD_and, BitVec.getLsbD_shiftLeft]
  rw [Nat.mod_eq_of_lt (by omega : sh < 32), getLsbD_fieldMask _ (by omega : i - sh < 32),
    getLsbD_rotationMask hmb (by omega) hi, getLsbD_rotateLeft_word x (by omega) hi,
    if_neg (by omega), decide_eq_true hi]
  by_cases hlow : i < sh
  · rw [decide_eq_true hlow, decide_eq_false (by omega : ¬ 31 ≤ i + (31 - sh))]
    simp only [Bool.not_true, Bool.and_false, Bool.false_and]
  · by_cases hin : i + mb < 32
    · rw [decide_eq_false hlow, decide_eq_true (by omega : i - sh < 32 - sh - mb),
        decide_eq_true hin, decide_eq_true (by omega : 31 ≤ i + (31 - sh))]
      simp only [Bool.not_false, Bool.and_true, Bool.true_and]
      congr 1
      omega
    · rw [decide_eq_false (by omega : ¬ i - sh < 32 - sh - mb), decide_eq_false hin]
      simp only [Bool.and_false, Bool.false_and]

/-- A bitfield move that is chosen for a rotation does the rotation. -/
theorem eval_fieldMove {mask : BitVec 32} {op : FieldOp} {lsb width : Nat} (hs : sh < 32)
    (h : Lower.fieldMove? sh mask = some (op, lsb, width)) :
    op.eval old x lsb width = x.rotateLeft sh &&& mask := by
  unfold Lower.fieldMove? at h
  split at h
  · next mb me hbounds =>
    obtain ⟨hle, hme, rfl⟩ := maskBounds_eq_some_iff.1 hbounds
    split at h
    · next hlow =>
      cases h
      rw [extract_eq x old hs (by omega) hlow.2, hlow.1]
    · split at h
      · next hup =>
        cases h
        rw [moveUp_eq x old (by omega) hup.2, hup.1]
      · cases h
  · cases h

/-- The field of a bitfield move that stands for a rotation lies within a word. -/
theorem fieldMove_within {mask : BitVec 32} {op : FieldOp} {lsb width : Nat}
    (h : Lower.fieldMove? sh mask = some (op, lsb, width)) : lsb + width ≤ 32 ∧ 1 ≤ width := by
  unfold Lower.fieldMove? at h
  split at h
  · next mb me hbounds =>
    obtain ⟨hle, hme, -⟩ := maskBounds_eq_some_iff.1 hbounds
    split at h
    · cases h
      omega
    · split at h
      · cases h
        omega
      · cases h
  · cases h

/-- A mask that does not wrap is a field. -/
theorem fieldMask_shiftLeft (h : mb ≤ me) (hme : me < 32) :
    fieldMask (me - mb + 1) <<< (31 - me) = rotationMask mb me := by
  apply BitVec.eq_of_getLsbD_eq
  intro i hi
  rw [BitVec.getLsbD_shiftLeft, getLsbD_fieldMask _ (by omega : i - (31 - me) < 32),
    getLsbD_rotationMask (by omega) hme hi, if_neg (by omega), decide_eq_true hi]
  by_cases hlow : i < 31 - me
  · rw [decide_eq_true hlow, decide_eq_false (by omega : ¬ 31 ≤ i + me)]
    simp only [Bool.not_true, Bool.and_false, Bool.false_and]
  · rw [decide_eq_false hlow, decide_eq_true (by omega : 31 ≤ i + me), Bool.and_true,
      Bool.not_false, Bool.and_true, Bool.true_and, decide_eq_decide]
    omega

/-- Only the bits under the mask matter. -/
theorem insert_eq {mask y z : BitVec 32}
    (h : ∀ i, i < 32 → mask.getLsbD i = true → y.getLsbD i = z.getLsbD i) :
    (old &&& ~~~mask) ||| (y &&& mask) = insertUnderMask mask z old := by
  apply BitVec.eq_of_getLsbD_eq
  intro i hi
  simp only [insertUnderMask, BitVec.getLsbD_or, BitVec.getLsbD_and, BitVec.getLsbD_not]
  cases hm : mask.getLsbD i with
  | false => simp only [Bool.and_false, Bool.or_false, Bool.false_or]
  | true =>
    rw [h i hi hm]
    simp only [Bool.not_true, Bool.and_false, Bool.or_false, Bool.false_or]

theorem insertLow_eq (hs : sh < 32) (hmb : mb < 32) (h : sh = 0 ∨ 32 ≤ sh + mb) :
    FieldOp.eval .bfxil old x ((32 - sh) % 32) (32 - mb) =
      insertUnderMask (rotationMask mb 31) (x.rotateLeft sh) old := by
  have hmask : fieldMask (32 - mb) = rotationMask mb 31 := by
    rw [← fieldMask_shiftLeft (by omega) (by decide), BitVec.shiftLeft_zero]
    congr 1
    omega
  simp only [FieldOp.eval]
  rw [hmask]
  refine insert_eq old ?_
  intro i hi hm
  rw [getLsbD_rotationMask hmb (by decide) hi, if_neg (by omega), Bool.and_eq_true,
    decide_eq_true_iff] at hm
  rw [BitVec.getLsbD_ushiftRight, getLsbD_rotateLeft_word x hs hi]
  congr 1
  omega

/-- The field is rotated to the bottom first. -/
theorem insertField_eq (hs : sh < 32) (h : mb ≤ me) (hme : me < 32) :
    FieldOp.eval .bfi old (x.rotateRight ((32 - sh + (31 - me)) % 32)) (31 - me) (me - mb + 1) =
      insertUnderMask (rotationMask mb me) (x.rotateLeft sh) old := by
  simp only [FieldOp.eval]
  rw [Nat.mod_eq_of_lt (by omega : 31 - me < 32), fieldMask_shiftLeft h hme]
  refine insert_eq old ?_
  intro i hi hm
  rw [getLsbD_rotationMask (by omega) hme hi, if_neg (by omega), Bool.and_eq_true,
    decide_eq_true_iff, decide_eq_true_iff] at hm
  rw [BitVec.getLsbD_shiftLeft, decide_eq_true hi, decide_eq_false (by omega : ¬ i < 31 - me),
    getLsbD_rotateRight_word x (Nat.mod_lt _ (by decide)) (by omega),
    getLsbD_rotateLeft_word x hs hi]
  simp only [Bool.not_false, Bool.true_and]
  congr 1
  omega

theorem insertUnderMask_self (mask : BitVec 32) : insertUnderMask mask x x = x := by
  rw [insertUnderMask, ← BitVec.and_or_distrib_left, BitVec.or_not_self, BitVec.and_allOnes]

theorem insertUnderMask_allOnes : insertUnderMask (BitVec.allOnes 32) x old = x := by
  rw [insertUnderMask, BitVec.and_allOnes, BitVec.not_allOnes, BitVec.and_zero, BitVec.or_zero]

end Fields

end Recompiler
