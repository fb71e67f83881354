import Recompiler.Proofs.Lower.Conversion
import Recompiler.Proofs.SingleMemory

/-!
# When the host's conversion is exact

The checks of a conversion let a single pass if it is a number other than zero that the host does
not flush. On such singles the host's conversion is what loads and stores do, if a double that is
narrowed is a single already.
-/

namespace Recompiler.Arm

open Ieee

variable {flush : Bool}

/-! ## Flushing -/

theorem flushSingle_ofParts (flush negative : Bool) {m : Nat} (h : m < 0x80000000) :
    flushSingle flush (Single.ofParts negative m) =
      Single.ofParts negative (if flush = true ∧ m < 0x800000 then 0 else m) := by
  have hiff : (Single.ofParts negative m &&& Single.expMask == 0) = true ↔ m < 0x800000 := by
    rw [beq_iff_eq, BitVec.toNat_eq, Single.toNat_and_expMask, Single.toNat_ofParts negative h,
      Format.withSign, Format.signBit_single]
    have hzero : (0 : Single).toNat = 0 := rfl
    rw [hzero]
    split <;> omega
  unfold flushSingle
  by_cases hflush : flush = true ∧ m < 0x800000
  · rw [if_pos (by rw [hflush.1, Bool.true_and]; exact hiff.2 hflush.2), if_pos hflush]
    apply BitVec.eq_of_toNat_eq
    rw [Single.toNat_and_signMask negative h, Single.toNat_ofParts negative (by omega)]
    rfl
  · rw [if_neg (by rw [Bool.and_eq_true, hiff]; exact hflush), if_neg hflush]

theorem abs_ofParts (negative : Bool) {m : Nat} (h : m < 0x80000000) :
    Single.ofParts negative m &&& ~~~Single.signMask = Single.ofParts false m := by
  have hmask : (~~~Single.signMask).toNat = (2 ^ 31 - 1) <<< 0 := by decide
  apply BitVec.eq_of_toNat_eq
  rw [BitVec.toNat_and, hmask, and_field, Nat.shiftRight_zero, Nat.shiftLeft_zero,
    Single.toNat_ofParts negative h, Single.toNat_ofParts false h, Format.withSign, Format.withSign,
    Format.signBit_single]
  cases negative
  · simp only [Bool.false_eq_true, if_false]
    omega
  · simp only [if_true, Bool.false_eq_true, if_false]
    omega

theorem compare_zero_eq_gt {m : Nat} (h : m < 0x80000000) :
    Single.compare? (Single.ofParts false m) 0 = some .gt ↔ 0 < m ∧ m ≤ 0x7F800000 := by
  have hkey : Single.key (Single.ofParts false m) = (m : Int) := by
    rw [Single.key, Single.isNegative_ofParts false h, abs_ofParts false h,
      Single.toNat_ofParts false h]
    rfl
  have hzero : Single.key 0 = 0 := rfl
  have hnan : Single.isNan 0 = false := rfl
  rw [Single.compare?, Single.isNan_ofParts false h, hnan, hkey, hzero, Bool.or_false]
  by_cases hm : 0x7F800000 < m
  · rw [if_pos (decide_eq_true hm)]
    simp only [reduceCtorEq, false_iff]
    omega
  · rw [if_neg (by rw [decide_eq_true_iff]; exact hm), Option.some_inj, Int.compare_eq_gt]
    omega

/-! ## The checks -/

/-- A single passes the check of a conversion: it is a number other than zero that the host does not
flush. -/
def Passes (flush : Bool) (x : Single) : Prop :=
  Single.compare? (flushSingle flush (x &&& ~~~Single.signMask)) 0 = some .gt

instance (flush : Bool) (x : Single) : Decidable (Passes flush x) :=
  inferInstanceAs (Decidable (_ = _))

theorem passes_ofParts (flush negative : Bool) {m : Nat} (h : m < 0x80000000) :
    Passes flush (Single.ofParts negative m) ↔
      0 < m ∧ m ≤ 0x7F800000 ∧ (flush = true → 0x800000 ≤ m) := by
  rw [Passes, abs_ofParts negative h, flushSingle_ofParts flush false h]
  by_cases hflush : flush = true ∧ m < 0x800000
  · rw [if_pos hflush, compare_zero_eq_gt (by omega)]
    constructor
    · omega
    · intro hm
      exact absurd (hm.2.2 hflush.1) (by omega)
  · rw [if_neg hflush, compare_zero_eq_gt h]
    constructor
    · intro hm
      exact ⟨hm.1, hm.2, fun hf => Nat.le_of_not_lt fun hlt => hflush ⟨hf, hlt⟩⟩
    · intro hm
      exact ⟨hm.1, hm.2.1⟩

theorem greaterMagnitude_zero (flush : Bool) (x : Single) :
    greaterMagnitude flush x 0 = if Passes flush x then BitVec.allOnes 32 else 0 := by
  have hzero : flushSingle flush 0 &&& ~~~Single.signMask = 0 := by cases flush <;> rfl
  obtain ⟨negative, m, hlt, rfl⟩ := Single.exists_parts x
  have hcomm : flushSingle flush (Single.ofParts negative m) &&& ~~~Single.signMask =
      flushSingle flush (Single.ofParts negative m &&& ~~~Single.signMask) := by
    rw [abs_ofParts negative hlt, flushSingle_ofParts flush negative hlt,
      flushSingle_ofParts flush false hlt, abs_ofParts]
    split <;> omega
  have hiff : Single.compare? (flushSingle flush (Single.ofParts negative m) &&& ~~~Single.signMask)
      (flushSingle flush 0 &&& ~~~Single.signMask) = some .gt ↔
        Passes flush (Single.ofParts negative m) := by
    rw [hzero, hcomm, Passes]
  exact if_congr hiff rfl rfl

/-- A single that passes is not flushed. -/
theorem Passes.flush_eq {x : Single} (h : Passes flush x) : flushSingle flush x = x := by
  obtain ⟨negative, m, hlt, rfl⟩ := Single.exists_parts x
  obtain ⟨-, -, hmin⟩ := (passes_ofParts flush negative hlt).1 h
  rw [flushSingle_ofParts flush negative hlt, if_neg]
  intro hflush
  have := hmin hflush.1
  omega

theorem Passes.isNan_eq {x : Single} (h : Passes flush x) : x.isNan = false := by
  obtain ⟨negative, m, hlt, rfl⟩ := Single.exists_parts x
  obtain ⟨-, hmax, -⟩ := (passes_ofParts flush negative hlt).1 h
  rw [Single.isNan_ofParts negative hlt]
  exact decide_eq_false (by omega)

/-! ## The conversions -/

theorem Passes.widen_eq {x : Single} (h : Passes flush x) :
    widenSingle flush x = Single.load x := by
  rw [widenSingle, h.flush_eq, Single.load_eq_toDouble h.isNan_eq]

/-- The exponent and the first bit of the payload make a NaN. -/
theorem isNan_or_quiet (y : Single) : (y ||| ((0x7FC00000 : Nat) : Single)).isNan = true := by
  have hexp : (y ||| ((0x7FC00000 : Nat) : Single)) &&& Single.expMask = Single.expMask := by
    have hbits : ∀ i : Fin 32, Single.expMask.getLsbD i = true →
        ((0x7FC00000 : Nat) : Single).getLsbD i = true := by decide
    apply BitVec.eq_of_getLsbD_eq
    intro i hi
    rw [BitVec.getLsbD_and, BitVec.getLsbD_or]
    cases hmask : Single.expMask.getLsbD i with
    | false => rw [Bool.and_false]
    | true => rw [hbits ⟨i, hi⟩ hmask, Bool.or_true, Bool.and_true]
  have hfrac : (y ||| ((0x7FC00000 : Nat) : Single)) &&& Single.fracMask ≠ 0 := by
    intro hzero
    have hbit := congrArg (fun z : Single => z.getLsbD 22) hzero
    have hquiet : ((0x7FC00000 : Nat) : Single).getLsbD 22 = true := by decide
    have hmask : Single.fracMask.getLsbD 22 = true := by decide
    rw [BitVec.getLsbD_and, BitVec.getLsbD_or, hquiet, hmask, Bool.or_true, Bool.and_true] at hbit
    exact absurd hbit (by decide)
  rw [Single.isNan, hexp, beq_self_eq_true, Bool.true_and]
  exact bne_iff_ne.2 hfrac

/-- A NaN is narrowed to a NaN. -/
theorem isNan_ofDouble {x : Double} (h : x.isNan = true) : (Single.ofDouble x).isNan = true := by
  rw [Single.ofDouble, if_pos h, BitVec.or_assoc, BitVec.or_comm ((0x7FC00000 : Nat) : Single),
    ← BitVec.or_assoc]
  exact isNan_or_quiet _

/-- Widened numbers are not flushed: they are zero or have an exponent. -/
theorem flushDouble_widen (flush negative : Bool) {m : Nat} (h : m ≤ 0x7F800000) :
    flushDouble flush (Double.ofParts negative (widen m)) = Double.ofParts negative (widen m) := by
  by_cases hzero : m = 0
  · subst hzero
    cases flush <;> cases negative <;> decide
  have hlower : 0x10000000000000 ≤ widen m := by
    unfold widen
    rw [if_neg hzero]
    split
    · omega
    · split <;> omega
  have hupper := widen_le h
  have hexp : (Double.ofParts negative (widen m) &&& Double.expMask == 0) = false := by
    rw [beq_eq_false_iff_ne, ne_eq, BitVec.toNat_eq, Double.toNat_and_expMask,
      Double.toNat_ofParts negative (by omega), Format.withSign, Format.signBit_double]
    have hnat : (0 : Double).toNat = 0 := rfl
    rw [hnat]
    split <;> omega
  rw [flushDouble, hexp, Bool.and_false, if_neg Bool.false_ne_true]

theorem flushDouble_nan {x : Double} (h : x.isNan = true) : flushDouble flush x = x := by
  have hexp : x &&& Double.expMask = Double.expMask := by
    rw [Double.isNan, Bool.and_eq_true, beq_iff_eq] at h
    exact h.1
  have hne : (Double.expMask == 0) = false := by decide
  rw [flushDouble, hexp, hne, Bool.and_false, if_neg Bool.false_ne_true]

theorem flushSingle_nan {y : Single} (h : y.isNan = true) : flushSingle flush y = y := by
  have hexp : y &&& Single.expMask = Single.expMask := by
    rw [Single.isNan, Bool.and_eq_true, beq_iff_eq] at h
    exact h.1
  have hne : (Single.expMask == 0) = false := by decide
  rw [flushSingle, hexp, hne, Bool.and_false, if_neg Bool.false_ne_true]

/-- If the outcome passes, narrowing a single that is kept as a double is a store. -/
theorem narrow_eq {x : Double} (hexact : x.isExactSingle = true)
    (hpass : Passes flush (narrowDouble flush x)) : narrowDouble flush x = Single.store x := by
  cases hnan : x.isNan with
  | true =>
    have hy := isNan_ofDouble hnan
    rw [narrowDouble, flushDouble_nan hnan, flushSingle_nan hy] at hpass
    rw [hpass.isNan_eq] at hy
    contradiction
  | false =>
    obtain ⟨negative, m, hm, rfl⟩ := exists_widen hexact hnan
    have hlt : m < 0x80000000 := by omega
    have heq : narrowDouble flush (Double.ofParts negative (widen m)) =
        flushSingle flush (Single.ofParts negative m) := by
      rw [narrowDouble, flushDouble_widen flush negative hm, ofDouble_widen negative hm]
    rw [heq, flushSingle_ofParts flush negative hlt] at hpass ⊢
    split at hpass
    · rw [passes_ofParts flush negative (by omega)] at hpass
      omega
    · next hflush => rw [if_neg hflush, Single.store_widen negative hm]

end Recompiler.Arm

namespace Recompiler.Lower

open Alloc Arm Block PowerPC Emit Ieee

variable {flush : Bool} {v : BitVec 128}

/-! ## Either path -/

theorem le_ofComparison (o : Option Ordering) :
    Cond.holds .le (.ofComparison o) = false ↔ o = some .gt := by
  rcases o with _ | _ | _ | _ <;> decide

theorem lowerCheck_passes (flush : Bool) (x : Single) :
    Cond.holds .le (lowerCheck flush x) = false ↔ Passes flush x := le_ofComparison _

/-- The folded masks are a NaN exactly if both singles pass. -/
theorem pairCheck_passes (flush : Bool) (v : BitVec 128) :
    Cond.holds .vc (pairCheck flush v) = false ↔
      Passes flush (singleAt v 0) ∧ Passes flush (singleAt v 1) := by
  unfold pairCheck pairMask
  rw [greaterMagnitude_zero, greaterMagnitude_zero]
  by_cases h₀ : Passes flush (singleAt v 0) <;> by_cases h₁ : Passes flush (singleAt v 1) <;>
    simp only [h₀, h₁, if_true, if_false, and_true, and_false, iff_true, iff_false] <;>
    cases flush <;> decide

/-- The lanes that a conversion narrows are singles. -/
def Conversion.Narrows (kind : Conversion) (v : BitVec 128) : Prop :=
  Double.isExactSingle (lane v 0) = true ∧
    (kind.isLower = false → Double.isExactSingle (lane v 1) = true)

theorem singleAt_pair (x y : Single) :
    singleAt (join (y ++ x) 0) 0 = x ∧ singleAt (join (y ++ x) 0) 1 = y := by
  constructor <;> apply BitVec.eq_of_getLsbD_eq <;> intro i hi <;>
    simp only [singleAt, BitVec.getLsbD_extractLsb', getLsbD_join, BitVec.getLsbD_append, hi,
      decide_true, Bool.true_and]
  · rw [if_pos (by omega), if_pos (by omega), Nat.mul_zero, Nat.zero_add]
  · rw [if_pos (by omega), if_neg (by omega), Nat.mul_one, Nat.add_sub_cancel_left]

/-- What the code of a conversion computes is exact, on either path. -/
theorem Conversion.value_eq_exact (kind : Conversion) (native flush : Bool) (v : BitVec 128)
    (h : kind.toDouble = false → native = true → kind.Narrows v) :
    kind.value native flush v = kind.exact v := by
  rw [Conversion.value]
  split
  · next hkeeps =>
    obtain ⟨hnative, hkeeps⟩ := Bool.and_eq_true_iff.1 hkeeps
    rw [Conversion.keepsNative, Bool.not_eq_true'] at hkeeps
    cases kind with
    | singleToDouble =>
      have hpass := (lowerCheck_passes flush _).1 hkeeps
      exact congrArg (join · 0) hpass.widen_eq
    | singleToDoublePair =>
      have hpass := (pairCheck_passes flush _).1 hkeeps
      exact congrArg₂ join hpass.1.widen_eq hpass.2.widen_eq
    | doubleToSingle =>
      have hpass := (lowerCheck_passes flush _).1 hkeeps
      have hat : singleAt (Conversion.doubleToSingle.native.eval flush v) 0 =
        narrowDouble flush (lane v 0) := singleAt_narrow _
      exact congrArg (BitVec.setWidth 128) (narrow_eq (h rfl hnative).1 (hat ▸ hpass))
    | doubleToSinglePair =>
      have hpass := (pairCheck_passes flush _).1 hkeeps
      have hat := singleAt_pair (narrowDouble flush (lane v 0)) (narrowDouble flush (lane v 1))
      have hlanes := h rfl hnative
      have hlow := narrow_eq hlanes.1 (hat.1 ▸ hpass.1)
      have hhigh := narrow_eq (hlanes.2 rfl) (hat.2 ▸ hpass.2)
      exact congrArg₂ (fun high low : Single => join (high ++ low) 0) hhigh hlow
  · rfl

end Recompiler.Lower
