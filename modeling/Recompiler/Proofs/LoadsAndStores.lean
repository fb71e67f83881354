import Mathlib.Order.Bounds.Defs
import Recompiler.Proofs.ExactValues

/-!
# Loads are exact and stores truncate

A load shifts a denormal number until it is normal and keeps every value, so a store undoes it. A
store drops bits: in the range of singles it gives the largest single that is not above the double.
The doubles that come back from a store and a load are those that rounding to single leaves alone,
and the signalling NaNs among the loaded singles.
-/

namespace Recompiler.Ieee

/-- The biased exponent. -/
def Double.exponentField (x : Double) : Nat := (x >>> 52).toNat % (1 <<< 11)

namespace Single

/-! ## Normalising -/

/-- The loop takes at most 23 steps, and stops at the first that brings the leading one to its
place. -/
theorem normalise_ends (exp : BitVec 64) {frac : BitVec 64} (h : Denormal frac) :
    ∃ n ≤ 23, normalise exp frac h = (exp - BitVec.ofNat 64 n, frac <<< n) ∧
      frac <<< n &&& leadingBit ≠ 0 ∧ ∀ k < n, frac <<< k &&& leadingBit = 0 := by
  have hne : frac.toNat ≠ 0 := Nat.ne_of_gt h.pos
  have hlog := log2_denormal hne h.lt
  have hpow : ∀ k ≤ 23, (frac <<< k).toNat = frac.toNat * 2 ^ k := by
    intro k hk
    have hbound : frac.toNat * 2 ^ k < 0x800000 * 2 ^ 23 :=
      Nat.mul_lt_mul_of_lt_of_le h.lt (Nat.pow_le_pow_right (by decide) hk) (by decide)
    exact toNat_shiftLeft_of_lt (by omega)
  have hscaled : ∀ k j, frac.toNat * 2 ^ k < 2 ^ (j + k) ↔ frac.toNat.log2 < j := by
    intro k j
    rw [Nat.pow_add, Nat.mul_lt_mul_right (Nat.two_pow_pos k), Nat.log2_lt hne]
  have hleading : ∀ k ≤ 23 - frac.toNat.log2,
      (frac <<< k &&& leadingBit = 0 ↔ frac.toNat.log2 + k < 23) := by
    intro k hk
    obtain ⟨j, hj⟩ : ∃ j, 23 = j + k := ⟨23 - k, by omega⟩
    have hsmall : frac.toNat * 2 ^ k < 2 ^ (j + 1 + k) := (hscaled k (j + 1)).2 (by omega)
    have hplaces : j + 1 + k = 24 := by omega
    have hiff : frac.toNat * 2 ^ k < 2 ^ 23 ↔ frac.toNat.log2 < j := hj ▸ hscaled k j
    rw [hplaces, ← hpow k (by omega)] at hsmall
    rw [and_leadingBit_eq_zero hsmall, hpow k (by omega)]
    exact hiff.trans (by omega)
  refine ⟨23 - frac.toNat.log2, by omega, normalise_eq exp h, ?_, fun k hk => ?_⟩
  · rw [ne_eq, hleading _ (Nat.le_refl _)]
    omega
  · rw [hleading k (by omega)]
    omega

/-! ## What a load gives -/

/-- A double is what a single denotes. -/
structure LoadedFrom (s : Single) (x : Double) : Prop where
  sign : x.isNegative = s.isNegative
  finite : s.datum.isFinite = true → x.datum.isFinite = true ∧ x.datum.value = s.datum.value
  infinite : ∀ negative, s.datum = .infinite negative → x = Double.infinity negative
  nan : s.isNan = true → x.isNan = true
  /-- The quiet bit of a NaN is the first bit of its fraction. -/
  quiet : s.isNan = true → x.getLsbD 51 = s.getLsbD 22
  payload : s.isNan = true → x &&& Double.fracMask = (s &&& fracMask).setWidth 64 <<< 29

theorem datum_ofParts_special (negative : Bool) {m : Nat} (hlt : m < 0x80000000)
    (h : 0x7F800000 ≤ m) : datum (ofParts negative m) =
      if m = 0x7F800000 then .infinite negative else .nan := by
  rw [datum, toNat_ofParts negative hlt, Format.single.datum_special negative
    (Format.signBit_single ▸ hlt) (Format.infinity_single ▸ h), Format.infinity_single]

theorem isFinite_ofParts (negative : Bool) {m : Nat} (hlt : m < 0x80000000) :
    (datum (ofParts negative m)).isFinite = decide (m < 0x7F800000) := by
  by_cases h : m < 0x7F800000
  · rw [datum, toNat_ofParts negative hlt,
      Format.single.isFinite_withSign negative (Format.infinity_single ▸ h), decide_eq_true h]
  · rw [datum_ofParts_special negative hlt (by omega), decide_eq_false h]
    split <;> rfl

/-- A load keeps the fraction of a NaN. -/
theorem payload_load (negative : Bool) {m : Nat} (hlt : m < 0x80000000) (h : 0x7F800000 ≤ m) :
    load (ofParts negative m) &&& Double.fracMask =
      (ofParts negative m &&& fracMask).setWidth 64 <<< 29 := by
  rw [load_special negative hlt h]
  apply BitVec.eq_of_toNat_eq
  rw [Double.toNat_and_fracMask, Double.toNat_ofParts negative (by omega), BitVec.toNat_shiftLeft,
    BitVec.toNat_setWidth, toNat_and_fracMask, toNat_ofParts negative hlt, Nat.shiftLeft_eq,
    Format.withSign, Format.withSign, Format.signBit_double, Format.signBit_single]
  split <;> omega

theorem quiet_load (negative : Bool) {m : Nat} (hlt : m < 0x80000000) (h : 0x7F800000 ≤ m) :
    (load (ofParts negative m)).getLsbD 51 = (ofParts negative m).getLsbD 22 := by
  have hbit := congrArg (fun x : Double => x.getLsbD 51) (payload_load negative hlt h)
  have hwide : Double.fracMask.getLsbD 51 = true := by decide
  have hnarrow : fracMask.getLsbD 22 = true := by decide
  simp only [BitVec.getLsbD_and, BitVec.getLsbD_shiftLeft, BitVec.getLsbD_setWidth, hwide,
    Nat.reduceSub, hnarrow, Bool.and_true] at hbit
  simpa using hbit

theorem loadedFrom_number (negative : Bool) {m : Nat} (h : m < 0x7F800000) :
    LoadedFrom (ofParts negative m) (load (ofParts negative m)) := by
  have hlt : m < 0x80000000 := by omega
  have hwide := widen_lt h
  have hfinite : (datum (ofParts negative m)).isFinite = true := by
    rw [isFinite_ofParts negative hlt, decide_eq_true h]
  have hnan : ¬isNan (ofParts negative m) = true := by
    rw [isNan_ofParts negative hlt, decide_eq_true_iff]
    omega
  rw [load_ofParts negative (Nat.le_of_lt h)]
  refine ⟨?_, fun _ => ⟨?_, value_widen negative h⟩, fun t ht => ?_, fun h => absurd h hnan,
    fun h => absurd h hnan, fun h => absurd h hnan⟩
  · rw [Double.isNegative_ofParts negative (by omega), isNegative_ofParts negative hlt]
  · rw [Double.datum, Double.toNat_ofParts negative (by omega)]
    exact Format.double.isFinite_withSign negative (Format.infinity_double ▸ hwide)
  · rw [ht] at hfinite
    cases hfinite

theorem loadedFrom_special (negative : Bool) {m : Nat} (hlt : m < 0x80000000)
    (h : 0x7F800000 ≤ m) : LoadedFrom (ofParts negative m) (load (ofParts negative m)) := by
  have hload := load_special negative hlt h
  refine ⟨?_, fun hfinite => ?_, fun t ht => ?_, fun hnan => ?_, fun _ => quiet_load negative hlt h,
    fun _ => payload_load negative hlt h⟩
  · rw [hload, Double.isNegative_ofParts negative (by omega), isNegative_ofParts negative hlt]
  · rw [isFinite_ofParts negative hlt, decide_eq_true_iff] at hfinite
    omega
  · rw [datum_ofParts_special negative hlt h] at ht
    split at ht
    · next hinf =>
      cases ht
      subst hinf
      cases negative <;> decide
    · cases ht
  · rw [isNan_ofParts negative hlt, decide_eq_true_iff] at hnan
    rw [hload, Double.isNan_ofParts negative (by omega), decide_eq_true_iff]
    omega

theorem loadedFrom_load (s : Single) : LoadedFrom s (load s) := by
  obtain ⟨negative, m, hlt, rfl⟩ := exists_parts s
  rcases Nat.lt_or_ge m 0x7F800000 with hnumber | hspecial
  · exact loadedFrom_number negative hnumber
  · exact loadedFrom_special negative hlt hspecial

/-- A store undoes a load. -/
theorem store_load (s : Single) : store (load s) = s := by
  obtain ⟨negative, m, hlt, rfl⟩ := exists_parts s
  by_cases hnumber : m ≤ 0x7F800000
  · rw [load_ofParts negative hnumber, store_widen negative hnumber]
  · rw [load_special negative hlt (by omega), store_bits negative (by omega) (by omega)]
    refine congrArg (ofParts negative) ?_
    omega

/-- Loading a single ends, is exact and can be undone, and the doubles that come back from a store
and a load are the loaded ones. -/
theorem load_is_exact_and_invertible (s : Single) :
    (∀ h : Denormal (s.setWidth 64 &&& 0x007FFFFF), ∃ n ≤ 23,
      normalise (1023 - 126) _ h =
        (897 - BitVec.ofNat 64 n, (s.setWidth 64 &&& 0x007FFFFF) <<< n) ∧
      (s.setWidth 64 &&& 0x007FFFFF) <<< n &&& leadingBit ≠ 0 ∧
      ∀ k < n, (s.setWidth 64 &&& 0x007FFFFF) <<< k &&& leadingBit = 0) ∧
    LoadedFrom s (load s) ∧ store (load s) = s ∧
    ∀ x, load (store x) = x ↔ x ∈ Set.range load := by
  refine ⟨normalise_ends 897, loadedFrom_load s, store_load s, fun x => ⟨fun h => ⟨_, h⟩, ?_⟩⟩
  rintro ⟨t, rfl⟩
  rw [store_load]

/-! ## What a store gives -/

/-- In the denormal range, a store counts how often the smallest single fits into the double. -/
theorem store_denormal_between (negative : Bool) {n : Nat} (hlow : 874 ≤ n / 2 ^ 52)
    (hhigh : n / 2 ^ 52 ≤ 896) : ∃ m < 0x800000,
      store (Double.ofParts negative n) = ofParts negative m ∧ widen m ≤ n ∧ n < widen (m + 1) := by
  have hgap := unitGap_eq
  obtain ⟨exp, hexp⟩ := Nat.exists_eq_add_one_of_ne_zero (show n / 2 ^ 52 ≠ 0 by omega)
  obtain ⟨k, hk⟩ : ∃ k, unitGap = k + exp := Nat.exists_eq_add_of_le' (by omega)
  have hunits : Format.double.units n = (2 ^ 52 + n % 2 ^ 52) * 2 ^ exp :=
    Format.double.units_of_exponent hexp
  have hstore := store_denormal negative (n := n) (by omega) hlow hhigh
  have hcount : (2 ^ 31 + n % 2 ^ 52 / 2 ^ 21) / 2 ^ (905 - n / 2 ^ 52) =
      (2 ^ 52 + n % 2 ^ 52) / 2 ^ k := by
    have hsig : 2 ^ 31 + n % 2 ^ 52 / 2 ^ 21 = (2 ^ 52 + n % 2 ^ 52) / 2 ^ 21 := by omega
    have hpow : 2 ^ 21 * 2 ^ (905 - n / 2 ^ 52) = 2 ^ k := by
      rw [← Nat.pow_add]
      exact congrArg (2 ^ ·) (by omega)
    rw [hsig, Nat.div_div_eq_div_mul, hpow]
  have hm : (2 ^ 52 + n % 2 ^ 52) / 2 ^ k < 0x800000 := by
    have hpow : 2 ^ 30 ≤ 2 ^ k := Nat.pow_le_pow_right (by decide) (by omega)
    exact Nat.div_lt_of_lt_mul (by omega)
  rw [hcount] at hstore
  -- in units of the smallest double
  have hwide : ∀ m ≤ 0x800000, Format.double.units (widen m) = m * 2 ^ k * 2 ^ exp := by
    intro m hm
    have hsingle : Format.single.units m = m := Format.single.units_of_le hm
    rw [units_widen (by omega), hsingle, hk, Nat.pow_add, Nat.mul_assoc]
  refine ⟨_, hm, hstore, ?_, ?_⟩
  · rw [← Format.double.units_strictMono.le_iff_le, hwide _ (Nat.le_of_lt hm), hunits]
    exact Nat.mul_le_mul_right _ (Nat.div_mul_le_self _ _)
  · rw [← Format.double.units_strictMono.lt_iff_lt, hwide _ hm, hunits]
    have hnext : 2 ^ 52 + n % 2 ^ 52 < ((2 ^ 52 + n % 2 ^ 52) / 2 ^ k + 1) * 2 ^ k := by
      rw [Nat.succ_mul]
      exact Nat.lt_div_mul_add (Nat.two_pow_pos k)
    exact Nat.mul_lt_mul_of_pos_right hnext (Nat.two_pow_pos exp)

/-- Between the smallest and the largest single, a store gives the last single up to the double. -/
theorem store_between (negative : Bool) {n : Nat} (hlow : 874 ≤ n / 2 ^ 52)
    (hhigh : n / 2 ^ 52 ≤ 1150) : ∃ m < 0x7F800000,
      store (Double.ofParts negative n) = ofParts negative m ∧ widen m ≤ n ∧ n < widen (m + 1) := by
  by_cases hdenormal : n / 2 ^ 52 ≤ 896
  · obtain ⟨m, hm, hbetween⟩ := store_denormal_between negative hlow hdenormal
    exact ⟨m, by omega, hbetween⟩
  · have hbits : n / 2 ^ 62 * 2 ^ 30 + n / 2 ^ 29 % 2 ^ 30 =
        (n / 2 ^ 52 - 896) * 0x800000 + n % 2 ^ 52 / 2 ^ 29 := by omega
    have hstore := store_bits negative (n := n) (by omega) (by omega)
    rw [hbits] at hstore
    refine ⟨_, by omega, hstore, ?_, ?_⟩
    · rw [widen, if_neg (by omega), if_neg (by omega), if_pos (by omega)]
      omega
    · rw [widen, if_neg (by omega), if_neg (by omega)]
      split <;> omega

/-- The magnitudes of the finite singles that are not above a double. -/
def magnitudesUpTo (x : Double) : Set ℚ :=
  {v | ∃ t : Single, t.datum.isFinite = true ∧ |t.datum.value| = v ∧ v ≤ |x.datum.value|}

theorem isGreatest_store {x : Double} (hlow : 874 ≤ x.exponentField)
    (hhigh : x.exponentField ≤ 1150) :
    (store x).datum.isFinite = true ∧ (store x).isNegative = x.isNegative ∧
      IsGreatest (magnitudesUpTo x) |(store x).datum.value| := by
  obtain ⟨negative, n, hlt, rfl⟩ := Double.exists_parts x
  rw [Double.exponentField, exponent_ofParts negative hlt] at hlow hhigh
  obtain ⟨m, hm, hstore, hle, hnext⟩ := store_between negative hlow hhigh
  have hfinite : (datum (ofParts negative m)).isFinite = true := by
    rw [isFinite_ofParts negative (by omega)]
    exact decide_eq_true hm
  rw [hstore]
  refine ⟨hfinite, ?_, ⟨_, hfinite, rfl, ?_⟩, ?_⟩
  · rw [isNegative_ofParts negative (by omega), Double.isNegative_ofParts negative hlt]
  · exact (abs_value_le_iff_widen negative negative hm (by omega)).2 hle
  · rintro v ⟨t, ht, rfl, hv⟩
    obtain ⟨s, k, hk, rfl⟩ := exists_parts t
    rw [isFinite_ofParts s hk, decide_eq_true_iff] at ht
    rw [abs_value_le_iff_widen s negative ht (by omega)] at hv
    have hkm : k ≤ m := by
      by_contra hgt
      have := widen_le_widen (show m + 1 ≤ k by omega) ht
      omega
    calc |(datum (ofParts s k)).value|
        ≤ |(Double.datum (Double.ofParts negative (widen m))).value| :=
          (abs_value_le_iff_widen s negative ht (widen_lt hm)).2 (widen_le_widen hkm hm)
      _ = |(datum (ofParts negative m)).value| := by rw [value_widen negative hm]

/-- The exponent fields of the range are those of the magnitudes from the smallest single to below
the first power of two that is too large. -/
theorem abs_value_range {x : Double} (hlow : 874 ≤ x.exponentField)
    (hhigh : x.exponentField ≤ 1150) :
    x.datum.isFinite = true ∧ 2 ^ (-149 : ℤ) ≤ |x.datum.value| ∧
      |x.datum.value| < 2 ^ (128 : ℤ) := by
  obtain ⟨negative, n, hlt, rfl⟩ := Double.exists_parts x
  rw [Double.exponentField, exponent_ofParts negative hlt] at hlow hhigh
  have hfinite : n < Format.double.infinity := by
    rw [Format.infinity_double]
    omega
  have hdatum : Double.datum (Double.ofParts negative n) =
      Format.double.datum (Format.double.withSign negative n) := by
    rw [Double.datum, Double.toNat_ofParts negative hlt]
  refine ⟨?_, ?_, ?_⟩
  · rw [hdatum]
    exact Format.double.isFinite_withSign negative hfinite
  · have hsmallest : |(datum (ofParts false 1)).value| = 2 ^ (-149 : ℤ) := by
      rw [datum, toNat_ofParts false (by decide),
        Format.single.abs_value_withSign false (by decide),
        Format.single.units_of_le (by decide), Nat.cast_one, one_mul, Format.minExponent_single]
    have hwide : widen 1 = 874 * 2 ^ 52 := by decide
    rw [← hsmallest, abs_value_le_iff_widen false negative (by decide) (by omega), hwide]
    omega
  · obtain ⟨exp, hexp⟩ : ∃ exp, exp = 1150 := ⟨_, rfl⟩
    have hnext : Format.double.units ((exp + 1) * 2 ^ 52 + 0) = 2 ^ 52 * 2 ^ exp :=
      Format.double.units_normal exp (Nat.zero_le _)
    have hunits : Format.double.units n < 2 ^ 52 * 2 ^ exp := by
      rw [← hnext]
      exact Format.double.units_strictMono (by omega)
    have hpow : (2 : ℚ) ^ (128 : ℤ) = (2 ^ 52 * 2 ^ exp : Nat) * 2 ^ Format.double.minExponent := by
      have hsum : ((52 + exp : Nat) : ℤ) + -1074 = 128 := by omega
      rw [Format.minExponent_double, ← Nat.pow_add, Nat.cast_pow, Nat.cast_ofNat, ← zpow_natCast,
        ← zpow_add₀ two_ne_zero, hsum]
    rw [hdatum, Format.double.abs_value_withSign negative hfinite, hpow]
    exact mul_lt_mul_of_pos_right (Nat.cast_lt.2 hunits) (by positivity)

/-- Storing a double in the range of singles truncates it: the single has the sign of the double and
the largest magnitude of a single that is not above it. So the order of magnitudes is kept, and
nothing is rounded up. -/
theorem store_truncates (x : Double) (hlow : 874 ≤ x.exponentField)
    (hhigh : x.exponentField ≤ 1150) :
    (x.datum.isFinite = true ∧ 2 ^ (-149 : ℤ) ≤ |x.datum.value| ∧ |x.datum.value| < 2 ^ (128 : ℤ)) ∧
    (store x).datum.isFinite = true ∧ (store x).isNegative = x.isNegative ∧
    IsGreatest (magnitudesUpTo x) |(store x).datum.value| ∧
    |(store x).datum.value| ≤ |x.datum.value| ∧
    ∀ y : Double, 874 ≤ y.exponentField → y.exponentField ≤ 1150 →
      |x.datum.value| ≤ |y.datum.value| → |(store x).datum.value| ≤ |(store y).datum.value| := by
  obtain ⟨hfinite, hsign, hgreatest⟩ := isGreatest_store hlow hhigh
  obtain ⟨t, -, -, hle⟩ := hgreatest.1
  refine ⟨abs_value_range hlow hhigh, hfinite, hsign, hgreatest, hle, fun y hlow' hhigh' hxy => ?_⟩
  obtain ⟨-, -, hgreatest'⟩ := isGreatest_store hlow' hhigh'
  exact hgreatest'.2 ⟨store x, hfinite, rfl, hle.trans hxy⟩

/-- All bits of a fraction set, below the smallest normal single: the largest denormal single. -/
theorem store_truncates_full_fraction :
    Double.exponentField 0xB80FFFFFFFFFFFFF = 896 ∧ store 0xB80FFFFFFFFFFFFF = 0x807FFFFF ∧
    |Datum.value (datum 0x807FFFFF)| ≤ |Datum.value (Double.datum 0xB80FFFFFFFFFFFFF)| ∧
    IsGreatest (magnitudesUpTo 0xB80FFFFFFFFFFFFF) |Datum.value (datum 0x807FFFFF)| := by
  have hstore : store 0xB80FFFFFFFFFFFFF = 0x807FFFFF := by decide
  obtain ⟨-, -, -, hgreatest, hle, -⟩ :=
    store_truncates 0xB80FFFFFFFFFFFFF (by decide) (by decide)
  rw [hstore] at hgreatest hle
  exact ⟨by decide, hstore, hle, hgreatest⟩

/-! ## Stores, loads and rounding -/

/-- A NaN loses the low bits of its fraction in a store and a load. -/
theorem load_store_special (negative : Bool) {n : Nat} (hlt : n < 0x8000000000000000)
    (h : 0x7FF0000000000000 ≤ n) :
    load (store (Double.ofParts negative n)) = Double.ofParts negative (n / 2 ^ 29 * 2 ^ 29) := by
  rw [store_bits negative hlt (by omega), load_special negative (by omega) (by omega)]
  refine congrArg (Double.ofParts negative) ?_
  omega

theorem quiet_ofParts (negative : Bool) {n : Nat} (h : n < 0x8000000000000000) :
    Double.ofParts negative n &&& Double.quietBit = 0 ↔ n / 2 ^ 51 % 2 = 0 := by
  have hmask : Double.quietBit.toNat = (2 ^ 1 - 1) <<< 51 := by decide
  have hzero : (0 : Double).toNat = 0 := rfl
  rw [BitVec.toNat_eq, BitVec.toNat_and, hmask, and_field, Nat.shiftRight_eq_div_pow,
    Nat.shiftLeft_eq, Double.toNat_ofParts negative h, hzero, Format.withSign,
    Format.signBit_double]
  split <;> omega

/-- Rounding keeps what a store and a load keep, signalling NaNs apart. -/
theorem isExactSingle_iff_load_store (x : Double) : x.isExactSingle = true ↔
    load (store x) = x ∧ ¬(x.isNan = true ∧ x &&& Double.quietBit = 0) := by
  cases hnan : x.isNan with
  | false =>
    simp only [Bool.false_eq_true, false_and, not_false_eq_true, and_true]
    constructor
    · intro h
      obtain ⟨negative, m, hm, rfl⟩ := exists_widen h hnan
      rw [store_widen negative hm, load_ofParts negative hm]
    · intro h
      obtain ⟨negative, m, hlt, hstore⟩ := exists_parts (store x)
      have hm : m ≤ 0x7F800000 := by
        by_contra hgt
        have := (loadedFrom_load (store x)).nan (by
          rw [hstore, isNan_ofParts negative hlt]
          exact decide_eq_true (by omega))
        rw [h, hnan] at this
        cases this
      rw [hstore, load_ofParts negative hm] at h
      rw [← h, Double.isExactSingle_iff, Double.roundToSingle_widen negative hm]
  | true =>
    obtain ⟨negative, n, hlt, rfl⟩ := Double.exists_parts x
    rw [Double.isNan_ofParts negative hlt, decide_eq_true_iff] at hnan
    have hinj : ∀ k < 0x8000000000000000,
        Double.ofParts negative k = Double.ofParts negative n ↔ k = n :=
      fun k hk => ⟨Double.ofParts_inj hk hlt, fun h => h ▸ rfl⟩
    rw [Double.isExactSingle_iff, Double.roundToSingle_nan negative hlt hnan,
      load_store_special negative hlt (by omega), quiet_ofParts negative hlt, hinj _ (by omega),
      hinj _ (by omega), eq_self, true_and]
    omega

/-- Rounding to single and the conversions of loads and stores agree on which doubles are singles.
Rounding is idempotent and does not look at the sign, and a single needs no rounding to 25 bits. -/
theorem rounding_agrees_with_conversion (x : Double) :
    (x.isExactSingle = true ↔
      load (store x) = x ∧ ¬(x.isNan = true ∧ x &&& Double.quietBit = 0)) ∧
    x.roundToSingle.roundToSingle = x.roundToSingle ∧
    Double.roundToSingle (x ^^^ Double.signMask) = x.roundToSingle ^^^ Double.signMask ∧
    Double.roundToSingle (x &&& ~~~Double.signMask) = x.roundToSingle &&& ~~~Double.signMask ∧
    (x.isExactSingle = true → x.roundTo25Bits = x) :=
  ⟨isExactSingle_iff_load_store x, x.roundToSingle_idem, x.roundToSingle_negate,
    x.roundToSingle_clearSign, fun h =>
      Double.roundTo25Bits_of_isShort (Double.isShort_of_isExactSingle h)⟩

end Single

end Recompiler.Ieee
