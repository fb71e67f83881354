import Mathlib.Tactic.Ring
import Recompiler.PowerPC.FloatStep

/-!
# Rounding to single

A number that is not a NaN is a sign and a magnitude, and conversions act on magnitudes. On these,
narrowing undoes widening, so rounding to single is idempotent and does not look at the sign.
-/

namespace Recompiler.Ieee

/-! ## Natural numbers -/

theorem and_field (n len lo : Nat) :
    n &&& ((2 ^ len - 1) <<< lo) = ((n >>> lo) % 2 ^ len) <<< lo := by
  apply Nat.eq_of_testBit_eq
  intro i
  rw [Nat.testBit_and, Nat.testBit_shiftLeft, Nat.testBit_shiftLeft, Nat.testBit_mod_two_pow,
    Nat.testBit_two_pow_sub_one, Nat.testBit_shiftRight]
  by_cases hi : lo ≤ i
  · rw [Nat.add_sub_cancel' hi, Bool.and_comm, Bool.and_assoc]
  · simp [hi]

theorem roundShift_mul (a k : Nat) : roundShift (a * 2 ^ k) k = a := by
  have hquotient : (a * 2 ^ k) >>> k = a := by
    rw [Nat.shiftRight_eq_div_pow, Nat.mul_div_cancel _ (Nat.two_pow_pos k)]
  have hrest : a * 2 ^ k % 1 <<< k = 0 := by
    rw [Nat.shiftLeft_eq, Nat.one_mul, Nat.mul_mod_left]
  have hpos : 0 < 1 <<< k := by
    rw [Nat.shiftLeft_eq, Nat.one_mul]
    exact Nat.two_pow_pos k
  unfold roundShift
  simp only [hquotient, hrest]
  rw [if_neg (by omega)]

theorem log2_mul_two_pow {n : Nat} (hn : n ≠ 0) (k : Nat) : (n * 2 ^ k).log2 = n.log2 + k := by
  have hpos := Nat.two_pow_pos k
  have hne : n * 2 ^ k ≠ 0 := Nat.mul_ne_zero hn (by omega)
  rw [Nat.log2_eq_iff hne, Nat.pow_add, Nat.add_right_comm, Nat.pow_add 2 (n.log2 + 1)]
  exact ⟨Nat.mul_le_mul_right _ (Nat.log2_self_le hn),
    Nat.mul_lt_mul_of_pos_right Nat.lt_log2_self hpos⟩

namespace Format

/-! ## Sign and magnitude -/

theorem signBit_eq (format : Format) :
    format.signBit = 2 ^ format.fracBits * 2 ^ format.expBits := by
  rw [signBit, Nat.shiftLeft_eq, Nat.one_mul, Nat.pow_add]

theorem infinity_eq (format : Format) :
    format.infinity = (2 ^ format.expBits - 1) * 2 ^ format.fracBits := by
  rw [infinity, maxExp, Nat.shiftLeft_eq, Nat.shiftLeft_eq, Nat.one_mul]

/-- The fields of a bit pattern with a given sign and magnitude. -/
theorem fields_withSign (format : Format) (negative : Bool) {magnitude : Nat}
    (h : magnitude < format.signBit) :
    (format.withSign negative magnitude / format.signBit % 2 == 1) = negative ∧
    format.withSign negative magnitude >>> format.fracBits % 1 <<< format.expBits =
      magnitude / 2 ^ format.fracBits ∧
    format.withSign negative magnitude % 1 <<< format.fracBits =
      magnitude % 2 ^ format.fracBits := by
  have hp := Nat.two_pow_pos format.fracBits
  have hdiv : magnitude / 2 ^ format.fracBits < 2 ^ format.expBits := by
    rw [Nat.div_lt_iff_lt_mul hp, Nat.mul_comm, ← signBit_eq]
    exact h
  rw [Nat.shiftRight_eq_div_pow, Nat.shiftLeft_eq, Nat.one_mul, Nat.shiftLeft_eq, Nat.one_mul]
  cases negative with
  | false => simp [withSign, Nat.div_eq_of_lt h, Nat.mod_eq_of_lt hdiv]
  | true =>
    have hpos : 0 < format.signBit := by omega
    simp only [withSign, if_true]
    refine ⟨by simp [Nat.add_div_left magnitude hpos, Nat.div_eq_of_lt h], ?_, ?_⟩
    · rw [signBit_eq, Nat.mul_add_div hp, Nat.add_mod_left, Nat.mod_eq_of_lt hdiv]
    · rw [signBit_eq, Nat.mul_add_mod]

/-- The datum of a finite number. -/
theorem datum_withSign (format : Format) (negative : Bool) {magnitude : Nat}
    (h : magnitude < format.infinity) :
    format.datum (format.withSign negative magnitude) =
      if magnitude < 2 ^ format.fracBits then .finite negative magnitude format.minExponent
      else .finite negative (2 ^ format.fracBits + magnitude % 2 ^ format.fracBits)
        (format.minExponent + (magnitude / 2 ^ format.fracBits : Nat) - 1) := by
  have hp := Nat.two_pow_pos format.fracBits
  have hq := Nat.two_pow_pos format.expBits
  have hdiv : magnitude / 2 ^ format.fracBits < 2 ^ format.expBits - 1 := by
    rw [Nat.div_lt_iff_lt_mul hp, ← infinity_eq]
    exact h
  have hlt : magnitude < format.signBit := by
    rw [infinity_eq] at h
    rw [signBit_eq, Nat.mul_comm]
    exact Nat.lt_of_lt_of_le h (Nat.mul_le_mul_right _ (Nat.sub_le _ _))
  obtain ⟨hneg, hexp, hfrac⟩ := format.fields_withSign negative hlt
  have hmax : magnitude / 2 ^ format.fracBits ≠ format.maxExp := by
    rw [maxExp, Nat.shiftLeft_eq, Nat.one_mul]
    omega
  simp only [datum, hneg, hexp, hfrac]
  rw [if_neg hmax, Nat.shiftLeft_eq, Nat.one_mul]
  by_cases hsmall : magnitude < 2 ^ format.fracBits
  · rw [if_pos (Nat.div_eq_of_lt hsmall), if_pos hsmall, Nat.mod_eq_of_lt hsmall]
  · have hne : magnitude / 2 ^ format.fracBits ≠ 0 := by
      rw [ne_eq, Nat.div_eq_zero_iff]
      omega
    rw [if_neg hne, if_neg hsmall]

/-- Every bit pattern is a sign and a magnitude. -/
theorem exists_withSign (format : Format) {bits : Nat} (h : bits < 2 * format.signBit) :
    ∃ negative magnitude, magnitude < format.signBit ∧
      bits = format.withSign negative magnitude := by
  by_cases hsign : bits < format.signBit
  · exact ⟨false, bits, hsign, rfl⟩
  · have hrest : bits = format.signBit + (bits - format.signBit) := by omega
    exact ⟨true, bits - format.signBit, by omega, hrest⟩

theorem signBit_double : double.signBit = 0x8000000000000000 := by decide
theorem infinity_double : double.infinity = 0x7FF0000000000000 := by decide
theorem minExponent_double : double.minExponent = -1074 := by decide

theorem signBit_single : single.signBit = 0x80000000 := by decide
theorem infinity_single : single.infinity = 0x7F800000 := by decide
theorem minExponent_single : single.minExponent = -149 := by decide

end Format

namespace Double

/-- The double of a sign and a magnitude. -/
def ofParts (negative : Bool) (magnitude : Nat) : Double :=
  BitVec.ofNat 64 (Format.double.withSign negative magnitude)

theorem toNat_ofParts (negative : Bool) {magnitude : Nat} (h : magnitude < 0x8000000000000000) :
    (ofParts negative magnitude).toNat = Format.double.withSign negative magnitude := by
  rw [ofParts, Format.withSign, Format.signBit_double, BitVec.toNat_ofNat]
  split <;> omega

theorem exists_parts (x : Double) : ∃ negative magnitude, magnitude < 0x8000000000000000 ∧
    x = ofParts negative magnitude := by
  have hbits : x.toNat < 2 * Format.double.signBit := x.isLt
  obtain ⟨negative, magnitude, hlt, hx⟩ := Format.double.exists_withSign hbits
  rw [Format.signBit_double] at hlt
  refine ⟨negative, magnitude, hlt, BitVec.eq_of_toNat_eq ?_⟩
  rw [hx, toNat_ofParts negative hlt]

theorem toNat_and_expMask (x : Double) :
    (x &&& expMask).toNat = x.toNat / 0x10000000000000 % 2048 * 0x10000000000000 := by
  have hmask : expMask.toNat = (2 ^ 11 - 1) <<< 52 := by decide
  rw [BitVec.toNat_and, hmask, and_field, Nat.shiftRight_eq_div_pow, Nat.shiftLeft_eq]
  simp only [Nat.reducePow]

theorem toNat_and_fracMask (x : Double) : (x &&& fracMask).toNat = x.toNat % 0x10000000000000 := by
  have hmask : fracMask.toNat = (2 ^ 52 - 1) <<< 0 := by decide
  rw [BitVec.toNat_and, hmask, and_field, Nat.shiftRight_zero, Nat.shiftLeft_zero]
  simp only [Nat.reducePow]

theorem toNat_and_signMask (negative : Bool) {magnitude : Nat}
    (h : magnitude < 0x8000000000000000) :
    (ofParts negative magnitude &&& signMask).toNat =
      if negative then 0x8000000000000000 else 0 := by
  have hmask : signMask.toNat = (2 ^ 1 - 1) <<< 63 := by decide
  rw [BitVec.toNat_and, hmask, and_field, Nat.shiftRight_eq_div_pow, Nat.shiftLeft_eq,
    toNat_ofParts negative h, Format.withSign, Format.signBit_double]
  split <;> omega

theorem isNegative_ofParts (negative : Bool) {magnitude : Nat}
    (h : magnitude < 0x8000000000000000) : isNegative (ofParts negative magnitude) = negative := by
  rw [isNegative, Bool.eq_iff_iff, bne_iff_ne, ne_eq, BitVec.toNat_eq,
    toNat_and_signMask negative h]
  cases negative <;> decide

theorem isNan_ofParts (negative : Bool) {magnitude : Nat} (h : magnitude < 0x8000000000000000) :
    isNan (ofParts negative magnitude) = decide (0x7FF0000000000000 < magnitude) := by
  have hmask : expMask.toNat = 0x7FF0000000000000 := by decide
  have hzero : (0 : Double).toNat = 0 := rfl
  have hiff : isNan (ofParts negative magnitude) = true ↔ 0x7FF0000000000000 < magnitude := by
    rw [isNan, Bool.and_eq_true, beq_iff_eq, bne_iff_ne, ne_eq, BitVec.toNat_eq, BitVec.toNat_eq,
      toNat_and_expMask, toNat_and_fracMask, hmask, hzero, toNat_ofParts negative h,
      Format.withSign, Format.signBit_double]
    split <;> omega
  rw [Bool.eq_iff_iff, hiff, decide_eq_true_iff]

theorem datum_ofParts (negative : Bool) {magnitude : Nat} (h : magnitude < 0x7FF0000000000000) :
    datum (ofParts negative magnitude) =
      if magnitude < 0x10000000000000 then .finite negative magnitude (-1074)
      else .finite negative (0x10000000000000 + magnitude % 0x10000000000000)
        (-1074 + (magnitude / 0x10000000000000 : Nat) - 1) := by
  rw [datum, toNat_ofParts negative (by omega),
    Format.datum_withSign .double negative (Format.infinity_double ▸ h), Format.minExponent_double]
  simp only [Format.double, Nat.reducePow]
  rfl

end Double

namespace Single

/-- The single of a sign and a magnitude. -/
def ofParts (negative : Bool) (magnitude : Nat) : Single :=
  BitVec.ofNat 32 (Format.single.withSign negative magnitude)

theorem toNat_ofParts (negative : Bool) {magnitude : Nat} (h : magnitude < 0x80000000) :
    (ofParts negative magnitude).toNat = Format.single.withSign negative magnitude := by
  rw [ofParts, Format.withSign, Format.signBit_single, BitVec.toNat_ofNat]
  split <;> omega

theorem exists_parts (x : Single) : ∃ negative magnitude, magnitude < 0x80000000 ∧
    x = ofParts negative magnitude := by
  have hbits : x.toNat < 2 * Format.single.signBit := x.isLt
  obtain ⟨negative, magnitude, hlt, hx⟩ := Format.single.exists_withSign hbits
  rw [Format.signBit_single] at hlt
  refine ⟨negative, magnitude, hlt, BitVec.eq_of_toNat_eq ?_⟩
  rw [hx, toNat_ofParts negative hlt]

theorem toNat_and_expMask (x : Single) :
    (x &&& expMask).toNat = x.toNat / 0x800000 % 256 * 0x800000 := by
  have hmask : expMask.toNat = (2 ^ 8 - 1) <<< 23 := by decide
  rw [BitVec.toNat_and, hmask, and_field, Nat.shiftRight_eq_div_pow, Nat.shiftLeft_eq]
  simp only [Nat.reducePow]

theorem toNat_and_fracMask (x : Single) : (x &&& fracMask).toNat = x.toNat % 0x800000 := by
  have hmask : fracMask.toNat = (2 ^ 23 - 1) <<< 0 := by decide
  rw [BitVec.toNat_and, hmask, and_field, Nat.shiftRight_zero, Nat.shiftLeft_zero]
  simp only [Nat.reducePow]

theorem isNan_ofParts (negative : Bool) {magnitude : Nat} (h : magnitude < 0x80000000) :
    isNan (ofParts negative magnitude) = decide (0x7F800000 < magnitude) := by
  have hmask : expMask.toNat = 0x7F800000 := by decide
  have hzero : (0 : Single).toNat = 0 := rfl
  have hiff : isNan (ofParts negative magnitude) = true ↔ 0x7F800000 < magnitude := by
    rw [isNan, Bool.and_eq_true, beq_iff_eq, bne_iff_ne, ne_eq, BitVec.toNat_eq, BitVec.toNat_eq,
      toNat_and_expMask, toNat_and_fracMask, hmask, hzero, toNat_ofParts negative h,
      Format.withSign, Format.signBit_single]
    split <;> omega
  rw [Bool.eq_iff_iff, hiff, decide_eq_true_iff]

theorem datum_ofParts (negative : Bool) {magnitude : Nat} (h : magnitude < 0x7F800000) :
    datum (ofParts negative magnitude) =
      if magnitude < 0x800000 then .finite negative magnitude (-149)
      else .finite negative (0x800000 + magnitude % 0x800000)
        (-149 + (magnitude / 0x800000 : Nat) - 1) := by
  rw [datum, toNat_ofParts negative (by omega),
    Format.datum_withSign .single negative (Format.infinity_single ▸ h), Format.minExponent_single]
  simp only [Format.single, Nat.reducePow]
  rfl

end Single

/-! ## Widening -/

/-- The magnitude of the double of the same value. -/
def widen (magnitude : Nat) : Nat :=
  if magnitude = 0 then 0
  else if magnitude < 0x800000 then
    (magnitude.log2 + 873) * 2 ^ 52 + magnitude * 2 ^ (52 - magnitude.log2)
  else if magnitude < 0x7F800000 then
    (magnitude / 0x800000 + 896) * 2 ^ 52 + magnitude % 0x800000 * 2 ^ 29
  else 0x7FF0000000000000

/-- A number with few bits is not rounded. -/
theorem round_double {n : Nat} {e : Int} (hn : n ≠ 0) (hlog : n.log2 ≤ 23) (he : -149 ≤ e)
    (hmax : e + n.log2 ≤ 127) : Format.double.round n e =
      (e + n.log2 + 1022).toNat * 2 ^ 52 + n * 2 ^ (52 - n.log2) := by
  have hplace : Format.double.lastPlace n e = e + n.log2 - 52 := by
    rw [Format.lastPlace, Format.minExponent_double]
    simp only [Format.double]
    omega
  have hkept : n * 2 ^ (52 - n.log2) < 2 ^ 53 := by
    have hlt : n * 2 ^ (52 - n.log2) < 2 ^ (n.log2 + 1) * 2 ^ (52 - n.log2) :=
      Nat.mul_lt_mul_of_pos_right Nat.lt_log2_self (Nat.two_pow_pos _)
    rw [← Nat.pow_add] at hlt
    rwa [show n.log2 + 1 + (52 - n.log2) = 53 by omega] at hlt
  have hexp : (e + n.log2 - 52 - -1074).toNat = (e + n.log2 + 1022).toNat := by omega
  have hshift : (e - (e + n.log2 - 52)).toNat = 52 - n.log2 := by omega
  simp only [Format.round, hplace, Format.minExponent_double, Format.infinity_double, hexp, hshift]
  rw [if_neg hn, if_pos (by omega), Nat.shiftLeft_eq, Nat.shiftLeft_eq]
  have hfrac : Format.double.fracBits = 52 := rfl
  rw [hfrac]
  generalize n * 2 ^ (52 - n.log2) = kept at hkept
  omega

theorem log2_normal {f : Nat} (h : f < 0x800000) : (0x800000 + f).log2 = 23 := by
  rw [Nat.log2_eq_iff (by omega)]
  omega

theorem log2_denormal {m : Nat} (hm : m ≠ 0) (h : m < 0x800000) : m.log2 ≤ 22 := by
  have := (Nat.log2_lt (k := 23) hm).2 h
  omega

/-- The magnitude of a single is kept exactly. -/
theorem toDouble_ofParts (negative : Bool) {m : Nat} (h : m ≤ 0x7F800000) :
    Single.toDouble (Single.ofParts negative m) = Double.ofParts negative (widen m) := by
  have hnan : Single.isNan (Single.ofParts negative m) = false := by
    rw [Single.isNan_ofParts negative (by omega)]
    exact decide_eq_false (by omega)
  rw [Single.toDouble, if_neg (by rw [hnan]; exact Bool.false_ne_true)]
  by_cases hinf : m = 0x7F800000
  · subst hinf
    cases negative <;> decide
  · rw [Single.datum_ofParts negative (by omega)]
    have hfinite : ∀ n e, Double.ofDatum (.finite negative n e) =
        Double.ofParts negative (Format.double.round n e) := fun _ _ => rfl
    by_cases hsmall : m < 0x800000
    · rw [if_pos hsmall, hfinite]
      by_cases hzero : m = 0
      · subst hzero
        rfl
      · have hlog := log2_denormal hzero hsmall
        rw [round_double hzero (by omega) (by omega) (by omega), widen, if_neg hzero, if_pos hsmall]
        congr 3
        omega
    · have hlog := log2_normal (Nat.mod_lt m (show 0 < 0x800000 by decide))
      rw [if_neg hsmall, hfinite, round_double (by omega) (by omega) (by omega) (by omega),
        hlog, widen, if_neg (by omega), if_neg hsmall, if_pos (by omega)]
      refine congrArg (Double.ofParts negative) ?_
      simp only [Nat.reduceSub, Nat.reducePow]
      omega

/-- The denormal part of a wide magnitude is below the next power of two. -/
theorem denormal_lt {m : Nat} (hlog : m.log2 ≤ 22) : m * 2 ^ (52 - m.log2) < 2 ^ 53 := by
  have hlt : m * 2 ^ (52 - m.log2) < 2 ^ (m.log2 + 1) * 2 ^ (52 - m.log2) :=
    Nat.mul_lt_mul_of_pos_right Nat.lt_log2_self (Nat.two_pow_pos _)
  rw [← Nat.pow_add] at hlt
  rwa [show m.log2 + 1 + (52 - m.log2) = 53 by omega] at hlt

theorem le_denormal {m : Nat} (hm : m ≠ 0) (hlog : m.log2 ≤ 22) :
    2 ^ 52 ≤ m * 2 ^ (52 - m.log2) := by
  have hle : 2 ^ m.log2 * 2 ^ (52 - m.log2) ≤ m * 2 ^ (52 - m.log2) :=
    Nat.mul_le_mul_right _ (Nat.log2_self_le hm)
  rw [← Nat.pow_add] at hle
  rwa [show m.log2 + (52 - m.log2) = 52 by omega] at hle

theorem widen_lt {m : Nat} (h : m < 0x7F800000) : widen m < 0x7FF0000000000000 := by
  unfold widen
  by_cases hzero : m = 0
  · rw [if_pos hzero]
    omega
  rw [if_neg hzero]
  by_cases hsmall : m < 0x800000
  · have hlog := log2_denormal hzero hsmall
    have hlt := denormal_lt hlog
    rw [if_pos hsmall]
    generalize m * 2 ^ (52 - m.log2) = kept at hlt
    omega
  · rw [if_neg hsmall, if_pos h]
    omega

theorem widen_infinity : widen 0x7F800000 = 0x7FF0000000000000 := by decide

theorem widen_le {m : Nat} (h : m ≤ 0x7F800000) : widen m ≤ 0x7FF0000000000000 := by
  rcases Nat.lt_or_eq_of_le h with hlt | rfl
  · exact Nat.le_of_lt (widen_lt hlt)
  · exact Nat.le_of_eq widen_infinity

/-- A wide magnitude has its low 29 bits clear. -/
theorem widen_mod (m : Nat) : widen m % 2 ^ 29 = 0 := by
  unfold widen
  split
  · rfl
  · split
    · next hzero hsmall =>
      have hlog := log2_denormal hzero hsmall
      have hpow : 2 ^ (52 - m.log2) = 2 ^ (23 - m.log2) * 2 ^ 29 := by
        rw [← Nat.pow_add]
        congr 1
        omega
      rw [hpow, ← Nat.mul_assoc]
      generalize m * 2 ^ (23 - m.log2) = high
      omega
    · split <;> omega

/-- A multiple of the last place is not rounded. -/
theorem round_single {n kept place k : Nat} {e : Int} (hn : n ≠ 0) (hkept : n = kept * 2 ^ k)
    (hplace : Format.single.lastPlace n e = -149 + place) (hk : -149 + place - e = (k : Int))
    (hpos : 0 < k) (hfinite : place * 0x800000 + kept < 0x7F800000) :
    Format.single.round n e = place * 0x800000 + kept := by
  have hshift : (-149 + (place : Int) - e).toNat = k := by omega
  have hexp : (-149 + (place : Int) - -149).toNat = place := by omega
  have hfrac : Format.single.fracBits = 23 := rfl
  simp only [Format.round, hplace, Format.minExponent_single, Format.infinity_single, hshift, hexp,
    hfrac]
  rw [if_neg hn, if_neg (by omega), hkept, roundShift_mul, Nat.shiftLeft_eq]
  simp only [Nat.reducePow]
  exact Nat.min_eq_right (Nat.le_of_lt hfinite)

/-- Narrowing gives the magnitude back. -/
theorem narrow_widen {m : Nat} (h : m < 0x7F800000) (negative : Bool) :
    ∃ n e, Double.datum (Double.ofParts negative (widen m)) = .finite negative n e ∧
      Format.single.round n e = m := by
  by_cases hzero : m = 0
  · subst hzero
    exact ⟨0, _, Double.datum_ofParts negative (by decide), rfl⟩
  have hdatum := Double.datum_ofParts negative (widen_lt h)
  have hlast : ∀ n e, n.log2 = 52 → Format.single.lastPlace n e = max (-149) (e + 29) := by
    intro n e hlog
    rw [Format.lastPlace, Format.minExponent_single, hlog]
    simp only [Format.single]
    omega
  by_cases hsmall : m < 0x800000
  · have hlog := log2_denormal hzero hsmall
    have hlt := denormal_lt hlog
    have hle := le_denormal hzero hlog
    refine ⟨m * 2 ^ (52 - m.log2), m.log2 - 201, ?_, ?_⟩
    · rw [hdatum, widen, if_neg hzero, if_pos hsmall]
      generalize m * 2 ^ (52 - m.log2) = kept at hlt hle
      rw [if_neg (by omega)]
      congr 1 <;> omega
    · have hlog' : (m * 2 ^ (52 - m.log2)).log2 = 52 := by
        rw [log2_mul_two_pow hzero]
        omega
      have hplace : Format.single.lastPlace (m * 2 ^ (52 - m.log2)) (m.log2 - 201) =
          -149 + (0 : Nat) := by
        rw [hlast _ _ hlog']
        omega
      rw [round_single (by omega) rfl hplace (by omega) (by omega) (by omega)]
      omega
  · have hf := Nat.mod_lt m (show 0 < 0x800000 by decide)
    refine ⟨(0x800000 + m % 0x800000) * 2 ^ 29, (m / 0x800000 : Nat) - 179, ?_, ?_⟩
    · rw [hdatum, widen, if_neg hzero, if_neg hsmall, if_pos h, if_neg (by omega)]
      congr 1 <;> omega
    · have hlog' : ((0x800000 + m % 0x800000) * 2 ^ 29).log2 = 52 := by
        rw [log2_mul_two_pow (by omega), log2_normal hf]
      have hplace : Format.single.lastPlace ((0x800000 + m % 0x800000) * 2 ^ 29)
          ((m / 0x800000 : Nat) - 179) = -149 + (m / 0x800000 - 1 : Nat) := by
        rw [hlast _ _ hlog']
        omega
      rw [round_single (by omega) rfl hplace (by omega) (by omega) (by omega)]
      omega

theorem ofDouble_of_finite {x : Double} {negative : Bool} {n : Nat} {e : Int}
    (hnan : x.isNan = false) (h : x.datum = .finite negative n e) :
    Single.ofDouble x = Single.ofParts negative (Format.single.round n e) := by
  rw [Single.ofDouble, if_neg (by rw [hnan]; exact Bool.false_ne_true), h]
  rfl

theorem ofDouble_widen (negative : Bool) {m : Nat} (h : m ≤ 0x7F800000) :
    Single.ofDouble (Double.ofParts negative (widen m)) = Single.ofParts negative m := by
  by_cases hinf : m = 0x7F800000
  · subst hinf
    cases negative <;> decide
  · have hlt := widen_lt (m := m) (by omega)
    have hnan : Double.isNan (Double.ofParts negative (widen m)) = false := by
      rw [Double.isNan_ofParts negative (by omega)]
      exact decide_eq_false (by omega)
    obtain ⟨n, e, hdatum, hround⟩ := narrow_widen (m := m) (by omega) negative
    rw [ofDouble_of_finite hnan hdatum, hround]

/-- The nearest single of a number that is not a NaN. -/
theorem ofDouble_ofParts {magnitude : Nat} (h : magnitude ≤ 0x7FF0000000000000) :
    ∃ m ≤ 0x7F800000, ∀ negative,
      Single.ofDouble (Double.ofParts negative magnitude) = Single.ofParts negative m := by
  by_cases hinf : magnitude = 0x7FF0000000000000
  · subst hinf
    refine ⟨0x7F800000, Nat.le_refl _, fun negative => ?_⟩
    cases negative <;> decide
  · have hnan : ∀ negative, Double.isNan (Double.ofParts negative magnitude) = false := by
      intro negative
      rw [Double.isNan_ofParts negative (by omega)]
      exact decide_eq_false (by omega)
    obtain ⟨n, e, hdatum⟩ : ∃ n e, ∀ negative,
        Double.datum (Double.ofParts negative magnitude) = .finite negative n e := by
      by_cases hsmall : magnitude < 0x10000000000000
      · refine ⟨magnitude, -1074, fun negative => ?_⟩
        rw [Double.datum_ofParts negative (by omega), if_pos hsmall]
      · refine ⟨0x10000000000000 + magnitude % 0x10000000000000,
          -1074 + (magnitude / 0x10000000000000 : Nat) - 1, fun negative => ?_⟩
        rw [Double.datum_ofParts negative (by omega), if_neg hsmall]
    refine ⟨Format.single.round n e, ?_, fun negative =>
      ofDouble_of_finite (hnan negative) (hdatum negative)⟩
    unfold Format.round
    split
    · omega
    · rw [← Format.infinity_single]
      exact Nat.min_le_left _ _

namespace Double

theorem toNat_or_of_lt {width : Nat} {a b : BitVec width} {i : Nat} (ha : a.toNat % 2 ^ i = 0)
    (hb : b.toNat < 2 ^ i) : (a ||| b).toNat = a.toNat + b.toNat := by
  have hmul : a.toNat = 2 ^ i * (a.toNat / 2 ^ i) := by
    have := Nat.div_add_mod a.toNat (2 ^ i)
    omega
  rw [BitVec.toNat_or, hmul, ← Nat.two_pow_add_eq_or_of_lt hb]

/-- A NaN keeps the upper bits of its payload. -/
theorem roundToSingle_nan (negative : Bool) {magnitude : Nat} (hlt : magnitude < 0x8000000000000000)
    (h : 0x7FF0000000000000 < magnitude) :
    roundToSingle (ofParts negative magnitude) = ofParts negative
      (0x7FF8000000000000 + magnitude / 2 ^ 29 % 2 ^ 22 * 2 ^ 29) := by
  have hnan : isNan (ofParts negative magnitude) = true := by
    rw [isNan_ofParts negative hlt]
    exact decide_eq_true h
  have hpayload : (0x0007FFFFE0000000 : Double).toNat = (2 ^ 22 - 1) <<< 29 := by decide
  have hdefault : defaultNan.toNat = 0x7FF8000000000000 := by decide
  have hupper : (ofParts negative magnitude &&& (0x0007FFFFE0000000 : Double)).toNat =
      magnitude / 2 ^ 29 % 2 ^ 22 * 2 ^ 29 := by
    rw [BitVec.toNat_and, hpayload, and_field, Nat.shiftRight_eq_div_pow, Nat.shiftLeft_eq,
      toNat_ofParts negative hlt, Format.withSign, Format.signBit_double]
    split <;> omega
  have hlower := toNat_and_signMask negative hlt
  have hquiet :
      (defaultNan ||| (ofParts negative magnitude &&& (0x0007FFFFE0000000 : Double))).toNat =
      0x7FF8000000000000 + magnitude / 2 ^ 29 % 2 ^ 22 * 2 ^ 29 := by
    rw [toNat_or_of_lt (i := 51) (by decide) (by omega), hdefault, hupper]
  rw [roundToSingle, if_pos hnan, BitVec.or_assoc]
  apply BitVec.eq_of_toNat_eq
  rw [toNat_or_of_lt (i := 63) (by rw [hlower]; split <;> rfl) (by omega), hlower, hquiet,
    toNat_ofParts negative (by omega), Format.withSign, Format.signBit_double]
  split <;> omega

theorem roundToSingle_number (negative : Bool) {magnitude : Nat}
    (h : magnitude ≤ 0x7FF0000000000000) : roundToSingle (ofParts negative magnitude) =
      (Single.ofDouble (ofParts negative magnitude)).toDouble := by
  have hnan : isNan (ofParts negative magnitude) = false := by
    rw [isNan_ofParts negative (by omega)]
    exact decide_eq_false (by omega)
  rw [roundToSingle, if_neg (by rw [hnan]; exact Bool.false_ne_true)]

/-- A number that comes from a single is not rounded. -/
theorem roundToSingle_widen (negative : Bool) {m : Nat} (h : m ≤ 0x7F800000) :
    roundToSingle (ofParts negative (widen m)) = ofParts negative (widen m) := by
  rw [roundToSingle_number negative (widen_le h), ofDouble_widen negative h,
    toDouble_ofParts negative h]

/-- Rounding to single acts on the magnitude and clears its low 29 bits. -/
theorem roundToSingle_ofParts {magnitude : Nat} (h : magnitude < 0x8000000000000000) :
    ∃ rounded < 0x8000000000000000, rounded % 2 ^ 29 = 0 ∧ ∀ negative,
      roundToSingle (ofParts negative magnitude) = ofParts negative rounded ∧
        roundToSingle (ofParts negative rounded) = ofParts negative rounded := by
  by_cases hnan : 0x7FF0000000000000 < magnitude
  · refine ⟨_, ?_, ?_, fun negative => ⟨roundToSingle_nan negative h hnan, ?_⟩⟩
    · omega
    · omega
    · rw [roundToSingle_nan negative (by omega) (by omega)]
      refine congrArg (ofParts negative) ?_
      omega
  · have hnumber : magnitude ≤ 0x7FF0000000000000 := by omega
    obtain ⟨m, hm, hofDouble⟩ := ofDouble_ofParts hnumber
    have hwide := widen_le hm
    refine ⟨widen m, by omega, widen_mod m, fun negative => ⟨?_, roundToSingle_widen negative hm⟩⟩
    rw [roundToSingle_number negative hnumber, hofDouble, toDouble_ofParts negative hm]

theorem roundToSingle_idem (x : Double) : x.roundToSingle.roundToSingle = x.roundToSingle := by
  obtain ⟨negative, magnitude, hlt, rfl⟩ := exists_parts x
  obtain ⟨rounded, -, -, h⟩ := roundToSingle_ofParts hlt
  rw [(h negative).1, (h negative).2]

theorem isExactSingle_roundToSingle (x : Double) : x.roundToSingle.isExactSingle = true := by
  rw [isExactSingle, roundToSingle_idem, beq_self_eq_true]

theorem isExactSingle_iff (x : Double) : x.isExactSingle = true ↔ x.roundToSingle = x := by
  rw [isExactSingle, beq_iff_eq]

theorem ofParts_inj {negative : Bool} {a b : Nat} (ha : a < 0x8000000000000000)
    (hb : b < 0x8000000000000000) (h : ofParts negative a = ofParts negative b) : a = b := by
  have hnat := congrArg BitVec.toNat h
  rw [toNat_ofParts negative ha, toNat_ofParts negative hb, Format.withSign, Format.withSign,
    Format.signBit_double] at hnat
  split at hnat <;> omega

/-- Whether a double is a single does not depend on its sign. -/
theorem isExactSingle_ofParts {magnitude : Nat} (h : magnitude < 0x8000000000000000)
    {negative : Bool} (hexact : (ofParts negative magnitude).isExactSingle = true)
    (negative' : Bool) : (ofParts negative' magnitude).isExactSingle = true := by
  obtain ⟨rounded, hlt, -, hround⟩ := roundToSingle_ofParts h
  rw [isExactSingle_iff, (hround negative).1] at hexact
  rw [isExactSingle_iff, (hround negative').1, ofParts_inj hlt h hexact]

/-- The low 29 bits, which singles do not have, are clear. -/
def IsShort (x : Double) : Prop := x.setWidth 29 = 0#29

theorem isShort_ofParts {negative : Bool} {magnitude : Nat} (h : magnitude < 0x8000000000000000) :
    (ofParts negative magnitude).IsShort ↔ magnitude % 2 ^ 29 = 0 := by
  rw [IsShort, BitVec.toNat_eq, BitVec.toNat_setWidth, toNat_ofParts negative h, Format.withSign,
    Format.signBit_double, BitVec.toNat_zero]
  split <;> omega

theorem isShort_roundToSingle (x : Double) : x.roundToSingle.IsShort := by
  obtain ⟨negative, magnitude, hlt, rfl⟩ := exists_parts x
  obtain ⟨rounded, hrounded, hlow, h⟩ := roundToSingle_ofParts hlt
  rw [(h negative).1, isShort_ofParts hrounded]
  exact hlow

theorem isShort_of_isExactSingle {x : Double} (h : x.isExactSingle = true) : x.IsShort := by
  rw [isExactSingle_iff] at h
  rw [← h]
  exact isShort_roundToSingle x

/-- A short significand needs no rounding to 25 bits. -/
theorem roundTo25Bits_of_isShort {x : Double} (h : x.IsShort) : x.roundTo25Bits = x := by
  have hbit : ∀ i, i < 29 → x.getLsbD i = false := by
    intro i hi
    have := congrArg (fun y : BitVec 29 => y.getLsbD i) h
    simpa [BitVec.getLsbD_setWidth, hi] using this
  have hkept : x &&& ~~~(0x0FFFFFFF : Double) = x := by
    apply BitVec.eq_of_getLsbD_eq
    intro i hi
    by_cases hlow : i < 29
    · rw [BitVec.getLsbD_and, hbit i hlow, Bool.false_and]
    · have hmask : ∀ j : Fin 64, ¬j.val < 29 →
          (~~~(0x0FFFFFFF : Double)).getLsbD j.val = true := by decide
      rw [BitVec.getLsbD_and, hmask ⟨i, hi⟩ hlow, Bool.and_true]
  have hround : x &&& roundBit = 0#64 := by
    apply BitVec.eq_of_getLsbD_eq
    intro i hi
    by_cases hlow : i < 29
    · rw [BitVec.getLsbD_and, hbit i hlow, Bool.false_and, BitVec.getLsbD_zero]
    · have hmask : ∀ j : Fin 64, ¬j.val < 29 → roundBit.getLsbD j.val = false := by decide
      rw [BitVec.getLsbD_and, hmask ⟨i, hi⟩ hlow, Bool.and_false, BitVec.getLsbD_zero]
  rw [roundTo25Bits, hkept, hround, BitVec.zero_shiftLeft]
  exact BitVec.add_zero x

theorem getLsbD_ofParts (negative : Bool) {magnitude : Nat} (h : magnitude < 0x8000000000000000)
    (i : Nat) : (ofParts negative magnitude).getLsbD i =
      if i = 63 then negative else magnitude.testBit i := by
  have hbit : ∀ j, 63 ≤ j → magnitude.testBit j = false := fun j hj =>
    Nat.testBit_lt_two_pow (Nat.lt_of_lt_of_le h (Nat.pow_le_pow_right Nat.two_pos hj))
  have hpow : Format.double.signBit = 2 ^ 63 := by decide
  rw [BitVec.getLsbD, toNat_ofParts negative h, Format.withSign, hpow]
  cases negative with
  | false =>
    rw [if_neg Bool.false_ne_true]
    split
    · next hi => rw [hi, hbit 63 (Nat.le_refl _)]
    · rfl
  | true =>
    rw [if_pos rfl]
    split
    · next hi => rw [hi, Nat.testBit_two_pow_add_eq, hbit 63 (Nat.le_refl _), Bool.not_false]
    · next hi =>
      by_cases hlt : i < 63
      · rw [Nat.testBit_two_pow_add_gt hlt]
      · rw [hbit i (by omega), Nat.testBit_lt_two_pow]
        calc 2 ^ 63 + magnitude < 2 ^ 64 := by omega
          _ ≤ 2 ^ i := Nat.pow_le_pow_right (by decide) (by omega)

theorem getLsbD_signMask (i : Fin 64) : signMask.getLsbD i.val = decide (i.val = 63) := by
  revert i
  decide

theorem negate_ofParts (negative : Bool) {magnitude : Nat} (h : magnitude < 0x8000000000000000) :
    negate (ofParts negative magnitude) = ofParts (!negative) magnitude := by
  refine BitVec.eq_of_getLsbD_eq fun i hi => ?_
  rw [negate, BitVec.getLsbD_xor, getLsbD_ofParts _ h, getLsbD_ofParts _ h,
    getLsbD_signMask ⟨i, hi⟩]
  split <;> simp_all

theorem clearSign_ofParts (negative : Bool) {magnitude : Nat} (h : magnitude < 0x8000000000000000) :
    ofParts negative magnitude &&& ~~~signMask = ofParts false magnitude := by
  refine BitVec.eq_of_getLsbD_eq fun i hi => ?_
  rw [BitVec.getLsbD_and, BitVec.getLsbD_not, getLsbD_ofParts _ h, getLsbD_ofParts _ h,
    getLsbD_signMask ⟨i, hi⟩]
  split <;> simp_all

/-- Rounding to single does not look at the sign. -/
theorem roundToSingle_negate (x : Double) :
    roundToSingle (negate x) = negate (roundToSingle x) := by
  obtain ⟨negative, magnitude, hlt, rfl⟩ := exists_parts x
  obtain ⟨rounded, hrounded, -, h⟩ := roundToSingle_ofParts hlt
  rw [negate_ofParts negative hlt, (h _).1, (h _).1, negate_ofParts negative hrounded]

theorem roundToSingle_clearSign (x : Double) :
    roundToSingle (x &&& ~~~signMask) = roundToSingle x &&& ~~~signMask := by
  obtain ⟨negative, magnitude, hlt, rfl⟩ := exists_parts x
  obtain ⟨rounded, hrounded, -, h⟩ := roundToSingle_ofParts hlt
  rw [clearSign_ofParts negative hlt, (h _).1, (h _).1, clearSign_ofParts negative hrounded]

/-- A move changes at most the sign. -/
theorem move_ofParts (op : PowerPC.FpMove) (negative : Bool) {magnitude : Nat}
    (h : magnitude < 0x8000000000000000) :
    ∃ negative', op.apply (ofParts negative magnitude) = ofParts negative' magnitude := by
  cases op with
  | mr => exact ⟨negative, rfl⟩
  | neg => exact ⟨!negative, negate_ofParts negative h⟩
  | abs => exact ⟨false, clearSign_ofParts negative h⟩
  | nabs =>
    refine ⟨true, BitVec.eq_of_getLsbD_eq fun i hi => ?_⟩
    rw [PowerPC.FpMove.apply, BitVec.getLsbD_or, getLsbD_ofParts _ h, getLsbD_ofParts _ h,
      getLsbD_signMask ⟨i, hi⟩]
    split <;> simp_all

theorem isExactSingle_move {x : Double} (op : PowerPC.FpMove) (h : x.isExactSingle = true) :
    isExactSingle (op.apply x) = true := by
  obtain ⟨negative, magnitude, hlt, rfl⟩ := exists_parts x
  obtain ⟨negative', hmove⟩ := move_ofParts op negative hlt
  rw [hmove]
  exact isExactSingle_ofParts hlt h negative'

theorem isShort_move {x : Double} (op : PowerPC.FpMove) (h : x.IsShort) : IsShort (op.apply x) := by
  obtain ⟨negative, magnitude, hlt, rfl⟩ := exists_parts x
  obtain ⟨negative', hmove⟩ := move_ofParts op negative hlt
  rw [hmove, isShort_ofParts hlt]
  exact (isShort_ofParts hlt).1 h

end Double

end Recompiler.Ieee
