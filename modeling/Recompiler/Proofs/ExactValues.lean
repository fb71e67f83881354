import Mathlib.Algebra.Order.Field.Power
import Mathlib.Algebra.Order.Field.Rat
import Mathlib.Tactic.Positivity
import Recompiler.Proofs.SingleMemory

/-!
# Exact values

A finite datum denotes a rational number. The magnitudes of a format are in the order of the values
that they denote, and a single denotes the same value as the double that it widens to.
-/

namespace Recompiler.Ieee

namespace Datum

def isFinite : Datum → Bool
  | .finite .. => true
  | _ => false

/-- The number that a finite datum denotes. The others count as zero. -/
def value : Datum → ℚ
  | .finite negative n e => Double.signed negative n * 2 ^ e
  | _ => 0

end Datum

theorem Double.signed_mul (negative : Bool) (n k : Nat) :
    signed negative (n * k) = signed negative n * k := by
  cases negative with
  | false => exact Int.natCast_mul n k
  | true => simp [signed]

theorem Double.abs_signed (negative : Bool) (n : Nat) : |signed negative n| = n := by
  cases negative with
  | false => exact abs_of_nonneg (Int.natCast_nonneg n)
  | true => simp [signed]

namespace Format

/-! ## Values of magnitudes -/

/-- The value of a magnitude in units of the smallest positive value. -/
def units (format : Format) (magnitude : Nat) : Nat :=
  if magnitude < 2 ^ format.fracBits then magnitude
  else (2 ^ format.fracBits + magnitude % 2 ^ format.fracBits) *
    2 ^ (magnitude / 2 ^ format.fracBits - 1)

theorem isFinite_withSign (format : Format) (negative : Bool) {magnitude : Nat}
    (h : magnitude < format.infinity) :
    (format.datum (format.withSign negative magnitude)).isFinite = true := by
  rw [format.datum_withSign negative h]
  split <;> rfl

/-- From the magnitude of infinity on, there are no numbers. -/
theorem datum_special (format : Format) (negative : Bool) {magnitude : Nat}
    (hlt : magnitude < format.signBit) (h : format.infinity ≤ magnitude) :
    format.datum (format.withSign negative magnitude) =
      if magnitude = format.infinity then .infinite negative else .nan := by
  have hp := Nat.two_pow_pos format.fracBits
  obtain ⟨hneg, hexp, hfrac⟩ := format.fields_withSign negative hlt
  have hmax : format.maxExp = 2 ^ format.expBits - 1 := by
    rw [maxExp, Nat.shiftLeft_eq, Nat.one_mul]
  rw [signBit_eq, Nat.mul_comm] at hlt
  have hinf : format.infinity = format.maxExp * 2 ^ format.fracBits := by rw [infinity_eq, hmax]
  have hdiv : magnitude / 2 ^ format.fracBits = format.maxExp := by
    have hlower := (Nat.le_div_iff_mul_le hp).2 (hinf ▸ h)
    have hupper := (Nat.div_lt_iff_lt_mul hp).2 hlt
    omega
  have hiff : magnitude % 2 ^ format.fracBits = 0 ↔ magnitude = format.infinity := by
    have hsplit := Nat.div_add_mod' magnitude (2 ^ format.fracBits)
    rw [hdiv, ← hinf] at hsplit
    omega
  simp only [datum, hneg, hexp, hfrac, hdiv, if_true, hiff]

theorem value_withSign (format : Format) (negative : Bool) {magnitude : Nat}
    (h : magnitude < format.infinity) :
    (format.datum (format.withSign negative magnitude)).value =
      Double.signed negative (format.units magnitude) * 2 ^ format.minExponent := by
  rw [format.datum_withSign negative h, units]
  split
  · rfl
  · next hnormal =>
    have hpos : 0 < magnitude / 2 ^ format.fracBits :=
      Nat.div_pos (Nat.le_of_not_lt hnormal) (Nat.two_pow_pos _)
    have hexp : format.minExponent + (magnitude / 2 ^ format.fracBits : Nat) - 1 =
        (magnitude / 2 ^ format.fracBits - 1 : Nat) + format.minExponent := by omega
    rw [Datum.value, hexp, zpow_add₀ two_ne_zero, zpow_natCast, Double.signed_mul]
    push_cast
    ring

theorem abs_value_withSign (format : Format) (negative : Bool) {magnitude : Nat}
    (h : magnitude < format.infinity) :
    |(format.datum (format.withSign negative magnitude)).value| =
      format.units magnitude * 2 ^ format.minExponent := by
  have hpow : (0 : ℚ) < 2 ^ format.minExponent := by positivity
  rw [format.value_withSign negative h, abs_mul, abs_of_pos hpow, ← Int.cast_abs, Double.abs_signed,
    Int.cast_natCast]

/-- Up to the first normal number, the value is the magnitude. -/
theorem units_of_le (format : Format) {magnitude : Nat} (h : magnitude ≤ 2 ^ format.fracBits) :
    format.units magnitude = magnitude := by
  have hp := Nat.two_pow_pos format.fracBits
  unfold units
  generalize 2 ^ format.fracBits = p at h hp
  rcases Nat.lt_or_eq_of_le h with hlt | rfl
  · rw [if_pos hlt]
  · rw [if_neg (Nat.lt_irrefl _), Nat.mod_self, Nat.div_self hp, Nat.add_zero, Nat.sub_self,
      Nat.pow_zero, Nat.mul_one]

/-- The value of a normal number. A full fraction makes the first number of the next exponent. -/
theorem units_normal (format : Format) (exp : Nat) {frac : Nat} (h : frac ≤ 2 ^ format.fracBits) :
    format.units ((exp + 1) * 2 ^ format.fracBits + frac) =
      (2 ^ format.fracBits + frac) * 2 ^ exp := by
  have hp := Nat.two_pow_pos format.fracBits
  have hnormal : ¬(exp + 1) * 2 ^ format.fracBits + frac < 2 ^ format.fracBits := by
    rw [Nat.add_mul, Nat.one_mul]
    omega
  rw [units, if_neg hnormal]
  generalize 2 ^ format.fracBits = p at h hp
  rw [Nat.mul_comm (exp + 1) p, Nat.mul_add_mod, Nat.mul_add_div hp]
  rcases Nat.lt_or_eq_of_le h with hlt | rfl
  · rw [Nat.mod_eq_of_lt hlt, Nat.div_eq_of_lt hlt, Nat.add_zero, Nat.add_sub_cancel]
  · rw [Nat.mod_self, Nat.div_self hp, Nat.add_sub_cancel, Nat.pow_succ, Nat.add_zero]
    ring

theorem units_of_exponent (format : Format) {magnitude exp : Nat}
    (h : magnitude / 2 ^ format.fracBits = exp + 1) :
    format.units magnitude =
      (2 ^ format.fracBits + magnitude % 2 ^ format.fracBits) * 2 ^ exp := by
  have hfields : magnitude = (exp + 1) * 2 ^ format.fracBits + magnitude % 2 ^ format.fracBits := by
    rw [← h, Nat.div_add_mod']
  have hfrac := Nat.mod_lt magnitude (Nat.two_pow_pos format.fracBits)
  rw [congrArg format.units hfields, format.units_normal exp (Nat.le_of_lt hfrac)]

/-- From one magnitude to the next, the value grows. -/
theorem units_lt_succ (format : Format) (magnitude : Nat) :
    format.units magnitude < format.units (magnitude + 1) := by
  have hp := Nat.two_pow_pos format.fracBits
  by_cases hsmall : magnitude < 2 ^ format.fracBits
  · rw [format.units_of_le (Nat.le_of_lt hsmall), format.units_of_le hsmall]
    exact Nat.lt_succ_self magnitude
  · obtain ⟨exp, hexp⟩ := Nat.exists_eq_succ_of_ne_zero
      (Nat.div_pos (Nat.le_of_not_lt hsmall) hp).ne'
    have hfrac := Nat.mod_lt magnitude hp
    have hfields :
        magnitude = (exp + 1) * 2 ^ format.fracBits + magnitude % 2 ^ format.fracBits := by
      rw [show exp + 1 = magnitude / 2 ^ format.fracBits from hexp.symm, Nat.div_add_mod']
    generalize magnitude % 2 ^ format.fracBits = frac at hfrac hfields
    rw [hfields, Nat.add_assoc, format.units_normal exp (Nat.le_of_lt hfrac),
      format.units_normal exp hfrac]
    exact Nat.mul_lt_mul_of_pos_right (Nat.lt_succ_self _) (Nat.two_pow_pos exp)

theorem units_strictMono (format : Format) : StrictMono format.units :=
  strictMono_nat_of_lt_succ format.units_lt_succ

theorem abs_value_le_iff (format : Format) (s t : Bool) {m n : Nat} (hm : m < format.infinity)
    (hn : n < format.infinity) :
    |(format.datum (format.withSign s m)).value| ≤ |(format.datum (format.withSign t n)).value| ↔
      m ≤ n := by
  have hpow : (0 : ℚ) < 2 ^ format.minExponent := by positivity
  rw [format.abs_value_withSign s hm, format.abs_value_withSign t hn, mul_le_mul_iff_left₀ hpow,
    Nat.cast_le, format.units_strictMono.le_iff_le]

end Format

/-! ## Singles and doubles -/

/-- How many bits there are between the smallest single and the smallest double. -/
def unitGap : Nat := 925

theorem unitGap_eq : unitGap = 925 := rfl

theorem units_widen {m : Nat} (h : m < 0x7F800000) :
    Format.double.units (widen m) = Format.single.units m * 2 ^ unitGap := by
  have hgap := unitGap_eq
  by_cases hsmall : m < 0x800000
  · have hsingle : Format.single.units m = m := Format.single.units_of_le (Nat.le_of_lt hsmall)
    rw [hsingle]
    by_cases hzero : m = 0
    · subst hzero
      rw [Nat.zero_mul]
      exact Format.double.units_of_le (Nat.zero_le _)
    -- the leading bit of the scaled fraction is the hidden one
    have hlog := log2_denormal hzero hsmall
    have hlower := le_denormal hzero hlog
    have hupper := denormal_lt hlog
    have hwide : widen m = (m.log2 + 873 + 1) * 2 ^ 52 + (m * 2 ^ (52 - m.log2) - 2 ^ 52) := by
      rw [widen, if_neg hzero, if_pos hsmall]
      generalize m * 2 ^ (52 - m.log2) = scaled at hlower hupper
      omega
    have hunits : Format.double.units (widen m) =
        (2 ^ 52 + (m * 2 ^ (52 - m.log2) - 2 ^ 52)) * 2 ^ (m.log2 + 873) := by
      rw [hwide]
      exact Format.double.units_normal _ (Nat.sub_le_of_le_add (Nat.le_of_lt hupper))
    have hpow : 2 ^ (52 - m.log2) * 2 ^ (m.log2 + 873) = 2 ^ unitGap := by
      rw [← Nat.pow_add]
      exact congrArg (2 ^ ·) (by omega)
    rw [hunits, Nat.add_sub_cancel' hlower, Nat.mul_assoc, hpow]
  · obtain ⟨exp, hexp⟩ := Nat.exists_eq_add_one_of_ne_zero (show m / 0x800000 ≠ 0 by omega)
    have hfrac : m % 0x800000 ≤ 2 ^ 23 := Nat.le_of_lt (Nat.mod_lt m (by decide))
    have hwide : widen m = (exp + 896 + 1) * 2 ^ 52 + m % 0x800000 * 2 ^ 29 := by
      rw [widen, if_neg (by omega), if_neg hsmall, if_pos h, hexp]
    have hsingle : Format.single.units m = (2 ^ 23 + m % 0x800000) * 2 ^ exp :=
      Format.single.units_of_exponent hexp
    have hdouble : Format.double.units (widen m) =
        (2 ^ 52 + m % 0x800000 * 2 ^ 29) * 2 ^ (exp + 896) := by
      rw [hwide]
      exact Format.double.units_normal _ (Nat.mul_le_mul_right (2 ^ 29) hfrac)
    have hpow : 2 ^ 29 * 2 ^ (exp + 896) = 2 ^ exp * 2 ^ unitGap := by
      rw [← Nat.pow_add, ← Nat.pow_add]
      exact congrArg (2 ^ ·) (by omega)
    have hsig : 2 ^ 52 + m % 0x800000 * 2 ^ 29 = (2 ^ 23 + m % 0x800000) * 2 ^ 29 := by omega
    rw [hdouble, hsingle, hsig, Nat.mul_assoc, hpow, Nat.mul_assoc]

theorem value_widen (negative : Bool) {m : Nat} (h : m < 0x7F800000) :
    (Double.datum (Double.ofParts negative (widen m))).value =
      (Single.datum (Single.ofParts negative m)).value := by
  have hwide := widen_lt h
  have hscale : (2 : ℚ) ^ (-149 : ℤ) = 2 ^ unitGap * 2 ^ (-1074 : ℤ) := by
    rw [← zpow_natCast, ← zpow_add₀ two_ne_zero]
    exact congrArg (2 ^ ·) (by rw [unitGap_eq]; omega)
  rw [Double.datum, Single.datum, Double.toNat_ofParts negative (by omega),
    Single.toNat_ofParts negative (by omega),
    Format.double.value_withSign negative (Format.infinity_double ▸ hwide),
    Format.single.value_withSign negative (Format.infinity_single ▸ h), units_widen h,
    Double.signed_mul, Format.minExponent_double, Format.minExponent_single, hscale]
  generalize (2 : ℚ) ^ (-1074 : ℤ) = smallest
  push_cast
  ring

theorem widen_le_widen {a b : Nat} (h : a ≤ b) (hb : b < 0x7F800000) : widen a ≤ widen b := by
  rw [← Format.double.units_strictMono.le_iff_le, units_widen (by omega), units_widen hb]
  exact Nat.mul_le_mul_right _ (Format.single.units_strictMono.monotone h)

/-- A single is not above a double if its wide magnitude is not. -/
theorem abs_value_le_iff_widen (s t : Bool) {m n : Nat} (hm : m < 0x7F800000)
    (hn : n < 0x7FF0000000000000) :
    |(Single.datum (Single.ofParts s m)).value| ≤ |(Double.datum (Double.ofParts t n)).value| ↔
      widen m ≤ n := by
  have hwide := widen_lt hm
  rw [← value_widen s hm, Double.datum, Double.datum, Double.toNat_ofParts s (by omega),
    Double.toNat_ofParts t (by omega)]
  exact Format.double.abs_value_le_iff s t (Format.infinity_double ▸ hwide)
    (Format.infinity_double ▸ hn)

end Recompiler.Ieee
