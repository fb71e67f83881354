import Recompiler.Proofs.SingleRounding

/-!
# Loading and storing singles

Loads and stores move the bits of a single into a double and back. On numbers they agree with the
conversions of values: a load is exact, and a store undoes it.
-/

namespace Recompiler.Ieee

/-- A double that is a single is a widened magnitude or a NaN. -/
theorem exists_widen {x : Double} (h : x.isExactSingle = true) (hnan : x.isNan = false) :
    ∃ negative m, m ≤ 0x7F800000 ∧ x = Double.ofParts negative (widen m) := by
  obtain ⟨negative, n, hlt, rfl⟩ := Double.exists_parts x
  rw [Double.isNan_ofParts negative hlt, decide_eq_false_iff_not] at hnan
  obtain ⟨m, hm, hofDouble⟩ := ofDouble_ofParts (Nat.le_of_not_lt hnan)
  refine ⟨negative, m, hm, ?_⟩
  have hround := (Double.isExactSingle_iff _).1 h
  rw [Double.roundToSingle, if_neg, hofDouble, toDouble_ofParts negative hm] at hround
  · exact hround.symm
  · rw [Double.isNan_ofParts negative hlt, decide_eq_true_iff]
    exact hnan

namespace Single

theorem toNat_and_signMask (negative : Bool) {m : Nat} (h : m < 0x80000000) :
    (ofParts negative m &&& signMask).toNat = if negative then 0x80000000 else 0 := by
  have hmask : signMask.toNat = (2 ^ 1 - 1) <<< 31 := by decide
  rw [BitVec.toNat_and, hmask, and_field, Nat.shiftRight_eq_div_pow, Nat.shiftLeft_eq,
    toNat_ofParts negative h, Format.withSign, Format.signBit_single]
  split <;> omega

theorem isNegative_ofParts (negative : Bool) {m : Nat} (h : m < 0x80000000) :
    isNegative (ofParts negative m) = negative := by
  rw [isNegative, Bool.eq_iff_iff, bne_iff_ne, ne_eq, BitVec.toNat_eq,
    toNat_and_signMask negative h]
  cases negative <;> decide

/-! ## Loads -/

/-- A field of a word, as a number. -/
theorem toNat_and_mask {w : Nat} (x mask : BitVec w) (len lo : Nat)
    (hmask : mask.toNat = (2 ^ len - 1) <<< lo) :
    (x &&& mask).toNat = x.toNat / 2 ^ lo % 2 ^ len * 2 ^ lo := by
  rw [BitVec.toNat_and, hmask, and_field, Nat.shiftRight_eq_div_pow, Nat.shiftLeft_eq]

theorem toNat_shiftLeft_of_lt {w : Nat} {x : BitVec w} {n : Nat} (h : x.toNat * 2 ^ n < 2 ^ w) :
    (x <<< n).toNat = x.toNat * 2 ^ n := by
  rw [BitVec.toNat_shiftLeft, Nat.shiftLeft_eq, Nat.mod_eq_of_lt h]

/-- The parts of a splice do not overlap. -/
theorem toNat_splice {x fill : BitVec 64} (hx : x.toNat < 2 ^ 32) (hfill : fill = 0 ∨ fill = 1) :
    (splice x fill).toNat =
      x.toNat / 2 ^ 30 * 2 ^ 62 + fill.toNat * (7 * 2 ^ 59) + x.toNat % 2 ^ 30 * 2 ^ 29 := by
  have htop : ((x &&& 0xC0000000) <<< 32).toNat = x.toNat / 2 ^ 30 * 2 ^ 62 := by
    have hmask := toNat_and_mask x 0xC0000000 2 30 rfl
    rw [toNat_shiftLeft_of_lt (by omega), hmask]
    omega
  have hlow : ((x &&& 0x3FFFFFFF) <<< 29).toNat = x.toNat % 2 ^ 30 * 2 ^ 29 := by
    have hmask := toNat_and_mask x 0x3FFFFFFF 30 0 rfl
    rw [toNat_shiftLeft_of_lt (by omega), hmask]
    omega
  have hmiddle : (fill <<< 61 ||| fill <<< 60 ||| fill <<< 59).toNat =
      fill.toNat * (7 * 2 ^ 59) := by
    rcases hfill with rfl | rfl <;> rfl
  have hbit : fill.toNat ≤ 1 := by
    rcases hfill with rfl | rfl <;> decide
  have hupper := Double.toNat_or_of_lt (a := (x &&& 0xC0000000) <<< 32)
    (b := fill <<< 61 ||| fill <<< 60 ||| fill <<< 59) (i := 62) (by omega) (by omega)
  rw [htop, hmiddle] at hupper
  unfold splice
  rw [Double.toNat_or_of_lt (i := 59) (by omega) (by omega), hupper, hlow]

theorem toNat_setWidth_ofParts (negative : Bool) {m : Nat} (h : m < 0x80000000) :
    ((ofParts negative m).setWidth 64).toNat = Format.single.withSign negative m := by
  have hlt := (ofParts negative m).isLt
  rw [BitVec.toNat_setWidth, Nat.mod_eq_of_lt (by omega), toNat_ofParts negative h]

/-- What a splice makes of a sign and a magnitude. -/
theorem splice_ofParts (negative : Bool) {m : Nat} (h : m < 0x80000000) {fill : BitVec 64}
    (hfill : fill = 0 ∨ fill = 1) :
    splice ((ofParts negative m).setWidth 64) fill = Double.ofParts negative
      (m / 2 ^ 30 * 2 ^ 62 + fill.toNat * (7 * 2 ^ 59) + m % 2 ^ 30 * 2 ^ 29) := by
  have hbit : fill.toNat ≤ 1 := by
    rcases hfill with rfl | rfl <;> decide
  have hbits := toNat_setWidth_ofParts negative h
  rw [Format.withSign, Format.signBit_single] at hbits
  apply BitVec.eq_of_toNat_eq
  rw [toNat_splice (by rw [hbits]; split <;> omega) hfill, hbits,
    Double.toNat_ofParts negative (by omega), Format.withSign, Format.signBit_double]
  split <;> omega

/-- The fields of a single. -/
theorem fields_ofParts (negative : Bool) {m : Nat} (h : m < 0x80000000) :
    ((ofParts negative m).setWidth 64 >>> 23 &&& 0xFF) = BitVec.ofNat 64 (m / 0x800000) ∧
      ((ofParts negative m).setWidth 64 &&& 0x007FFFFF) = BitVec.ofNat 64 (m % 0x800000) := by
  have hbits := toNat_setWidth_ofParts negative h
  rw [Format.withSign, Format.signBit_single] at hbits
  constructor <;> apply BitVec.eq_of_toNat_eq
  · rw [toNat_and_mask _ _ 8 0 rfl, BitVec.toNat_ushiftRight,
      Nat.shiftRight_eq_div_pow, hbits, BitVec.toNat_ofNat]
    split <;> omega
  · rw [toNat_and_mask _ _ 23 0 rfl, hbits, BitVec.toNat_ofNat]
    split <;> omega

/-- The loop ends when the leading one has come to its place. -/
theorem normalise_eq (exp : BitVec 64) {frac : BitVec 64} (h : Denormal frac) :
    normalise exp frac h = (exp - BitVec.ofNat 64 (23 - frac.toNat.log2),
      frac <<< (23 - frac.toNat.log2)) := by
  fun_induction normalise exp frac h with
  | case1 exp frac h hbit ih =>
    have hlog := log2_denormal (Nat.ne_of_gt (h.double hbit).pos) (h.double hbit).lt
    rw [h.toNat_double, Nat.log2_two_mul (Nat.ne_of_gt h.pos)] at hlog ih
    -- one step less is left to the doubled fraction
    obtain ⟨k, hk⟩ : ∃ k, 23 - frac.toNat.log2 = k + 1 := ⟨22 - frac.toNat.log2, by omega⟩
    have hk' : 23 - (frac.toNat.log2 + 1) = k := by omega
    rw [ih, hk, hk', ← BitVec.shiftLeft_add, Nat.add_comm 1 k, BitVec.sub_sub, BitVec.ofNat_add,
      BitVec.add_comm 1]
    rfl
  | case2 exp frac h hbit =>
    have hlt := h.lt
    have hdouble := h.toNat_double
    rw [and_leadingBit_eq_zero (by omega)] at hbit
    have hlog : frac.toNat.log2 = 22 := by
      rw [Nat.log2_eq_iff (Nat.ne_of_gt h.pos)]
      omega
    rw [hlog]
    rfl

/-- Outside of the denormal numbers a load is a splice. The three exponent bits are the complement
of the topmost one in a normal number, and the topmost one itself in zeros, infinities and NaNs. -/
theorem load_eq_splice {s : Single} {exp : Nat}
    (hexp : s.setWidth 64 >>> 23 &&& 0xFF = BitVec.ofNat 64 exp) (hmax : exp ≤ 255)
    (hfrac : exp = 0 → s.setWidth 64 &&& 0x007FFFFF = 0) :
    load s = splice (s.setWidth 64) (if 0 < exp ∧ exp < 128 ∨ exp = 255 then 1 else 0) := by
  have hfield : ∀ exp ≤ 255, (0 < exp ∧ exp < 255 ↔
      (0 : BitVec 64) < BitVec.ofNat 64 exp ∧ BitVec.ofNat 64 exp < 255) ∧
      (exp < 128 ↔ BitVec.ofNat 64 exp >>> 7 = 0) ∧ (exp = 0 ↔ BitVec.ofNat 64 exp = 0) ∧
      (128 ≤ exp → BitVec.ofNat 64 exp >>> 7 = 1) := by decide +kernel
  obtain ⟨hnormal, htop, hzero, hone⟩ := hfield exp hmax
  unfold load
  simp only [hexp, ← hnormal, ← htop, ← hzero]
  by_cases hrange : 0 < exp ∧ exp < 255
  · rw [if_pos hrange]
    by_cases hlow : exp < 128
    · rw [if_pos hlow, if_pos (.inl ⟨hrange.1, hlow⟩)]
    · rw [if_neg hlow, if_neg (by omega)]
  · rw [if_neg hrange, dif_neg fun h => h.2 (hfrac h.1)]
    by_cases hlow : exp < 128
    · rw [htop.1 hlow, if_neg (by omega)]
    · rw [hone (by omega), if_pos (by omega)]

/-- A denormal number is put together from its sign and what the loop gives. -/
theorem load_eq_normalise {s : Single} (hexp : s.setWidth 64 >>> 23 &&& 0xFF = 0)
    (hfrac : s.setWidth 64 &&& 0x007FFFFF ≠ 0) {exp frac : BitVec 64}
    (hloop : normalise 897 (s.setWidth 64 &&& 0x007FFFFF) (.of_fraction hfrac) = (exp, frac)) :
    load s = ((s.setWidth 64 &&& 0x80000000) <<< 32) ||| (exp <<< 52) |||
      ((frac &&& 0x007FFFFF) <<< 29) := by
  have hrange : ¬((0 : BitVec 64) < 0 ∧ (0 : BitVec 64) < 255) := by decide
  have hbias : (1023 - 126 : BitVec 64) = 897 := by decide
  unfold load
  dsimp only
  rw [if_neg (by rw [hexp]; exact hrange), dif_pos ⟨hexp, hfrac⟩]
  simp only [hbias, hloop]

/-- Sign, exponent and a fraction whose leading one is left out do not overlap. -/
theorem assemble_eq (negative : Bool) {sign exp frac : BitVec 64}
    (hsign : sign.toNat = if negative then 2 ^ 63 else 0) (hexp : exp.toNat < 2 ^ 11)
    (hlower : 2 ^ 23 ≤ frac.toNat) (hupper : frac.toNat < 2 ^ 24) :
    sign ||| exp <<< 52 ||| (frac &&& 0x007FFFFF) <<< 29 =
      Double.ofParts negative (exp.toNat * 2 ^ 52 + (frac.toNat - 2 ^ 23) * 2 ^ 29) := by
  have hexponent : (exp <<< 52).toNat = exp.toNat * 2 ^ 52 := toNat_shiftLeft_of_lt (by omega)
  have hfraction : ((frac &&& 0x007FFFFF) <<< 29).toNat = (frac.toNat - 2 ^ 23) * 2 ^ 29 := by
    have hmask := toNat_and_mask frac 0x007FFFFF 23 0 rfl
    rw [toNat_shiftLeft_of_lt (by omega), hmask]
    omega
  have htop := Double.toNat_or_of_lt (i := 63) (a := sign) (b := exp <<< 52)
    (by rw [hsign]; split <;> rfl) (by omega)
  apply BitVec.eq_of_toNat_eq
  rw [Double.toNat_or_of_lt (i := 52) (by rw [htop, hsign, hexponent]; split <;> omega) (by omega),
    htop, hsign, hexponent, hfraction, Double.toNat_ofParts negative (by omega), Format.withSign,
    Format.signBit_double]
  split <;> omega

/-- The leading one of a denormal number becomes the hidden bit. -/
theorem load_denormal (negative : Bool) {m : Nat} (hzero : m ≠ 0) (hsmall : m < 0x800000) :
    load (ofParts negative m) = Double.ofParts negative (widen m) := by
  have hlog := log2_denormal hzero hsmall
  obtain ⟨hexp, hfrac⟩ := fields_ofParts negative (m := m) (by omega)
  rw [Nat.div_eq_of_lt hsmall] at hexp
  rw [Nat.mod_eq_of_lt hsmall] at hfrac
  have hm : ((ofParts negative m).setWidth 64 &&& 0x007FFFFF).toNat = m := by
    rw [hfrac, BitVec.toNat_ofNat, Nat.mod_eq_of_lt (by omega)]
  have hne : (ofParts negative m).setWidth 64 &&& 0x007FFFFF ≠ 0 := by
    intro heq
    rw [heq] at hm
    exact hzero hm.symm
  have hsign : (((ofParts negative m).setWidth 64 &&& 0x80000000) <<< 32).toNat =
      if negative then 2 ^ 63 else 0 := by
    have hmask := toNat_and_mask ((ofParts negative m).setWidth 64) 0x80000000 1 31 rfl
    rw [toNat_setWidth_ofParts negative (by omega), Format.withSign, Format.signBit_single] at hmask
    rw [toNat_shiftLeft_of_lt (by omega), hmask]
    split <;> omega
  have hcount : (897 - BitVec.ofNat 64 (23 - m.log2)).toNat = m.log2 + 874 := by
    rw [BitVec.toNat_sub, BitVec.toNat_ofNat, show (897 : BitVec 64).toNat = 897 from rfl]
    omega
  have hpow : m * 2 ^ (52 - m.log2) = m * 2 ^ (23 - m.log2) * 2 ^ 29 := by
    rw [Nat.mul_assoc, ← Nat.pow_add]
    exact congrArg (fun k => m * 2 ^ k) (by omega)
  have hlower := le_denormal hzero hlog
  have hupper := denormal_lt hlog
  rw [hpow] at hlower hupper
  have hshifted : (((ofParts negative m).setWidth 64 &&& 0x007FFFFF) <<< (23 - m.log2)).toNat =
      m * 2 ^ (23 - m.log2) := by
    rw [toNat_shiftLeft_of_lt (by rw [hm]; omega), hm]
  have hloop := normalise_eq 897 (.of_fraction hne)
  rw [hm] at hloop
  rw [load_eq_normalise hexp hne hloop, assemble_eq negative hsign (by omega) (by omega) (by omega),
    hcount, hshifted, widen, if_neg hzero, if_pos hsmall, hpow]
  refine congrArg (Double.ofParts negative) ?_
  omega

/-- A load widens the magnitude. -/
theorem load_ofParts (negative : Bool) {m : Nat} (h : m ≤ 0x7F800000) :
    load (ofParts negative m) = Double.ofParts negative (widen m) := by
  by_cases hdenormal : m ≠ 0 ∧ m < 0x800000
  · exact load_denormal negative hdenormal.1 hdenormal.2
  obtain ⟨hexp, hfrac⟩ := fields_ofParts negative (m := m) (by omega)
  have hrest : m / 0x800000 = 0 → (ofParts negative m).setWidth 64 &&& 0x007FFFFF = 0 := by
    intro hsmall
    rw [hfrac, show m % 0x800000 = 0 by omega]
    rfl
  have hone : (1 : BitVec 64).toNat = 1 := rfl
  have hnone : (0 : BitVec 64).toNat = 0 := rfl
  have hwide : widen m = if m = 0 then 0 else if m < 0x7F800000 then
      (m / 0x800000 + 896) * 2 ^ 52 + m % 0x800000 * 2 ^ 29 else 0x7FF0000000000000 := by
    unfold widen
    by_cases hzero : m = 0
    · rw [if_pos hzero, if_pos hzero]
    · rw [if_neg hzero, if_neg hzero, if_neg (by omega)]
  rw [load_eq_splice hexp (by omega) hrest, hwide]
  split
  · rw [splice_ofParts negative (by omega) (.inr rfl), hone]
    refine congrArg (Double.ofParts negative) ?_
    rw [if_neg (by omega)]
    split <;> omega
  · rw [splice_ofParts negative (by omega) (.inl rfl), hnone]
    refine congrArg (Double.ofParts negative) ?_
    by_cases hzero : m = 0
    · subst hzero
      rfl
    · rw [if_neg hzero, if_pos (by omega)]
      omega

/-- A load of an infinity or a NaN keeps the fraction. -/
theorem load_special (negative : Bool) {m : Nat} (hlt : m < 0x80000000) (h : 0x7F800000 ≤ m) :
    load (ofParts negative m) =
      Double.ofParts negative (0x7FF0000000000000 + (m - 0x7F800000) * 2 ^ 29) := by
  obtain ⟨hexp, -⟩ := fields_ofParts negative hlt
  have hone : (1 : BitVec 64).toNat = 1 := rfl
  rw [load_eq_splice hexp (by omega) (by omega), if_pos (by omega),
    splice_ofParts negative hlt (.inr rfl), hone]
  refine congrArg (Double.ofParts negative) ?_
  omega

/-- A load of a number keeps its value. -/
theorem load_eq_toDouble {x : Single} (h : x.isNan = false) : load x = toDouble x := by
  obtain ⟨negative, m, hlt, rfl⟩ := exists_parts x
  rw [isNan_ofParts negative hlt, decide_eq_false_iff_not] at h
  rw [load_ofParts negative (by omega), toDouble_ofParts negative (by omega)]

/-! ## Stores -/

/-- The exponent field of a double. -/
theorem exponent_ofParts (negative : Bool) {n : Nat} (h : n < 0x8000000000000000) :
    (Double.ofParts negative n >>> 52).toNat % (1 <<< 11) = n / 2 ^ 52 := by
  rw [BitVec.toNat_ushiftRight, Nat.shiftRight_eq_div_pow, Double.toNat_ofParts negative h,
    Format.withSign, Format.signBit_double, Nat.one_shiftLeft]
  split <;> omega

/-- What is left out of a magnitude. -/
theorem unsplice_ofParts (negative : Bool) {n : Nat} (h : n < 0x8000000000000000) :
    unsplice (Double.ofParts negative n) =
      ofParts negative (n / 2 ^ 62 * 2 ^ 30 + n / 2 ^ 29 % 2 ^ 30) := by
  have hbits := Double.toNat_ofParts negative h
  rw [Format.withSign, Format.signBit_double] at hbits
  have htop := toNat_and_mask (Double.ofParts negative n >>> 32) 0xC0000000 2 30 rfl
  have hlow := toNat_and_mask (Double.ofParts negative n >>> 29) 0x3FFFFFFF 30 0 rfl
  rw [BitVec.toNat_ushiftRight, Nat.shiftRight_eq_div_pow, hbits] at htop hlow
  apply BitVec.eq_of_toNat_eq
  rw [unsplice, BitVec.toNat_setWidth, Double.toNat_or_of_lt (i := 30) (by omega) (by omega), htop,
    hlow, toNat_ofParts negative (by omega), Format.withSign, Format.signBit_single]
  split <;> omega

theorem store_exponent (x : Double) :
    (x >>> 52 &&& 0x7FF).toNat = (x >>> 52).toNat % (1 <<< 11) := by
  rw [toNat_and_mask _ _ 11 0 rfl, Nat.one_shiftLeft]
  omega

/-- Outside of the denormal range, a store takes bits out of the magnitude. -/
theorem store_bits (negative : Bool) {n : Nat} (h : n < 0x8000000000000000)
    (hrange : ¬(874 ≤ n / 2 ^ 52 ∧ n / 2 ^ 52 ≤ 896)) :
    store (Double.ofParts negative n) =
      ofParts negative (n / 2 ^ 62 * 2 ^ 30 + n / 2 ^ 29 % 2 ^ 30) := by
  have hexp := (store_exponent _).trans (exponent_ofParts negative h)
  rw [← unsplice_ofParts negative h, store, hexp]
  by_cases hhigh : 896 < n / 2 ^ 52
  · exact if_pos (.inl hhigh)
  · -- zeros and what is below the denormal range alike
    have hlow : ¬874 ≤ n / 2 ^ 52 := by omega
    dsimp only
    rw [if_neg hlow, ite_self]

/-- In the denormal range, a store shifts the significand to its place. -/
theorem store_denormal (negative : Bool) {n : Nat} (h : n < 0x8000000000000000)
    (hlow : 874 ≤ n / 2 ^ 52) (hhigh : n / 2 ^ 52 ≤ 896) :
    store (Double.ofParts negative n) = ofParts negative
      ((2 ^ 31 + n % 2 ^ 52 / 2 ^ 21) / 2 ^ (905 - n / 2 ^ 52)) := by
  have hsig : (signMask |||
      ((Double.ofParts negative n &&& Double.fracMask) >>> 21).setWidth 32).toNat =
        2 ^ 31 + n % 2 ^ 52 / 2 ^ 21 := by
    have hfrac : (((Double.ofParts negative n &&& Double.fracMask) >>> 21).setWidth 32).toNat =
        n % 2 ^ 52 / 2 ^ 21 := by
      rw [BitVec.toNat_setWidth, BitVec.toNat_ushiftRight, Double.toNat_and_fracMask,
        Nat.shiftRight_eq_div_pow, Double.toNat_ofParts negative h, Format.withSign,
        Format.signBit_double]
      split <;> omega
    rw [Double.toNat_or_of_lt (i := 31) (by decide) (by rw [hfrac]; omega), hfrac]
    rfl
  have hsign : ((Double.ofParts negative n >>> 32).setWidth 32 &&& signMask).toNat =
      if negative then 0x80000000 else 0 := by
    have hmask : signMask.toNat = (2 ^ 1 - 1) <<< 31 := by decide
    rw [BitVec.toNat_and, hmask, and_field, Nat.shiftRight_eq_div_pow, Nat.shiftLeft_eq,
      BitVec.toNat_setWidth, BitVec.toNat_ushiftRight, Nat.shiftRight_eq_div_pow,
      Double.toNat_ofParts negative h, Format.withSign, Format.signBit_double]
    split <;> omega
  -- at least nine places to the right, so the sign bit is free
  have hfits : (2 ^ 31 + n % 2 ^ 52 / 2 ^ 21) / 2 ^ (905 - n / 2 ^ 52) < 2 ^ 31 := by
    have hpow : 2 ^ 9 ≤ 2 ^ (905 - n / 2 ^ 52) := Nat.pow_le_pow_right (by omega) (by omega)
    calc (2 ^ 31 + n % 2 ^ 52 / 2 ^ 21) / 2 ^ (905 - n / 2 ^ 52)
        ≤ (2 ^ 31 + n % 2 ^ 52 / 2 ^ 21) / 2 ^ 9 := Nat.div_le_div_left hpow (by omega)
      _ < 2 ^ 31 := by omega
  have hexp := (store_exponent _).trans (exponent_ofParts negative h)
  have hne : Double.ofParts negative n &&& ~~~Double.signMask ≠ 0 := by
    intro hzero
    have hmagnitude := congrArg BitVec.toNat hzero
    rw [Double.clearSign_ofParts negative h, Double.toNat_ofParts false h] at hmagnitude
    have : n = 0 := hmagnitude
    omega
  unfold store
  rw [hexp]
  dsimp only
  rw [if_neg (not_or.2 ⟨Nat.not_lt.2 hhigh, hne⟩), if_pos hlow, BitVec.or_comm]
  apply BitVec.eq_of_toNat_eq
  rw [Double.toNat_or_of_lt (i := 31) (by rw [hsign]; split <;> rfl)
      (by rw [BitVec.toNat_ushiftRight, hsig, Nat.shiftRight_eq_div_pow]; exact hfits),
    hsign, BitVec.toNat_ushiftRight, hsig, Nat.shiftRight_eq_div_pow,
    toNat_ofParts negative (by omega), Format.withSign, Format.signBit_single]
  split <;> omega

/-- A store undoes a load. -/
theorem store_widen (negative : Bool) {m : Nat} (h : m ≤ 0x7F800000) :
    store (Double.ofParts negative (widen m)) = ofParts negative m := by
  by_cases hzero : m = 0
  · subst hzero
    cases negative <;> decide
  by_cases hinf : m = 0x7F800000
  · subst hinf
    cases negative <;> decide
  have hwide := widen_lt (m := m) (by omega)
  by_cases hsmall : m < 0x800000
  · have hlog := log2_denormal hzero hsmall
    have hlower := le_denormal hzero hlog
    have hupper := denormal_lt hlog
    have heq : widen m = (m.log2 + 873) * 2 ^ 52 + m * 2 ^ (52 - m.log2) := by
      rw [widen, if_neg hzero, if_pos hsmall]
    have hexp : widen m / 2 ^ 52 = m.log2 + 874 := by omega
    have hpow : m * 2 ^ (52 - m.log2) = m * 2 ^ (31 - m.log2) * 2 ^ 21 := by
      rw [Nat.mul_assoc, ← Nat.pow_add]
      congr 2
      omega
    have hsig : 2 ^ 31 + widen m % 2 ^ 52 / 2 ^ 21 = m * 2 ^ (31 - m.log2) := by
      rw [heq]
      rw [hpow] at hlower hupper ⊢
      generalize m * 2 ^ (31 - m.log2) = scaled at hlower hupper
      omega
    have hshift : 905 - (m.log2 + 874) = 31 - m.log2 := by omega
    rw [store_denormal negative (by omega) (by omega) (by omega), hsig, hexp, hshift,
      Nat.mul_div_cancel _ (Nat.two_pow_pos _)]
  · have heq : widen m = (m / 0x800000 + 896) * 2 ^ 52 + m % 0x800000 * 2 ^ 29 := by
      rw [widen, if_neg hzero, if_neg hsmall, if_pos (by omega)]
    rw [store_bits negative (by omega) (by omega), heq]
    refine congrArg (ofParts negative) ?_
    omega

end Single

end Recompiler.Ieee
