import Mathlib.Data.Nat.Dist
import Recompiler.Proofs.Lower.FloatArith
import Recompiler.Proofs.NanOperands

/-!
# Rounding an operand to 25 bits

The bits of a double, read as a whole number, are rounded to the nearest multiple of `2 ^ 28`, ties
upwards, unless the carry leaves the word. The code of the rounding computes just that, in each of
its lanes, and touches nothing but its destination and the scratch register.
-/

namespace Recompiler

/-! ## Nearest multiples -/

/-- `y` is the multiple of `unit` nearest to `x`, the larger of two at the same distance. -/
structure IsNearestMultiple (unit x y : Nat) : Prop where
  dvd : unit ∣ y
  nearest : ∀ z, unit ∣ z → x.dist y ≤ x.dist z
  tie : ∀ z, unit ∣ z → x.dist z = x.dist y → z ≤ y

namespace IsNearestMultiple

variable {unit x x' y y' : Nat}

theorem self (h : unit ∣ y) : IsNearestMultiple unit y y := by
  refine ⟨h, ?_, ?_⟩
  · intro z _
    rw [Nat.dist_self]
    exact Nat.zero_le _
  · intro z _ hz
    rw [Nat.dist_self] at hz
    exact (Nat.eq_of_dist_eq_zero hz).ge

/-- A number that is nearer to the larger of two multiples is below all numbers nearer to the
smaller. -/
theorem mono (h : IsNearestMultiple unit x y) (h' : IsNearestMultiple unit x' y') (hx : x ≤ x') :
    y ≤ y' := by
  by_contra hlt
  have hnear : x.dist y ≤ x.dist y' := h.nearest y' h'.dvd
  have hnear' : x'.dist y' ≤ x'.dist y := h'.nearest y h.dvd
  have htie : x'.dist y = x'.dist y' → y ≤ y' := h'.tie y h.dvd
  unfold Nat.dist at hnear hnear' htie
  omega

theorem unique (h : IsNearestMultiple unit x y) (h' : IsNearestMultiple unit x y') : y = y' :=
  Nat.le_antisymm (h.mono h' le_rfl) (h'.mono h le_rfl)

end IsNearestMultiple

/-- Half a unit more, rounded down. -/
theorem isNearestMultiple_add_half (x : Nat) :
    IsNearestMultiple (2 ^ 28) x ((x + 2 ^ 27) / 2 ^ 28 * 2 ^ 28) := by
  refine ⟨Nat.dvd_mul_left _ _, ?_, ?_⟩
  · rintro z ⟨k, rfl⟩
    unfold Nat.dist
    omega
  · rintro z ⟨k, rfl⟩ hz
    unfold Nat.dist at hz
    omega

/-! ## Doubles -/

namespace Ieee.Double

/-- Whether the carry of the rounding leaves the word. -/
def roundingWraps (x : Double) : Bool :=
  (x &&& ~~~(0x0FFFFFFF : Double)).uaddOverflow ((x &&& roundBit) <<< 1)

theorem roundingWraps_eq_false {x : Double} :
    x.roundingWraps = false ↔ x.toNat + 2 ^ 27 < 2 ^ 64 := by
  rw [roundingWraps, BitVec.uaddOverflow, toNat_kept_add_carry, decide_eq_false_iff_not]
  omega

theorem roundTo25Bits_nearest {x : Double} (h : x.roundingWraps = false) :
    IsNearestMultiple (2 ^ 28) x.toNat x.roundTo25Bits.toNat := by
  have hlt := roundingWraps_eq_false.1 h
  rw [toNat_roundTo25Bits, Nat.mod_eq_of_lt (by omega)]
  exact isNearestMultiple_add_half x.toNat

theorem dvd_toNat_roundTo25Bits (x : Double) : 2 ^ 28 ∣ x.roundTo25Bits.toNat := by
  rw [toNat_roundTo25Bits, Nat.dvd_mod_iff (by decide)]
  exact Nat.dvd_mul_left _ _

/-- What has been rounded is a multiple already, and no multiple wraps. -/
theorem roundTo25Bits_idem (x : Double) : x.roundTo25Bits.roundTo25Bits = x.roundTo25Bits := by
  have hdvd := dvd_toNat_roundTo25Bits x
  have hwraps : x.roundTo25Bits.roundingWraps = false := by
    have hlt := x.roundTo25Bits.isLt
    rw [roundingWraps_eq_false]
    omega
  apply BitVec.eq_of_toNat_eq
  exact (roundTo25Bits_nearest hwraps).unique (.self hdvd)

theorem roundTo25Bits_mono {x y : Double} (hle : x ≤ y) (h : y.roundingWraps = false) :
    x.roundTo25Bits ≤ y.roundTo25Bits := by
  have hle' : x.toNat ≤ y.toNat := BitVec.le_def.1 hle
  have hx : x.roundingWraps = false := by
    rw [roundingWraps_eq_false] at h ⊢
    omega
  rw [BitVec.le_def]
  exact (roundTo25Bits_nearest hx).mono (roundTo25Bits_nearest h) hle'

end Ieee.Double

/-! ## Code -/

open Arm Ieee Lower

namespace Emit

/-- The rounding emits code that rounds each selected lane of its source into its destination and
changes nothing else but the scratch register. Rounding goes to the nearest multiple of `2 ^ 28`,
ties upwards, wherever it does not wrap; so it is idempotent, and monotone there. -/
theorem roundTo25_rounds_lanes_to_nearest :
    (∀ (dst src : HostReg) (lanes : Lanes), dst ≠ src → dst ≠ vectorScratch → src ≠ vectorScratch →
      ∀ e : Emitter, ∃ insts,
        (roundTo25 dst src lanes).run.run e =
          (.ok (), { e with code := e.code.emitAll insts }) ∧
        ∀ m : Machine, ∃ m', m.execAll insts = some m' ∧ SameButV dst m m' ∧
          ∀ i, lanes.Selects i →
            lane (m'.getV dst) i = Double.roundTo25Bits (lane (m.getV src) i)) ∧
    (∀ x : Double, x.roundingWraps = false →
      IsNearestMultiple (2 ^ 28) x.toNat x.roundTo25Bits.toNat) ∧
    (∀ x : Double, x.roundTo25Bits.roundTo25Bits = x.roundTo25Bits) ∧
    (∀ x y : Double, x ≤ y → y.roundingWraps = false → x.roundTo25Bits ≤ y.roundTo25Bits) := by
  refine ⟨?_, fun x => Double.roundTo25Bits_nearest, Double.roundTo25Bits_idem,
    fun x y => Double.roundTo25Bits_mono⟩
  intro dst src lanes hne hd hs e
  refine ⟨roundTo25Code dst src lanes, ?_, fun m => exec_roundTo25 hne hd hs lanes⟩
  unfold roundTo25
  rw [if_neg hne]
  rfl

/-- A significand of ones, rounded in the upper lane, carries into its exponent. -/
theorem roundTo25_carry_into_exponent :
    (∃ insts, (roundTo25 1 2 .both).run.run (.new {} .standard) =
        (.ok (), { Emitter.new {} .standard with code := CodeBuffer.emitAll {} insts }) ∧
      ∀ m : Machine, lane (m.getV 2) 1 = 0x3FEFFFFFF8000000 →
        ∃ m', m.execAll insts = some m' ∧ m'.getV 3 = m.getV 3 ∧
          lane (m'.getV 1) 1 = 0x3FF0000000000000) ∧
    IsNearestMultiple (2 ^ 28) 0x3FEFFFFFF8000000 0x3FF0000000000000 ∧
    Double.roundTo25Bits 0x3FEFFFFFF8000000 ≤ Double.roundTo25Bits 0xFFFFFFFFF7FFFFFF := by
  obtain ⟨hcode, hnearest, -, hmono⟩ := roundTo25_rounds_lanes_to_nearest
  refine ⟨?_, hnearest 0x3FEFFFFFF8000000 (by decide), hmono _ _ (by decide) (by decide)⟩
  obtain ⟨insts, hrun, hexec⟩ :=
    hcode 1 2 .both (by decide) (by decide) (by decide) (.new {} .standard)
  refine ⟨insts, hrun, ?_⟩
  intro m hlane
  obtain ⟨m', hm', hsame, hval⟩ := hexec m
  refine ⟨m', hm', hsame.v 3 (by decide) (by decide), ?_⟩
  rw [hval 1 (.inr ⟨rfl, rfl⟩), hlane]
  decide

end Emit

end Recompiler
