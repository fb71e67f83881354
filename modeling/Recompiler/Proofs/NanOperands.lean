import Recompiler.Proofs.GuestStep
import Recompiler.Proofs.SingleRounding

/-!
# NaN operands

Arithmetic passes on a NaN operand, and rounding to single keeps it. In single precision the bits of
the multiplier are rounded to 25 bits before it is used, and that knows no NaNs: a small payload is
rounded away and leaves an infinity, and a payload with its upper bits set overflows to a zero.
-/

namespace Recompiler

open Arm Ieee PowerPC

namespace Ieee.Double

/-! ## What keeps a NaN -/

/-- A NaN stays one when it becomes quiet. -/
theorem isNan_quiet {x : Double} (h : isNan x = true) : isNan (quiet x) = true := by
  obtain ⟨hexp, -⟩ := Bool.and_eq_true_iff.1 h
  have hfixed : quiet x &&& expMask = x &&& expMask := by
    have hquiet : quietBit &&& expMask = 0#64 := by decide
    rw [quiet, BitVec.and_or_distrib_right, hquiet, BitVec.or_zero]
  have hbit : (quiet x &&& fracMask).getLsbD 51 = true := by
    have hquiet : quietBit.getLsbD 51 = true := by decide
    have hfrac : fracMask.getLsbD 51 = true := by decide
    rw [quiet, BitVec.getLsbD_and, BitVec.getLsbD_or, hquiet, hfrac, Bool.or_true, Bool.and_true]
  refine Bool.and_eq_true_iff.2 ⟨by rw [hfixed]; exact hexp, bne_iff_ne.2 fun hzero => ?_⟩
  rw [hzero] at hbit
  cases hbit

theorem isNan_propagate {result x : Double} {operands : List Double} (hx : x ∈ operands)
    (h : isNan x = true) : isNan (propagate result operands) = true := by
  unfold propagate
  cases hfind : operands.find? isNan with
  | some nan => exact isNan_quiet (List.find?_some hfind)
  | none => exact absurd h (List.find?_eq_none.1 hfind x hx)

theorem isNan_negateUnlessNan {x : Double} (h : isNan x = true) :
    isNan (negateUnlessNan x) = true := by
  rw [negateUnlessNan, if_pos h]
  exact h

theorem isNan_roundToSingle {x : Double} (h : isNan x = true) : isNan (roundToSingle x) = true := by
  obtain ⟨negative, magnitude, hlt, rfl⟩ := exists_parts x
  rw [isNan_ofParts negative hlt, decide_eq_true_iff] at h
  rw [roundToSingle_nan negative hlt h, isNan_ofParts negative (by omega), decide_eq_true_iff]
  omega

/-! ## Rounding the multiplier -/

/-- The stored bits of the significand. -/
def fraction (x : Double) : Nat := (x &&& fracMask).toNat

/-- The part kept and the carry, before their sum wraps. -/
theorem toNat_kept_add_carry (x : Double) :
    (x &&& ~~~(0x0FFFFFFF : Double)).toNat + ((x &&& roundBit) <<< 1).toNat =
      (x.toNat + 2 ^ 27) / 2 ^ 28 * 2 ^ 28 := by
  have hx := x.isLt
  have hkeep : (~~~(0x0FFFFFFF : Double)).toNat = (2 ^ 36 - 1) <<< 28 := by decide
  have hbit : roundBit.toNat = (2 ^ 1 - 1) <<< 27 := by decide
  rw [BitVec.toNat_and, hkeep, and_field, BitVec.toNat_shiftLeft, BitVec.toNat_and, hbit, and_field]
  simp only [Nat.shiftRight_eq_div_pow, Nat.shiftLeft_eq]
  omega

/-- As a whole number, a double is rounded to the nearest multiple of `2 ^ 28`. -/
theorem toNat_roundTo25Bits (x : Double) :
    x.roundTo25Bits.toNat = (x.toNat + 2 ^ 27) / 2 ^ 28 * 2 ^ 28 % 2 ^ 64 := by
  rw [roundTo25Bits, BitVec.toNat_add, toNat_kept_add_carry]

theorem roundTo25Bits_ofParts (negative : Bool) {magnitude : Nat}
    (h : magnitude + 2 ^ 27 < 0x8000000000000000) : (ofParts negative magnitude).roundTo25Bits =
      ofParts negative ((magnitude + 2 ^ 27) / 2 ^ 28 * 2 ^ 28) := by
  apply BitVec.eq_of_toNat_eq
  rw [toNat_roundTo25Bits, toNat_ofParts negative (by omega), toNat_ofParts negative (by omega),
    Format.withSign, Format.withSign, Format.signBit_double]
  split <;> omega

/-- A carry out of the magnitude flips the sign. -/
theorem roundTo25Bits_overflow (negative : Bool) {magnitude : Nat}
    (hlt : magnitude < 0x8000000000000000) (h : 0x8000000000000000 ≤ magnitude + 2 ^ 27) :
    (ofParts negative magnitude).roundTo25Bits = zero (!negative) := by
  apply BitVec.eq_of_toNat_eq
  rw [toNat_roundTo25Bits, toNat_ofParts negative hlt, Format.withSign, Format.signBit_double]
  cases negative with
  | false =>
    have hzero : (zero (!false)).toNat = 0x8000000000000000 := by decide
    rw [if_neg Bool.false_ne_true, hzero]
    omega
  | true =>
    have hzero : (zero (!true)).toNat = 0 := by decide
    rw [if_pos rfl, hzero]
    omega

/-- A multiplier that is a NaN is used as an infinity, a NaN or a zero. -/
theorem roundTo25Bits_nan {x : Double} (h : isNan x = true) :
    (x.fraction < 2 ^ 27 → x.roundTo25Bits = infinity x.isNegative) ∧
    (2 ^ 27 ≤ x.fraction → x.fraction < 2 ^ 52 - 2 ^ 27 → isNan x.roundTo25Bits = true) ∧
    (2 ^ 52 - 2 ^ 27 ≤ x.fraction → x.roundTo25Bits = zero (!x.isNegative)) := by
  obtain ⟨negative, magnitude, hlt, rfl⟩ := exists_parts x
  rw [isNan_ofParts negative hlt, decide_eq_true_iff] at h
  have hfraction : (ofParts negative magnitude).fraction = magnitude - 0x7FF0000000000000 := by
    rw [fraction, toNat_and_fracMask, toNat_ofParts negative hlt, Format.withSign,
      Format.signBit_double]
    split <;> omega
  rw [hfraction, isNegative_ofParts negative hlt]
  refine ⟨fun hsmall => ?_, fun hmin hmax => ?_, fun hlarge => ?_⟩
  · have hinfinity : infinity negative = ofParts negative 0x7FF0000000000000 := by
      cases negative <;> decide
    rw [roundTo25Bits_ofParts negative (by omega), hinfinity]
    refine congrArg (ofParts negative) ?_
    omega
  · rw [roundTo25Bits_ofParts negative (by omega), isNan_ofParts negative (by omega),
      decide_eq_true_iff]
    omega
  · exact roundTo25Bits_overflow negative hlt (by omega)

end Ieee.Double

namespace PowerPC

/-! ## Arithmetic -/

/-- An operand that an operation reads is a NaN when it is used. -/
def FpArith.UsesNan (op : FpArith) (single : Bool) (a b c : Double) : Prop :=
  a.isNan = true ∨ (op.usesB = true ∧ b.isNan = true) ∨
    (op.usesC = true ∧ c.isNan = true ∧
      (single = true → 2 ^ 27 ≤ c.fraction ∧ c.fraction < 2 ^ 52 - 2 ^ 27))

/-- A multiplier that is a NaN and is not rounded away is used as a NaN. -/
theorem isNan_multiplier {op : FpArith} {single : Bool} {c : Double} (h : c.isNan = true)
    (hfraction : single = true → 2 ^ 27 ≤ c.fraction ∧ c.fraction < 2 ^ 52 - 2 ^ 27) :
    Double.isNan (if single && op.usesC then c.roundTo25Bits else c) = true := by
  split
  · next hsingle =>
    obtain ⟨hmin, hmax⟩ := hfraction (Bool.and_eq_true_iff.1 hsingle).1
    exact (Double.roundTo25Bits_nan h).2.1 hmin hmax
  · exact h

theorem FpArith.isNan_apply {op : FpArith} {single : Bool} {a b c : Double}
    (h : op.UsesNan single a b c) : (op.apply single a b c).isNan = true := by
  -- the operands of the propagation are those that the operation reads
  have hpropagate : ∀ (result : Double) (operands : List Double), a ∈ operands →
      (op.usesB = true → b ∈ operands) →
      (op.usesC = true → (if single && op.usesC then c.roundTo25Bits else c) ∈ operands) →
      Double.isNan (result.propagate operands) = true := by
    intro result operands ha hb hc
    rcases h with hnan | ⟨huses, hnan⟩ | ⟨huses, hnan, hfraction⟩
    · exact Double.isNan_propagate ha hnan
    · exact Double.isNan_propagate (hb huses) hnan
    · exact Double.isNan_propagate (hc huses) (isNan_multiplier hnan hfraction)
  cases op
  case nmadd => exact Double.isNan_negateUnlessNan (hpropagate _ _ (by simp) (by simp) (by simp))
  case nmsub => exact Double.isNan_negateUnlessNan (hpropagate _ _ (by simp) (by simp) (by simp))
  case mul => exact hpropagate _ _ (by simp) (by simp [usesB]) (by simp)
  all_goals exact hpropagate _ _ (by simp) (by simp) (by simp [usesC])

/-- Only what rounding leaves of the third operand counts. -/
theorem FpArith.apply_congr {op : FpArith} (huses : op.usesC = true) (a b : Double) {c c' : Double}
    (h : c.roundTo25Bits = c'.roundTo25Bits) : op.apply true a b c = op.apply true a b c' := by
  have hround : (if true && op.usesC then c.roundTo25Bits else c) =
      if true && op.usesC then c'.roundTo25Bits else c' := by
    rw [huses]
    exact h
  simp only [apply, hround]

/-- What an operation takes a NaN for that rounding does not leave one. -/
theorem FpArith.apply_lost_nan {op : FpArith} (huses : op.usesC = true) (a b : Double) {c : Double}
    (h : c.isNan = true) :
    (c.fraction < 2 ^ 27 → op.apply true a b c = op.apply true a b (Double.infinity c.isNegative)) ∧
    (2 ^ 52 - 2 ^ 27 ≤ c.fraction →
      op.apply true a b c = op.apply true a b (Double.zero (!c.isNegative))) := by
  have hinfinity : ∀ s, (Double.infinity s).roundTo25Bits = Double.infinity s := by decide
  have hzero : ∀ s, (Double.zero s).roundTo25Bits = Double.zero s := by decide
  obtain ⟨hsmall, -, hlarge⟩ := Double.roundTo25Bits_nan h
  exact ⟨fun hfraction => apply_congr huses a b ((hsmall hfraction).trans (hinfinity _).symm),
    fun hfraction => apply_congr huses a b ((hlarge hfraction).trans (hzero _).symm)⟩

/-! ## Lanes -/

/-- Whether results are rounded to single. -/
def FpForm.isSingle : FpForm → Bool
  | .double => false
  | .single | .paired => true

/-- The lane of the operands that a form computes a lane of the result from, if it writes that. -/
def FpForm.source : FpForm → Fin 2 → Option (Fin 2)
  | .double, 0 => some 0
  | .double, 1 => none
  | .single, _ => some 0
  | .paired, i => some i

/-- A result as the form leaves it. -/
def FpForm.finish (form : FpForm) (x : Double) : Double :=
  if form.isSingle then x.roundToSingle else x

variable {layout : Layout} {state : State}

/-- What the interpreter writes to a lane of the destination. -/
theorem lane_step_arith (hv : layout.Valid) (hon : state.On layout) (fprf : Bool) {word : Word}
    {form : FpForm} {op : FpArith} (hop : Op.decode word = some (.float (.arith form op))) :
    ∃ after, Interpreter.step ⟨fprf⟩ state word = .ok after ∧
      ∀ result operand, form.source result = some operand →
        lane (after.ps word.rd) result = form.finish (op.apply form.isSingle
          (lane (state.ps word.ra) operand) (lane (state.ps word.rb) operand)
          (lane (state.ps word.frc) operand)) := by
  refine ⟨_, by rw [Interpreter.step_eq, Word.step, hop], fun result operand hsource => ?_⟩
  rw [hon.ps_stepFloat hv]
  cases form with
  | double =>
    match result, hsource with
    | 0, h =>
      cases h
      exact lane_join_zero _ _
    | 1, h => cases h
  | single =>
    cases hsource
    match result with
    | 0 => exact lane_join_zero _ _
    | 1 => exact lane_join_one _ _
  | paired =>
    cases hsource
    match result with
    | 0 => exact lane_join_zero _ _
    | 1 => exact lane_join_one _ _

/-- A NaN among the operands of an operation makes its result a NaN. A multiplier that is rounded
first has to be one of the NaNs that stay NaNs: the operation sees the infinity of its sign in place
of one with a smaller payload, and the zero of the other sign in place of one with a larger. -/
theorem nan_operands_propagate (hv : layout.Valid) (hon : state.On layout)
    (fprf : Bool) {word : Word} {form : FpForm} {op : FpArith}
    (hop : Op.decode word = some (.float (.arith form op))) :
    ∃ after, Interpreter.step ⟨fprf⟩ state word = .ok after ∧
      ∀ result operand, form.source result = some operand →
        let a : Double := lane (state.ps word.ra) operand
        let b : Double := lane (state.ps word.rb) operand
        let c : Double := lane (state.ps word.frc) operand
        let d : Double := lane (after.ps word.rd) result
        (op.UsesNan form.isSingle a b c → d.isNan = true) ∧
        (form.isSingle = true → op.usesC = true → c.isNan = true →
          (c.fraction < 2 ^ 27 →
            d = (op.apply true a b (Double.infinity c.isNegative)).roundToSingle) ∧
          (2 ^ 52 - 2 ^ 27 ≤ c.fraction →
            d = (op.apply true a b (Double.zero (!c.isNegative))).roundToSingle)) := by
  obtain ⟨after, hstep, hlane⟩ := lane_step_arith hv hon fprf hop
  refine ⟨after, hstep, fun result operand hsource => ?_⟩
  dsimp only
  rw [hlane result operand hsource]
  constructor
  · intro h
    have hresult := FpArith.isNan_apply h
    unfold FpForm.finish
    split
    · exact Double.isNan_roundToSingle hresult
    · exact hresult
  · intro hsingle huses hnan
    obtain ⟨hsmall, hlarge⟩ := FpArith.apply_lost_nan huses (lane (state.ps word.ra) operand)
      (lane (state.ps word.rb) operand) hnan
    rw [FpForm.finish, hsingle, if_pos rfl]
    exact ⟨fun hfraction => congrArg Double.roundToSingle (hsmall hfraction),
      fun hfraction => congrArg Double.roundToSingle (hlarge hfraction)⟩

/-- One in the first register and a multiplier in the second. -/
def State.withMultiplier (low high : Double) : State :=
  ((State.zeroed .standard).put (.ps 1) (join Double.one Double.one)).put (.ps 2) (join low high)

theorem State.withMultiplier_spec (low high : Double) : (withMultiplier low high).On .standard ∧
    (withMultiplier low high).fetch (.ps 1) = join Double.one Double.one ∧
    (withMultiplier low high).fetch (.ps 2) = join low high := by
  have hv := Layout.valid_standard
  have hzeroed := State.On.zeroed hv
  have hone := hzeroed.put hv (.ps 1) (join Double.one Double.one)
  exact ⟨hone.put hv _ _,
    (hone.fetch_put_of_ne hv (.ps 2) _ (by decide)).trans (hzeroed.fetch_put_self hv (.ps 1) _),
    hone.fetch_put_self hv (.ps 2) _⟩

/-- One times the NaNs with the smallest and the largest payload that rounding leaves NaNs. -/
theorem extreme_nans_propagate :
    Op.decode 0x106100B2 = some (.float (.arith .paired .mul)) ∧
    ∃ after, Interpreter.step ⟨false⟩ (.withMultiplier 0x7FF0000008000000 0x7FFFFFFFF7FFFFFF)
        0x106100B2 = .ok after ∧
      Double.isNan (lane (after.ps 3) 0) = true ∧ Double.isNan (lane (after.ps 3) 1) = true := by
  have hop : Op.decode 0x106100B2 = some (.float (.arith .paired .mul)) := rfl
  obtain ⟨hon, -, hc⟩ := State.withMultiplier_spec 0x7FF0000008000000 0x7FFFFFFFF7FFFFFF
  obtain ⟨after, hstep, hlanes⟩ := nan_operands_propagate Layout.valid_standard hon false hop
  have hmultiplier : State.ps _ (Word.frc 0x106100B2) = _ := hc
  refine ⟨hop, after, hstep, (hlanes 0 0 rfl).1 (.inr (.inr ⟨rfl, ?_⟩)),
    (hlanes 1 1 rfl).1 (.inr (.inr ⟨rfl, ?_⟩))⟩
  · rw [hmultiplier]
    decide
  · rw [hmultiplier]
    decide

/-- One times the NaNs with the payloads next to those is an infinity and a zero. -/
theorem next_nans_do_not_propagate :
    Op.decode 0x106100B2 = some (.float (.arith .paired .mul)) ∧
    (∀ i < 2, Double.isNan (lane (State.ps (.withMultiplier 0x7FF0000007FFFFFF 0x7FFFFFFFF8000000)
      (Word.frc 0x106100B2)) i) = true) ∧
    ∃ after, Interpreter.step ⟨false⟩ (.withMultiplier 0x7FF0000007FFFFFF 0x7FFFFFFFF8000000)
        0x106100B2 = .ok after ∧
      lane (after.ps 3) 0 = Double.infinity false ∧ Double.isNan (lane (after.ps 3) 0) = false ∧
      lane (after.ps 3) 1 = Double.zero true ∧ Double.isNan (lane (after.ps 3) 1) = false := by
  have hop : Op.decode 0x106100B2 = some (.float (.arith .paired .mul)) := rfl
  obtain ⟨hon, ha, hc⟩ := State.withMultiplier_spec 0x7FF0000007FFFFFF 0x7FFFFFFFF8000000
  have hfactor : State.ps _ (Word.ra 0x106100B2) = _ := ha
  have hmultiplier : State.ps _ (Word.frc 0x106100B2) = _ := hc
  obtain ⟨after, hstep, hlanes⟩ := lane_step_arith Layout.valid_standard hon false hop
  -- the second operand does not count
  have hproduct : ∀ b c : Double, FpForm.paired.finish (FpArith.mul.apply true Double.one b c) =
      ((Double.one.mul c.roundTo25Bits).propagate [Double.one, c.roundTo25Bits]).roundToSingle :=
    fun _ _ => rfl
  have hlow : lane (after.ps 3) 0 = Double.infinity false := by
    refine (hlanes 0 0 rfl).trans ?_
    rw [hfactor, hmultiplier]
    exact (hproduct _ _).trans (by decide)
  have hhigh : lane (after.ps 3) 1 = Double.zero true := by
    refine (hlanes 1 1 rfl).trans ?_
    rw [hfactor, hmultiplier]
    exact (hproduct _ _).trans (by decide)
  rw [hmultiplier]
  exact ⟨hop, by decide, after, hstep, hlow, by rw [hlow]; decide, hhigh, by rw [hhigh]; decide⟩

end PowerPC

end Recompiler
