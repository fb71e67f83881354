import Recompiler.Proofs.BlockEquivalence
import Recompiler.Proofs.CodeSize
import Recompiler.Proofs.NanOperands

/-!
# Results of negated fused operations

The guest negates the rounded result of a fused operation, the host the operands. Rounding to
nearest does not see the sign, so the two agree but for zeros: an exact sum of zero takes its sign
from the signs of its terms. This is shown of one operation first, and then of a compiled block.
-/

namespace Recompiler

open Alloc Arm Block Emit Ieee Lower PowerPC

namespace Ieee

/-! ## Negated data -/

/-- A datum with the other sign. -/
def Datum.negated : Datum → Datum
  | .nan => .nan
  | .infinite s => .infinite (!s)
  | .finite s n e => .finite (!s) n e

theorem Format.datum_withSign_not (format : Format) (negative : Bool) {magnitude : Nat}
    (h : magnitude < format.signBit) : format.datum (format.withSign (!negative) magnitude) =
      (format.datum (format.withSign negative magnitude)).negated := by
  obtain ⟨hneg, hexp, hfrac⟩ := format.fields_withSign negative h
  obtain ⟨hneg', hexp', hfrac'⟩ := format.fields_withSign (!negative) h
  simp only [datum, hneg, hexp, hfrac, hneg', hexp', hfrac']
  split
  · split <;> rfl
  · split <;> rfl

namespace Double

theorem datum_negate (x : Double) : datum (negate x) = (datum x).negated := by
  obtain ⟨negative, magnitude, hlt, rfl⟩ := exists_parts x
  rw [negate_ofParts negative hlt, datum, datum, toNat_ofParts _ hlt, toNat_ofParts _ hlt]
  exact Format.datum_withSign_not _ _ (Format.signBit_double ▸ hlt)

theorem negate_negate (x : Double) : negate (negate x) = x := by
  rw [negate, negate, BitVec.xor_assoc, BitVec.xor_self, BitVec.xor_zero]

theorem isNan_negate (x : Double) : isNan (negate x) = isNan x := by
  obtain ⟨negative, magnitude, hlt, rfl⟩ := exists_parts x
  rw [negate_ofParts negative hlt, isNan_ofParts _ hlt, isNan_ofParts _ hlt]

/-- Positive or negative zero. -/
def IsZero (x : Double) : Prop := ∃ negative, x = zero negative

/-- Two doubles differ at most in the sign of a zero. -/
def SameButZeros (x y : Double) : Prop := x = y ∨ x.IsZero ∧ y.IsZero

theorem SameButZeros.symm {x y : Double} (h : SameButZeros x y) : SameButZeros y x := by
  rcases h with rfl | ⟨hx, hy⟩
  · exact .inl rfl
  · exact .inr ⟨hy, hx⟩

theorem IsZero.zero (negative : Bool) : IsZero (zero negative) := ⟨negative, rfl⟩

theorem IsZero.isNan {x : Double} (h : x.IsZero) : isNan x = false := by
  obtain ⟨negative, rfl⟩ := h
  cases negative <;> decide

theorem IsZero.negate {x : Double} (h : x.IsZero) : IsZero (negate x) := by
  obtain ⟨negative, rfl⟩ := h
  refine ⟨!negative, ?_⟩
  cases negative <;> decide

theorem IsZero.roundToSingle {x : Double} (h : x.IsZero) : IsZero (roundToSingle x) := by
  obtain ⟨negative, rfl⟩ := h
  refine ⟨negative, ?_⟩
  cases negative <;> decide

theorem SameButZeros.roundToSingle {x y : Double} (h : SameButZeros x y) :
    SameButZeros (roundToSingle x) (roundToSingle y) := by
  rcases h with rfl | ⟨hx, hy⟩
  · exact .inl rfl
  · exact .inr ⟨hx.roundToSingle, hy.roundToSingle⟩

/-! ## Sums of negated data -/

theorem product_negated (p q : Datum) : product p.negated q = (product p q).negated := by
  have hbool : ∀ s t : Bool, ((!s) != t) = !(s != t) := by decide
  cases p <;> cases q <;> simp only [Datum.negated, product, hbool] <;> split <;> rfl

theorem round_le_infinity (n : Nat) (e : Int) : Format.double.round n e ≤ 0x7FF0000000000000 := by
  unfold Format.round
  split
  · exact Nat.zero_le _
  · rw [← Format.infinity_double]
    exact Nat.min_le_left _ _

theorem isNan_ofExact (negative : Bool) (n : Nat) (e : Int) :
    isNan (ofExact negative n e) = false := by
  have hround := round_le_infinity n e
  have hparts := isNan_ofParts negative (Nat.lt_of_le_of_lt hround (by decide))
  rw [show ofExact negative n e = ofParts negative (Format.double.round n e) from rfl, hparts]
  exact decide_eq_false (Nat.not_lt.2 hround)

theorem ofInt_neg {i : Int} (hi : i ≠ 0) (e : Int) : ofInt (-i) e = negate (ofInt i e) := by
  have hround := round_le_infinity i.natAbs e
  have hparts := negate_ofParts (i < 0) (Nat.lt_of_le_of_lt hround (by decide))
  have hsign : decide (-i < 0) = !decide (i < 0) := by
    rw [Bool.eq_iff_iff, Bool.not_eq_true', decide_eq_true_iff, decide_eq_false_iff_not]
    omega
  rw [ofInt, ofInt, Int.natAbs_neg, hsign]
  exact hparts.symm

theorem signed_not (negative : Bool) (n : Nat) : signed (!negative) n = -signed negative n := by
  cases negative with
  | false => rfl
  | true => exact (Int.neg_neg _).symm

/-- The sign of an exact sum that is zero is not that of the negated terms. -/
theorem sumExact_not (s : Bool) (n : Nat) (e : Int) (t : Bool) (m : Nat) (f : Int) :
    SameButZeros (sumExact (!s) n e (!t) m f) (negateUnlessNan (sumExact s n e t m f)) := by
  simp only [sumExact, signed_not, ← Int.neg_add]
  generalize signed s _ + signed t _ = total
  by_cases htotal : total = 0
  · subst htotal
    rw [if_pos (Int.neg_zero), if_pos rfl, negateUnlessNan, (IsZero.zero _).isNan]
    exact .inr ⟨.zero _, (IsZero.zero _).negate⟩
  · rw [if_neg (by omega), if_neg htotal, ofInt_neg htotal, negateUnlessNan,
      if_neg (by rw [ofInt, isNan_ofExact]; exact Bool.false_ne_true)]
    exact .inl rfl

theorem sum_negated (p q : Datum) :
    SameButZeros (sum p.negated q.negated) (negateUnlessNan (sum p q)) := by
  have hnan : negateUnlessNan defaultNan = defaultNan := by decide
  have hinfinity : ∀ s, infinity (!s) = negateUnlessNan (infinity s) := by decide
  have hnot : ∀ s t : Bool, (!s) = (!t) ↔ s = t := by decide
  cases p with
  | nan => exact .inl hnan.symm
  | infinite s =>
    cases q with
    | nan => exact .inl hnan.symm
    | infinite t =>
      refine .inl ?_
      simp only [Datum.negated, sum, hnot]
      split
      · exact hinfinity s
      · exact hnan.symm
    | finite t m f => exact .inl (hinfinity s)
  | finite s n e =>
    cases q with
    | nan => exact .inl hnan.symm
    | infinite t => exact .inl (hinfinity t)
    | finite t m f => exact sumExact_not s n e t m f

/-- A fused operation on negated operands gives the negated result, but for the sign of a zero. -/
theorem fma_negate (a b c : Double) :
    SameButZeros (fma (negate a) b (negate c)) (negateUnlessNan (fma a b c)) := by
  rw [fma, fma, datum_negate, datum_negate, product_negated]
  exact sum_negated _ _

/-- One minus one is positive zero, and so is minus one plus one. -/
example : fma one one (negate one) = zero false ∧ fma (negate one) one one = zero false := by
  decide

theorem propagate_negate {x y : Double} (h : SameButZeros y (negateUnlessNan x))
    (operands : List Double) :
    SameButZeros (propagate y operands) (negateUnlessNan (propagate x operands)) := by
  unfold propagate
  cases hfind : operands.find? isNan with
  | some nan =>
    have hquiet := isNan_quiet (List.find?_some hfind)
    exact .inl (if_pos hquiet).symm
  | none =>
    dsimp only
    have hnan : negateUnlessNan defaultNan = defaultNan := by decide
    cases hx : isNan x with
    | true =>
      rw [negateUnlessNan, if_pos hx] at h
      rcases h with rfl | ⟨-, hzero⟩
      · rw [if_pos hx, if_pos rfl, hnan]
        exact .inl rfl
      · rw [hzero.isNan] at hx
        cases hx
    | false =>
      have hne : ¬isNan x = true := by simp [hx]
      rw [negateUnlessNan, if_neg hne] at h
      rw [if_neg Bool.false_ne_true, negateUnlessNan, if_neg hne]
      rcases h with rfl | ⟨hy, hzero⟩
      · rw [isNan_negate, if_neg hne]
        exact .inl rfl
      · rw [hy.isNan, if_neg Bool.false_ne_true]
        exact .inr ⟨hy, hzero⟩

end Double

end Ieee

/-! ## The two units -/

/-- The host's results of negated fused operations are those of the guest, apart from the sign of a
zero. -/
theorem arith_host_negated {op : FpArith} (h : op.isNegated = true) (single : Bool)
    (a b c : Double) :
    Double.SameButZeros ((FloatUnit.host false).arith op single a b c)
      (FloatUnit.guest.arith op single a b c) := by
  cases op with
  | nmadd => exact Double.propagate_negate (Double.fma_negate a _ b) _
  | nmsub =>
    have hfma := Double.fma_negate a
      (if single && FpArith.nmsub.usesC then Double.roundTo25Bits c else c) (Double.negate b)
    rw [Double.negate_negate] at hfma
    exact Double.propagate_negate hfma _
  | _ => cases h

/-- Two states that agree but for the signs of zeros in one floating-point register, and for the
class of a result when that is such a zero. -/
structure PowerPC.State.AgreesButZeros (fprf : Bool) (reg : GuestReg) (a b : State) : Prop where
  gpr : ∀ r : GuestReg, a.gpr r = b.gpr r
  ps : ∀ r : GuestReg, r ≠ reg → a.ps r = b.ps r
  cr : ∀ field : CrField, a.crField field = b.crField field
  xerCa : a.xerCa = b.xerCa
  xerSoOv : a.xerSoOv = b.xerSoOv
  lower : Double.SameButZeros (a.ps0 reg) (b.ps0 reg)
  upper : Double.SameButZeros (a.ps1 reg) (b.ps1 reg)
  status : a.fpscr &&& ~~~Status.classMask = b.fpscr &&& ~~~Status.classMask
  cls : a.fpscr = b.fpscr ∨
    fprf = true ∧ Double.IsZero (a.ps0 reg) ∧ Double.IsZero (b.ps0 reg)

/-- The effects of a negated operation, computed by the guest and by the host. -/
theorem effect_host_negated {op : FpArith} (h : op.isNegated = true) (form : FpForm)
    (d a b c : BitVec 128) : ∃ x y single,
      FloatUnit.guest.effect (.arith form op) d a b c = .classed x single ∧
      (FloatUnit.host false).effect (.arith form op) d a b c = .classed y single ∧
      Double.SameButZeros (lane x 0) (lane y 0) ∧ Double.SameButZeros (lane x 1) (lane y 1) := by
  have hrounded : ∀ a b c : Double, Double.SameButZeros
      (Double.roundToSingle (FloatUnit.guest.arith op true a b c))
      (Double.roundToSingle ((FloatUnit.host false).arith op true a b c)) :=
    fun a b c => (arith_host_negated h true a b c).symm.roundToSingle
  cases form with
  | double =>
    refine ⟨_, _, _, rfl, rfl, ?_, ?_⟩
    · rw [lane_join_zero, lane_join_zero]
      exact (arith_host_negated h false _ _ _).symm
    · rw [lane_join_one, lane_join_one]
      exact .inl rfl
  | single =>
    refine ⟨_, _, _, rfl, rfl, ?_, ?_⟩
    · rw [lane_join_zero, lane_join_zero]
      exact hrounded _ _ _
    · rw [lane_join_one, lane_join_one]
      exact hrounded _ _ _
  | paired =>
    refine ⟨_, _, _, rfl, rfl, ?_, ?_⟩
    · rw [lane_join_zero, lane_join_zero]
      exact hrounded _ _ _
    · rw [lane_join_one, lane_join_one]
      exact hrounded _ _ _

/-! ## States -/

namespace PowerPC.State

variable {layout : Layout} {state after : State}

/-- What a result whose class is noted leaves in each cell. -/
theorem fetch_writeEffect_classed (fprf : Bool) (word : Word) (hv : layout.Valid)
    (hon : state.On layout) (value : BitVec 128) (single : Bool) :
    let g := state.writeEffect fprf word (.classed value single)
    g.ps word.rd = value ∧
    g.fpscr = (if fprf then
      Status.withClass state.fpscr (Double.classifyAs (lane value 0) single) else state.fpscr) ∧
    ∀ cell, cell ≠ .ps word.rd → cell ≠ .fpscr → g.fetch cell = state.fetch cell := by
  have hput : (state.put (.ps word.rd) value).On layout := hon.put hv _ _
  have hself : (state.put (.ps word.rd) value).fetch (.ps word.rd) = value :=
    hon.fetch_put_self hv _ _
  have hother : ∀ cell, cell ≠ .ps word.rd →
      (state.put (.ps word.rd) value).fetch cell = state.fetch cell :=
    fun cell hne => hon.fetch_put_of_ne hv _ _ hne
  have hfpscr : (state.put (.ps word.rd) value).fpscr = state.fpscr := hother .fpscr nofun
  cases fprf with
  | false => exact ⟨hself, hfpscr, fun cell hne _ => hother cell hne⟩
  | true =>
    let status := Status.withClass (state.put (.ps word.rd) value).fpscr
      (Double.classifyAs (lane value 0) single)
    have hstatus : ((state.put (.ps word.rd) value).put .fpscr status).fetch .fpscr = status :=
      hput.fetch_put_self hv .fpscr status
    have hkept : ∀ cell, cell ≠ .fpscr →
        ((state.put (.ps word.rd) value).put .fpscr status).fetch cell =
          (state.put (.ps word.rd) value).fetch cell :=
      fun cell hne => hput.fetch_put_of_ne hv .fpscr status hne
    refine ⟨(hkept (.ps word.rd) nofun).trans hself, ?_, fun cell hps hne =>
      (hkept cell hne).trans (hother cell hps)⟩
    rw [← hfpscr]
    exact hstatus

variable {fprf : Bool} {word : Word}

/-- Results that are the same but for zeros make states that are the same but for zeros. -/
theorem AgreesButZeros.of_classed (hv : layout.Valid) (hon : state.On layout) {x y : BitVec 128}
    (hlower : Double.SameButZeros (lane x 0) (lane y 0))
    (hupper : Double.SameButZeros (lane x 1) (lane y 1)) (single : Bool)
    (hafter : (state.writeEffect fprf word (.classed y single)).Agrees layout .all after) :
    AgreesButZeros fprf word.rd (state.writeEffect fprf word (.classed x single)) after := by
  obtain ⟨hx, hxstatus, hxother⟩ := fetch_writeEffect_classed fprf word hv hon x single
  obtain ⟨hy, hystatus, hyother⟩ := fetch_writeEffect_classed fprf word hv hon y single
  have hsame : ∀ cell, cell ≠ .ps word.rd → cell ≠ .fpscr →
      (state.writeEffect fprf word (.classed x single)).fetch cell =
        (state.writeEffect fprf word (.classed y single)).fetch cell :=
    fun cell hps hne => (hxother cell hps hne).trans (hyother cell hps hne).symm
  have hps : after.ps word.rd = y := (hafter.ps word.rd).symm.trans hy
  have hps0 : ∀ g : State, g.ps0 word.rd = lane (g.ps word.rd) 0 := fun _ => rfl
  have hps1 : ∀ g : State, g.ps1 word.rd = lane (g.ps word.rd) 1 := fun _ => rfl
  have hfpscr := hafter.fpscr rfl
  have hmasked : ∀ value : BitVec 128, (if fprf then
      Status.withClass state.fpscr (Double.classifyAs (lane value 0) single) else state.fpscr) &&&
        ~~~Status.classMask = state.fpscr &&& ~~~Status.classMask := by
    intro value
    split
    · exact Agrees.withClass_outside _ _
    · rfl
  refine ⟨fun r => (hsame (.gpr r) nofun nofun).trans (hafter.gpr r),
    fun r hr => (hsame (.ps r) (by simpa using hr) nofun).trans (hafter.ps r),
    fun field => (congrArg Condition.decode (hsame (.cr field) nofun nofun)).trans
      (hafter.crField field),
    (congrArg (· != 0) (hsame .xerCa nofun nofun)).trans (hafter.xerCa rfl),
    (hsame .xerSoOv nofun nofun).trans hafter.xerSoOv, ?_, ?_, ?_, ?_⟩
  · rw [hps0, hps0, hx, hps]
    exact hlower
  · rw [hps1, hps1, hx, hps]
    exact hupper
  · rw [← hfpscr, hxstatus, hystatus, hmasked, hmasked]
  · rw [← hfpscr, hxstatus, hystatus, hps0, hps0, hx, hps]
    rcases hlower with heq | hzeros
    · rw [heq]
      exact .inl rfl
    · cases fprf with
      | false =>
        rw [if_neg Bool.false_ne_true, if_neg Bool.false_ne_true]
        exact .inl rfl
      | true => exact .inr ⟨rfl, hzeros⟩

theorem AgreesButZeros.of_agrees {reg : GuestReg} (h : state.Agrees layout .all after) :
    AgreesButZeros fprf reg state after where
  gpr := h.gpr
  ps r _ := h.ps r
  cr := h.crField
  xerCa := h.xerCa rfl
  xerSoOv := h.xerSoOv
  lower := .inl (congrArg (BitVec.extractLsb' 0 64) (h.ps reg))
  upper := .inl (congrArg (BitVec.extractLsb' 64 64) (h.ps reg))
  status := congrArg (· &&& ~~~Status.classMask) (h.fpscr rfl)
  cls := .inl (h.fpscr rfl)

end PowerPC.State

/-! ## Blocks -/

namespace Block

variable {config : Config} {layout : Layout} {compiler : Compiler}

/-- A block of one negated fused operation, run on a host that does not flush denormal numbers, does
what the interpreter does but for the signs of zero results. -/
theorem negated_results_agree_but_zeros (hnew : Compiler.new config layout = .ok compiler)
    {word : Word} {form : FpForm} {op : FpArith}
    (hop : Op.decode word = some (.float (.arith form op))) (hneg : op.isNegated = true)
    (hrc : word.rc = false) {state : State} (hon : state.On layout) (hbit : state.CarryIsBit) :
    ∃ block expected after, compiler.compile [word] none = .ok block ∧
      Interpreter.step ⟨config.fprf⟩ state word = .ok expected ∧
      block.run state false ⟨config.fprf⟩ = (after, none) ∧
      expected.AgreesButZeros config.fprf word.rd after := by
  have hv : layout.Valid := (Compiler.new_eq_ok hnew).1.layout_valid
  have hstep : ∀ unit : FloatUnit, word.step unit config.fprf state =
      .ok (state.floatWith unit config.fprf word (.arith form op)) := by
    intro unit
    rw [Word.step, hop]
    simp only [Word.stepOp, hrc, Bool.false_and, Bool.false_eq_true, if_false]
  have hrun : Word.run (config.units false) config.fprf state [word] =
      .ok (state.floatWith (config.units false word) config.fprf word (.arith form op)) := by
    rw [Word.run, hstep]
    rfl
  obtain ⟨block, after, hblock, hafter, hagree, -⟩ :=
    Compiler.compile_analyzed hnew hon hbit false hrun
  refine ⟨block, _, after, hblock, (Interpreter.step_eq _ _ _).trans (hstep .guest),
    hafter (size_compile_arith hop hblock), ?_⟩
  obtain ⟨x, y, single, hguest, hhost, hlower, hupper⟩ := effect_host_negated hneg form
    (state.ps word.rd) (state.ps word.ra) (state.ps word.rb) (state.ps word.frc)
  unfold Config.units at hagree
  split at hagree
  · -- the word is lowered
    rw [State.floatWith, hhost] at hagree
    rw [State.floatWith, hguest]
    exact .of_classed hv hon hlower hupper single hagree.symm
  · exact .of_agrees hagree.symm

/-- One minus one, negated: the interpreter gives negative zero, and the block the same but for the
sign. -/
theorem negated_difference_of_ones :
    let ones : BitVec 128 := join Double.one Double.one
    let state := (((State.zeroed .standard).put (.ps 3) ones).put (.ps 4) ones).put (.ps 5)
      (join (Double.negate Double.one) (Double.negate Double.one))
    ∃ block expected after,
      Compiler.compile ⟨{ fprf := true }, .standard⟩ [0xEC2428FE] none = .ok block ∧
      Interpreter.step ⟨true⟩ state 0xEC2428FE = .ok expected ∧
      block.run state false ⟨true⟩ = (after, none) ∧ expected.ps0 1 = Double.zero true ∧
      expected.AgreesButZeros true 1 after := by
  intro ones state
  have hnew : Compiler.new { fprf := true } .standard = .ok ⟨{ fprf := true }, .standard⟩ := rfl
  have hop : Op.decode 0xEC2428FE = some (.float (.arith .single .nmadd)) := rfl
  have hv := Layout.valid_standard
  have hzeroed := State.On.zeroed hv
  have hthree := hzeroed.put hv (.ps 3) ones
  have hfour := hthree.put hv (.ps 4) ones
  have hon : state.On .standard := hfour.put hv _ _
  have hca : state.fetch .xerCa = (State.zeroed .standard).fetch .xerCa :=
    ((hfour.fetch_put_of_ne hv _ _ (by decide)).trans
      (hthree.fetch_put_of_ne hv _ _ (by decide))).trans
      (hzeroed.fetch_put_of_ne hv _ _ (by decide))
  have hc : state.fetch (.ps 3) = ones :=
    ((hfour.fetch_put_of_ne hv (.ps 5) _ (by decide)).trans
      (hthree.fetch_put_of_ne hv (.ps 4) _ (by decide))).trans (hzeroed.fetch_put_self hv (.ps 3) _)
  have ha : state.fetch (.ps 4) = ones :=
    (hfour.fetch_put_of_ne hv (.ps 5) _ (by decide)).trans (hthree.fetch_put_self hv (.ps 4) _)
  have hb : state.fetch (.ps 5) = join (Double.negate Double.one) (Double.negate Double.one) :=
    hfour.fetch_put_self hv (.ps 5) _
  obtain ⟨block, expected, after, hblock, hstep, hrun, hagrees⟩ :=
    negated_results_agree_but_zeros hnew hop rfl rfl hon
      (State.CarryIsBit.of_keeps (.zeroed hv) ⟨hon, hca⟩)
  refine ⟨block, expected, after, hblock, hstep, hrun, ?_, hagrees⟩
  have hzero : Double.roundToSingle (FloatUnit.guest.arith .nmadd true (lane ones 0)
      (lane (join (Double.negate Double.one) (Double.negate Double.one)) 0) (lane ones 0)) =
        Double.zero true := by decide
  have hvalue : ∀ d, (FloatUnit.guest.effect (.arith .single .nmadd) d (state.fetch (.ps 4))
      (state.fetch (.ps 5)) (state.fetch (.ps 3))).value =
        some (join (Double.zero true) (Double.zero true)) := by
    intro d
    rw [ha, hb, hc]
    exact congrArg some (congrArg₂ join hzero hzero)
  rw [Interpreter.step_eq, Word.step, hop] at hstep
  have hresult := hon.ps_stepFloat hv .guest true 0xEC2428FE (.arith .single .nmadd)
  rw [Except.ok.inj hstep] at hresult
  have hps : expected.ps 1 = join (Double.zero true) (Double.zero true) :=
    hresult.trans (congrArg (Option.getD · _) (hvalue _))
  rw [State.ps0, hps]
  exact lane_join_zero _ _

end Block

end Recompiler
