import Recompiler.Proofs.Lower.Family
import Recompiler.Proofs.SingleKnowledge

/-!
# The unit behind compiled code

Compiled floating-point code computes with the instructions of the host. `FloatUnit.host` says what
that gives, and `Contents.afterFloat_eq` that the code of every instruction has the effect of that
unit, although it leaves out roundings of operands that are known to be singles. Without flushing of
denormal numbers the unit is that of the guest, except for negated fused operations.
-/

namespace Recompiler

open Alloc Arm Block Emit Ieee Lower PowerPC

/-! ## The unit -/

/-- What compiled code computes. -/
def PowerPC.FloatUnit.host (flush : Bool) : FloatUnit where
  arith op single a b c :=
    arithEval op a b (if single && op.usesC then Double.roundTo25Bits c else c)
  condition a b := outcomeOf false (comparison flush a b)
  nonnegative := selects flush
  truncate x :=
    if (comparison flush x x).isNone then 0x80000000 else Double.toWord (flushDouble flush x)

/-- Whether an operation negates the result of a fused one. -/
def PowerPC.FpArith.isNegated : FpArith → Bool
  | .nmadd | .nmsub => true
  | _ => false

/-- Whether an instruction negates the result of a fused operation. -/
def PowerPC.FloatOp.isNegated : FloatOp → Bool
  | .arith _ op => op.isNegated
  | _ => false

theorem compare?_self_isNone (x : Double) : (Double.compare? x x).isNone = Double.isNan x := by
  unfold Double.compare?
  cases Double.isNan x <;> rfl

theorem flushDouble_false (x : Double) : flushDouble false x = x := by
  unfold flushDouble
  rw [Bool.false_and, if_neg Bool.false_ne_true]

theorem comparison_false (x y : Double) : comparison false x y = Double.compare? x y := by
  rw [comparison, flushDouble_false, flushDouble_false]

theorem arith_host {op : FpArith} (h : op.isNegated = false) (single : Bool) (a b c : Double) :
    (FloatUnit.host false).arith op single a b c = op.apply single a b c := by
  cases op <;> first | rfl | simp [FpArith.isNegated] at h

theorem condition_host (a b : Double) :
    (FloatUnit.host false).condition a b = floatCondition a b := by
  simp only [FloatUnit.host, comparison_false, floatCondition, outcomeOf]
  cases Double.compare? a b <;> rfl

theorem nonnegative_host (a : Double) : (FloatUnit.host false).nonnegative a = isNonnegative a := by
  simp only [FloatUnit.host, selects, flushDouble_false, isNonnegative]
  rcases Double.compare? a 0 with _ | (_ | _ | _) <;> rfl

theorem truncate_host (x : Double) : (FloatUnit.host false).truncate x = truncateToWord x := by
  simp only [FloatUnit.host, comparison_false, compare?_self_isNone, flushDouble_false,
    truncateToWord]

theorem effect_host {op : FloatOp} (h : op.isNegated = false) (d a b c : BitVec 128) :
    (FloatUnit.host false).effect op d a b c = FloatUnit.guest.effect op d a b c := by
  cases op with
  | arith form op =>
    have harith := arith_host h
    cases form <;> simp only [FloatUnit.effect, harith] <;> rfl
  | fsel => simp only [FloatUnit.effect, nonnegative_host]; rfl
  | fctiwz => simp only [FloatUnit.effect, truncate_host]; rfl
  | fcmp ordered => simp only [FloatUnit.effect, condition_host]; rfl
  | move packed op => cases packed <;> rfl
  | frsp | fres | frsqrte => rfl

/-! ## Precisions -/

/-- The lanes that a precision calls single have a property. -/
structure Alloc.Precision.Sound (P : Double → Prop) (q : Precision) (v : BitVec 128) : Prop where
  lower : q.isSingle true = true → P (lane v 0)
  upper : q.isSingle false = true → P (lane v 1)

variable {P : Double → Prop} {q : Precision} {v : BitVec 128}

namespace Alloc.Precision

theorem Sound.double (P : Double → Prop) (v : BitVec 128) : Precision.double.Sound P v where
  lower h := by simp [isSingle] at h
  upper h := by simp [isSingle] at h

theorem Sound.of_both (h : Both P v) (q : Precision) : q.Sound P v := ⟨fun _ => h.1, fun _ => h.2⟩

theorem isSingle_true_of_false (h : q.isSingle false = true) : q.isSingle true = true := by
  cases q <;> simp_all [isSingle]

theorem Sound.mono {Q : Double → Prop} (h : q.Sound P v) (hPQ : ∀ x, P x → Q x) : q.Sound Q v :=
  ⟨fun hq => hPQ _ (h.lower hq), fun hq => hPQ _ (h.upper hq)⟩

end Alloc.Precision

/-- Every register has the property in the lanes that its precision calls single. -/
def SoundFor (P : Double → Prop) (p : Bank 32 Precision) (ps : GuestReg → BitVec 128) : Prop :=
  ∀ reg, (p.get reg).Sound P (ps reg)

/-- A rounding that is left out would have changed nothing. -/
theorem rounded_of_isShort {p : Bank 32 Precision} {ps : GuestReg → BitVec 128}
    (hshort : SoundFor Double.IsShort p ps) (word : Word) (form : FpForm) (op : FpArith) {i : Nat}
    (hi : formUses form i) :
    (if roundsThird p word form op then Double.roundTo25Bits (lane (ps word.frc) i)
        else lane (ps word.frc) i) =
      if singleResult form && op.usesC then Double.roundTo25Bits (lane (ps word.frc) i)
        else lane (ps word.frc) i := by
  have hlane : (p.get word.frc).isSingle (lowerOnly form) = true →
      Double.IsShort (lane (ps word.frc) i) := by
    intro hsingle
    rcases hi with rfl | ⟨rfl, rfl⟩
    · cases form with
      | paired => exact (hshort word.frc).lower (Precision.isSingle_true_of_false hsingle)
      | double | single => exact (hshort word.frc).lower hsingle
    · exact (hshort word.frc).upper hsingle
  unfold roundsThird
  cases hform : singleResult form with
  | false => simp
  | true =>
    cases hsingle : (p.get word.frc).isSingle (lowerOnly form) with
    | false => simp [Bool.and_comm]
    | true => simp [Double.roundTo25Bits_of_isShort (hlane hsingle)]

/-- The precision of the destination afterwards. -/
def precisionAfter (p : Bank 32 Precision) (word : Word) (op : FloatOp) : Precision :=
  (resultPrecision p word op).getD (p.get word.rd)

theorem mergePrecision_sound {p : Bank 32 Precision} {ps : GuestReg → BitVec 128}
    (h : SoundFor P p ps) {sources : List GuestReg} {dst : GuestReg} {x : Double}
    (hx : (∀ reg ∈ sources, P (lane (ps reg) 0)) → P x) :
    (mergePrecision p sources dst).Sound P (join x (lane (ps dst) 1)) := by
  unfold mergePrecision
  split
  · next hall =>
    have hlower : P x := by
      apply hx
      intro reg hreg
      exact (h reg).lower (List.all_eq_true.1 hall reg hreg)
    constructor
    · intro _
      rwa [lane_join_zero]
    · intro hupper
      rw [lane_join_one]
      apply (h dst).upper
      split at hupper
      · next hboth => rw [hboth, Precision.isSingle]
      · simp [Precision.isSingle] at hupper
  · exact .double P _

theorem precisionAfter_move (p : Bank 32 Precision) (word : Word) (packed : Bool) (op : FpMove) :
    precisionAfter p word (.move packed op) =
      if isNoMove op word then p.get word.rd else movePrecision p packed word := by
  unfold precisionAfter resultPrecision
  dsimp only
  split <;> rfl

/-- A move of a register to itself writes what was there. -/
theorem value_noMove (unit : FloatUnit) (ps : GuestReg → BitVec 128) {word : Word} {op : FpMove}
    (h : isNoMove op word = true) (packed : Bool) :
    (unit.effect (.move packed op) (ps word.rd) (ps word.ra) (ps word.rb) (ps word.frc)).value =
      some (ps word.rd) := by
  obtain ⟨rfl, hreg⟩ := of_decide_eq_true h
  rw [← hreg]
  cases packed <;> exact congrArg some (join_lanes _)

theorem precisionAfter_move_sound (hP : Lanewise P) {p : Bank 32 Precision}
    {ps : GuestReg → BitVec 128} (h : SoundFor P p ps) (unit : FloatUnit) (word : Word)
    (packed : Bool) (op : FpMove) : (precisionAfter p word (.move packed op)).Sound P
      ((unit.effect (.move packed op) (ps word.rd) (ps word.ra) (ps word.rb)
        (ps word.frc)).value.getD (ps word.rd)) := by
  rw [precisionAfter_move]
  by_cases hno : isNoMove op word = true
  · rw [if_pos hno, value_noMove unit ps hno]
    exact h word.rd
  · rw [if_neg hno]
    cases packed with
    | false =>
      apply mergePrecision_sound h
      intro hsource
      exact hP.move op _ (hsource word.rb (List.mem_singleton_self _))
    | true =>
      constructor
      · intro hq
        exact (lane_join_zero _ _).symm ▸ hP.move op _ ((h word.rb).lower hq)
      · intro hq
        exact (lane_join_one _ _).symm ▸ hP.move op _ ((h word.rb).upper hq)

/-- What an instruction writes is as single as its new precision says. -/
theorem precisionAfter_sound (hP : Lanewise P) {p : Bank 32 Precision} {ps : GuestReg → BitVec 128}
    (h : SoundFor P p ps) (unit : FloatUnit) (word : Word) (op : FloatOp) :
    (precisionAfter p word op).Sound P ((unit.effect op (ps word.rd) (ps word.ra) (ps word.rb)
      (ps word.frc)).value.getD (ps word.rd)) := by
  rcases op with ⟨_ | _ | _, op⟩ | ⟨packed, op⟩ | _ | _ | _ | _ | _ | ordered
  case arith.double => exact .double P _
  case arith.single => exact .of_both (.join (hP.round _) (hP.round _)) _
  case arith.paired => exact .of_both (.join (hP.round _) (hP.round _)) _
  case move => exact precisionAfter_move_sound hP h unit word packed op
  case fsel =>
    apply mergePrecision_sound h
    intro hsource
    split
    · exact hsource word.frc (by simp)
    · exact hsource word.rb (by simp)
  case frsp => exact .of_both (.join (hP.round _) (hP.round _)) _
  case fctiwz => exact .double P _
  case fres => exact .double P _
  case frsqrte => exact .double P _
  case fcmp => exact h word.rd

/-! ## Contents -/

namespace Emit.Contents

def putValue (c : Contents) (reg : GuestReg) : Option (BitVec 128) → Contents
  | some value => c.setPs reg value
  | none => c

def putCondition (c : Contents) (field : CrField) : Option (BitVec 4) → Contents
  | some bits => c.setCr field (Condition.encode bits)
  | none => c

/-- The status word is written only if classes are kept and somebody looks at this one. -/
def putStatus (c : Contents) (s : Setting) : Option (BitVec 32 → BitVec 32) → Contents
  | some f => if s.config.fprf && s.hints.wantsFprf then c.setFpscr (f c.fpscr) else c
  | none => c

/-- The contents after the effect of an instruction. -/
def withEffect (c : Contents) (s : Setting) (effect : FloatEffect) : Contents :=
  ((c.putValue s.word.rd effect.value).putCondition s.word.crfd effect.condition).putStatus s
    effect.status

theorem classed_eq (c : Contents) (s : Setting) (single : Bool) (value : BitVec 128) :
    (c.setPs s.word.rd value).classed s single (lane value 0) =
      c.withEffect s (.classed value single) := by
  unfold classed withEffect
  cases single <;> rfl

theorem withOutcome_eq (c : Contents) (s : Setting) (bits : BitVec 4) :
    c.withOutcome s.word.crfd (s.config.fprf && s.hints.wantsFprf) bits =
      c.withEffect s { status := some fun status => Status.withCompare status bits
                       condition := some bits } := by
  simp only [withOutcome, withEffect, putValue, putCondition, putStatus]
  cases s.config.fprf && s.hints.wantsFprf <;> rfl

variable {c : Contents} {s : Setting} {p : Bank 32 Precision}

theorem arith_eq (hshort : SoundFor Double.IsShort p c.ps) (form : FpForm) (op : FpArith) :
    c.arith s p form op = c.withEffect s ((FloatUnit.host s.flush).effect (.arith form op)
      (c.ps s.word.rd) (c.ps s.word.ra) (c.ps s.word.rb) (c.ps s.word.frc)) := by
  have hlane : ∀ i, formUses form i → arithLane op (roundsThird p s.word form op) (c.ps s.word.ra)
      (c.ps s.word.rb) (c.ps s.word.frc) i = (FloatUnit.host s.flush).arith op (singleResult form)
        (lane (c.ps s.word.ra) i) (lane (c.ps s.word.rb) i) (lane (c.ps s.word.frc) i) := by
    intro i hi
    unfold arithLane FloatUnit.host
    dsimp only
    rw [rounded_of_isShort hshort s.word form op hi]
  have hvalue : ∀ value, arithValue form op (roundsThird p s.word form op) (c.ps s.word.rd)
      (c.ps s.word.ra) (c.ps s.word.rb) (c.ps s.word.frc) = value →
      c.arith s p form op = c.withEffect s (.classed value (singleResult form)) := by
    rintro value rfl
    exact classed_eq c s (singleResult form) _
  have hlower := hlane 0 (.inl rfl)
  cases form with
  | double =>
    apply hvalue
    simp only [arithValue, finishValue, formLanes, onLanes, hlower]
    rfl
  | single =>
    apply hvalue
    simp only [arithValue, finishValue, formLanes, onLanes, lane_join_zero, hlower]
    rfl
  | paired =>
    apply hvalue
    have hupper := hlane 1 (.inr ⟨rfl, rfl⟩)
    simp only [arithValue, finishValue, formLanes, onLanes, lane_join_zero, lane_join_one, hlower,
      hupper]
    rfl

theorem rounded_eq (hsafe : skipsRounding p s.hints s.word.rb = true →
      Double.roundToSingle (lane (c.ps s.word.rb) 0) = lane (c.ps s.word.rb) 0) :
    c.rounded s p = c.withEffect s ((FloatUnit.host s.flush).effect .frsp
      (c.ps s.word.rd) (c.ps s.word.ra) (c.ps s.word.rb) (c.ps s.word.frc)) := by
  have hvalue : roundedValue (skipsRounding p s.hints s.word.rb) (c.ps s.word.rb) =
      Double.roundToSingle (lane (c.ps s.word.rb) 0) := by
    unfold roundedValue
    split
    · next hskip => exact (hsafe hskip).symm
    · rfl
  have hclass := classed_eq c s true (join (Double.roundToSingle (lane (c.ps s.word.rb) 0))
    (Double.roundToSingle (lane (c.ps s.word.rb) 0)))
  rw [lane_join_zero] at hclass
  rw [rounded, hvalue]
  exact hclass

/-- A number compares with itself as equal, or not at all. -/
theorem outcomeOf_self (flush : Bool) (x : Double) :
    outcomeOf true (comparison flush x x) = outcomeOf false (comparison flush x x) := by
  unfold comparison Double.compare?
  split
  · rfl
  · rw [compare_eq_iff_eq.2 rfl]
    rfl

theorem compared_eq (ordered : Bool) :
    c.compared s = c.withEffect s ((FloatUnit.host s.flush).effect (.fcmp ordered)
      (c.ps s.word.rd) (c.ps s.word.ra) (c.ps s.word.rb) (c.ps s.word.frc)) := by
  have hbits : outcomeOf (s.word.ra = s.word.rb)
      (comparison s.flush (lane (c.ps s.word.ra) 0) (lane (c.ps s.word.rb) 0)) =
      (FloatUnit.host s.flush).condition (lane (c.ps s.word.ra) 0) (lane (c.ps s.word.rb) 0) := by
    by_cases hsame : s.word.ra = s.word.rb
    · rw [decide_eq_true hsame, hsame]
      exact outcomeOf_self _ _
    · rw [decide_eq_false hsame]
      rfl
  rw [compared, hbits]
  exact withOutcome_eq c s _

/-- The code of an instruction has the effect of the host's unit. -/
theorem afterFloat_eq (hshort : SoundFor Double.IsShort p c.ps)
    (hsafe : skipsRounding p s.hints s.word.rb = true →
      Double.roundToSingle (lane (c.ps s.word.rb) 0) = lane (c.ps s.word.rb) 0) (op : FloatOp) :
    c.afterFloat s p op = c.withEffect s ((FloatUnit.host s.flush).effect op
      (c.ps s.word.rd) (c.ps s.word.ra) (c.ps s.word.rb) (c.ps s.word.frc)) := by
  cases op with
  | arith form op => exact arith_eq hshort form op
  | move packed op => cases packed <;> rfl
  | fsel =>
    unfold afterFloat selected
    rw [apply_ite (fun v => lane v 0)]
    rfl
  | frsp => exact rounded_eq hsafe
  | fctiwz =>
    unfold afterFloat truncated Lower.truncated
    rw [BitVec.or_comm]
    rfl
  | fres =>
    have hclass := classed_eq c s true (join (Double.reciprocal (lane (c.ps s.word.rb) 0))
      (Double.reciprocal (lane (c.ps s.word.rb) 0)))
    rw [lane_join_zero] at hclass
    exact hclass
  | frsqrte =>
    have hclass := classed_eq c s false (join (Double.reciprocalSqrt (lane (c.ps s.word.rb) 0))
      (lane (c.ps s.word.rd) 1))
    rw [lane_join_zero] at hclass
    exact hclass
  | fcmp ordered => exact compared_eq ordered

end Emit.Contents

end Recompiler
