import Recompiler.Lower.Op
import Recompiler.Proofs.Lower.Add
import Recompiler.Proofs.Lower.AddExtended
import Recompiler.Proofs.Lower.Compare
import Recompiler.Proofs.Lower.FloatArith
import Recompiler.Proofs.Lower.FloatCompare
import Recompiler.Proofs.Lower.FloatMove
import Recompiler.Proofs.Lower.Logical
import Recompiler.Proofs.Lower.Multiply
import Recompiler.Proofs.Lower.Reciprocal
import Recompiler.Proofs.Lower.Rotate
import Recompiler.Proofs.Lower.Shift

/-!
# The code of a word, by family

What the code of an instruction makes of the guest contents: one rule for all integer instructions
but compares, and one definition for floating-point instructions.
-/

namespace Recompiler.Emit

open Alloc Arm Block PowerPC Lower

variable {s : Setting} {c : Contents} {e : Emitter} {m : Machine} {carry : Carry} {f : FloatStage}
  {p : Bank 32 Precision} {pd : Bank 32 (Option Precision)}

/-! ## Integer instructions -/

/-- What is known of the carry bit after a result. -/
def Setting.carryAfter (s : Setting) (old : Option Bool) : Option Bool → Option Bool
  | some b => s.carryOut b
  | none => old

/-- A result went to its register. Where the carry goes into it, and nothing is known of the carry,
nothing is known of the result. -/
def Contents.Wrote (c : Contents) (s : Setting) (op : IntOp) (c' : Contents) : Prop :=
  ∃ reg value ca, op.target s.word = some reg ∧
    c' = ((c.setGpr reg value).recorded (op.records s.word.rc) value).setCa ca ∧
    ∀ b, (op.readsCa = true → c.ca = some b) →
      let result := op.result s.word (c.gpr s.word.ra) (c.gpr s.word.rb) (c.gpr s.word.rd) b
      value = result.value ∧ ca = s.carryAfter c.ca result.carry

/-- The contents after an integer instruction. -/
def Contents.AfterInteger (c : Contents) (s : Setting) (op : IntOp) (c' : Contents) : Prop :=
  match op with
  | .compare signed immediate =>
    c' = c.setCr s.word.crfd (extend signed (c.gpr s.word.ra) -
      extend signed (IntOp.compareOperand s.word signed immediate (c.gpr s.word.rb)))
  | _ => c.Wrote s op c'

theorem Contents.setCa_recorded (c : Contents) (reg : GuestReg) (value : BitVec 32) (rc : Bool) :
    ((c.setGpr reg value).recorded rc value).setCa c.ca =
      (c.setGpr reg value).recorded rc value := by
  cases rc <;> rfl

section Results

variable {prog : EmitM Unit} {op : IntOp} {reg : GuestReg} {value : BitVec 32}

/-- An instruction that leaves the carry alone. -/
theorem wp_wrote (h : wp prog (fun _ => Ends s f
      ((c.setGpr reg value).recorded (op.records s.word.rc) value)) e m)
    (hreg : op.target s.word = some reg) (hvalue : ∀ b, (op.result s.word (c.gpr s.word.ra)
      (c.gpr s.word.rb) (c.gpr s.word.rd) b).value = value)
    (hcarry : ∀ b, (op.result s.word (c.gpr s.word.ra) (c.gpr s.word.rb)
      (c.gpr s.word.rd) b).carry = none) :
    wp prog (fun _ e' m' => ∃ c', c.Wrote s op c' ∧ Ends s f c' e' m') e m := by
  refine wp_mono h fun _ e' m' h' => ⟨_, ?_, h'⟩
  refine ⟨reg, value, c.ca, hreg, (c.setCa_recorded reg value _).symm, fun b _ => ?_⟩
  dsimp only
  rw [hvalue, hcarry]
  exact ⟨rfl, rfl⟩

/-- An instruction that makes a carry without reading one. -/
theorem wp_wrote_carry {ca : Bool} (h : wp prog (fun _ => Ends s f
      (((c.setGpr reg value).recorded (op.records s.word.rc) value).setCa (s.carryOut ca))) e m)
    (hreg : op.target s.word = some reg) (hvalue : ∀ b, (op.result s.word (c.gpr s.word.ra)
      (c.gpr s.word.rb) (c.gpr s.word.rd) b).value = value)
    (hcarry : ∀ b, (op.result s.word (c.gpr s.word.ra) (c.gpr s.word.rb)
      (c.gpr s.word.rd) b).carry = some ca) :
    wp prog (fun _ e' m' => ∃ c', c.Wrote s op c' ∧ Ends s f c' e' m') e m := by
  refine wp_mono h fun _ e' m' h' => ⟨_, ?_, h'⟩
  refine ⟨reg, value, s.carryOut ca, hreg, rfl, fun b _ => ?_⟩
  dsimp only
  rw [hvalue, hcarry]
  exact ⟨rfl, rfl⟩

end Results

theorem Sim.lowerInteger_spec (h : Sim s ⟨⟨5, .empty, .empty, none⟩, carry, f⟩ c e m) (op : IntOp) :
    wp (lowerInteger op) (fun _ e' m' => ∃ c', c.AfterInteger s op c' ∧ Ends s f c' e' m') e m := by
  cases op with
  | addImm shifted => exact wp_wrote (h.addImm_spec shifted) rfl (fun _ => rfl) fun _ => rfl
  | addCarryingImm record =>
    exact wp_wrote_carry (h.addCarryingImm_spec record) rfl (fun _ => rfl) fun _ => rfl
  | subfic => exact wp_wrote_carry h.subfic_spec rfl (fun _ => rfl) fun _ => rfl
  | mulli => exact wp_wrote h.mulli_spec rfl (fun _ => rfl) fun _ => rfl
  | logicImm op shifted =>
    exact wp_wrote (h.logicImm_spec op shifted) rfl (fun _ => rfl) fun _ => rfl
  | compare signed immediate =>
    exact wp_mono (h.integerCompare_spec signed immediate) fun _ _ _ h' => ⟨_, rfl, h'⟩
  | rlwimi => exact wp_wrote h.rlwimi_spec rfl (fun _ => rfl) fun _ => rfl
  | rlwinm => exact wp_wrote h.rlwinm_spec rfl (fun _ => rfl) fun _ => rfl
  | rlwnm => exact wp_wrote h.rlwnm_spec rfl (fun _ => rfl) fun _ => rfl
  | shift left => exact wp_wrote (h.shift_spec left) rfl (fun _ => rfl) fun _ => rfl
  | sraw => exact wp_wrote_carry h.sraw_spec rfl (fun _ => rfl) fun _ => rfl
  | srawi => exact wp_wrote_carry h.srawi_spec rfl (fun _ => rfl) fun _ => rfl
  | bool op => exact wp_wrote (h.bool_spec op) rfl (fun _ => rfl) fun _ => rfl
  | unary op => exact wp_wrote (h.unary_spec op) rfl (fun _ => rfl) fun _ => rfl
  | add =>
    exact wp_wrote h.add_spec rfl (fun _ => value_addWithCarry_false _ _) fun _ => rfl
  | addc => exact wp_wrote_carry h.addc_spec rfl (fun _ => rfl) fun _ => rfl
  | addExtended inverted second =>
    refine wp_mono (h.addExtended_spec inverted second) ?_
    rintro - e' m' ⟨sum, ca, h', hknown⟩
    exact ⟨_, ⟨s.word.rd, sum, ca, rfl, rfl, fun b hb => hknown b (hb rfl)⟩, h'⟩
  | subf =>
    refine wp_wrote h.subf_spec rfl (fun _ => ?_) fun _ => rfl
    exact (congrArg CarrySum.value (addWithCarry_comm _ _ _)).trans (value_addWithCarry_not _ _)
  | subfc => exact wp_wrote_carry h.subfc_spec rfl (fun _ => rfl) fun _ => rfl
  | neg => exact wp_wrote h.neg_spec rfl (fun _ => rfl) fun _ => rfl
  | mul op => exact wp_wrote (h.mul_spec op) rfl (fun _ => rfl) fun _ => rfl
  | divw => exact wp_wrote h.divw_spec rfl (fun _ => rfl) fun _ => rfl
  | divwu => exact wp_wrote h.divwu_spec rfl (fun _ => rfl) fun _ => rfl

/-! ## Floating-point instructions -/

/-- The contents after a floating-point instruction. -/
def Contents.afterFloat (c : Contents) (s : Setting) (p : Bank 32 Precision) : FloatOp → Contents
  | .arith form op => c.arith s p form op
  | .move packed op => c.moved s packed op
  | .fsel => c.selected s
  | .frsp => c.rounded s p
  | .fctiwz => c.truncated s
  | .fres => c.reciprocal s
  | .frsqrte => c.reciprocalSqrt s
  | .fcmp _ => c.compared s

/-- The precision that a floating-point instruction gives to its destination. -/
def resultPrecision (p : Bank 32 Precision) (word : Word) : FloatOp → Option Precision
  | .arith form _ => some (arithPrecision form)
  | .move packed op => if isNoMove op word then none else some (movePrecision p packed word)
  | .fsel => some (mergePrecision p [word.rb, word.frc] word.rd)
  | .frsp => some .bothSingle
  | .fctiwz | .fres | .frsqrte => some .double
  | .fcmp _ => none

/-- The precisions to come after a floating-point instruction. -/
def floatPending (p : Bank 32 Precision) (pd : Bank 32 (Option Precision)) (word : Word)
    (op : FloatOp) : Bank 32 (Option Precision) :=
  match resultPrecision p word op with
  | some precision => pd.set word.rd (some precision)
  | none => pd

theorem floatPending_move (p : Bank 32 Precision) (pd : Bank 32 (Option Precision)) (word : Word)
    (packed : Bool) (op : FpMove) :
    floatPending p pd word (.move packed op) = movePending p pd word packed op := by
  unfold floatPending resultPrecision movePending
  dsimp only
  cases isNoMove op word <;> rfl

theorem Sim.lowerFloat_spec
    (h : Sim s ⟨s.idle, carry, ⟨⟨5, .empty, .empty, none⟩, p, pd⟩⟩ c e m) (op : FloatOp) :
    wp (lowerFloat op) (fun _ =>
      FloatEnds s p (floatPending p pd s.word op) (c.afterFloat s p op)) e m := by
  cases op with
  | arith form op => exact h.floatArith_spec form op
  | move packed op =>
    rw [floatPending_move]
    exact h.floatMove_spec packed op
  | fsel => exact h.fsel_spec
  | frsp => exact h.frsp_spec
  | fctiwz => exact h.fctiwz_spec
  | fres => exact h.fres_spec
  | frsqrte => exact h.frsqrte_spec
  | fcmp ordered => exact h.floatCompare_spec

/-! ## All instructions -/

/-- The contents after an instruction. -/
def Contents.AfterOp (c : Contents) (s : Setting) (p : Bank 32 Precision) (op : Op)
    (c' : Contents) : Prop :=
  match op with
  | .int op => c.AfterInteger s op c'
  | .float op => c' = c.afterFloat s p op

/-- The precisions to come after an instruction. -/
def opPending (p : Bank 32 Precision) (pd : Bank 32 (Option Precision)) (word : Word) :
    Op → Bank 32 (Option Precision)
  | .int _ => pd
  | .float op => floatPending p pd word op

theorem Sim.lower_spec (h : Sim s ⟨s.idle, carry, ⟨⟨5, .empty, .empty, none⟩, p, pd⟩⟩ c e m)
    (op : Op) : wp (lower op) (fun _ e' m' => ∃ c' k kv carry', c.AfterOp s p op c' ∧
      Sim s ⟨⟨k, .empty, .empty, none⟩, carry', ⟨⟨kv, .empty, .empty, none⟩, p,
        opPending p pd s.word op⟩⟩ c' e' m') e m := by
  cases op with
  | int op =>
    refine wp_mono ((h.weaken s.five_le_idle).lowerInteger_spec op) ?_
    rintro - e' m' ⟨c', hafter, k, carry', h'⟩
    exact ⟨c', k, 5, carry', hafter, h'⟩
  | float op =>
    refine wp_mono (h.lowerFloat_spec op) ?_
    rintro - e' m' ⟨k, kv, h'⟩
    exact ⟨_, k, kv, .inGuestState, rfl, h'⟩

end Recompiler.Emit
