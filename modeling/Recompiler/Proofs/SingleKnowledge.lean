import Recompiler.Proofs.Liveness
import Recompiler.Proofs.SingleRounding

/-!
# Registers that hold singles

The forward analysis keeps two masks of registers whose lanes are singles. Whatever property of
lanes rounding to single establishes and moves keep, the registers of a mask have it at that point
of every run.
-/

namespace Recompiler

open Arm Block Ieee PowerPC

/-- A property of lanes that comes from rounding to single. -/
structure Lanewise (P : Double → Prop) : Prop where
  round : ∀ x, P (Double.roundToSingle x)
  move : ∀ op x, P x → P (FpMove.apply op x)

theorem Lanewise.exact : Lanewise fun x => Double.isExactSingle x = true :=
  ⟨Double.isExactSingle_roundToSingle, fun op _ => Double.isExactSingle_move op⟩

theorem Lanewise.short : Lanewise Double.IsShort :=
  ⟨Double.isShort_roundToSingle, fun op _ => Double.isShort_move op⟩

/-- Both lanes have a property. -/
def Both (P : Double → Prop) (v : BitVec 128) : Prop := P (lane v 0) ∧ P (lane v 1)

theorem Both.join {P : Double → Prop} {x y : Double} (hx : P x) (hy : P y) : Both P (join x y) := by
  rw [Both, lane_join_zero, lane_join_one]
  exact ⟨hx, hy⟩

/-! ## One mask -/

/-- The registers of a mask have a property in both lanes. -/
def MaskHolds (P : Double → Prop) (mask : BitVec 32) (ps : GuestReg → BitVec 128) : Prop :=
  ∀ reg : GuestReg, mask.getLsbD reg.val = true → Both P (ps reg)

/-- Whether the destination of an instruction is in a mask afterwards. -/
def destinationBit (word : Word) (op : FloatOp) (mask : BitVec 32) : Bool :=
  match op with
  | .arith .double _ | .fctiwz | .fres | .frsqrte => false
  | .arith .. | .frsp => true
  | .move true _ => mask.getLsbD word.rb.val
  | .move false _ => mask.getLsbD word.rb.val && mask.getLsbD word.rd.val
  | .fsel => mask.getLsbD word.rb.val && mask.getLsbD word.frc.val && mask.getLsbD word.rd.val
  | .fcmp _ => mask.getLsbD word.rd.val

theorem getLsbD_withBit (mask : BitVec 32) (reg other : GuestReg) (b : Bool) :
    (withBit mask reg b).getLsbD other.val = if other = reg then b else mask.getLsbD other.val := by
  have hbit : ((1#32 <<< reg.val).getLsbD other.val) = decide (other = reg) := by
    have ho := other.isLt
    rw [BitVec.getLsbD_shiftLeft, BitVec.getLsbD_one]
    by_cases h : other = reg
    · subst h
      simp
    · have hne : other.val ≠ reg.val := fun he => h (Fin.ext he)
      simp [h]
      omega
  unfold withBit
  split
  · next hb =>
    rw [BitVec.getLsbD_or, hbit, hb]
    by_cases h : other = reg <;> simp [h]
  · next hb =>
    rw [BitVec.getLsbD_and, BitVec.getLsbD_not, hbit]
    by_cases h : other = reg <;> simp_all

theorem getLsbD_afterFloat (known : Singles) (word : Word) (op : FloatOp) (reg : GuestReg) :
    (known.afterFloat word op).single.getLsbD reg.val =
        (if reg = word.rd then destinationBit word op known.single
          else known.single.getLsbD reg.val) ∧
      (known.afterFloat word op).safe.getLsbD reg.val =
        (if reg = word.rd then destinationBit word op known.safe
          else known.safe.getLsbD reg.val) := by
  rcases op with ⟨_ | _ | _, op⟩ | ⟨_ | _, op⟩ | _ | _ | _ | _ | _ | _
  case fcmp =>
    by_cases h : reg = word.rd <;> simp [Singles.afterFloat, destinationBit, h]
  all_goals exact ⟨getLsbD_withBit _ _ _ _, getLsbD_withBit _ _ _ _⟩

/-- The value that goes into the destination has the property if the mask says so afterwards. -/
theorem both_effect {P : Double → Prop} (hP : Lanewise P) {mask : BitVec 32}
    {ps : GuestReg → BitVec 128} (h : MaskHolds P mask ps) (unit : FloatUnit) (word : Word)
    (op : FloatOp) (hbit : destinationBit word op mask = true) :
    Both P ((unit.effect op (ps word.rd) (ps word.ra) (ps word.rb) (ps word.frc)).value.getD
      (ps word.rd)) := by
  rcases op with ⟨_ | _ | _, op⟩ | ⟨_ | _, op⟩ | _ | _ | _ | _ | _ | _
  case arith.single => exact .join (hP.round _) (hP.round _)
  case arith.paired => exact .join (hP.round _) (hP.round _)
  case move.false =>
    rw [destinationBit, Bool.and_eq_true] at hbit
    exact .join (hP.move op _ (h _ hbit.1).1) (h _ hbit.2).2
  case move.true => exact .join (hP.move op _ (h _ hbit).1) (hP.move op _ (h _ hbit).2)
  case fsel =>
    rw [destinationBit, Bool.and_eq_true, Bool.and_eq_true] at hbit
    refine .join ?_ (h _ hbit.2).2
    split
    · exact (h _ hbit.1.2).1
    · exact (h _ hbit.1.1).1
  case frsp => exact .join (hP.round _) (hP.round _)
  case fcmp => exact h _ hbit
  all_goals simp [destinationBit] at hbit

/-! ## Both masks along a run -/

/-- The registers of both masks have a property. -/
structure Known (P : Double → Prop) (known : Singles) (state : State) : Prop where
  single : MaskHolds P known.single fun reg => state.ps reg
  safe : MaskHolds P known.safe fun reg => state.ps reg

theorem Known.none (P : Double → Prop) (state : State) : Known P .none state where
  single reg h := by simp [Singles.none] at h
  safe reg h := by simp [Singles.none] at h

section Steps

variable {P : Double → Prop} (hP : Lanewise P) {layout : Layout} (hv : layout.Valid)
  {known : Singles} {state : State}
include hP hv

theorem Known.stepFloat (h : Known P known state) (hon : state.On layout) (unit : FloatUnit)
    (fprf : Bool) (word : Word) (op : FloatOp) :
    Known P (known.afterFloat word op) (word.stepOp unit fprf state (.float op)) := by
  have hmask : ∀ mask after : BitVec 32, MaskHolds P mask (fun reg => state.ps reg) →
      (∀ reg : GuestReg, after.getLsbD reg.val = if reg = word.rd then destinationBit word op mask
        else mask.getLsbD reg.val) →
      MaskHolds P after fun reg => (word.stepOp unit fprf state (.float op)).ps reg := by
    intro mask after hmask hafter reg hreg
    rw [hafter] at hreg
    by_cases hd : reg = word.rd
    · rw [if_pos hd] at hreg
      subst hd
      dsimp only
      rw [hon.ps_stepFloat hv]
      exact both_effect hP hmask unit word op hreg
    · rw [if_neg hd] at hreg
      dsimp only
      rw [hon.ps_stepFloat_of_ne hv unit fprf word op hd]
      exact hmask reg hreg
  exact ⟨hmask _ _ h.single fun reg => (getLsbD_afterFloat known word op reg).1,
    hmask _ _ h.safe fun reg => (getLsbD_afterFloat known word op reg).2⟩

theorem Known.step (h : Known P known state) (hon : state.On layout)
    (unit : FloatUnit) (fprf : Bool) (word : Word) {after : State}
    (hstep : word.step unit fprf state = .ok after) :
    Known P (known.after word) after := by
  unfold Word.step at hstep
  unfold Singles.after
  cases hop : Op.decode word with
  | none => exact .none P after
  | some op =>
    rw [hop] at hstep
    cases hstep
    cases op with
    | int op =>
      have hps : (fun reg : GuestReg => (state.stepInteger word op).ps reg) =
          fun reg : GuestReg => state.ps reg := funext (hon.ps_stepInteger hv word op)
      exact ⟨hps.symm ▸ h.single, hps.symm ▸ h.safe⟩
    | float op => exact h.stepFloat hP hv hon unit fprf word op

theorem Known.run (units : Word → FloatUnit) (fprf : Bool) {words : List Word} {after : State}
    (h : Known P known state) (hon : state.On layout)
    (hrun : Word.run units fprf state words = .ok after) :
    Known P (words.foldl Singles.after known) after := by
  induction words generalizing state known with
  | nil =>
    cases hrun
    exact h
  | cons word words ih =>
    unfold Word.run at hrun
    cases hstep : word.step (units word) fprf state with
    | error fault => simp [hstep] at hrun
    | ok next =>
      rw [hstep] at hrun
      exact ih (h.step hP hv hon (units word) fprf word hstep) (hon.step hv hstep) hrun

end Steps

end Recompiler
