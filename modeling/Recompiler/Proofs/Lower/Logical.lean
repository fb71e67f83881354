import Recompiler.Proofs.FoldedValues
import Recompiler.Proofs.Operands

/-!
# The code of logical instructions
-/

namespace Recompiler.Lower

open Arm PowerPC

theorem eval_immLogicOp (op : ImmLogic) (a imm : BitVec 32) :
    (immLogicOp (immLogicKind op)).eval a imm = (immLogicKind op).apply a imm := by
  cases op <;> rfl

/-- The conjunctions are the forms that record. -/
theorem immLogicKind_eq_and (op : ImmLogic) :
    decide (immLogicKind op = .and) = decide (op = .and) := by
  cases op <;> rfl

/-- Complement a word, if the operation does so at the end. -/
def complemented (op : BoolOp) (w : BitVec 32) : BitVec 32 :=
  if complementsResult op then ~~~w else w

theorem complemented_boolImm (op : BoolOp) (a imm : BitVec 32) :
    complemented op ((boolImm op imm).1.eval a (boolImm op imm).2) = op.apply a imm := by
  cases op <;> simp [complemented, complementsResult, boolImm, ImmOp.eval, BoolOp.apply,
    BitVec.not_xor_right]

theorem complemented_boolReg (op : BoolOp) (a b : BitVec 32) :
    complemented op (low ((boolReg op).eval (ofWord a) (ofWord b))) = op.apply a b := by
  cases op <;> simp [complemented, complementsResult, boolReg, BinaryOp.eval, BoolOp.apply,
    BitVec.not_xor_right]

theorem apply_comm (op : BoolOp) (h : commutes op = true) (a b : BitVec 32) :
    op.apply a b = op.apply b a := by
  cases op <;> simp_all [commutes, BoolOp.apply, BitVec.and_comm, BitVec.or_comm, BitVec.xor_comm]

theorem eval_unaryOp (op : PowerPC.UnaryOp) (a : BitVec 32) :
    (unaryOp op).eval (ofWord a) = ofWord (op.apply a) := by
  cases op <;> simp [unaryOp, Arm.UnaryOp.eval, PowerPC.UnaryOp.apply, ofWord, low]

end Recompiler.Lower

namespace Recompiler.Emit

open Alloc Arm Block PowerPC Lower

variable {s : Setting} {c : Contents} {e : Emitter} {m : Machine} {carry : Carry} {f : FloatStage}
  {k : Nat} {dst : HostReg} {w : BitVec 32} {d : GuestReg}

theorem Sim.finishBool_spec
    (h : Sim s ⟨⟨k + 1, .empty, .empty, some (IntSlot.gpr d)⟩, carry, f⟩ c e m) (op : BoolOp)
    (hd : e.integers.Bound (IntSlot.gpr d) dst) (hv : e.Has m dst (ofWord w)) :
    wp (finishBool op dst) (fun _ => Ends s f
      ((c.setGpr d (complemented op w)).recorded s.word.rc (complemented op w))) e m := by
  unfold finishBool complemented
  split
  · refine wp_ends (h.emitRecord hd ?_) rfl
    simp only [Machine.step, UnaryOp.eval, hv.val, low_ofWord]
  · exact wp_ends ((h.closeGpr hd hv.val).record_spec hv) rfl

variable (h : Sim s ⟨⟨5, .empty, .empty, none⟩, carry, f⟩ c e m)
include h

theorem Sim.logicImm_spec (op : ImmLogic) (shifted : Bool) : wp (logicImm op shifted) (fun _ =>
    Ends s f ((c.setGpr s.word.ra
      (op.apply (c.gpr s.word.rd) (shiftedImm shifted s.word.uimm))).recorded
      (op = .and) (op.apply (c.gpr s.word.rd) (shiftedImm shifted s.word.uimm)))) e m := by
  unfold shiftedImm
  rw [← immLogicKind_eq_and, ← apply_immLogicKind]
  have hfold : ∀ value, (immLogicKind op).apply (c.gpr s.word.rd)
      (if shifted then s.word.uimm <<< 16 else s.word.uimm) = value →
      wp (do
        foldGpr s.word.ra value
        if decide (immLogicKind op = BoolOp.and) then recordConstant value) (fun _ => Ends s f
          ((c.setGpr s.word.ra value).recorded (immLogicKind op = .and) value)) e m := by
    intro value hvalue
    refine wp_bind (h.foldGpr_spec _ _) ?_
    intro _ e₁ m₁ h₁
    unfold Contents.recorded
    split
    · exact wp_ends (h₁.recordConstant_spec _) rfl
    · exact wp_pure (h₁.ends rfl)
  unfold logicImm
  refine wp_look rfl ?_
  rw [h.fixed.word]
  dsimp only
  generalize (if shifted then s.word.uimm <<< 16 else s.word.uimm) = imm at hfold ⊢
  refine wp_look rfl ?_
  cases hs : e.gprConstant? s.word.rd with
  | some v =>
    have hv := h.gprConstant_eq hs
    rw [hv]
    exact hfold _ (by rw [hv])
  | none =>
    dsimp only
    by_cases hzero : immLogicKind op = BoolOp.and ∧ imm = 0
    · rw [if_pos hzero]
      have hz : (immLogicKind op).apply (c.gpr s.word.rd) imm = 0 := by
        rw [hzero.1, hzero.2, BoolOp.apply, BitVec.ofNat_eq_ofNat, BitVec.and_zero]
      rw [hz]
      exact hfold 0 hz
    · rw [if_neg hzero]
      dsimp only
      split
      · next hid =>
        have hsame : (immLogicKind op).apply (c.gpr s.word.rd) imm = c.gpr s.word.rd := by
          rw [hid.2]
          cases op with
          | or => exact BitVec.or_zero
          | xor => exact BitVec.xor_zero
          | and => exact absurd rfl hid.1
        rw [hsame, decide_eq_false hid.1]
        split
        · next hreg =>
          refine wp_pure (h.ends ?_)
          rw [hreg, Contents.setGpr_self]
          rfl
        · refine h.readWrite ?_
          intro rs ra e₁ m₁ h₁ _ hrs hd
          have hstep : m₁.step (.unary .mov32 ra rs) =
              .next (m₁.setX ra (ofWord (c.gpr s.word.rd))) := by
            simp only [Machine.step, UnaryOp.eval, hrs.val, low_ofWord]
          refine wp_mono (h₁.emitGpr hd hstep) ?_
          rintro - e₂ m₂ ⟨h₂, -, -⟩
          exact h₂.ends rfl
      · refine h.readWrite ?_
        intro rs ra e₁ m₁ h₁ _ hrs hd
        have hstep : m₁.step (.imm32 (immLogicOp (immLogicKind op)) ra rs imm) =
            .next (m₁.setX ra (ofWord ((immLogicKind op).apply (c.gpr s.word.rd) imm))) := by
          simp only [Machine.step, Machine.setW, Machine.getW, hrs.val, low_ofWord, eval_immLogicOp]
        refine wp_bind (h₁.emitGpr hd hstep) ?_
        rintro - e₂ m₂ ⟨h₂, -, hv⟩
        unfold Contents.recorded
        split
        · exact wp_ends (h₂.recordReg_spec hv) rfl
        · exact wp_pure (h₂.ends rfl)

theorem Sim.boolSame_spec (op : BoolOp) (d a : GuestReg) : wp (boolSame op d a) (fun _ =>
    Ends s f ((c.setGpr d (op.apply (c.gpr a) (c.gpr a))).recorded s.word.rc
      (op.apply (c.gpr a) (c.gpr a)))) e m := by
  have hnot : wp (do
      let rs ← readGpr a
      let ra ← writeGpr d false
      emit (.unary .mvn32 ra rs)
      record ra) (fun _ => Ends s f ((c.setGpr d (~~~c.gpr a)).recorded s.word.rc
        (~~~c.gpr a))) e m := by
    refine h.readWrite ?_
    intro rs ra e₁ m₁ h₁ _ hrs hd
    refine wp_ends (h₁.emitRecord hd ?_) rfl
    simp only [Machine.step, UnaryOp.eval, hrs.val, low_ofWord]
  cases op with
  | and =>
    rw [BoolOp.apply, BitVec.and_self]
    exact wp_ends (h.moveGpr_spec d a) rfl
  | or =>
    rw [BoolOp.apply, BitVec.or_self]
    exact wp_ends (h.moveGpr_spec d a) rfl
  | nand =>
    rw [BoolOp.apply, BitVec.and_self]
    exact hnot
  | nor =>
    rw [BoolOp.apply, BitVec.or_self]
    exact hnot
  | orc =>
    have hv : BoolOp.apply .orc (c.gpr a) (c.gpr a) = BitVec.allOnes 32 := by simp [BoolOp.apply]
    rw [hv]
    exact wp_ends (h.fold_spec d _) rfl
  | eqv =>
    have hv : BoolOp.apply .eqv (c.gpr a) (c.gpr a) = BitVec.allOnes 32 := by simp [BoolOp.apply]
    rw [hv]
    exact wp_ends (h.fold_spec d _) rfl
  | andc =>
    have hv : BoolOp.apply .andc (c.gpr a) (c.gpr a) = 0 := by simp [BoolOp.apply]
    rw [hv]
    exact wp_ends (h.fold_spec d _) rfl
  | xor =>
    have hv : BoolOp.apply .xor (c.gpr a) (c.gpr a) = 0 := by simp [BoolOp.apply]
    rw [hv]
    exact wp_ends (h.fold_spec d _) rfl

theorem Sim.boolConstant_spec (op : BoolOp) (d a : GuestReg) (imm : BitVec 32) :
    wp (boolConstant op d a imm) (fun _ => Ends s f
      ((c.setGpr d (op.apply (c.gpr a) imm)).recorded s.word.rc (op.apply (c.gpr a) imm))) e m := by
  refine h.readWrite ?_
  intro rs ra e₁ m₁ h₁ _ hrs hd
  refine wp_bind (h₁.emit_spec hd.owns (h₁.loose_bound hd rfl) rfl) ?_
  rintro - e₂ m₂ ⟨h₂, hk₂, hv⟩
  rw [Machine.getW, hrs.val, low_ofWord] at hv
  rw [← complemented_boolImm]
  exact h₂.finishBool_spec op (hk₂.bound _ _ hd) hv

theorem Sim.boolRegs_spec (op : BoolOp) (d a b : GuestReg) : wp (boolRegs op d a b) (fun _ =>
    Ends s f ((c.setGpr d (op.apply (c.gpr a) (c.gpr b))).recorded s.word.rc
      (op.apply (c.gpr a) (c.gpr b)))) e m := by
  refine h.readReadWrite ?_
  intro rs rb ra e₁ m₁ h₁ hrs hrb hd
  have hword : (boolReg op).eval (ofWord (c.gpr a)) (ofWord (c.gpr b)) =
      ofWord (low ((boolReg op).eval (ofWord (c.gpr a)) (ofWord (c.gpr b)))) := by
    cases op <;> simp only [boolReg, BinaryOp.eval, low_ofWord]
  refine wp_bind (h₁.emit_spec hd.owns (h₁.loose_bound hd rfl) rfl) ?_
  rintro - e₂ m₂ ⟨h₂, hk₂, hv⟩
  rw [hrs.val, hrb.val, hword] at hv
  rw [← complemented_boolReg]
  exact h₂.finishBool_spec op (hk₂.bound _ _ hd) hv

theorem Sim.bool_spec (op : BoolOp) : wp (Lower.bool op) (fun _ => Ends s f
    ((c.setGpr s.word.ra (op.apply (c.gpr s.word.rd) (c.gpr s.word.rb))).recorded s.word.rc
      (op.apply (c.gpr s.word.rd) (c.gpr s.word.rb)))) e m := by
  unfold Lower.bool
  refine wp_look rfl ?_
  rw [h.fixed.word]
  refine wp_look rfl (wp_look rfl ?_)
  cases hs : e.gprConstant? s.word.rd with
  | some vs =>
    have hvs := h.gprConstant_eq hs
    cases hb : e.gprConstant? s.word.rb with
    | some vb =>
      rw [hvs, h.gprConstant_eq hb]
      exact wp_ends (h.fold_spec _ _) rfl
    | none =>
      dsimp only
      split
      · next hsame =>
        rw [← hsame]
        exact h.boolSame_spec op _ _
      · split
        · next hcomm =>
          rw [apply_comm op hcomm, hvs]
          exact h.boolConstant_spec op _ _ _
        · exact h.boolRegs_spec op _ _ _
  | none =>
    dsimp only
    split
    · next hsame =>
      rw [← hsame]
      exact h.boolSame_spec op _ _
    · cases hb : e.gprConstant? s.word.rb with
      | some vb =>
        rw [h.gprConstant_eq hb]
        exact h.boolConstant_spec op _ _ _
      | none => exact h.boolRegs_spec op _ _ _

theorem Sim.unary_spec (op : PowerPC.UnaryOp) : wp (Lower.unary op) (fun _ => Ends s f
    ((c.setGpr s.word.ra (op.apply (c.gpr s.word.rd))).recorded s.word.rc
      (op.apply (c.gpr s.word.rd)))) e m := by
  unfold Lower.unary
  refine wp_look rfl ?_
  rw [h.fixed.word]
  refine wp_look rfl ?_
  cases hs : e.gprConstant? s.word.rd with
  | some v =>
    rw [h.gprConstant_eq hs]
    exact wp_ends (h.fold_spec _ _) rfl
  | none =>
    refine h.readWrite ?_
    intro rs ra e₁ m₁ h₁ _ hrs hd
    refine wp_ends (h₁.emitRecord hd ?_) rfl
    simp only [Machine.step, hrs.val, eval_unaryOp]

end Recompiler.Emit
