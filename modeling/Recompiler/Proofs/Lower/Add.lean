import Recompiler.Proofs.FoldedValues
import Recompiler.Proofs.Operands

/-!
# The code of additions and subtractions
-/

namespace Recompiler.Emit

open Alloc Arm Block PowerPC Lower

variable {s : Setting} {c : Contents} {e : Emitter} {m : Machine} {k : Nat} {carry : Carry}
  {f : FloatStage} {held locked : RegSet} {dst r x y : HostReg} {w vx vy : BitVec 32}
  {d : GuestReg}

/-! ## A destination that takes a sum -/

/-- A register plus a constant goes to the destination and is recorded. -/
theorem Sim.addConstantInto (h : Sim s ⟨⟨k + 2, .empty, .empty, none⟩, carry, f⟩ c e m)
    (hr : e.Has m r (ofWord w)) (i : BitVec 32) :
    wp (do let rd ← writeGpr d false; emitAddConstant rd r i; record rd)
      (fun _ => Ends s f ((c.setGpr d (w + i)).recorded s.word.rc (w + i))) e m := by
  refine wp_bind (h.writeSlot_spec (IntSlot.gpr d) false) ?_
  rintro rd e₁ m₁ ⟨h₁, hk₁, hd, -⟩
  refine wp_bind (h₁.emitAddConstant_spec hd (hk₁.has hr) i) ?_
  rintro - e₂ m₂ ⟨h₂, -, hv⟩
  exact wp_ends (h₂.record_spec hv) rfl

/-- The same with a carry, before the record. -/
theorem Sim.addConstantCarrying_spec
    (h : Sim s ⟨⟨k, held, locked, some (IntSlot.gpr d)⟩, carry, f⟩ c e m)
    (hd : e.integers.Bound (IntSlot.gpr d) dst) (hr : e.Has m r (ofWord w)) (i : BitVec 32) :
    wp (addConstantCarrying dst r i) (fun _ e' m' => ∃ carry',
      Sim s ⟨⟨k, held, locked, none⟩, carry', f⟩
        ((c.setGpr d (addWithCarry w i false).value).setCa
          (s.carryOut (addWithCarry w i false).carry)) e' m' ∧
      e'.Has m' dst (ofWord (addWithCarry w i false).value) ∧
      e'.integers.Bound (IntSlot.gpr d) dst) e m := by
  have hp : m.step (.imm32 .add dst r i) =
      .next (m.setX dst (ofWord (addWithCarry w i false).value)) := by
    simp only [Machine.step, Machine.setW, Machine.getW, ImmOp.eval, hr.val, low_ofWord,
      value_addWithCarry_false]
  have hf : m.step (.addsImm32 dst r i) =
      .next { m.setX dst (ofWord (addWithCarry w i false).value) with
        flags := .ofSum (addWithCarry w i false) } := by
    simp only [Machine.step, Machine.setW, Machine.getW, hr.val, low_ofWord]
  refine wp_look rfl ?_
  refine wp_bind (h.emitCarrying hd hp hf) ?_
  rintro - e₁ m₁ ⟨h₁, hk₁, hv, hflag⟩
  refine wp_mono (h₁.carryFromFlags_spec hflag) ?_
  rintro - e₂ m₂ ⟨carry', h₂, hk₂⟩
  exact ⟨carry', h₂, hk₂.has hv, hk₂.bound _ _ (hk₁.bound _ _ hd)⟩

/-- Registers added or subtracted, with the carry in the flags. -/
theorem Sim.emitAdd_spec (h : Sim s ⟨⟨k, held, locked, some (IntSlot.gpr d)⟩, carry, f⟩ c e m)
    (hd : e.integers.Bound (IntSlot.gpr d) dst) (hx : e.Has m x (ofWord vx))
    (hy : e.Has m y (ofWord vy)) : wp (emitAdd dst x y) (fun _ e' m' =>
      Sim s ⟨⟨k, held, locked, none⟩, carry, f⟩
        ((c.setCa none).setGpr d (addWithCarry vx vy false).value) e' m' ∧
      KeepsBut dst e m e' m' ∧ e'.Has m' dst (ofWord (addWithCarry vx vy false).value) ∧
      (s.hints.wantsCa = true → m'.flags.c = (addWithCarry vx vy false).carry)) e m := by
  refine wp_look rfl (h.emitCarrying hd ?_ ?_)
  · simp only [Machine.step, BinaryOp.eval, hx.val, hy.val, low_ofWord, value_addWithCarry_false]
  · simp only [Machine.step, Machine.setW, Machine.getW, FlagOp.eval, hx.val, hy.val, low_ofWord]

theorem Sim.emitSub_spec (h : Sim s ⟨⟨k, held, locked, some (IntSlot.gpr d)⟩, carry, f⟩ c e m)
    (hd : e.integers.Bound (IntSlot.gpr d) dst) (hx : e.Has m x (ofWord vx))
    (hy : e.Has m y (ofWord vy)) : wp (emitSub dst x y) (fun _ e' m' =>
      Sim s ⟨⟨k, held, locked, none⟩, carry, f⟩
        ((c.setCa none).setGpr d (addWithCarry vx (~~~vy) true).value) e' m' ∧
      KeepsBut dst e m e' m' ∧ e'.Has m' dst (ofWord (addWithCarry vx (~~~vy) true).value) ∧
      (s.hints.wantsCa = true → m'.flags.c = (addWithCarry vx (~~~vy) true).carry)) e m := by
  refine wp_look rfl (h.emitCarrying hd ?_ ?_)
  · simp only [Machine.step, BinaryOp.eval, hx.val, hy.val, low_ofWord, value_addWithCarry_not]
  · simp only [Machine.step, Machine.setW, Machine.getW, FlagOp.eval, hx.val, hy.val, low_ofWord,
      subtract]

/-- A register plus a constant goes to the destination, with its carry, and is recorded. -/
theorem Sim.addCarryingInto (h : Sim s ⟨⟨k + 2, .empty, .empty, none⟩, carry, f⟩ c e m)
    (hr : e.Has m r (ofWord w)) (i : BitVec 32) :
    wp (do let rd ← writeGpr d false; addConstantCarrying rd r i; record rd)
      (fun _ => Ends s f (((c.setGpr d (addWithCarry w i false).value).recorded s.word.rc
        (addWithCarry w i false).value).setCa (s.carryOut (addWithCarry w i false).carry)))
      e m := by
  refine wp_bind (h.writeSlot_spec (IntSlot.gpr d) false) ?_
  rintro rd e₁ m₁ ⟨h₁, hk₁, hd, -⟩
  refine wp_bind (h₁.addConstantCarrying_spec hd (hk₁.has hr) i) ?_
  rintro - e₂ m₂ ⟨carry', h₂, hv, -⟩
  exact wp_ends (h₂.record_spec hv) (Contents.recorded_setCa ..)

/-- The end of a sum whose carry is in the flags. -/
theorem Sim.carryRecord (h : Sim s ⟨⟨k + 1, .empty, .empty, none⟩, carry, f⟩
      ((c.setCa none).setGpr d w) e m) (hv : e.Has m dst (ofWord w)) {b : Bool}
    (hflag : s.hints.wantsCa = true → m.flags.c = b) : wp (do carryFromFlags; record dst)
      (fun _ => Ends s f (((c.setGpr d w).recorded s.word.rc w).setCa (s.carryOut b))) e m := by
  refine wp_bind (h.carryFromFlags_spec hflag) ?_
  rintro - e₁ m₁ ⟨carry', h₁, hk₁⟩
  refine wp_ends (h₁.record_spec (hk₁.has hv)) ?_
  rw [Contents.setGpr_setCa, Contents.setCa_setCa, Contents.recorded_setCa]

/-- A constant result and a constant carry. -/
theorem Sim.foldCarry (h : Sim s ⟨⟨k, .empty, .empty, none⟩, carry, f⟩ c e m) (w : BitVec 32)
    (b : Bool) : wp (do fold d w; carryConstant b)
      (fun _ => Ends s f (((c.setGpr d w).recorded s.word.rc w).setCa (s.carryOut b))) e m := by
  refine wp_bind (h.fold_spec d w) ?_
  intro _ e₁ m₁ h₁
  exact wp_ends_carry (h₁.carryConstant_spec b) rfl

/-! ## The instructions -/

variable (h : Sim s ⟨⟨5, .empty, .empty, none⟩, carry, f⟩ c e m)
include h

theorem Sim.addImm_spec (shifted : Bool) : wp (addImm shifted) (fun _ => Ends s f
    (c.setGpr s.word.rd ((if s.word.ra = 0 then 0 else c.gpr s.word.ra) +
      shiftedImm shifted s.word.simm))) e m := by
  unfold addImm shiftedImm
  refine wp_look rfl ?_
  rw [h.fixed.word]
  dsimp only
  generalize (if shifted then s.word.simm <<< 16 else s.word.simm) = imm
  split
  · refine wp_ends (h.foldGpr_spec _ _) ?_
    rw [BitVec.ofNat_eq_ofNat, BitVec.zero_add]
  · refine wp_look rfl ?_
    cases ha : e.gprConstant? s.word.ra with
    | some a =>
      refine wp_ends (h.foldGpr_spec _ _) ?_
      rw [h.gprConstant_eq ha]
    | none =>
      dsimp only
      split
      · next hsame =>
        refine wp_pure (h.ends ?_)
        rw [hsame.1, hsame.2, BitVec.ofNat_eq_ofNat, BitVec.add_zero, Contents.setGpr_self]
      · refine h.readWrite ?_
        intro ra rd e₁ m₁ h₁ _ ha hd
        refine wp_mono (h₁.emitAddConstant_spec hd ha imm) ?_
        rintro - e₂ m₂ ⟨h₂, -, -⟩
        exact h₂.ends rfl

theorem Sim.add_spec : wp add (fun _ => Ends s f
    ((c.setGpr s.word.rd (c.gpr s.word.ra + c.gpr s.word.rb)).recorded s.word.rc
      (c.gpr s.word.ra + c.gpr s.word.rb))) e m := by
  unfold add
  refine wp_look rfl ?_
  rw [h.fixed.word]
  refine wp_bind (h.source_spec s.word.ra) ?_
  rintro x e₁ m₁ ⟨h₁, -, hx⟩
  refine wp_bind (h₁.source_spec s.word.rb) ?_
  rintro y e₂ m₂ ⟨h₂, hk₂, hy⟩
  have hx := hx.keeps hk₂
  cases x with
  | constant vx =>
    cases hx
    cases y with
    | constant vy =>
      cases hy
      exact wp_ends (h₂.fold_spec _ _) rfl
    | reg ry =>
      rw [BitVec.add_comm]
      exact h₂.addConstantInto hy _
  | reg rx =>
    cases y with
    | constant vy =>
      cases hy
      exact h₂.addConstantInto hx _
    | reg ry =>
      refine wp_bind (h₂.writeSlot_spec (IntSlot.gpr s.word.rd) false) ?_
      rintro rd e₃ m₃ ⟨h₃, hk₃, hd, -⟩
      refine wp_ends (h₃.emitRecord hd ?_) rfl
      simp only [Machine.step, BinaryOp.eval, (hk₃.has hx).val, (hk₃.has hy).val, low_ofWord]

theorem Sim.addc_spec : wp addc (fun _ => Ends s f
    (((c.setGpr s.word.rd (addWithCarry (c.gpr s.word.ra) (c.gpr s.word.rb) false).value).recorded
        s.word.rc (addWithCarry (c.gpr s.word.ra) (c.gpr s.word.rb) false).value).setCa
      (s.carryOut (addWithCarry (c.gpr s.word.ra) (c.gpr s.word.rb) false).carry))) e m := by
  unfold addc
  refine wp_look rfl ?_
  rw [h.fixed.word]
  refine wp_bind (h.source_spec s.word.ra) ?_
  rintro x e₁ m₁ ⟨h₁, -, hx⟩
  refine wp_bind (h₁.source_spec s.word.rb) ?_
  rintro y e₂ m₂ ⟨h₂, hk₂, hy⟩
  have hx := hx.keeps hk₂
  cases x with
  | constant vx =>
    cases hx
    cases y with
    | constant vy =>
      cases hy
      rw [value_addWithCarry_false, ← sumCarries_eq]
      exact h₂.foldCarry _ _
    | reg ry =>
      rw [addWithCarry_comm]
      exact h₂.addCarryingInto hy _
  | reg rx =>
    cases y with
    | constant vy =>
      cases hy
      exact h₂.addCarryingInto hx _
    | reg ry =>
      refine wp_bind (h₂.writeSlot_spec (IntSlot.gpr s.word.rd) false) ?_
      rintro rd e₃ m₃ ⟨h₃, hk₃, hd, -⟩
      refine wp_bind (h₃.emitAdd_spec hd (hk₃.has hx) (hk₃.has hy)) ?_
      rintro - e₄ m₄ ⟨h₄, -, hv, hflag⟩
      exact h₄.carryRecord hv hflag

theorem Sim.addCarryingImm_spec (recording : Bool) : wp (addCarryingImm recording) (fun _ =>
    Ends s f (((c.setGpr s.word.rd
        (addWithCarry (c.gpr s.word.ra) s.word.simm false).value).recorded
        recording (addWithCarry (c.gpr s.word.ra) s.word.simm false).value).setCa
      (s.carryOut (addWithCarry (c.gpr s.word.ra) s.word.simm false).carry))) e m := by
  unfold addCarryingImm
  refine wp_look rfl ?_
  rw [h.fixed.word]
  refine wp_look rfl ?_
  cases ha : e.gprConstant? s.word.ra with
  | some a =>
    rw [h.gprConstant_eq ha, value_addWithCarry_false, ← sumCarries_eq]
    refine wp_bind (h.foldGpr_spec _ _) ?_
    intro _ e₁ m₁ h₁
    refine wp_bind (h₁.carryConstant_spec _) ?_
    rintro - e₂ m₂ ⟨carry', h₂, -⟩
    unfold Contents.recorded
    split
    · exact wp_ends (h₂.recordConstant_spec _) rfl
    · exact wp_pure (h₂.ends rfl)
  | none =>
    refine h.readWrite ?_
    intro ra rd e₁ m₁ h₁ _ ha hd
    refine wp_bind (h₁.addConstantCarrying_spec hd ha _) ?_
    rintro - e₂ m₂ ⟨carry', h₂, hv, -⟩
    unfold Contents.recorded
    split
    · exact wp_ends (h₂.recordReg_spec hv) rfl
    · exact wp_pure (h₂.ends rfl)

theorem Sim.subf_spec : wp subf (fun _ => Ends s f
    ((c.setGpr s.word.rd (c.gpr s.word.rb - c.gpr s.word.ra)).recorded s.word.rc
      (c.gpr s.word.rb - c.gpr s.word.ra))) e m := by
  unfold subf
  refine wp_look rfl ?_
  rw [h.fixed.word]
  split
  · next hsame =>
    rw [hsame, BitVec.sub_self]
    exact wp_ends (h.fold_spec _ _) rfl
  · refine wp_look rfl (wp_look rfl ?_)
    cases ha : e.gprConstant? s.word.ra with
    | some a =>
      rw [h.gprConstant_eq ha]
      cases hb : e.gprConstant? s.word.rb with
      | some b =>
        rw [h.gprConstant_eq hb]
        exact wp_ends (h.fold_spec _ _) rfl
      | none =>
        refine wp_bind (h.readGpr_spec s.word.rb) ?_
        rintro rb e₁ m₁ ⟨h₁, -, hrb, -⟩
        rw [BitVec.sub_eq_add_neg]
        exact h₁.addConstantInto hrb _
    | none =>
      dsimp only
      split
      · next hb =>
        rw [h.gprConstant_eq hb, BitVec.ofNat_eq_ofNat, BitVec.zero_sub]
        refine h.readWrite ?_
        intro ra rd e₁ m₁ h₁ _ ha hd
        refine wp_ends (h₁.emitRecord hd ?_) rfl
        simp only [Machine.step, UnaryOp.eval, ha.val, low_ofWord]
      · refine h.readReadWrite ?_
        intro ra rb rd e₁ m₁ h₁ ha hb hd
        refine wp_ends (h₁.emitRecord hd ?_) rfl
        simp only [Machine.step, BinaryOp.eval, ha.val, hb.val, low_ofWord]

theorem Sim.subfc_spec : wp subfc (fun _ => Ends s f
    (((c.setGpr s.word.rd (addWithCarry (~~~c.gpr s.word.ra) (c.gpr s.word.rb) true).value).recorded
        s.word.rc (addWithCarry (~~~c.gpr s.word.ra) (c.gpr s.word.rb) true).value).setCa
      (s.carryOut (addWithCarry (~~~c.gpr s.word.ra) (c.gpr s.word.rb) true).carry))) e m := by
  have hregs : wp (do
      let ra ← readGpr s.word.ra
      let rb ← readGpr s.word.rb
      let rd ← writeGpr s.word.rd false
      emitSub rd rb ra
      carryFromFlags
      record rd) (fun _ => Ends s f
    (((c.setGpr s.word.rd (addWithCarry (~~~c.gpr s.word.ra) (c.gpr s.word.rb) true).value).recorded
        s.word.rc (addWithCarry (~~~c.gpr s.word.ra) (c.gpr s.word.rb) true).value).setCa
      (s.carryOut (addWithCarry (~~~c.gpr s.word.ra) (c.gpr s.word.rb) true).carry))) e m := by
    refine h.readReadWrite ?_
    intro ra rb rd e₁ m₁ h₁ ha hb hd
    refine wp_bind (h₁.emitSub_spec hd hb ha) ?_
    rintro - e₂ m₂ ⟨h₂, -, hv, hflag⟩
    rw [addWithCarry_comm]
    exact h₂.carryRecord hv hflag
  unfold subfc
  refine wp_look rfl ?_
  rw [h.fixed.word]
  refine wp_look rfl (wp_look rfl ?_)
  cases ha : e.gprConstant? s.word.ra with
  | none => exact hregs
  | some a =>
    cases hb : e.gprConstant? s.word.rb with
    | none => exact hregs
    | some b =>
      rw [h.gprConstant_eq ha, h.gprConstant_eq hb, value_addWithCarry_complement,
        carry_addWithCarry_complement]
      exact h.foldCarry _ _

theorem Sim.subfic_spec : wp subfic (fun _ => Ends s f
    ((c.setGpr s.word.rd (addWithCarry (~~~c.gpr s.word.ra) s.word.simm true).value).setCa
      (s.carryOut (addWithCarry (~~~c.gpr s.word.ra) s.word.simm true).carry))) e m := by
  unfold subfic
  refine wp_look rfl ?_
  rw [h.fixed.word]
  dsimp only
  generalize s.word.simm = imm
  refine wp_look rfl ?_
  cases ha : e.gprConstant? s.word.ra with
  | some a =>
    rw [h.gprConstant_eq ha, value_addWithCarry_complement, carry_addWithCarry_complement]
    refine wp_bind (h.foldGpr_spec _ _) ?_
    intro _ e₁ m₁ h₁
    exact wp_ends_carry (h₁.carryConstant_spec _) rfl
  | none =>
    refine wp_bind (h.readGpr_spec s.word.ra) ?_
    rintro ra e₁ m₁ ⟨h₁, -, ha, -⟩
    split
    · next himm =>
      obtain ⟨hvalue, hcarry⟩ := addWithCarry_not_allOnes (c.gpr s.word.ra)
      rw [himm, hvalue, hcarry]
      refine wp_bind (h₁.writeSlot_spec (IntSlot.gpr s.word.rd) false) ?_
      rintro rd e₂ m₂ ⟨h₂, hk₂, hd, -⟩
      have hs :
          m₂.step (.unary .mvn32 rd ra) = .next (m₂.setX rd (ofWord (~~~c.gpr s.word.ra))) := by
        simp only [Machine.step, UnaryOp.eval, (hk₂.has ha).val, low_ofWord]
      refine wp_bind (h₂.emitGpr hd hs) ?_
      rintro - e₃ m₃ ⟨h₃, -, -⟩
      exact wp_ends_carry (h₃.carryConstant_spec true) rfl
    · split
      · next himm =>
        rw [himm, addWithCarry_comm]
        refine wp_bind (h₁.writeSlot_spec (IntSlot.gpr s.word.rd) false) ?_
        rintro rd e₂ m₂ ⟨h₂, hk₂, hd, -⟩
        have ha₂ := hk₂.has ha
        have hp : m₂.step (.unary .neg32 rd ra) =
            .next (m₂.setX rd (ofWord (addWithCarry 0 (~~~c.gpr s.word.ra) true).value)) := by
          simp only [Machine.step, UnaryOp.eval, ha₂.val, low_ofWord, value_addWithCarry_not,
            BitVec.ofNat_eq_ofNat, BitVec.zero_sub]
        have hf : m₂.step (.negs32 rd ra) =
            .next { m₂.setX rd (ofWord (addWithCarry 0 (~~~c.gpr s.word.ra) true).value) with
              flags := .ofSum (addWithCarry 0 (~~~c.gpr s.word.ra) true) } := by
          simp only [Machine.step, Machine.setW, Machine.getW, ha₂.val, low_ofWord, subtract]
        refine wp_look rfl (wp_bind (h₂.emitCarrying hd hp hf) ?_)
        rintro - e₃ m₃ ⟨h₃, -, -, hflag⟩
        exact wp_ends_carry (h₃.carryFromFlags_spec hflag) rfl
      · rw [addWithCarry_comm]
        refine wp_bind (h₁.scratchConstant_spec imm) ?_
        rintro temp e₂ m₂ ⟨h₂, hk₂, hheld, htemp, -⟩
        refine wp_bind (h₂.writeSlot_spec (IntSlot.gpr s.word.rd) false) ?_
        rintro rd e₃ m₃ ⟨h₃, hk₃, hd, -⟩
        refine wp_bind (h₃.emitSub_spec hd (hk₃.has htemp) (hk₃.has (hk₂.has ha))) ?_
        rintro - e₄ m₄ ⟨h₄, -, -, hflag⟩
        refine wp_bind (h₄.release_spec hheld) ?_
        rintro - e₅ m₅ ⟨h₅, -, rfl⟩
        exact wp_ends_carry (h₅.carryFromFlags_spec hflag) rfl

theorem Sim.neg_spec : wp neg (fun _ => Ends s f
    ((c.setGpr s.word.rd (-c.gpr s.word.ra)).recorded s.word.rc (-c.gpr s.word.ra))) e m := by
  unfold neg
  refine wp_look rfl ?_
  rw [h.fixed.word]
  refine wp_look rfl ?_
  cases ha : e.gprConstant? s.word.ra with
  | some a =>
    rw [h.gprConstant_eq ha]
    exact wp_ends (h.fold_spec _ _) rfl
  | none =>
    refine h.readWrite ?_
    intro ra rd e₁ m₁ h₁ _ ha hd
    refine wp_ends (h₁.emitRecord hd ?_) rfl
    simp only [Machine.step, UnaryOp.eval, ha.val, low_ofWord]

end Recompiler.Emit
