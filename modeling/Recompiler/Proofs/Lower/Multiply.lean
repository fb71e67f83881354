import Mathlib.Algebra.Group.Basic
import Mathlib.Data.BitVec
import Recompiler.Proofs.BranchPiece
import Recompiler.Proofs.FoldedValues
import Recompiler.Proofs.Operands

/-!
# The code of multiplications and divisions
-/

namespace Recompiler.Lower

open Arm PowerPC

theorem powerOfTwo?_some {value : BitVec 32} {n : Nat} (h : powerOfTwo? value = some n) :
    n < 32 ∧ value = 1#32 <<< n := by
  have hmem := List.mem_of_find?_eq_some h
  have hval := List.find?_some h
  exact ⟨List.mem_range.1 hmem, by simpa using hval⟩

theorem udiv_twoPow (a : BitVec 32) {n : Nat} (hn : n < 32) : a / (1#32 <<< n) = a >>> n := by
  apply BitVec.eq_of_toNat_eq
  have hlt : 2 ^ n < 2 ^ 32 := Nat.pow_lt_pow_right (by omega) hn
  rw [BitVec.toNat_udiv, BitVec.toNat_ushiftRight, BitVec.toNat_shiftLeft, Nat.shiftLeft_eq,
    Nat.shiftRight_eq_div_pow, BitVec.toNat_ofNat, Nat.mod_eq_of_lt (by omega : 1 < 2 ^ 32),
    Nat.one_mul, Nat.mod_eq_of_lt hlt]

/-- The upper half of a product is a word. -/
theorem ofWord_upperHalf (x : BitVec 64) : ofWord ((x >>> 32).setWidth 32) = x >>> 32 := by
  apply BitVec.eq_of_toNat_eq
  have hx := x.isLt
  simp only [ofWord, BitVec.toNat_setWidth, BitVec.toNat_ushiftRight, Nat.shiftRight_eq_div_pow]
  omega

/-- A word cannot tell how the upper half was shifted down. -/
theorem setWidth_sshiftRight_upperHalf (x : BitVec 64) :
    (x.sshiftRight 32).setWidth 32 = (x >>> 32).setWidth 32 := by
  apply BitVec.eq_of_getLsbD_eq
  intro i hi
  have hin : 32 + i < 64 := by omega
  have hwide : ¬64 ≤ i := by omega
  rw [BitVec.getLsbD_setWidth, BitVec.getLsbD_setWidth, BitVec.getLsbD_sshiftRight,
    BitVec.getLsbD_ushiftRight, if_pos hin, decide_eq_false hwide, Bool.not_false, Bool.true_and]

end Recompiler.Lower

namespace Recompiler.Emit

open Alloc Arm Block PowerPC Lower

variable {s : Setting} {c : Contents} {e : Emitter} {m : Machine} {carry : Carry} {f : FloatStage}

/-- The upper half of a 64-bit product, which goes through the destination. -/
theorem Sim.upperHalf {k : Nat} {d : GuestReg} {dst ra rb : HostReg} {op : BinaryOp}
    (h : Sim s ⟨⟨k, .empty, .empty, some (IntSlot.gpr d)⟩, carry, f⟩ c e m)
    (hd : e.integers.Bound (IntSlot.gpr d) dst) :
    wp (emitAll [.binary op dst ra rb, .shift .lsr64 dst dst 32]) (fun _ e' m' =>
      Sim s ⟨⟨k, .empty, .empty, none⟩, carry, f⟩
        (c.setGpr d ((op.eval (m.getX ra) (m.getX rb) >>> 32).setWidth 32)) e' m' ∧
      e'.Has m' dst (ofWord ((op.eval (m.getX ra) (m.getX rb) >>> 32).setWidth 32))) e m := by
  refine wp_emitAll_cons (wp_bind (h.emit_spec hd.owns (h.loose_bound hd rfl) rfl) ?_)
  rintro - e₁ m₁ ⟨h₁, hk₁, hv⟩
  have hs : m₁.step (.shift .lsr64 dst dst 32) = .next (m₁.setX dst
      (ofWord ((op.eval (m.getX ra) (m.getX rb) >>> 32).setWidth 32))) := by
    rw [ofWord_upperHalf]
    simp only [Machine.step, ShiftOp.eval, hv.val]
  refine wp_emitAll_cons (wp_bind (h₁.emitGpr (hk₁.bound _ _ hd) hs) ?_)
  rintro - e₂ m₂ ⟨h₂, -, hv₂⟩
  exact wp_emitAll_nil ⟨h₂, hv₂⟩

section Multiply

variable (h : Sim s ⟨⟨5, .empty, .empty, none⟩, carry, f⟩ c e m)
include h

theorem Sim.mulli_spec : wp mulli (fun _ => Ends s f
    (c.setGpr s.word.rd (c.gpr s.word.ra * s.word.simm))) e m := by
  unfold mulli
  refine wp_look rfl ?_
  rw [h.fixed.word]
  dsimp only
  generalize s.word.simm = imm
  refine wp_look rfl ?_
  cases ha : e.gprConstant? s.word.ra with
  | some a =>
    rw [h.gprConstant_eq ha]
    exact wp_ends (h.foldGpr_spec _ _) rfl
  | none =>
    dsimp only
    split
    · next himm =>
      rw [himm, BitVec.ofNat_eq_ofNat, BitVec.mul_zero]
      exact wp_ends (h.foldGpr_spec _ _) rfl
    · refine wp_bind (h.readGpr_spec s.word.ra) ?_
      rintro ra e₁ m₁ ⟨h₁, -, ha, -⟩
      split
      · next himm =>
        rw [himm, BitVec.ofNat_eq_ofNat, BitVec.mul_one]
        split
        · next hsame =>
          refine wp_pure (h₁.ends ?_)
          rw [hsame, Contents.setGpr_self]
        · refine wp_bind (h₁.writeSlot_spec (IntSlot.gpr s.word.rd) false) ?_
          rintro rd e₂ m₂ ⟨h₂, hk₂, hd, -⟩
          have hs : m₂.step (.unary .mov32 rd ra) =
              .next (m₂.setX rd (ofWord (c.gpr s.word.ra))) := by
            simp only [Machine.step, UnaryOp.eval, (hk₂.has ha).val, low_ofWord]
          refine wp_mono (h₂.emitGpr hd hs) ?_
          rintro - e₃ m₃ ⟨h₃, -, -⟩
          exact h₃.ends rfl
      · refine wp_bind (h₁.scratchConstant_spec imm) ?_
        rintro temp e₂ m₂ ⟨h₂, hk₂, hheld, htemp, -⟩
        refine wp_bind (h₂.writeSlot_spec (IntSlot.gpr s.word.rd) false) ?_
        rintro rd e₃ m₃ ⟨h₃, hk₃, hd, -⟩
        have hs : m₃.step (.binary .mul32 rd ra temp) =
            .next (m₃.setX rd (ofWord (c.gpr s.word.ra * imm))) := by
          simp only [Machine.step, BinaryOp.eval, (hk₃.has (hk₂.has ha)).val, (hk₃.has htemp).val,
            low_ofWord]
        refine wp_bind (h₃.emitGpr hd hs) ?_
        rintro - e₄ m₄ ⟨h₄, -, -⟩
        refine wp_mono (h₄.release_spec hheld) ?_
        rintro - e₅ m₅ ⟨h₅, -, -⟩
        exact h₅.ends rfl

theorem Sim.mulRegs_spec (op : MulOp) (d a b : GuestReg) : wp (mulRegs op d a b) (fun _ => Ends s f
    ((c.setGpr d (op.apply (c.gpr a) (c.gpr b))).recorded s.word.rc
      (op.apply (c.gpr a) (c.gpr b)))) e m := by
  refine h.readReadWrite ?_
  intro ra rb rd e₁ m₁ h₁ ha hb hd
  cases op with
  | low =>
    refine wp_ends (h₁.emitRecord hd ?_) rfl
    simp only [Machine.step, BinaryOp.eval, ha.val, hb.val, low_ofWord, MulOp.apply,
      setWidth_mul_signExtend]
  | highSigned =>
    refine wp_bind (h₁.upperHalf hd) ?_
    rintro - e₂ m₂ ⟨h₂, hv⟩
    simp only [ha.val, hb.val, BinaryOp.eval, low_ofWord,
      ← setWidth_sshiftRight_upperHalf] at h₂ hv
    exact wp_ends (h₂.record_spec hv) rfl
  | highUnsigned =>
    refine wp_bind (h₁.upperHalf hd) ?_
    rintro - e₂ m₂ ⟨h₂, hv⟩
    simp only [ha.val, hb.val, BinaryOp.eval, low_ofWord] at h₂ hv
    exact wp_ends (h₂.record_spec hv) rfl

theorem Sim.mul_spec (op : MulOp) : wp (mul op) (fun _ => Ends s f
    ((c.setGpr s.word.rd (op.apply (c.gpr s.word.ra) (c.gpr s.word.rb))).recorded s.word.rc
      (op.apply (c.gpr s.word.ra) (c.gpr s.word.rb)))) e m := by
  have hregs := h.mulRegs_spec op s.word.rd s.word.ra s.word.rb
  unfold mul
  refine wp_look rfl ?_
  rw [h.fixed.word]
  refine wp_look rfl (wp_look rfl ?_)
  cases ha : e.gprConstant? s.word.ra with
  | none => exact hregs
  | some a =>
    cases hb : e.gprConstant? s.word.rb with
    | none => exact hregs
    | some b =>
      rw [h.gprConstant_eq ha, h.gprConstant_eq hb, ← product_eq]
      exact wp_ends (h.fold_spec _ _) rfl

theorem Sim.divideByPower_spec (d a : GuestReg) {n : Nat} (hn : n < 32) :
    wp (divideByPower d a n) (fun _ => Ends s f
      ((c.setGpr d (c.gpr a >>> n)).recorded s.word.rc (c.gpr a >>> n))) e m := by
  refine h.readWrite ?_
  intro ra rd e₁ m₁ h₁ _ ha hd
  split
  · next hz =>
    rw [hz, BitVec.ushiftRight_zero]
    refine wp_bind (h₁.emitMove_spec hd ha) ?_
    rintro - e₂ m₂ ⟨h₂, -, hv⟩
    exact wp_ends (h₂.record_spec hv) rfl
  · refine wp_ends (h₁.emitRecord hd ?_) rfl
    simp only [Machine.step, ShiftOp.eval, ha.val, low_ofWord, Nat.mod_eq_of_lt hn]

theorem Sim.divideUnsigned_spec (d a b : GuestReg) : wp (divideUnsigned d a b) (fun _ => Ends s f
    ((c.setGpr d (c.gpr a / c.gpr b)).recorded s.word.rc (c.gpr a / c.gpr b))) e m := by
  refine h.readReadWrite ?_
  intro ra rb rd e₁ m₁ h₁ ha hb hd
  refine wp_ends (h₁.emitRecord hd ?_) rfl
  simp only [Machine.step, BinaryOp.eval, ha.val, hb.val, low_ofWord]

theorem Sim.divwu_spec : wp divwu (fun _ => Ends s f
    ((c.setGpr s.word.rd (c.gpr s.word.ra / c.gpr s.word.rb)).recorded s.word.rc
      (c.gpr s.word.ra / c.gpr s.word.rb))) e m := by
  unfold divwu
  refine wp_look rfl ?_
  rw [h.fixed.word]
  refine wp_look rfl (wp_look rfl ?_)
  cases hb : e.gprConstant? s.word.rb with
  | none =>
    cases ha : e.gprConstant? s.word.ra <;> exact h.divideUnsigned_spec _ _ _
  | some b =>
    have hbv := h.gprConstant_eq hb
    cases ha : e.gprConstant? s.word.ra with
    | some a =>
      have hq : a / b = if b = 0 then 0 else a / b := (quotient_eq a b).symm
      rw [h.gprConstant_eq ha, hbv, hq]
      exact wp_ends (h.fold_spec _ _) rfl
    | none =>
      dsimp only
      split
      · next hz =>
        have hq : c.gpr s.word.ra / c.gpr s.word.rb = 0 := by
          rw [hbv, hz, BitVec.ofNat_eq_ofNat, BitVec.udiv_zero]
        rw [hq]
        exact wp_ends (h.fold_spec _ _) rfl
      · cases hp : powerOfTwo? b with
        | some n =>
          obtain ⟨hn, hval⟩ := powerOfTwo?_some hp
          rw [hbv, hval, udiv_twoPow _ hn]
          exact h.divideByPower_spec _ _ hn
        | none => exact h.divideUnsigned_spec _ _ _

end Multiply

/-! ## Checked division -/

/-- The code of a checked division, from the first check on. -/
def dividePiece (rd ra rb temp : HostReg) : Piece where
  near :=
    [.branchIfZero rb 0, .movImm32 temp 0x80000000, .test .cmp ra temp, .branchIf .ne 0,
      .testImm .cmn rb 1, .branchIf .eq 0, .binary .sdiv32 rd ra rb, .branch 0,
      .shift .asr32 rd ra 31]
  places := [⟨.near, 6⟩, ⟨.near, 8⟩, ⟨.near, 9⟩]
  branches := [(⟨.near, 0⟩, 1), (⟨.near, 3⟩, 0), (⟨.near, 5⟩, 1), (⟨.near, 7⟩, 2)]

theorem dividePiece_ok (rd ra rb temp : HostReg) : (dividePiece rd ra rb temp).Ok where
  branch := by simp [dividePiece, Piece.inst?, Inst.isBranch]
  label := by simp [dividePiece]
  once := by simp [dividePiece]

/-- How the code is written. -/
def divideSteps (rd ra rb temp : HostReg) : List Asm :=
  [.label, .label, .label, .branch (.branchIfZero rb 0) 1, .emit (.movImm32 temp 0x80000000),
    .emit (.test .cmp ra temp), .branch (.branchIf .ne 0) 0, .emit (.testImm .cmn rb 1),
    .branch (.branchIf .eq 0) 1, .place 0, .emit (.binary .sdiv32 rd ra rb), .branch (.branch 0) 2,
    .place 1, .emit (.shift .asr32 rd ra 31), .place 2]

theorem dividePiece_writes (rd ra rb temp : HostReg) :
    CodeBuffer.Writes (divideSteps rd ra rb temp) (dividePiece rd ra rb temp) := by
  constructor <;> rfl

theorem flags_cmp_zero (a b : BitVec 32) : (TestOp.eval .cmp a b).z = decide (a = b) := by
  simp only [TestOp.eval, Flags.ofSum, subtract, value_addWithCarry_not]
  rw [Bool.eq_iff_iff]
  simp [BitVec.sub_eq_iff_eq_add]

theorem flags_cmn_zero (b : BitVec 32) :
    (TestImmOp.eval .cmn b 1).z = decide (b = BitVec.allOnes 32) := by
  simp only [TestImmOp.eval, Flags.ofSum, value_addWithCarry_false]
  rw [Bool.eq_iff_iff, beq_iff_eq, decide_eq_true_iff, ← BitVec.neg_one_eq_allOnes]
  exact add_eq_zero_iff_eq_neg

section Divide

variable {rd ra rb temp : HostReg} {a b : BitVec 32} {fuel : Nat}

theorem dividePiece_quotient (ha : m.getX ra = ofWord a) (hb : m.getX rb = ofWord b) :
    (dividePiece rd ra rb temp).run (fuel + 2) ⟨.near, 6⟩ m =
      some (m.setX rd (ofWord (a.sdiv b))) := by
  have hs : m.step (.binary .sdiv32 rd ra rb) = .next (m.setX rd (ofWord (a.sdiv b))) := by
    simp only [Machine.step, BinaryOp.eval, ha, hb, low_ofWord]
  rw [Piece.run_next rfl hs, Piece.run_jump rfl rfl rfl]
  exact Piece.run_end _ _ _

theorem dividePiece_sign (ha : m.getX ra = ofWord a) :
    (dividePiece rd ra rb temp).run (fuel + 1) ⟨.near, 8⟩ m =
      some (m.setX rd (ofWord (a.sshiftRight 31))) := by
  have hs : m.step (.shift .asr32 rd ra 31) = .next (m.setX rd (ofWord (a.sshiftRight 31))) := by
    simp only [Machine.step, ShiftOp.eval, ha, low_ofWord]
  rw [Piece.run_next rfl hs]
  exact Piece.run_end _ _ _

theorem dividePiece_zero (hb : m.getX rb = ofWord 0) :
    (dividePiece rd ra rb temp).run (fuel + 1) ⟨.near, 0⟩ m =
      (dividePiece rd ra rb temp).run fuel ⟨.near, 8⟩ m := by
  have hs : m.step (.branchIfZero rb 0) = .jump 0 m := by
    rw [Machine.step, Machine.getW, hb, low_ofWord, if_pos rfl]
  exact Piece.run_jump rfl hs rfl

/-- A divisor other than zero leads to the comparison with the least word. -/
theorem dividePiece_nonzero (ht : temp ≠ zeroReg) (hra : ra ≠ temp) (ha : m.getX ra = ofWord a)
    (hb : m.getX rb = ofWord b) (hb0 : b ≠ 0) :
    ∃ mid, (dividePiece rd ra rb temp).run (fuel + 3) ⟨.near, 0⟩ m =
      (dividePiece rd ra rb temp).run fuel ⟨.near, 3⟩ mid ∧ SameBut temp m mid ∧
      mid.flags.z = decide (a = BitVec.intMin 32) := by
  have hs₀ : m.step (.branchIfZero rb 0) = .next m := by
    rw [Machine.step, Machine.getW, hb, low_ofWord, if_neg hb0]
  have hs₁ : m.step (.movImm32 temp 0x80000000) = .next (m.setX temp (ofWord 0x80000000)) := rfl
  have hs₂ : (m.setX temp (ofWord 0x80000000)).step (.test .cmp ra temp) = .next
      { m.setX temp (ofWord 0x80000000) with flags := TestOp.eval .cmp a 0x80000000 } := by
    simp only [Machine.step, Machine.getW, m.getX_setX_of_ne hra, m.getX_setX_self ht, ha,
      low_ofWord]
  have hmin : (0x80000000 : BitVec 32) = BitVec.intMin 32 := by decide
  refine ⟨{ m.setX temp (ofWord 0x80000000) with flags := TestOp.eval .cmp a 0x80000000 }, ?_,
    (SameBut.setX m temp _).flags _, ?_⟩
  · rw [Piece.run_next rfl hs₀, Piece.run_next rfl hs₁, Piece.run_next rfl hs₂]
  · rw [← hmin]
    exact flags_cmp_zero a 0x80000000

theorem dividePiece_ne (hz : m.flags.z = false) :
    (dividePiece rd ra rb temp).run (fuel + 1) ⟨.near, 3⟩ m =
      (dividePiece rd ra rb temp).run fuel ⟨.near, 6⟩ m := by
  have hs : m.step (.branchIf .ne 0) = .jump 0 m := by
    simp only [Machine.step, Cond.holds, hz, Bool.not_false, if_true]
  exact Piece.run_jump rfl hs rfl

theorem dividePiece_eq (hz : m.flags.z = true) (hb : m.getX rb = ofWord b) :
    (dividePiece rd ra rb temp).run (fuel + 3) ⟨.near, 3⟩ m =
      (dividePiece rd ra rb temp).run fuel ⟨.near, if b = BitVec.allOnes 32 then 8 else 6⟩
        { m with flags := TestImmOp.eval .cmn b 1 } := by
  have hs₃ : m.step (.branchIf .ne 0) = .next m := by
    simp only [Machine.step, Cond.holds, hz, Bool.not_true, Bool.false_eq_true, if_false]
  have hs₄ : m.step (.testImm .cmn rb 1) = .next { m with flags := TestImmOp.eval .cmn b 1 } := by
    simp only [Machine.step, Machine.getW, hb, low_ofWord]
  rw [Piece.run_next rfl hs₃, Piece.run_next rfl hs₄]
  by_cases hneg : b = BitVec.allOnes 32
  · have hs₅ : ({ m with flags := TestImmOp.eval .cmn b 1 } : Machine).step (.branchIf .eq 0) =
        .jump 0 { m with flags := TestImmOp.eval .cmn b 1 } := by
      simp only [Machine.step, Cond.holds, flags_cmn_zero, hneg, decide_true, if_true]
    rw [Piece.run_jump rfl hs₅ rfl, if_pos hneg]
  · have hs₅ : ({ m with flags := TestImmOp.eval .cmn b 1 } : Machine).step (.branchIf .eq 0) =
        .next { m with flags := TestImmOp.eval .cmn b 1 } := by
      simp only [Machine.step, Cond.holds, flags_cmn_zero, hneg, decide_false,
        Bool.false_eq_true, if_false]
    rw [Piece.run_next rfl hs₅, if_neg hneg]

theorem signedQuotient_of_ne {a b : BitVec 32} (hb : b ≠ 0)
    (h : a = BitVec.intMin 32 → b ≠ BitVec.allOnes 32) : (signedQuotient a b).1 = a.sdiv b := by
  rw [signedQuotient, if_neg]
  rintro (h0 | ⟨hmin, hneg⟩)
  · exact hb h0
  · exact h hmin hneg

theorem dividePiece_run (hz : rd ≠ zeroReg) (ht : temp ≠ zeroReg) (hra : ra ≠ temp)
    (hrb : rb ≠ temp) (ha : m.getX ra = ofWord a) (hb : m.getX rb = ofWord b) :
    ∃ mid m', (dividePiece rd ra rb temp).run 9 ⟨.near, 0⟩ m = some m' ∧ SameBut temp m mid ∧
      SameBut rd mid m' ∧ m'.getX rd = ofWord (signedQuotient a b).1 := by
  by_cases hb0 : b = 0
  · refine ⟨m, _, ?_, .refl temp m, .setX m rd (ofWord (a.sshiftRight 31)), ?_⟩
    · rw [dividePiece_zero (hb0 ▸ hb), dividePiece_sign ha]
    · rw [Machine.getX_setX_self _ hz, signedQuotient, if_pos (.inl hb0)]
  obtain ⟨mid, hrun, hsame, hflag⟩ := dividePiece_nonzero ht hra ha hb hb0
  rw [hrun]
  replace ha := (hsame.x ra hra).trans ha
  replace hb := (hsame.x rb hrb).trans hb
  by_cases hleast : a = BitVec.intMin 32
  · rw [dividePiece_eq (hflag.trans (decide_eq_true hleast)) hb]
    refine ⟨{ mid with flags := TestImmOp.eval .cmn b 1 }, _, ?_, hsame.flags _,
      .setX _ rd (ofWord (signedQuotient a b).1), Machine.getX_setX_self _ hz _⟩
    by_cases hneg : b = BitVec.allOnes 32
    · rw [if_pos hneg, signedQuotient, if_pos (.inr ⟨hleast, hneg⟩)]
      exact dividePiece_sign ha
    · rw [if_neg hneg, signedQuotient_of_ne hb0 fun _ => hneg]
      exact dividePiece_quotient ha hb
  · refine ⟨mid, _, ?_, hsame, .setX mid rd (ofWord (a.sdiv b)), ?_⟩
    · rw [dividePiece_ne (hflag.trans (decide_eq_false hleast)), dividePiece_quotient ha hb]
    · rw [Machine.getX_setX_self _ hz, signedQuotient_of_ne hb0 fun h => absurd h hleast]

end Divide

section Signed

variable (h : Sim s ⟨⟨5, .empty, .empty, none⟩, carry, f⟩ c e m)
include h

theorem Sim.divideChecked_spec (d a b : GuestReg) : wp (divideChecked d a b) (fun _ => Ends s f
    ((c.setGpr d (signedQuotient (c.gpr a) (c.gpr b)).1).recorded s.word.rc
      (signedQuotient (c.gpr a) (c.gpr b)).1)) e m := by
  unfold divideChecked
  refine wp_bind h.flushCarry_spec ?_
  rintro - e₁ m₁ ⟨h₁, -⟩
  refine wp_bind (h₁.readGpr_spec a) ?_
  rintro ra e₂ m₂ ⟨h₂, -, ha, -⟩
  refine wp_bind (h₂.readGpr_spec b) ?_
  rintro rb e₃ m₃ ⟨h₃, hk₃, hb, -⟩
  refine wp_bind h₃.scratch_spec ?_
  rintro temp e₄ m₄ ⟨h₄, hk₄, hheld, htemp, hne⟩
  refine wp_bind (h₄.writeSlot_spec (IntSlot.gpr d) false) ?_
  rintro rd e₅ m₅ ⟨h₅, hk₅, hd, -⟩
  have ha₅ := hk₅.has (hk₄.has (hk₃.has ha))
  have hb₅ := hk₅.has (hk₄.has hb)
  have hcontains := RegSet.contains_insert_self .empty temp
  have hdt : rd ≠ temp := h₅.bound_ne_held hd hcontains
  obtain ⟨mid, m₆, hrun, hmid, hlast, hval⟩ := dividePiece_run (h₅.ne_zeroReg hd.owns)
    (h₄.ne_zeroReg htemp) (hne ra (hk₃.has ha).owns) (hne rb hb.owns) ha₅.val hb₅.val
  refine wp_writes (dividePiece_writes rd ra rb temp) (dividePiece_ok rd ra rb temp) h₅.fixed.code
    (?_ : _ = (do release temp; record rd : EmitM Unit).run.run _) hrun ?_
  · rw [run_newLabel, run_newLabel, run_newLabel]
    simp only [size_labels_addLabel]
    rfl
  intro hcode
  -- the carry is in memory, so the flags are free
  have hmem : ∀ b, c.ca = some b → CarryIs .inGuestState mid b := fun b hb =>
    (congrArg (fun state => State.fetch state .xerCa) hmid.state).trans (h₅.ca b hb)
  have h₆ := h₅.of_same (h₅.loose_held hcontains) hmid hmem
  have h₇ := h₆.of_same (h₆.loose_bound hd rfl) hlast fun b hb =>
    (congrArg (fun state => State.fetch state .xerCa) hlast.state).trans (hmem b hb)
  have h₈ := (h₇.closeGpr hd hval).with_buffer hcode
  refine wp_bind (h₈.release_spec hheld) ?_
  rintro - e₉ m₉ ⟨h₉, hk₉, -⟩
  exact wp_ends (h₉.record_spec (hk₉.has hdt ⟨hd.owns, hval⟩)) rfl

theorem Sim.divideByConstant_spec (d a b : GuestReg) {divisor : BitVec 32}
    (hb : c.gpr b = divisor) : wp (divideByConstant d a b divisor) (fun _ => Ends s f
    ((c.setGpr d (signedQuotient (c.gpr a) (c.gpr b)).1).recorded s.word.rc
      (signedQuotient (c.gpr a) (c.gpr b)).1)) e m := by
  unfold divideByConstant
  split
  · next hz =>
    rw [signedQuotient, if_pos (.inl (hb.trans hz))]
    refine h.readWrite ?_
    intro ra rd e₁ m₁ h₁ _ ha hd
    refine wp_ends (h₁.emitRecord hd ?_) rfl
    simp only [Machine.step, ShiftOp.eval, ha.val, low_ofWord]
  · next hz =>
    split
    · exact h.divideChecked_spec d a b
    · next hneg =>
      rw [signedQuotient_of_ne (by rwa [hb]) fun _ => by rwa [hb]]
      refine wp_bind (h.readGpr_spec a) ?_
      rintro ra e₁ m₁ ⟨h₁, -, ha, -⟩
      refine wp_bind (h₁.scratchConstant_spec divisor) ?_
      rintro temp e₂ m₂ ⟨h₂, hk₂, hheld, htemp, -⟩
      refine wp_bind (h₂.writeSlot_spec (IntSlot.gpr d) false) ?_
      rintro rd e₃ m₃ ⟨h₃, hk₃, hd, -⟩
      have hs : m₃.step (.binary .sdiv32 rd ra temp) =
          .next (m₃.setX rd (ofWord ((c.gpr a).sdiv (c.gpr b)))) := by
        simp only [Machine.step, BinaryOp.eval, (hk₃.has (hk₂.has ha)).val, (hk₃.has htemp).val,
          low_ofWord, hb]
      exact wp_ends (h₃.emitReleaseRecord hd hs hheld) rfl

theorem Sim.divw_spec : wp divw (fun _ => Ends s f
    ((c.setGpr s.word.rd (signedQuotient (c.gpr s.word.ra) (c.gpr s.word.rb)).1).recorded s.word.rc
      (signedQuotient (c.gpr s.word.ra) (c.gpr s.word.rb)).1)) e m := by
  unfold divw
  refine wp_look rfl ?_
  rw [h.fixed.word]
  refine wp_look rfl (wp_look rfl ?_)
  cases hb : e.gprConstant? s.word.rb with
  | none =>
    cases ha : e.gprConstant? s.word.ra <;> exact h.divideChecked_spec _ _ _
  | some b =>
    cases ha : e.gprConstant? s.word.ra with
    | some a =>
      rw [h.gprConstant_eq ha, h.gprConstant_eq hb, ← divwValue_eq]
      exact wp_ends (h.fold_spec _ _) rfl
    | none => exact h.divideByConstant_spec _ _ _ (h.gprConstant_eq hb)

end Signed

end Recompiler.Emit
