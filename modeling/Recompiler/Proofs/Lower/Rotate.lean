import Recompiler.Lower.Rotate
import Recompiler.Proofs.Operands
import Recompiler.Proofs.WordRotation

/-!
# The code of rotations
-/

namespace Recompiler.Emit

open Alloc Arm Block PowerPC Lower

theorem sh_lt (word : Word) : word.sh < 32 := Nat.mod_lt _ (by decide)

theorem mb_lt (word : Word) : word.mb < 32 := Nat.mod_lt _ (by decide)

theorem me_lt (word : Word) : word.me < 32 := Nat.mod_lt _ (by decide)

variable {s : Setting} {c : Contents} {e : Emitter} {m : Machine} {k : Nat} {carry : Carry}
  {f : FloatStage} {d a b : GuestReg} {sh mb me : Nat} {w : BitVec 32} {rs : HostReg}

theorem Sim.rotateMask_spec (h : Sim s ⟨⟨k + 4, .empty, .empty, none⟩, carry, f⟩ c e m)
    (hs : sh < 32) (mask : BitVec 32) : wp (rotateMask d a sh mask) (fun _ => Ends s f
      ((c.setGpr d ((c.gpr a).rotateLeft sh &&& mask)).recorded s.word.rc
        ((c.gpr a).rotateLeft sh &&& mask))) e m := by
  unfold rotateMask
  refine wp_look rfl ?_
  cases ha : e.gprConstant? a with
  | some v =>
    rw [h.gprConstant_eq ha]
    exact wp_ends (h.fold_spec _ _) rfl
  | none =>
    dsimp only
    split
    · next hall =>
      obtain ⟨hmask, hz⟩ := hall
      rw [hmask, hz, BitVec.and_allOnes, rotateLeft_zero]
      exact wp_ends (h.moveGpr_spec d a) rfl
    · refine wp_bind (h.readGpr_spec a) ?_
      rintro rs e₁ m₁ ⟨h₁, -, ha, -⟩
      split
      · next hmask =>
        rw [hmask, BitVec.and_allOnes]
        refine wp_ends (h₁.writeRecord fun rd e₂ m₂ hk => ?_) rfl
        simp only [Machine.step, ShiftOp.eval, (hk.has ha).val, low_ofWord,
          rotateRight_rightRotation _ hs]
      split
      · next hz =>
        rw [hz, rotateLeft_zero]
        refine wp_ends (h₁.writeRecord fun rd e₂ m₂ hk => ?_) rfl
        simp only [Machine.step, Machine.setW, Machine.getW, ImmOp.eval,
          (hk.has ha).val, low_ofWord]
      split
      · next op lsb width hfield =>
        refine wp_ends (h₁.writeRecord fun rd e₂ m₂ hk => ?_) rfl
        simp only [Machine.step, Machine.setW, Machine.getW, (hk.has ha).val, low_ofWord,
          eval_fieldMove _ _ hs hfield]
      refine wp_bind (h₁.scratchConstant_spec mask) ?_
      rintro temp e₂ m₂ ⟨h₂, hk₂, hheld, htemp, -⟩
      refine wp_bind (h₂.writeSlot_spec (IntSlot.gpr d) false) ?_
      rintro ra e₃ m₃ ⟨h₃, hk₃, hd, -⟩
      have hstep : m₃.step (.andRor32 ra temp rs (rightRotation sh)) = .next (m₃.setX ra
          (ofWord ((c.gpr a).rotateLeft sh &&& mask))) := by
        simp only [Machine.step, Machine.setW, Machine.getW, (hk₃.has htemp).val,
          (hk₃.has (hk₂.has ha)).val, low_ofWord, rightRotation, rotateRight_rightRotation _ hs,
          BitVec.and_comm]
      exact wp_ends (h₃.emitReleaseRecord hd hstep hheld) rfl

theorem Sim.rlwinm_spec (h : Sim s ⟨⟨5, .empty, .empty, none⟩, carry, f⟩ c e m) :
    wp rlwinm (fun _ => Ends s f ((c.setGpr s.word.ra ((c.gpr s.word.rd).rotateLeft s.word.sh &&&
        rotationMask s.word.mb s.word.me)).recorded s.word.rc
      ((c.gpr s.word.rd).rotateLeft s.word.sh &&& rotationMask s.word.mb s.word.me))) e m := by
  unfold rlwinm
  refine wp_look rfl ?_
  rw [h.fixed.word]
  exact h.rotateMask_spec (sh_lt _) _

theorem Sim.rotateByReg_spec (h : Sim s ⟨⟨5, .empty, .empty, none⟩, carry, f⟩ c e m)
    (mask : BitVec 32) : wp (rotateByReg d a b mask) (fun _ => Ends s f
      ((c.setGpr d ((c.gpr a).rotateLeft ((c.gpr b).toNat % 32) &&& mask)).recorded s.word.rc
        ((c.gpr a).rotateLeft ((c.gpr b).toNat % 32) &&& mask))) e m := by
  unfold rotateByReg
  refine wp_bind (h.readGpr_spec a) ?_
  rintro rs e₁ m₁ ⟨h₁, -, ha, -⟩
  refine wp_bind (h₁.readGpr_spec b) ?_
  rintro rb e₂ m₂ ⟨h₂, hk₂, hb, -⟩
  refine wp_bind h₂.scratch_spec ?_
  rintro temp e₃ m₃ ⟨h₃, hk₃, hheld, hown, hne⟩
  have hloose := fun {e : Emitter} {m : Machine}
    (h : Sim s ⟨⟨2, RegSet.empty.insert temp, .empty, none⟩, carry, f⟩ c e m) =>
      h.loose_held (RegSet.contains_insert_self .empty temp)
  have hs₃ : m₃.step (.unary .neg32 temp rb) = .next (m₃.setX temp (ofWord (-c.gpr b))) := by
    simp only [Machine.step, UnaryOp.eval, (hk₃.has hb).val, low_ofWord]
  refine wp_bind (h₃.emit_spec hown (hloose h₃) hs₃) ?_
  rintro - e₄ m₄ ⟨h₄, hk₄, hv₄⟩
  have ha₄ := hk₄.has (hne rs (hk₂.has ha).owns) (hk₃.has (hk₂.has ha))
  have hs₄ : m₄.step (.binary .rorv32 temp rs temp) = .next (m₄.setX temp
      (ofWord ((c.gpr a).rotateLeft ((c.gpr b).toNat % 32)))) := by
    simp only [Machine.step, BinaryOp.eval, ha₄.val, hv₄.val, low_ofWord, rotateRight_neg]
  refine wp_bind (h₄.emit_spec hv₄.owns (hloose h₄) hs₄) ?_
  rintro - e₅ m₅ ⟨h₅, -, hv₅⟩
  refine wp_bind (h₅.writeSlot_spec (IntSlot.gpr d) false) ?_
  rintro ra e₆ m₆ ⟨h₆, hk₆, hd, -⟩
  refine wp_ends (h₆.emitReleaseRecord hd ?_ hheld) rfl
  split
  · next hmask =>
    simp only [Machine.step, UnaryOp.eval, (hk₆.has hv₅).val, low_ofWord, hmask, BitVec.and_allOnes]
  · simp only [Machine.step, Machine.setW, Machine.getW, ImmOp.eval, (hk₆.has hv₅).val, low_ofWord]

theorem Sim.rlwnm_spec (h : Sim s ⟨⟨5, .empty, .empty, none⟩, carry, f⟩ c e m) :
    wp rlwnm (fun _ => Ends s f ((c.setGpr s.word.ra
        ((c.gpr s.word.rd).rotateLeft ((c.gpr s.word.rb).toNat % 32) &&&
          rotationMask s.word.mb s.word.me)).recorded s.word.rc
      ((c.gpr s.word.rd).rotateLeft ((c.gpr s.word.rb).toNat % 32) &&&
        rotationMask s.word.mb s.word.me))) e m := by
  unfold rlwnm
  refine wp_look rfl ?_
  rw [h.fixed.word]
  refine wp_look rfl ?_
  cases hb : e.gprConstant? s.word.rb with
  | some b =>
    rw [h.gprConstant_eq hb]
    exact h.rotateMask_spec (Nat.mod_lt _ (by decide)) _
  | none => exact h.rotateByReg_spec _

/-! ## Insertion -/

theorem Sim.insertConstant_spec (h : Sim s ⟨⟨k + 2, .empty, .empty, none⟩, carry, f⟩ c e m)
    (mask : BitVec 32) : wp (insertConstant d mask (w &&& mask)) (fun _ => Ends s f
      ((c.setGpr d (insertUnderMask mask w (c.gpr d))).recorded s.word.rc
        (insertUnderMask mask w (c.gpr d)))) e m := by
  unfold insertConstant
  refine wp_bind (h.writeSlot_spec (IntSlot.gpr d) true) ?_
  rintro ra e₁ m₁ ⟨h₁, -, hd, hkeep⟩
  have hold : m₁.getX ra = ofWord (c.gpr d) := by
    rw [hkeep rfl, Contents.slot_gpr]
  have hs₁ : m₁.step (.imm32 .and ra ra (~~~mask)) =
      .next (m₁.setX ra (ofWord (c.gpr d &&& ~~~mask))) := by
    simp only [Machine.step, Machine.setW, Machine.getW, ImmOp.eval, hold, low_ofWord]
  refine wp_bind (h₁.emit_spec hd.owns (h₁.loose_bound hd rfl) hs₁) ?_
  rintro - e₂ m₂ ⟨h₂, hk₂, hv₂⟩
  have hd₂ := hk₂.bound _ _ hd
  split
  · have hs₂ : m₂.step (.imm32 .orr ra ra (w &&& mask)) =
        .next (m₂.setX ra (ofWord (insertUnderMask mask w (c.gpr d)))) := by
      simp only [Machine.step, Machine.setW, Machine.getW, ImmOp.eval, hv₂.val, low_ofWord,
        insertUnderMask, BitVec.or_comm]
    exact wp_ends (h₂.emitRecord hd₂ hs₂) rfl
  · next hz =>
    have hval : insertUnderMask mask w (c.gpr d) = c.gpr d &&& ~~~mask := by
      have hzero : w &&& mask = 0 := by simpa using hz
      rw [insertUnderMask, hzero, BitVec.ofNat_eq_ofNat, BitVec.zero_or]
    rw [hval]
    exact wp_ends ((h₂.closeGpr hd₂ hv₂.val).record_spec hv₂) rfl

/-- A destination that keeps its value is written by one instruction and recorded. -/
theorem Sim.updateRecord (h : Sim s ⟨⟨k + 2, .empty, .empty, none⟩, carry, f⟩ c e m)
    {inst : HostReg → Inst} (hs : ∀ rd e' m', Keeps e m e' m' → m'.getX rd = ofWord (c.gpr d) →
      m'.step (inst rd) = .next (m'.setX rd (ofWord w))) :
    wp (do let rd ← writeGpr d true; emit (inst rd); record rd)
      (fun _ => Ends s f ((c.setGpr d w).recorded s.word.rc w)) e m := by
  refine wp_bind (h.writeSlot_spec (IntSlot.gpr d) true) ?_
  rintro rd e₁ m₁ ⟨h₁, hk₁, hd, hkeep⟩
  refine wp_ends (h₁.emitRecord hd (hs rd e₁ m₁ hk₁ ?_)) rfl
  rw [hkeep rfl, Contents.slot_gpr]

theorem Sim.insertField_spec (h : Sim s ⟨⟨3, .empty, .empty, none⟩, carry, f⟩ c e m)
    (hr : e.Has m rs (ofWord w)) (hs : sh < 32) (hle : mb ≤ me) (hme : me < 32) :
    wp (insertField d rs sh mb me) (fun _ => Ends s f
      ((c.setGpr d (insertUnderMask (rotationMask mb me) (w.rotateLeft sh) (c.gpr d))).recorded
        s.word.rc (insertUnderMask (rotationMask mb me) (w.rotateLeft sh) (c.gpr d)))) e m := by
  have hvalue := insertField_eq w (c.gpr d) hs hle hme
  unfold insertField
  dsimp only
  generalize hn : (32 - sh + (31 - me)) % 32 = n at hvalue
  split
  · next hz =>
    rw [hz, rotateRight_zero] at hvalue
    simp only [pure_bind, releaseHeld]
    refine h.updateRecord fun ra e₁ m₁ hk₁ hold => ?_
    simp only [Machine.step, Machine.setW, Machine.getW, Option.getD_none, hold, (hk₁.has hr).val,
      low_ofWord, hvalue]
  · refine wp_bind h.scratch_spec ?_
    rintro temp e₁ m₁ ⟨h₁, hk₁, hheld, hown, -⟩
    have hs₁ :
        m₁.step (.shift .ror32 temp rs n) = .next (m₁.setX temp (ofWord (w.rotateRight n))) := by
      simp only [Machine.step, ShiftOp.eval, (hk₁.has hr).val, low_ofWord,
        BitVec.rotateRight_mod_eq_rotateRight]
    refine wp_bind (h₁.emit_spec hown (h₁.loose_held (RegSet.contains_insert_self _ _)) hs₁) ?_
    rintro - e₂ m₂ ⟨h₂, -, hv⟩
    rw [pure_bind]
    refine wp_bind (h₂.writeSlot_spec (IntSlot.gpr d) true) ?_
    rintro ra e₃ m₃ ⟨h₃, hk₃, hd, hkeep⟩
    have hold : m₃.getX ra = ofWord (c.gpr d) := by rw [hkeep rfl, Contents.slot_gpr]
    refine wp_ends (h₃.emitReleaseRecord hd ?_ hheld) rfl
    simp only [Machine.step, Machine.setW, Machine.getW, Option.getD_some, hold, (hk₃.has hv).val,
      low_ofWord, hvalue]

theorem Sim.insertWrapping_spec (h : Sim s ⟨⟨4, .empty, .empty, none⟩, carry, f⟩ c e m)
    (hr : e.Has m rs (ofWord w)) (hs : sh < 32) (mask : BitVec 32) :
    wp (insertWrapping d rs sh mask) (fun _ => Ends s f
      ((c.setGpr d (insertUnderMask mask (w.rotateLeft sh) (c.gpr d))).recorded s.word.rc
        (insertUnderMask mask (w.rotateLeft sh) (c.gpr d)))) e m := by
  unfold insertWrapping
  refine wp_bind (h.writeSlot_spec (IntSlot.gpr d) true) ?_
  rintro ra e₁ m₁ ⟨h₁, hk₁, hd, hkeep⟩
  have hold : e₁.Has m₁ ra (ofWord (c.gpr d)) := ⟨hd.owns, by rw [hkeep rfl, Contents.slot_gpr]⟩
  refine wp_bind h₁.scratch_spec ?_
  rintro temp e₂ m₂ ⟨h₂, hk₂, hheld₂, hown₂, hne₂⟩
  refine wp_bind h₂.scratch_spec ?_
  rintro kept e₃ m₃ ⟨h₃, hk₃, hheld₃, -, hne₃⟩
  -- the operands and the scratch registers are all different, except for the two operands
  have htk : temp ≠ kept := hne₃ temp hown₂
  have hheld : ((RegSet.empty.insert temp).insert kept).contains temp = true := by
    rw [RegSet.contains_insert_of_ne htk, RegSet.contains_insert_self]
  have hrs := hk₁.has hr
  have hst : rs ≠ temp := hne₂ rs hrs.owns
  have hsk : rs ≠ kept := hne₃ rs (hk₂.has hrs).owns
  have hat : ra ≠ temp := hne₂ ra hold.owns
  refine wp_bind (h₃.emitHeld hheld rfl) ?_
  rintro - e₄ m₄ ⟨h₄, hk₄, htemp⟩
  have hold₄ := hk₄.has hat (hk₃.has (hk₂.has hold))
  have hs₄ : m₄.step (.binary .bic32 kept ra temp) =
      .next (m₄.setX kept (ofWord (c.gpr d &&& ~~~mask))) := by
    simp only [Machine.step, BinaryOp.eval, hold₄.val, htemp.val, low_ofWord]
  refine wp_bind (h₄.emitHeld (RegSet.contains_insert_self _ _) hs₄) ?_
  rintro - e₅ m₅ ⟨h₅, hk₅, hkept⟩
  have hrs₅ := hk₅.has hsk (hk₄.has hst (hk₃.has (hk₂.has hrs)))
  have hs₅ : m₅.step (.andRor32 temp temp rs (rightRotation sh)) =
      .next (m₅.setX temp (ofWord (w.rotateLeft sh &&& mask))) := by
    simp only [Machine.step, Machine.setW, Machine.getW, (hk₅.has htk htemp).val, hrs₅.val,
      low_ofWord, rightRotation, rotateRight_rightRotation _ hs, BitVec.and_comm]
  refine wp_bind (h₅.emitHeld hheld hs₅) ?_
  rintro - e₆ m₆ ⟨h₆, hk₆, htemp₆⟩
  have hd₆ := hk₆.bound _ _ (hk₅.bound _ _ (hk₄.bound _ _ (hk₃.bound _ _ (hk₂.bound _ _ hd))))
  have hs₆ : m₆.step (.binary .orr32 ra temp kept) =
      .next (m₆.setX ra (ofWord (insertUnderMask mask (w.rotateLeft sh) (c.gpr d)))) := by
    simp only [Machine.step, BinaryOp.eval, htemp₆.val, (hk₆.has htk.symm hkept).val, low_ofWord,
      insertUnderMask]
  refine wp_bind (h₆.emitGpr hd₆ hs₆) ?_
  rintro - e₇ m₇ ⟨h₇, -, hv₇⟩
  refine wp_bind (h₇.release_spec hheld₃) ?_
  rintro - e₈ m₈ ⟨h₈, hk₈, -⟩
  refine wp_bind (h₈.release_spec hheld₂) ?_
  rintro - e₉ m₉ ⟨h₉, hk₉, -⟩
  exact wp_ends (h₉.record_spec (hk₉.has hat (hk₈.has (hne₃ ra (hk₂.has hold).owns) hv₇))) rfl

theorem Sim.insertRotated_spec (h : Sim s ⟨⟨5, .empty, .empty, none⟩, carry, f⟩ c e m)
    (hs : sh < 32) (hmb : mb < 32) (hme : me < 32) : wp (insertRotated d a sh mb me) (fun _ =>
      Ends s f ((c.setGpr d (insertUnderMask (rotationMask mb me) ((c.gpr a).rotateLeft sh)
        (c.gpr d))).recorded s.word.rc (insertUnderMask (rotationMask mb me)
          ((c.gpr a).rotateLeft sh) (c.gpr d)))) e m := by
  unfold insertRotated
  refine wp_bind (h.readGpr_spec a) ?_
  rintro rs e₁ m₁ ⟨h₁, -, ha, -⟩
  split
  · next hcond =>
    obtain ⟨rfl, hsum⟩ := hcond
    refine h₁.updateRecord fun ra e₂ m₂ hk₂ hold => ?_
    simp only [Machine.step, Machine.setW, Machine.getW, hold, (hk₂.has ha).val, low_ofWord,
      rightRotation, insertLow_eq _ _ hs hmb hsum]
  split
  · next hle => exact (h₁.weaken (by omega)).insertField_spec ha hs hle hme
  · exact h₁.insertWrapping_spec ha hs _

theorem Sim.rlwimi_spec (h : Sim s ⟨⟨5, .empty, .empty, none⟩, carry, f⟩ c e m) :
    wp rlwimi (fun _ => Ends s f ((c.setGpr s.word.ra
        (insertUnderMask (rotationMask s.word.mb s.word.me)
          ((c.gpr s.word.rd).rotateLeft s.word.sh) (c.gpr s.word.ra))).recorded s.word.rc
      (insertUnderMask (rotationMask s.word.mb s.word.me)
        ((c.gpr s.word.rd).rotateLeft s.word.sh) (c.gpr s.word.ra)))) e m := by
  unfold rlwimi
  refine wp_look rfl ?_
  rw [h.fixed.word]
  dsimp only
  refine wp_look rfl (wp_look rfl ?_)
  split
  · next ha hb =>
    rw [h.gprConstant_eq ha, h.gprConstant_eq hb]
    exact wp_ends (h.fold_spec _ _) rfl
  · split
    · next hsame =>
      rw [hsame.1, hsame.2, rotateLeft_zero, insertUnderMask_self, Contents.setGpr_self]
      refine wp_bind (h.readGpr_spec s.word.rd) ?_
      rintro ra e₁ m₁ ⟨h₁, -, hra, -⟩
      exact wp_ends (h₁.record_spec hra) rfl
    split
    · next hmask =>
      have hrotate : wp (rotateMask s.word.ra s.word.rd s.word.sh (BitVec.allOnes 32)) _ e m :=
        h.rotateMask_spec (sh_lt s.word) _
      rw [BitVec.and_allOnes] at hrotate
      rw [hmask, insertUnderMask_allOnes]
      exact hrotate
    split
    · next hrs =>
      rw [h.gprConstant_eq hrs]
      exact h.insertConstant_spec _
    · exact h.insertRotated_spec (sh_lt _) (mb_lt _) (me_lt _)

end Recompiler.Emit
