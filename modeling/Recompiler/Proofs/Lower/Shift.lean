import Recompiler.Proofs.FoldedValues
import Recompiler.Proofs.Operands

/-!
# The code of shifts
-/

namespace Recompiler

open Alloc Arm Block Lower PowerPC

/-! ## Words shifted right -/

theorem shiftAlgebraic_zero (s : BitVec 32) : shiftAlgebraic s 0 = (s, false) := by
  simp [shiftAlgebraic, Nat.mod_one]

/-- The bits that are shifted out, moved to the top, have a common bit with the result exactly if a
negative operand lost a one. -/
theorem common_shiftLeft (s : BitVec 32) {n : Nat} (hn : n < 32) :
    decide ((s <<< (32 - n)) &&& s.sshiftRight n ≠ 0) = (shiftAlgebraic s n).2 := by
  rw [Bool.eq_iff_iff, decide_eq_true_eq, ne_zero_iff_getLsbD, shiftAlgebraic_snd]
  constructor
  · rintro ⟨i, hi⟩
    rw [BitVec.getLsbD_and, BitVec.getLsbD_shiftLeft, BitVec.getLsbD_sshiftRight] at hi
    simp only [Bool.and_eq_true, decide_eq_true_eq, Bool.not_eq_true'] at hi
    obtain ⟨⟨⟨h32, hge⟩, hs⟩, -, hr⟩ := hi
    have hge' : 32 - n ≤ i := by simpa using hge
    rw [if_neg (by omega)] at hr
    exact ⟨hr, i - (32 - n), by omega, hs⟩
  · rintro ⟨hm, j, hj, hs⟩
    refine ⟨j + (32 - n), ?_⟩
    have h₁ : j + (32 - n) < 32 := by omega
    have h₂ : ¬n + (j + (32 - n)) < 32 := by omega
    rw [BitVec.getLsbD_and, BitVec.getLsbD_shiftLeft, BitVec.getLsbD_sshiftRight, if_neg h₂]
    simp [h₁, hs, hm]

section Doubled

variable (s : BitVec 32) {n : Nat}

/-- A word in the high half of a register, shifted right by less than 64. -/
theorem getLsbD_doubled (i : Nat) : (((ofWord s) <<< 32).sshiftRight n).getLsbD i =
    (decide (i < 64) && (decide (32 ≤ n + i) &&
      if n + i < 64 then s.getLsbD (n + i - 32) else s.msb)) := by
  have hbit : ∀ j, ((ofWord s) <<< 32).getLsbD j =
      (decide (j < 64) && (decide (32 ≤ j) && s.getLsbD (j - 32))) := by
    intro j
    rw [BitVec.getLsbD_shiftLeft, ofWord, BitVec.getLsbD_setWidth]
    by_cases h32 : 32 ≤ j
    · by_cases h64 : j < 64
      · have : j - 32 < 64 := by omega
        simp [h32, h64, this]
      · simp [h64]
    · have : j < 32 := by omega
      simp [h32, this]
  have hmsb : ((ofWord s) <<< 32).msb = s.msb := by
    rw [BitVec.msb_eq_getLsbD_last, hbit, msb_eq]
    rfl
  rw [BitVec.getLsbD_sshiftRight, hmsb, hbit]
  by_cases hi : i < 64
  · by_cases hn : n + i < 64
    · have : ¬64 ≤ i := by omega
      simp [hi, hn, this]
    · have : ¬64 ≤ i := by omega
      have h32 : 32 ≤ n + i := by omega
      simp [hi, hn, this, h32]
  · have : 64 ≤ i := by omega
    simp [hi, this]

/-- The high half is the shifted word. -/
theorem doubled_high : (((ofWord s) <<< 32).sshiftRight n) >>> 32 = ofWord (s.sshiftRight n) := by
  apply BitVec.eq_of_getLsbD_eq
  intro i hi
  rw [BitVec.getLsbD_ushiftRight, getLsbD_doubled, ofWord, BitVec.getLsbD_setWidth,
    BitVec.getLsbD_sshiftRight]
  by_cases h32 : i < 32
  · have h₁ : 32 + i < 64 := by omega
    have h₂ : 32 ≤ n + (32 + i) := by omega
    have h₃ : ¬32 ≤ i := by omega
    by_cases hn : n + i < 32
    · have h₄ : n + (32 + i) < 64 := by omega
      have h₅ : n + (32 + i) - 32 = n + i := by omega
      simp [hi, h₁, h₂, h₃, hn, h₄, h₅]
    · have h₄ : ¬n + (32 + i) < 64 := by omega
      simp [hi, h₁, h₂, h₃, hn, h₄]
  · have h₁ : ¬32 + i < 64 := by omega
    have h₃ : 32 ≤ i := by omega
    simp [h₁, h₃]

/-- The low half has a common bit with the high half exactly if a negative operand lost a one. -/
theorem common_doubled (hn : n < 64) :
    decide (s.sshiftRight n &&& low (((ofWord s) <<< 32).sshiftRight n) ≠ 0) =
      (shiftAlgebraic s n).2 := by
  rw [Bool.eq_iff_iff, decide_eq_true_eq, ne_zero_iff_getLsbD, shiftAlgebraic_snd]
  have hbit : ∀ i, (s.sshiftRight n &&& low (((ofWord s) <<< 32).sshiftRight n)).getLsbD i = true ↔
      i < 32 ∧ 32 ≤ n + i ∧ s.msb = true ∧ (n + i < 64 → s.getLsbD (n + i - 32) = true) := by
    intro i
    rw [BitVec.getLsbD_and, low, BitVec.getLsbD_setWidth, getLsbD_doubled,
      BitVec.getLsbD_sshiftRight]
    by_cases h32 : i < 32
    · have h64 : i < 64 := by omega
      have hle : ¬32 ≤ i := by omega
      by_cases hlow : n + i < 32
      · have hnot : ¬32 ≤ n + i := by omega
        simp [h32, h64, hlow, hnot]
      · have hge : 32 ≤ n + i := by omega
        by_cases hmid : n + i < 64
        · simp [h32, h64, hle, hlow, hge, hmid]
        · simp [h32, h64, hle, hlow, hge, hmid]
    · have hle : 32 ≤ i := by omega
      simp [h32, hle]
  constructor
  · rintro ⟨i, hi⟩
    obtain ⟨h32, hge, hm, hs⟩ := (hbit i).1 hi
    refine ⟨hm, ?_⟩
    by_cases hmid : n + i < 64
    · exact ⟨n + i - 32, by omega, hs hmid⟩
    · exact ⟨31, by omega, by rw [← msb_eq, hm]⟩
  · rintro ⟨hm, j, hj, hs⟩
    by_cases hn32 : n ≤ 32
    · refine ⟨32 - n + j, (hbit _).2 ⟨?_, by omega, hm, ?_⟩⟩
      · have : j < 32 := by omega
        omega
      · intro _
        have : n + (32 - n + j) - 32 = j := by omega
        rw [this, hs]
    · refine ⟨31, (hbit _).2 ⟨by omega, by omega, hm, ?_⟩⟩
      omega

end Doubled

namespace Emit

theorem amount_lt_of_bit_five {b : BitVec 32} (h : b.getLsbD 5 = false) :
    b.toNat % 64 = b.toNat % 32 := by
  have hbit : b.toNat.testBit 5 = false := by rw [BitVec.testBit_toNat, h]
  rw [Nat.testBit_eq_decide_div_mod_eq] at hbit
  have := of_decide_eq_false hbit
  omega

theorem low_ofWord_shiftLeft (w : BitVec 32) (n : Nat) : low (ofWord w <<< n) = w <<< n := by
  apply BitVec.eq_of_getLsbD_eq
  intro i hi
  rw [low, BitVec.getLsbD_setWidth, BitVec.getLsbD_shiftLeft, BitVec.getLsbD_shiftLeft, ofWord,
    BitVec.getLsbD_setWidth]
  have h64 : i < 64 := by omega
  have hsub : i - n < 64 := by omega
  simp [hi, h64, hsub]

theorem ofWord_ushiftRight (w : BitVec 32) (n : Nat) : ofWord w >>> n = ofWord (w >>> n) := by
  apply BitVec.eq_of_getLsbD_eq
  intro i hi
  rw [ofWord, ofWord, BitVec.getLsbD_ushiftRight, BitVec.getLsbD_setWidth, BitVec.getLsbD_setWidth,
    BitVec.getLsbD_ushiftRight]
  by_cases hn : n + i < 64
  · simp [hi, hn]
  · simp [hn, BitVec.getLsbD_of_ge w (n + i) (by omega)]

theorem toNat_ofWord (w : BitVec 32) : (ofWord w).toNat = w.toNat := by
  rw [ofWord, BitVec.toNat_setWidth, Nat.mod_eq_of_lt]
  have := w.isLt
  omega

/-! ## Logical shifts -/

variable {s : Setting} {c : Contents} {e : Emitter} {m : Machine} {k : Nat} {held locked : RegSet}
  {carry : Carry} {f : FloatStage} {d a b : GuestReg} {n : Nat} {temp : HostReg}

theorem Sim.shiftBy_spec (h : Sim s ⟨⟨k + 3, .empty, .empty, none⟩, carry, f⟩ c e m)
    (left : Bool) (hn : n < 32) : wp (shiftBy left d a n) (fun _ => Ends s f
      ((c.setGpr d (if left then c.gpr a <<< n else c.gpr a >>> n)).recorded s.word.rc
        (if left then c.gpr a <<< n else c.gpr a >>> n))) e m := by
  refine h.readWrite ?_
  intro ra rd e₁ m₁ h₁ _ ha hd
  refine wp_ends (h₁.emitRecord hd ?_) rfl
  cases left <;>
    simp [Machine.step, ShiftOp.eval, ha.val, Nat.mod_eq_of_lt hn]

theorem Sim.shiftByReg_spec (h : Sim s ⟨⟨k + 4, .empty, .empty, none⟩, carry, f⟩ c e m)
    (left : Bool) : wp (shiftByReg left d a b) (fun _ => Ends s f
      ((c.setGpr d (shiftLogical left (c.gpr a) (c.gpr b))).recorded s.word.rc
        (shiftLogical left (c.gpr a) (c.gpr b)))) e m := by
  refine h.readReadWrite ?_
  intro ra rb rd e₁ m₁ h₁ ha hb hd
  cases left with
  | true =>
    -- the bits above the word are cleared by the second instruction
    have hfirst : m₁.step (.binary .lslv64 rd ra rb) =
        .next (m₁.setX rd (ofWord (c.gpr a) <<< ((c.gpr b).toNat % 64))) := by
      simp only [Machine.step, BinaryOp.eval, ha.val, hb.val, toNat_ofWord]
    have hclear : wp (emitAll [.binary .lslv64 rd ra rb, .unary .mov32 rd rd]) (fun _ e' m' =>
        Sim s ⟨⟨k + 1, .empty, .empty, none⟩, carry, f⟩
          (c.setGpr d (shiftLogical true (c.gpr a) (c.gpr b))) e' m' ∧
        e'.Has m' rd (ofWord (shiftLogical true (c.gpr a) (c.gpr b)))) e₁ m₁ := by
      refine wp_emitAll_cons (wp_bind (h₁.emit_spec hd.owns (h₁.loose_bound hd rfl) hfirst) ?_)
      rintro - e₂ m₂ ⟨h₂, hk₂, hv⟩
      have hsecond : m₂.step (.unary .mov32 rd rd) =
          .next (m₂.setX rd (ofWord (shiftLogical true (c.gpr a) (c.gpr b)))) := by
        simp only [Machine.step, UnaryOp.eval, hv.val, low_ofWord_shiftLeft, shiftLogical, if_true]
      refine wp_emitAll_cons (wp_bind (h₂.emitGpr (hk₂.bound _ _ hd) hsecond) ?_)
      rintro - e₃ m₃ ⟨h₃, -, hv₃⟩
      exact wp_emitAll_nil ⟨h₃, hv₃⟩
    refine wp_bind hclear ?_
    rintro - e₂ m₂ ⟨h₂, hv⟩
    exact wp_ends (h₂.record_spec hv) rfl
  | false =>
    refine wp_ends (h₁.emitRecord hd ?_) rfl
    simp only [Machine.step, BinaryOp.eval, ha.val, hb.val, toNat_ofWord, ofWord_ushiftRight,
      shiftLogical, Bool.false_eq_true, if_false]

theorem Sim.shift_spec (h : Sim s ⟨⟨5, .empty, .empty, none⟩, carry, f⟩ c e m) (left : Bool) :
    wp (shift left) (fun _ => Ends s f
      ((c.setGpr s.word.ra (shiftLogical left (c.gpr s.word.rd) (c.gpr s.word.rb))).recorded
        s.word.rc (shiftLogical left (c.gpr s.word.rd) (c.gpr s.word.rb)))) e m := by
  unfold shift
  refine wp_look rfl ?_
  rw [h.fixed.word]
  refine wp_look rfl (wp_look rfl ?_)
  cases hb : e.gprConstant? s.word.rb with
  | none =>
    cases e.gprConstant? s.word.rd with
    | none => exact h.shiftByReg_spec left
    | some v => exact h.shiftByReg_spec left
  | some b =>
    have hb' := h.gprConstant_eq hb
    cases ha : e.gprConstant? s.word.rd with
    | some v =>
      rw [h.gprConstant_eq ha, hb', ← shiftValue_eq]
      exact wp_ends (h.fold_spec _ _) rfl
    | none =>
      dsimp only
      rw [hb']
      split
      · next hfive =>
        rw [shiftLogical_out hfive]
        exact wp_ends (h.fold_spec _ _) rfl
      · next hfive =>
        have hamount := amount_lt_of_bit_five (eq_false_of_ne_true hfive)
        split
        · next hz =>
          have hmove : shiftLogical left (c.gpr s.word.rd) b = c.gpr s.word.rd := by
            unfold shiftLogical
            rw [hamount, hz]
            cases left <;> simp
          rw [hmove]
          exact wp_ends (h.moveGpr_spec _ _) rfl
        · have hshift : shiftLogical left (c.gpr s.word.rd) b =
              if left then c.gpr s.word.rd <<< (b.toNat % 32)
              else c.gpr s.word.rd >>> (b.toNat % 32) := by
            unfold shiftLogical
            rw [hamount]
          rw [hshift]
          exact h.shiftBy_spec left (Nat.mod_lt _ (by decide))

/-! ## Arithmetic shifts -/

/-- The carry is whether two words have a common bit. -/
theorem Sim.carryFromCommonBits_spec
    (h : Sim s ⟨⟨k, held.insert temp, locked, none⟩, carry, f⟩ c e m)
    (hheld : held.contains temp = false) {ra rb : HostReg} {va vb : BitVec 32}
    (ha : low (m.getX ra) = va) (hb : low (m.getX rb) = vb) :
    wp (carryFromCommonBits temp ra rb) (fun _ e' m' => ∃ carry',
      Sim s ⟨⟨k + 1, held, locked, none⟩, carry', f⟩
        (c.setCa (s.carryOut (decide (va &&& vb ≠ 0)))) e' m' ∧ KeepsBut temp e m e' m') e m := by
  have htest : m.step (.test .tst ra rb) = .next { m with flags := .ofLogical (va &&& vb) } := by
    simp only [Machine.step, TestOp.eval, Machine.getW, ha, hb]
  refine wp_bind (h.emitTest htest) ?_
  rintro - e₁ m₁ ⟨h₁, hk₁, hflags⟩
  have hset : m₁.step (.cset32 temp .ne) =
      .next (m₁.setX temp ((BitVec.ofBool (decide (va &&& vb ≠ 0))).setWidth 64)) := by
    have hz : m₁.flags.z = (va &&& vb == 0) := by
      rw [hflags]
      rfl
    have hne : (!(va &&& vb == 0)) = decide (va &&& vb ≠ 0) := by
      cases hc : va &&& vb == 0 with
      | true => exact (decide_eq_false (not_not_intro (eq_of_beq hc))).symm
      | false => exact (decide_eq_true (ne_of_beq_false hc)).symm
    simp only [Machine.step, Cond.holds, hz, hne]
  refine wp_bind (h₁.emitHeld (RegSet.contains_insert_self _ _) hset) ?_
  rintro - e₂ m₂ ⟨h₂, hk₂, hv⟩
  refine wp_bind (h₂.carryFromReg_spec hv.val) ?_
  rintro - e₃ m₃ ⟨carry', h₃, hk₃⟩
  refine wp_mono (h₃.release_spec hheld) ?_
  rintro - e₄ m₄ ⟨h₄, hk₄, -⟩
  refine ⟨carry', h₄, ?_⟩
  exact
    { bound := fun slot r hb => hk₄.bound _ _ (hk₃.bound _ _ (hk₂.bound _ _ (hk₁.bound _ _ hb)))
      has := fun hr hx => hk₄.has hr (hk₃.has (hk₂.has hr (hk₁.has hx)))
      boundV := fun slot r hb =>
        hk₄.boundV _ _ (hk₃.boundV _ _ (hk₂.boundV _ _ (hk₁.boundV _ _ hb)))
      hasV := fun hx => hk₄.hasV (hk₃.hasV (hk₂.hasV (hk₁.hasV hx))) }

/-- The contents after an arithmetic shift. -/
def Contents.shifted (c : Contents) (s : Setting) (d : GuestReg) (result : BitVec 32 × Bool) :
    Contents :=
  ((c.setGpr d result.1).recorded s.word.rc result.1).setCa (s.carryOut result.2)

theorem Contents.shifted_eq (c : Contents) (s : Setting) (d : GuestReg)
    (result : BitVec 32 × Bool) :
    ((c.setGpr d result.1).setCa (s.carryOut result.2)).recorded s.word.rc result.1 =
      c.shifted s d result := by
  rw [shifted, recorded_setCa]

theorem Sim.foldShift_spec (h : Sim s ⟨⟨k, .empty, .empty, none⟩, carry, f⟩ c e m)
    (d : GuestReg) (result : BitVec 32 × Bool) :
    wp (do fold d result.1; carryConstant result.2) (fun _ => Ends s f (c.shifted s d result))
      e m := by
  refine wp_bind (h.fold_spec d result.1) ?_
  intro _ e₁ m₁ h₁
  exact wp_ends_carry (h₁.carryConstant_spec result.2) rfl

/-- The destination is bound and written, and nobody looks at the carry. -/
theorem Sim.shiftDropping (h : Sim s ⟨⟨k + 2, .empty, .empty, none⟩, carry, f⟩ c e m)
    {inst : HostReg → Inst} {result : BitVec 32 × Bool} (hca : s.hints.wantsCa = false)
    (hs : ∀ rd e' m', Keeps e m e' m' →
      m'.step (inst rd) = .next (m'.setX rd (ofWord result.1))) :
    wp (do let rd ← writeGpr d false; emit (inst rd); dropCarry; record rd)
      (fun _ => Ends s f (c.shifted s d result)) e m := by
  refine wp_bind (h.writeSlot_spec (IntSlot.gpr d) false) ?_
  rintro rd e₁ m₁ ⟨h₁, hk₁, hd, -⟩
  refine wp_bind (h₁.emitGpr hd (hs rd e₁ m₁ hk₁)) ?_
  rintro - e₂ m₂ ⟨h₂, -, hv⟩
  refine wp_bind h₂.dropCarry_spec ?_
  rintro - e₃ m₃ ⟨h₃, hk₃, -⟩
  refine wp_ends (h₃.record_spec (hk₃.has hv)) ?_
  rw [← Contents.shifted_eq, Setting.carryOut, hca]
  rfl

/-- What is shifted out goes to a scratch register, and what stays to the destination. -/
theorem Sim.shiftApart (h : Sim s ⟨⟨k + 2, .empty, .empty, none⟩, carry, f⟩ c e m) {rs : HostReg}
    {v x : BitVec 64} {w : BitVec 32} (hrs : e.Has m rs x) {out stay : HostReg → Inst}
    (hout : ∀ temp (m' : Machine), m'.getX rs = x → m'.step (out temp) = .next (m'.setX temp v))
    (hstay : ∀ rd (m' : Machine), m'.getX rs = x →
      m'.step (stay rd) = .next (m'.setX rd (ofWord w)))
    {next : HostReg → HostReg → EmitM Unit} {Q : Unit → Emitter → Machine → Prop}
    (hnext : ∀ temp rd e' m',
      Sim s ⟨⟨k, RegSet.empty.insert temp, .empty, none⟩, carry, f⟩ (c.setGpr d w) e' m' →
      RegSet.empty.contains temp = false → temp ≠ rd → e'.Has m' temp v →
      e'.Has m' rd (ofWord w) → wp (next temp rd) Q e' m') :
    wp (do
      let temp ← scratch
      emit (out temp)
      let rd ← writeGpr d false
      emit (stay rd)
      next temp rd) Q e m := by
  refine wp_bind h.scratch_spec ?_
  rintro temp e₁ m₁ ⟨h₁, hk₁, hheld, -, hne⟩
  refine wp_bind (h₁.emitHeld (RegSet.contains_insert_self _ _) (hout temp m₁ (hk₁.has hrs).val)) ?_
  rintro - e₂ m₂ ⟨h₂, hk₂, htemp⟩
  have hrs₂ := hk₂.has (hne rs hrs.owns) (hk₁.has hrs)
  refine wp_bind (h₂.writeSlot_spec (IntSlot.gpr d) false) ?_
  rintro rd e₃ m₃ ⟨h₃, hk₃, hd, -⟩
  refine wp_bind (h₃.emitGpr hd (hstay rd m₃ (hk₃.has hrs₂).val)) ?_
  rintro - e₄ m₄ ⟨h₄, hk₄, hv⟩
  have htr : temp ≠ rd := (h₃.bound_ne_held hd (RegSet.contains_insert_self _ _)).symm
  exact hnext temp rd e₄ m₄ h₄ hheld htr (hk₄.has htr (hk₃.has htemp)) hv

theorem Sim.wantsCa_look {β : Type} (h : Sim s ⟨⟨k, held, locked, none⟩, carry, f⟩ c e m)
    {next : Bool → EmitM β} {Q : β → Emitter → Machine → Prop}
    (hnext : wp (next s.hints.wantsCa) Q e m) : wp (do let w ← wantsCa; next w) Q e m := by
  refine wp_look rfl ?_
  rw [h.fixed.hints]
  exact hnext

theorem Sim.shiftAlgebraicBy_spec (h : Sim s ⟨⟨5, .empty, .empty, none⟩, carry, f⟩ c e m)
    (hn : n < 32) : wp (shiftAlgebraicBy d a n)
      (fun _ => Ends s f (c.shifted s d (shiftAlgebraic (c.gpr a) n))) e m := by
  unfold shiftAlgebraicBy
  refine wp_look rfl ?_
  cases ha : e.gprConstant? a with
  | some v =>
    rw [h.gprConstant_eq ha, ← shiftAlgebraicValue_eq]
    exact h.foldShift_spec d (shiftAlgebraicValue v n)
  | none =>
    dsimp only
    split
    · next hz =>
      rw [hz, shiftAlgebraic_zero]
      refine wp_bind (h.moveGpr_spec d a) ?_
      intro _ e₁ m₁ h₁
      exact wp_ends_carry (h₁.carryConstant_spec false) rfl
    · next hz =>
      refine wp_bind (h.readGpr_spec a) ?_
      rintro rs e₁ m₁ ⟨h₁, -, ha, -⟩
      refine h₁.wantsCa_look ?_
      split
      · have hlt : 32 - n < 32 := by omega
        refine h₁.shiftApart (v := ofWord (c.gpr a <<< (32 - n)))
          (w := (shiftAlgebraic (c.gpr a) n).1) ha ?_ ?_ ?_
        · intro temp m₂ hrs
          simp only [Machine.step, ShiftOp.eval, hrs, low_ofWord, Nat.mod_eq_of_lt hlt]
        · intro rd m₂ hrs
          simp only [Machine.step, ShiftOp.eval, hrs, low_ofWord, Nat.mod_eq_of_lt hn,
            shiftAlgebraic]
        · intro temp rd e₂ m₂ h₂ hheld hne htemp hv
          refine wp_bind (h₂.carryFromCommonBits_spec hheld (by rw [htemp.val, low_ofWord])
            (by rw [hv.val, low_ofWord])) ?_
          rintro - e₃ m₃ ⟨carry', h₃, hk₃⟩
          refine wp_ends (h₃.record_spec (hk₃.has hne.symm hv)) ?_
          rw [← Contents.shifted_eq, ← common_shiftLeft (c.gpr a) hn]
          rfl
      · next hw =>
        refine h₁.shiftDropping (eq_false_of_ne_true hw) ?_
        intro rd e₂ m₂ hk₂
        simp only [Machine.step, ShiftOp.eval, (hk₂.has ha).val, low_ofWord, Nat.mod_eq_of_lt hn,
          shiftAlgebraic]

theorem ofWord_sign (w : BitVec 32) :
    ofWord (w >>> 31) = (BitVec.ofBool w.msb).setWidth 64 := by
  apply BitVec.eq_of_getLsbD_eq
  intro i hi
  rw [ofWord, BitVec.getLsbD_setWidth, BitVec.getLsbD_setWidth, BitVec.getLsbD_ushiftRight,
    BitVec.getLsbD_ofBool]
  by_cases hz : i = 0
  · simp [hz, msb_eq]
  · simp [hz, BitVec.getLsbD_of_ge w (31 + i) (by omega)]

theorem Sim.shiftAlgebraicOut_spec (h : Sim s ⟨⟨5, .empty, .empty, none⟩, carry, f⟩ c e m) :
    wp (shiftAlgebraicOut d a) (fun _ => Ends s f
      (c.shifted s d ((c.gpr a).sshiftRight 31, (c.gpr a).msb))) e m := by
  unfold shiftAlgebraicOut
  refine wp_bind (h.readGpr_spec a) ?_
  rintro rs e₁ m₁ ⟨h₁, -, ha, -⟩
  refine h₁.wantsCa_look ?_
  split
  · refine h₁.shiftApart (v := (BitVec.ofBool (c.gpr a).msb).setWidth 64)
      (w := (c.gpr a).sshiftRight 31) ha ?_ ?_ ?_
    · intro temp m₂ hrs
      rw [← ofWord_sign]
      simp [Machine.step, ShiftOp.eval, hrs]
    · intro rd m₂ hrs
      simp [Machine.step, ShiftOp.eval, hrs]
    · intro temp rd e₂ m₂ h₂ hheld hne htemp hv
      refine wp_bind (h₂.carryFromReg_spec htemp.val) ?_
      rintro - e₃ m₃ ⟨carry', h₃, hk₃⟩
      refine wp_bind (h₃.release_spec hheld) ?_
      rintro - e₄ m₄ ⟨h₄, hk₄, -⟩
      refine wp_ends (h₄.record_spec (hk₄.has hne.symm (hk₃.has hv))) ?_
      rw [← Contents.shifted_eq]
  · next hw =>
    refine h₁.shiftDropping (eq_false_of_ne_true hw) ?_
    intro rd e₂ m₂ hk₂
    simp [Machine.step, ShiftOp.eval, (hk₂.has ha).val]

theorem Sim.shiftAlgebraicByReg_spec (h : Sim s ⟨⟨5, .empty, .empty, none⟩, carry, f⟩ c e m) :
    wp (shiftAlgebraicByReg d a b) (fun _ => Ends s f
      (c.shifted s d (shiftAlgebraic (c.gpr a) ((c.gpr b).toNat % 64)))) e m := by
  unfold shiftAlgebraicByReg
  refine wp_bind (h.readGpr_spec a) ?_
  rintro rs e₁ m₁ ⟨h₁, -, ha₁, -⟩
  refine wp_bind (h₁.readGpr_spec b) ?_
  rintro rb e₂ m₂ ⟨h₂, hk₂, hb₂, -⟩
  have ha₂ := hk₂.has ha₁
  refine wp_bind h₂.scratch_spec ?_
  rintro temp e₃ m₃ ⟨h₃, hk₃, hheld, -, hne⟩
  have hs₃ : m₃.step (.shift .lsl64 temp rs 32) =
      .next (m₃.setX temp (ofWord (c.gpr a) <<< 32)) := by
    simp [Machine.step, ShiftOp.eval, (hk₃.has ha₂).val]
  refine wp_bind (h₃.emitHeld (RegSet.contains_insert_self _ _) hs₃) ?_
  rintro - e₄ m₄ ⟨h₄, hk₄, htemp₄⟩
  have hb₄ := hk₄.has (hne rb hb₂.owns) (hk₃.has hb₂)
  have hs₄ : m₄.step (.binary .asrv64 temp temp rb) = .next (m₄.setX temp
      ((ofWord (c.gpr a) <<< 32).sshiftRight ((c.gpr b).toNat % 64))) := by
    simp only [Machine.step, BinaryOp.eval, htemp₄.val, hb₄.val, toNat_ofWord]
  refine wp_bind (h₄.emitHeld (RegSet.contains_insert_self _ _) hs₄) ?_
  rintro - e₅ m₅ ⟨h₅, -, htemp₅⟩
  refine wp_bind (h₅.writeSlot_spec (IntSlot.gpr d) false) ?_
  rintro rd e₆ m₆ ⟨h₆, hk₆, hd, -⟩
  have hs₆ : m₆.step (.shift .lsr64 rd temp 32) = .next (m₆.setX rd
      (ofWord (shiftAlgebraic (c.gpr a) ((c.gpr b).toNat % 64)).1)) := by
    simp [Machine.step, ShiftOp.eval, (hk₆.has htemp₅).val, doubled_high, shiftAlgebraic]
  refine wp_bind (h₆.emitGpr hd hs₆) ?_
  rintro - e₇ m₇ ⟨h₇, hk₇, hv⟩
  have hne' : temp ≠ rd := (h₆.bound_ne_held hd (RegSet.contains_insert_self _ _)).symm
  have htemp₇ := hk₇.has hne' (hk₆.has htemp₅)
  refine h₇.wantsCa_look ?_
  split
  · have hcommon := common_doubled (c.gpr a) (Nat.mod_lt (c.gpr b).toNat (by decide : 0 < 64))
    refine wp_bind (h₇.carryFromCommonBits_spec hheld (by rw [hv.val, low_ofWord])
      (by rw [htemp₇.val])) ?_
    rintro - e₈ m₈ ⟨carry', h₈, hk₈⟩
    refine wp_ends (h₈.record_spec (hk₈.has hne'.symm hv)) ?_
    rw [← Contents.shifted_eq, ← hcommon]
    rfl
  · next hw =>
    refine wp_bind h₇.dropCarry_spec ?_
    rintro - e₈ m₈ ⟨h₈, hk₈, -⟩
    refine wp_bind (h₈.release_spec hheld) ?_
    rintro - e₉ m₉ ⟨h₉, hk₉, -⟩
    refine wp_ends (h₉.record_spec (hk₉.has hne'.symm (hk₈.has hv))) ?_
    rw [← Contents.shifted_eq, Setting.carryOut, eq_false_of_ne_true hw]
    rfl

theorem Sim.srawi_spec (h : Sim s ⟨⟨5, .empty, .empty, none⟩, carry, f⟩ c e m) :
    wp srawi (fun _ => Ends s f
      (c.shifted s s.word.ra (shiftAlgebraic (c.gpr s.word.rd) s.word.sh))) e m := by
  unfold srawi
  refine wp_look rfl ?_
  rw [h.fixed.word]
  exact h.shiftAlgebraicBy_spec (Nat.mod_lt _ (by decide))

theorem Sim.sraw_spec (h : Sim s ⟨⟨5, .empty, .empty, none⟩, carry, f⟩ c e m) :
    wp sraw (fun _ => Ends s f (c.shifted s s.word.ra
      (shiftAlgebraic (c.gpr s.word.rd) ((c.gpr s.word.rb).toNat % 64)))) e m := by
  unfold sraw
  refine wp_look rfl ?_
  rw [h.fixed.word]
  refine wp_look rfl (wp_look rfl ?_)
  cases hb : e.gprConstant? s.word.rb with
  | none =>
    cases e.gprConstant? s.word.rd with
    | none => exact h.shiftAlgebraicByReg_spec
    | some v => exact h.shiftAlgebraicByReg_spec
  | some b =>
    have hb' := h.gprConstant_eq hb
    cases ha : e.gprConstant? s.word.rd with
    | some v =>
      rw [h.gprConstant_eq ha, hb', ← toNat_and_amount, ← shiftAlgebraicValue_eq]
      exact h.foldShift_spec s.word.ra (shiftAlgebraicValue v (b &&& 0x3F).toNat)
    | none =>
      dsimp only
      rw [hb']
      split
      · next hfive =>
        rw [shiftAlgebraic_out _ (amount_ge_of_bit_five hfive)]
        exact h.shiftAlgebraicOut_spec
      · next hfive =>
        rw [amount_lt_of_bit_five (eq_false_of_ne_true hfive)]
        exact h.shiftAlgebraicBy_spec (Nat.mod_lt _ (by decide))

end Emit

end Recompiler
