import Recompiler.Lower.AddExtended
import Recompiler.Proofs.Lower.Add

/-!
# The code of additions with the carry bit

The carry that goes in may be unknown: then there is a sum, but nothing is said about it.
-/

namespace Recompiler.Emit

open Alloc Arm Block PowerPC Lower

variable {s : Setting} {c : Contents} {e : Emitter} {m : Machine} {k : Nat} {carry : Carry}
  {f : FloatStage} {held : RegSet} {dst r x y : HostReg} {w vx vy : BitVec 32} {d : GuestReg}
  {b : Bool} {src : Source}

/-- Words and the carry were added into a destination. As far as the carry was known, so are the sum
and the new carry. -/
def Added (s : Setting) (f : FloatStage) (c : Contents) (held : RegSet) (k : Nat) (d : GuestReg)
    (vx vy : BitVec 32) (src : Source) (e : Emitter) (m : Machine) : Prop :=
  ∃ sum ca carry, Sim s ⟨⟨k, held, .empty, none⟩, carry, f⟩ ((c.setGpr d sum).setCa ca) e m ∧
    src.Is e m sum ∧ (∀ r, src = .reg r → e.integers.Bound (IntSlot.gpr d) r) ∧
    ∀ b, c.ca = some b →
      sum = (addWithCarry vx vy b).value ∧ ca = s.carryOut (addWithCarry vx vy b).carry

/-- Outside of guest memory the carry is known. -/
theorem Sim.known {iu : Usage 40} (h : Sim s ⟨iu, carry, f⟩ c e m) (hc : carry ≠ .inGuestState) :
    ∃ b, Sim s ⟨iu, carry, f⟩ (c.setCa (some b)) e m ∧ ∀ b', c.ca = some b' → b' = b := by
  have hb : ∃ b, CarryIs carry m b ∧ ∀ b', CarryIs carry m b' → b' = b := by
    cases carry with
    | inGuestState => exact absurd rfl hc
    | inHostCarry => exact ⟨m.flags.c, rfl, fun _ hb => hb.symm⟩
    | constantTrue => exact ⟨true, rfl, fun _ hb => hb⟩
    | constantFalse => exact ⟨false, rfl, fun _ hb => hb⟩
  obtain ⟨b, hb, huniq⟩ := hb
  refine ⟨b, ⟨h.fixed, { h.around with }, h.ints, h.vecs, ?_⟩, fun b' hb' => huniq b' (h.ca b' hb')⟩
  rintro _ ⟨⟩
  exact hb

theorem Added.of_known (h : Added s f (c.setCa (some b)) held k d vx vy src e m)
    (hb : ∀ b', c.ca = some b' → b' = b) : Added s f c held k d vx vy src e m := by
  obtain ⟨sum, ca, carry, hsim, hsrc, hbound, hsum⟩ := h
  refine ⟨sum, ca, carry, hsim, hsrc, hbound, ?_⟩
  intro b' hb'
  rw [hb b' hb']
  exact hsum b rfl

theorem Added.comm (h : Added s f c held k d vx vy src e m) :
    Added s f c held k d vy vx src e m := by
  simpa only [Added, addWithCarry_comm vx vy] using h

/-! ## Taking the carry -/

theorem ofWord_setWidth (v : BitVec 8) : v.setWidth 64 = ofWord (v.setWidth 32) := by
  apply BitVec.eq_of_toNat_eq
  have hv := v.isLt
  simp only [ofWord, BitVec.toNat_setWidth]
  omega

/-- A scratch register with the carry byte. -/
theorem Sim.scratchCarry_spec (h : Sim s ⟨⟨k + 1, held, .empty, none⟩, .inGuestState, f⟩ c e m) :
    wp scratchCarry (fun r e' m' => ∃ v : BitVec 32,
      Sim s ⟨⟨k, held.insert r, .empty, none⟩, .inGuestState, f⟩ c e' m' ∧ Keeps e m e' m' ∧
        held.contains r = false ∧ e'.Has m' r (ofWord v) ∧
        (∀ b, c.ca = some b → v = (BitVec.ofBool b).setWidth 32)) e m := by
  unfold scratchCarry
  refine wp_bind h.scratch_spec ?_
  rintro r e₁ m₁ ⟨h₁, hk₁, hheld, -, hne⟩
  refine wp_get ?_
  rw [h₁.fixed.layout]
  refine wp_bind (h₁.loadCarry) ?_
  rintro - e₂ m₂ ⟨h₂, hk₂, hv⟩
  refine wp_pure ⟨(m₁.state.fetch .xerCa).setWidth 32, h₂, ?_, hheld, ⟨hv.owns, ?_⟩, ?_⟩
  · exact hk₁.but hk₂ hne
  · rw [hv.val, ofWord_setWidth]
  · intro b hb
    have hbyte : m₁.state.fetch .xerCa = (BitVec.ofBool b).setWidth 8 := h₁.ca b hb
    rw [hbyte]
    cases b <;> decide

/-- Comparing the carry byte with one brings the carry to the flag. -/
theorem Sim.loadCarryIntoFlags_spec
    (h : Sim s ⟨⟨k + 1, held, .empty, none⟩, .inGuestState, f⟩ c e m) :
    wp loadCarryIntoFlags (fun _ e' m' => ∃ b,
      Sim s ⟨⟨k + 1, held, .empty, none⟩, .inHostCarry, f⟩ (c.setCa (some b)) e' m' ∧
        Keeps e m e' m' ∧ m'.flags.c = b ∧ ∀ b', c.ca = some b' → b' = b) e m := by
  unfold loadCarryIntoFlags
  refine wp_bind h.scratch_spec ?_
  rintro r e₁ m₁ ⟨h₁, hk₁, hheld, -, hne⟩
  refine wp_get ?_
  rw [h₁.fixed.layout]
  refine wp_bind (h₁.loadCarry) ?_
  rintro - e₂ m₂ ⟨h₂, hk₂, hv⟩
  refine wp_bind (h₂.emitTest rfl) ?_
  rintro - e₃ m₃ ⟨h₃, hk₃, hflags⟩
  refine wp_bind (h₃.release_spec hheld) ?_
  rintro - e₄ m₄ ⟨h₄, hk₄, rfl⟩
  have hflag : ∀ b, some m₄.flags.c = some b → CarryIs .inHostCarry m₄ b := by
    rintro _ ⟨⟩
    rfl
  refine wp_mono (h₄.setCarry_spec .inHostCarry hflag) ?_
  rintro - e₅ m₅ ⟨h₅, hk₅, rfl⟩
  refine ⟨m₅.flags.c, h₅, ?_, rfl, ?_⟩
  · exact (((hk₁.but hk₂ hne).trans hk₃).but hk₄ hne).trans hk₅
  · intro b' hb'
    have hbyte : m₁.state.fetch .xerCa = (BitVec.ofBool b').setWidth 8 := h₁.ca b' hb'
    rw [hflags, Machine.getW, hv.val, hbyte]
    cases b' <;> decide

/-- A sum with the carry flag, with the new carry in the flags. -/
theorem Sim.emitAdc_spec
    (h : Sim s ⟨⟨k, held, .empty, some (IntSlot.gpr d)⟩, carry, f⟩ c e m)
    (hd : e.integers.Bound (IntSlot.gpr d) dst) (hx : m.getX x = ofWord vx)
    (hy : m.getX y = ofWord vy) (hb : m.flags.c = b) : wp (emitAdc dst x y) (fun _ e' m' =>
      Sim s ⟨⟨k, held, .empty, none⟩, carry, f⟩
        ((c.setCa none).setGpr d (addWithCarry vx vy b).value) e' m' ∧
      KeepsBut dst e m e' m' ∧ e'.Has m' dst (ofWord (addWithCarry vx vy b).value) ∧
      (s.hints.wantsCa = true → m'.flags.c = (addWithCarry vx vy b).carry)) e m := by
  refine wp_look rfl (h.emitCarrying hd ?_ ?_)
  · simp only [Machine.step, Machine.setW, Machine.getW, hx, hy, hb, low_ofWord]
  · simp only [Machine.step, Machine.setW, Machine.getW, hx, hy, hb, low_ofWord]

/-- The carry of a sum is taken from the flags. -/
theorem Sim.addedFromFlags (h : Sim s ⟨⟨k, held, .empty, none⟩, carry, f⟩
      ((c.setCa none).setGpr d w) e m) (hd : e.integers.Bound (IntSlot.gpr d) dst)
    (hv : e.Has m dst (ofWord w)) (hflag : s.hints.wantsCa = true → m.flags.c = b)
    (hsum : ∀ b', c.ca = some b' →
      w = (addWithCarry vx vy b').value ∧ b = (addWithCarry vx vy b').carry) :
    wp (do carryFromFlags; return .reg dst) (Added s f c held k d vx vy) e m := by
  refine wp_bind (h.carryFromFlags_spec hflag) ?_
  rintro - e₁ m₁ ⟨carry', h₁, hk₁⟩
  refine wp_pure ⟨w, _, carry', h₁, hk₁.has hv, ?_, ?_⟩
  · rintro _ ⟨⟩
    exact hk₁.bound _ _ hd
  · intro b' hb'
    obtain ⟨hvalue, hcarry⟩ := hsum b' hb'
    exact ⟨hvalue, congrArg s.carryOut hcarry⟩

/-! ## The four kinds of sums -/

theorem Sim.carryOfConstantSum_spec {sum : BitVec 64}
    (h : Sim s ⟨⟨k, held, .empty, none⟩, carry, f⟩ c e m) :
    wp (carryOfConstantSum sum) (fun _ e' m' =>
      ∃ ca carry', Sim s ⟨⟨k, held, .empty, none⟩, carry', f⟩ (c.setCa ca) e' m' ∧ Keeps e m e' m' ∧
        ∀ b, c.ca = some b → ca = s.carryOut
          (if 0xFFFFFFFF < sum then true else if sum < 0xFFFFFFFF then false else b)) e m := by
  unfold carryOfConstantSum
  split
  · refine wp_mono (h.carryConstant_spec true) ?_
    rintro - e₁ m₁ ⟨carry', h₁, hk₁⟩
    exact ⟨_, carry', h₁, hk₁, fun _ _ => rfl⟩
  split
  · refine wp_mono (h.carryConstant_spec false) ?_
    rintro - e₁ m₁ ⟨carry', h₁, hk₁⟩
    exact ⟨_, carry', h₁, hk₁, fun _ _ => rfl⟩
  refine wp_get ?_
  rw [h.fixed.carry]
  dsimp only
  split
  · next hhost =>
    subst hhost
    refine wp_mono (h.carryFromFlags_spec fun _ => rfl) ?_
    rintro - e₁ m₁ ⟨carry', h₁, hk₁⟩
    refine ⟨_, carry', h₁, hk₁, ?_⟩
    intro b hb
    have hflag : m.flags.c = b := h.ca b hb
    rw [hflag]
  · by_cases hw : s.hints.wantsCa = true
    · refine wp_pure ⟨c.ca, carry, h, .refl e m, ?_⟩
      intro b hb
      rw [hb, Setting.carryOut, if_pos hw]
    · refine wp_pure ⟨none, carry, h.forgetCa, .refl e m, ?_⟩
      intro b _
      rw [Setting.carryOut, if_neg hw]

theorem Sim.addCarryToConstants_spec (h : Sim s ⟨⟨k + 2, held, .empty, none⟩, carry, f⟩ c e m)
    (d : GuestReg) (vx vy : BitVec 32) :
    wp (addCarryToConstants d vx vy) (Added s f c held (k + 1) d vx vy) e m := by
  unfold addCarryToConstants
  refine wp_get ?_
  rw [h.fixed.carry]
  dsimp only
  cases carry with
  | constantTrue | constantFalse =>
    obtain ⟨b, h, hb⟩ := h.known (by simp)
    refine wp_mono ?_ fun _ _ _ ha => Added.of_known ha hb
    have hca := h.ca b rfl
    subst hca
    refine wp_bind (h.foldGpr_spec d _) ?_
    intro _ e₁ m₁ h₁
    refine wp_bind (h₁.carryConstant_spec _) ?_
    rintro - e₂ m₂ ⟨carry', h₂, -⟩
    refine wp_pure ⟨_, _, carry', h₂.weaken (Nat.le_succ _), rfl, by simp, ?_⟩
    rintro _ ⟨⟩
    exact ⟨setWidth_wideTotal vx vy _, congrArg s.carryOut (wideTotal_carries vx vy _)⟩
  | inHostCarry =>
    simp only [Carry.constant?, if_true]
    obtain ⟨b, h, hb⟩ := h.known (by simp)
    refine wp_mono ?_ fun _ _ _ ha => Added.of_known ha hb
    refine wp_bind (h.writeSlot_spec (IntSlot.gpr d) false) ?_
    rintro rd e₁ m₁ ⟨h₁, -, hd, -⟩
    refine wp_bind (h₁.emit_spec hd.owns (h₁.loose_bound hd rfl) rfl) ?_
    rintro - e₂ m₂ ⟨h₂, hk₂, hv₂⟩
    have hflag : m₂.flags.c = b := h₂.ca b rfl
    have hs : m₂.step (.adc32 rd rd zeroReg) =
        .next (m₂.setX rd (ofWord (addWithCarry vx vy b).value)) := by
      simp only [Machine.step, Machine.setW, Machine.getW, hv₂.val, Machine.getX_zeroReg, hflag,
        low_ofWord, setWidth_wideSum, value_addWithCarry_adc vx vy b]
      rfl
    have hd₂ := hk₂.bound _ _ hd
    refine wp_bind (h₂.emitGpr hd₂ hs) ?_
    rintro - e₃ m₃ ⟨h₃, hk₃, hv₃⟩
    refine wp_bind h₃.carryOfConstantSum_spec ?_
    rintro - e₄ m₄ ⟨ca, carry', h₄, hk₄, hca⟩
    refine wp_pure ⟨_, ca, carry', h₄, hk₄.has hv₃, ?_, ?_⟩
    · rintro _ ⟨⟩
      exact hk₄.bound _ _ (hk₃.bound _ _ hd₂)
    · rintro _ ⟨⟩
      exact ⟨rfl, (hca b rfl).trans (congrArg s.carryOut (carry_wideSum vx vy b))⟩
  | inGuestState =>
    simp only [Carry.constant?]
    refine wp_bind h.scratchCarry_spec ?_
    rintro ca e₁ m₁ ⟨v, h₁, -, hheld, hv, hb⟩
    refine wp_bind (h₁.writeSlot_spec (IntSlot.gpr d) false) ?_
    rintro rd e₂ m₂ ⟨h₂, hk₂, hd, -⟩
    refine wp_bind (h₂.emitAddConstant_spec hd (hk₂.has hv) _) ?_
    rintro - e₃ m₃ ⟨h₃, hk₃, hv₃⟩
    have hd₃ := hk₃.bound _ _ hd
    refine wp_bind (h₃.release_spec hheld) ?_
    rintro - e₄ m₄ ⟨h₄, hk₄, -⟩
    refine wp_bind h₄.carryOfConstantSum_spec ?_
    rintro - e₅ m₅ ⟨ca', carry', h₅, hk₅, hca⟩
    have hne : rd ≠ ca := h₃.bound_ne_held hd₃ (RegSet.contains_insert_self _ _)
    refine wp_pure ⟨_, ca', carry', h₅, hk₅.has (hk₄.has hne hv₃), ?_, ?_⟩
    · rintro _ ⟨⟩
      exact hk₅.bound _ _ (hk₄.bound _ _ hd₃)
    · intro b hb'
      refine ⟨?_, (hca b hb').trans (congrArg s.carryOut (carry_wideSum vx vy b))⟩
      rw [hb b hb', setWidth_wideSum, value_addWithCarry_sum vx vy b]

theorem Sim.addFlagToRegConstant_spec
    (h : Sim s ⟨⟨k + 2, held, .empty, none⟩, .inHostCarry, f⟩ c e m) (d : GuestReg)
    (hr : e.Has m r (ofWord w)) (i : BitVec 32) :
    wp (addFlagToRegConstant d r i) (Added s f c held (k + 1) d w i) e m := by
  obtain ⟨b, h, hb⟩ := h.known (by simp)
  refine wp_mono ?_ fun _ _ _ ha => Added.of_known ha hb
  have hsum : ∀ b', (c.setCa (some b)).ca = some b' →
      (addWithCarry w i b).value = (addWithCarry w i b').value ∧
        (addWithCarry w i b).carry = (addWithCarry w i b').carry := by
    rintro _ ⟨⟩
    exact ⟨rfl, rfl⟩
  unfold addFlagToRegConstant
  split
  · next hi =>
    subst hi
    rw [pure_bind]
    refine wp_bind (h.writeSlot_spec (IntSlot.gpr d) false) ?_
    rintro rd e₁ m₁ ⟨h₁, hk₁, hd, -⟩
    have hzero : m₁.getX zeroReg = ofWord 0 := Machine.getX_zeroReg m₁
    refine wp_bind (h₁.emitAdc_spec hd (hk₁.has hr).val hzero (h₁.ca b rfl)) ?_
    rintro - e₂ m₂ ⟨h₂, hk₂, hv, hflag⟩
    exact (h₂.weaken (Nat.le_refl _)).addedFromFlags (hk₂.bound _ _ hd) hv hflag hsum
  · refine wp_bind (wp_map some (h.scratchConstant_spec i)) ?_
    rintro _ e₁ m₁ ⟨temp, rfl, h₁, hk₁, hheld, htemp, -⟩
    refine wp_bind (h₁.writeSlot_spec (IntSlot.gpr d) false) ?_
    rintro rd e₂ m₂ ⟨h₂, hk₂, hd, -⟩
    refine wp_bind (h₂.emitAdc_spec hd (hk₂.has (hk₁.has hr)).val (hk₂.has htemp).val
      (h₂.ca b rfl)) ?_
    rintro - e₃ m₃ ⟨h₃, hk₃, hv, hflag⟩
    have hd₃ := hk₃.bound _ _ hd
    refine wp_bind (h₃.release_spec hheld) ?_
    rintro - e₄ m₄ ⟨h₄, hk₄, rfl⟩
    have hne : rd ≠ temp := h₃.bound_ne_held hd₃ (RegSet.contains_insert_self _ _)
    exact h₄.addedFromFlags (hk₄.bound _ _ hd₃) (hk₄.has hne hv) hflag hsum

/-- The flag is the carry. -/
theorem Sim.carryIntoFlags_spec
    (h : Sim s ⟨⟨k + 1, held, .empty, none⟩, carry, f⟩ c e m) (hc : carry ≠ .constantFalse) :
    wp carryIntoFlags (fun _ e' m' => ∃ b carry',
      Sim s ⟨⟨k + 1, held, .empty, none⟩, carry', f⟩ (c.setCa (some b)) e' m' ∧
        Keeps e m e' m' ∧ m'.flags.c = b ∧ ∀ b', c.ca = some b' → b' = b) e m := by
  unfold carryIntoFlags
  refine wp_get ?_
  rw [h.fixed.carry]
  cases carry with
  | constantTrue =>
    refine wp_mono (h.emitTest rfl) ?_
    rintro - e₁ m₁ ⟨h₁, hk₁, hflags⟩
    obtain ⟨b, h₁, -⟩ := h₁.known (by simp)
    have hb : b = true := h₁.ca b rfl
    subst hb
    refine ⟨true, _, h₁, hk₁, ?_, h.ca⟩
    rw [hflags, Machine.getW, Machine.getX_zeroReg]
    decide
  | constantFalse => exact absurd rfl hc
  | inHostCarry =>
    obtain ⟨b, h, hb⟩ := h.known (by simp)
    exact wp_pure ⟨b, _, h, .refl e m, h.ca b rfl, hb⟩
  | inGuestState =>
    refine wp_mono h.loadCarryIntoFlags_spec ?_
    rintro - e₁ m₁ ⟨b, h₁, hk₁, hflag, hb⟩
    exact ⟨b, _, h₁, hk₁, hflag, hb⟩

theorem Sim.addCarryToRegs_spec (h : Sim s ⟨⟨k + 2, held, .empty, none⟩, carry, f⟩ c e m)
    (d : GuestReg) (hx : e.Has m x (ofWord vx)) (hy : e.Has m y (ofWord vy)) :
    wp (addCarryToRegs d x y) (Added s f c held (k + 1) d vx vy) e m := by
  unfold addCarryToRegs
  refine wp_get ?_
  rw [h.fixed.carry]
  split
  · next hc =>
    have hfalse : carry = .constantFalse := hc
    subst hfalse
    refine wp_bind (h.writeSlot_spec (IntSlot.gpr d) false) ?_
    rintro rd e₁ m₁ ⟨h₁, hk₁, hd, -⟩
    refine wp_bind (h₁.emitAdd_spec hd (hk₁.has hx) (hk₁.has hy)) ?_
    rintro - e₂ m₂ ⟨h₂, hk₂, hv, hflag⟩
    refine h₂.addedFromFlags (hk₂.bound _ _ hd) hv hflag ?_
    intro b' hb'
    have hb : b' = false := h.ca b' hb'
    rw [hb]
    exact ⟨rfl, rfl⟩
  · next hc =>
    refine wp_bind (h.carryIntoFlags_spec hc) ?_
    rintro - e₁ m₁ ⟨b, carry', h₁, hk₁, hflag, hb⟩
    refine wp_mono ?_ fun _ _ _ ha => Added.of_known ha hb
    refine wp_bind (h₁.writeSlot_flags (IntSlot.gpr d) false) ?_
    rintro rd e₂ m₂ ⟨⟨h₂, hk₂, hd, -⟩, hflags⟩
    refine wp_bind (h₂.emitAdc_spec hd (hk₂.has (hk₁.has hx)).val (hk₂.has (hk₁.has hy)).val
      (hflags ▸ hflag)) ?_
    rintro - e₃ m₃ ⟨h₃, hk₃, hv, hflag⟩
    refine h₃.addedFromFlags (hk₃.bound _ _ hd) hv hflag ?_
    rintro _ ⟨⟩
    exact ⟨rfl, rfl⟩

/-- A sum without the carry, which is that with the carry for another constant. -/
theorem Sim.addedConstant (h : Sim s ⟨⟨k, held, .empty, some (IntSlot.gpr d)⟩, carry, f⟩ c e m)
    (hd : e.integers.Bound (IntSlot.gpr d) dst) (hr : e.Has m r (ofWord w)) {i j : BitVec 32}
    (hsum : ∀ b, c.ca = some b → (addWithCarry w i b).value = (addWithCarry w j false).value ∧
      (addWithCarry w i b).carry = (addWithCarry w j false).carry) :
    wp (do addConstantCarrying dst r j; return .reg dst) (Added s f c held k d w i) e m := by
  refine wp_bind (h.addConstantCarrying_spec hd hr j) ?_
  rintro - e₁ m₁ ⟨carry', h₁, hv, hd₁⟩
  refine wp_pure ⟨_, _, carry', h₁, hv, ?_, ?_⟩
  · rintro _ ⟨⟩
    exact hd₁
  · intro b hb
    obtain ⟨hvalue, hcarry⟩ := hsum b hb
    exact ⟨hvalue.symm, congrArg s.carryOut hcarry.symm⟩

/-- A sum that is the register itself, with a constant carry. -/
theorem Sim.addedMove (h : Sim s ⟨⟨k, held, .empty, some (IntSlot.gpr d)⟩, carry, f⟩ c e m)
    (hd : e.integers.Bound (IntSlot.gpr d) dst) (hr : e.Has m r (ofWord w)) {i : BitVec 32}
    (hsum : ∀ b', c.ca = some b' →
      (addWithCarry w i b').value = w ∧ (addWithCarry w i b').carry = b) :
    wp (do emitMove dst r; carryConstant b; return .reg dst) (Added s f c held k d w i) e m := by
  refine wp_bind (h.emitMove_spec hd hr) ?_
  rintro - e₁ m₁ ⟨h₁, hk₁, hv⟩
  refine wp_bind (h₁.carryConstant_spec b) ?_
  rintro - e₂ m₂ ⟨carry', h₂, hk₂⟩
  refine wp_pure ⟨w, _, carry', h₂, hk₂.has hv, ?_, ?_⟩
  · rintro _ ⟨⟩
    exact hk₂.bound _ _ (hk₁.bound _ _ hd)
  · intro b' hb'
    obtain ⟨hvalue, hcarry⟩ := hsum b' hb'
    exact ⟨hvalue.symm, congrArg s.carryOut hcarry.symm⟩

theorem Sim.addCarryToRegConstant_spec (h : Sim s ⟨⟨k + 2, held, .empty, none⟩, carry, f⟩ c e m)
    (d : GuestReg) (hr : e.Has m r (ofWord w)) (i : BitVec 32) :
    wp (addCarryToRegConstant d r i) (Added s f c held (k + 1) d w i) e m := by
  unfold addCarryToRegConstant
  refine wp_get ?_
  rw [h.fixed.carry]
  cases carry with
  | constantTrue =>
    have hca : ∀ b, c.ca = some b → b = true := h.ca
    refine wp_bind (h.writeSlot_spec (IntSlot.gpr d) false) ?_
    rintro rd e₁ m₁ ⟨h₁, hk₁, hd, -⟩
    split
    · next hi =>
      refine h₁.addedMove hd (hk₁.has hr) ?_
      intro b hb
      rw [hca b hb, hi]
      exact addWithCarry_allOnes w
    · next hi =>
      refine h₁.addedConstant hd (hk₁.has hr) ?_
      intro b hb
      rw [hca b hb]
      exact addWithCarry_succ w hi
  | constantFalse =>
    have hca : ∀ b, c.ca = some b → b = false := h.ca
    refine wp_bind (h.writeSlot_spec (IntSlot.gpr d) false) ?_
    rintro rd e₁ m₁ ⟨h₁, hk₁, hd, -⟩
    split
    · next hi =>
      refine h₁.addedMove hd (hk₁.has hr) ?_
      intro b hb
      rw [hca b hb, hi]
      exact addWithCarry_zero w
    · refine h₁.addedConstant hd (hk₁.has hr) ?_
      intro b hb
      rw [hca b hb]
      exact ⟨rfl, rfl⟩
  | inGuestState =>
    dsimp only
    split
    · next hi =>
      refine wp_bind h.scratchCarry_spec ?_
      rintro ca e₁ m₁ ⟨v, h₁, hk₁, hheld, hv, hb⟩
      refine wp_bind (h₁.writeSlot_spec (IntSlot.gpr d) false) ?_
      rintro rd e₂ m₂ ⟨h₂, hk₂, hd, -⟩
      refine wp_bind (h₂.emitAdd_spec hd (hk₂.has (hk₁.has hr)) (hk₂.has hv)) ?_
      rintro - e₃ m₃ ⟨h₃, hk₃, hv₃, hflag⟩
      have hd₃ := hk₃.bound _ _ hd
      refine wp_bind (h₃.release_spec hheld) ?_
      rintro - e₄ m₄ ⟨h₄, hk₄, rfl⟩
      have hne : rd ≠ ca := h₃.bound_ne_held hd₃ (RegSet.contains_insert_self _ _)
      refine h₄.addedFromFlags (hk₄.bound _ _ hd₃) (hk₄.has hne hv₃) hflag ?_
      intro b hb'
      obtain ⟨hvalue, hcarry⟩ := addWithCarry_ofBool w b
      rw [hi, hvalue, hcarry, hb b hb']
      exact ⟨rfl, rfl⟩
    · refine wp_bind h.loadCarryIntoFlags_spec ?_
      rintro - e₁ m₁ ⟨b, h₁, hk₁, -, hb⟩
      refine wp_mono (h₁.addFlagToRegConstant_spec d (hk₁.has hr) i) ?_
      exact fun _ _ _ ha => Added.of_known ha hb
  | inHostCarry => exact h.addFlagToRegConstant_spec d hr i

/-! ## The instructions -/

/-- The scratch register of an operand, if it has one. -/
def HeldBy (temp : Option HostReg) (held : RegSet) : Prop :=
  match temp with
  | none => held = .empty
  | some r => held = .insert .empty r

/-- The end of an instruction that adds the carry. -/
def SumEnds (s : Setting) (f : FloatStage) (c : Contents) (vx vy : BitVec 32) (e : Emitter)
    (m : Machine) : Prop :=
  ∃ sum ca, Ends s f (((c.setGpr s.word.rd sum).recorded s.word.rc sum).setCa ca) e m ∧
    ∀ b, c.ca = some b →
      sum = (addWithCarry vx vy b).value ∧ ca = s.carryOut (addWithCarry vx vy b).carry

variable {temp : Option HostReg}

theorem Added.sumEnds (h : Added s f c held 1 s.word.rd vx vy src e m) (ht : HeldBy temp held) :
    wp (do
      releaseHeld temp
      match src with
      | .constant value => recordFolded value
      | .reg rd => record rd) (fun _ => SumEnds s f c vx vy) e m := by
  obtain ⟨sum, ca, carry, h, hsrc, hbound, hsum⟩ := h
  have hrelease : wp (releaseHeld temp) (fun _ e' m' =>
      Sim s ⟨⟨1, .empty, .empty, none⟩, carry, f⟩ ((c.setGpr s.word.rd sum).setCa ca) e' m' ∧
        src.Is e' m' sum) e m := by
    cases temp with
    | none =>
      cases ht
      exact wp_pure ⟨h, hsrc⟩
    | some r =>
      cases ht
      refine wp_mono (h.release_spec (RegSet.contains_empty _)) ?_
      rintro - e₁ m₁ ⟨h₁, hk₁, -⟩
      refine ⟨h₁.weaken (by omega), ?_⟩
      cases src with
      | constant v => exact hsrc
      | reg rd =>
        exact hk₁.has (h.bound_ne_held (hbound rd rfl) (RegSet.contains_insert_self _ _)) hsrc
  refine wp_bind hrelease ?_
  rintro - e₁ m₁ ⟨h₁, hsrc₁⟩
  refine wp_mono ?_ fun _ _ _ hends => ⟨sum, ca, hends, hsum⟩
  cases src with
  | constant v =>
    cases hsrc₁
    exact wp_ends (h₁.recordFolded_spec _) (Contents.recorded_setCa ..)
  | reg rd => exact wp_ends (h₁.record_spec hsrc₁) (Contents.recorded_setCa ..)

theorem Sim.sumEnds {x y : Source} (h : Sim s ⟨⟨2, held, .empty, none⟩, carry, f⟩ c e m)
    (ht : HeldBy temp held) (hx : x.Is e m vx) (hy : y.Is e m vy) : wp (do
      let result ←
        match x, y with
        | .constant x, .constant y => addCarryToConstants s.word.rd x y
        | .reg r, .constant i | .constant i, .reg r => addCarryToRegConstant s.word.rd r i
        | .reg x, .reg y => addCarryToRegs s.word.rd x y
      releaseHeld temp
      match result with
      | .constant value => recordFolded value
      | .reg rd => record rd) (fun _ => SumEnds s f c vx vy) e m := by
  cases x with
  | constant x =>
    cases hx
    cases y with
    | constant y =>
      cases hy
      exact wp_bind (h.addCarryToConstants_spec _ _ _) fun _ _ _ hadd => hadd.sumEnds ht
    | reg y =>
      exact wp_bind (h.addCarryToRegConstant_spec _ hy _) fun _ _ _ hadd => hadd.comm.sumEnds ht
  | reg x =>
    cases y with
    | constant y =>
      cases hy
      exact wp_bind (h.addCarryToRegConstant_spec _ hx _) fun _ _ _ hadd => hadd.sumEnds ht
    | reg y => exact wp_bind (h.addCarryToRegs_spec _ hx hy) fun _ _ _ hadd => hadd.sumEnds ht

theorem Sim.secondOperand {x : Source} (h : Sim s ⟨⟨3, held, .empty, none⟩, carry, f⟩ c e m)
    (ht : HeldBy temp held) (hx : x.Is e m vx) (second : Bool) : wp (do
      let y ← if second then source s.word.rb else pure (.constant 0)
      let result ←
        match x, y with
        | .constant x, .constant y => addCarryToConstants s.word.rd x y
        | .reg r, .constant i | .constant i, .reg r => addCarryToRegConstant s.word.rd r i
        | .reg x, .reg y => addCarryToRegs s.word.rd x y
      releaseHeld temp
      match result with
      | .constant value => recordFolded value
      | .reg rd => record rd)
      (fun _ => SumEnds s f c vx (if second then c.gpr s.word.rb else 0)) e m := by
  cases second with
  | false => exact (h.weaken (by omega)).sumEnds ht hx rfl
  | true =>
    refine wp_bind (h.source_spec s.word.rb) ?_
    rintro y e₁ m₁ ⟨h₁, hk₁, hy⟩
    exact h₁.sumEnds ht (hx.keeps hk₁) hy

theorem Sim.complement_spec (h : Sim s ⟨⟨k + 1, .empty, .empty, none⟩, carry, f⟩ c e m)
    (hsrc : src.Is e m w) : wp (complement src) (fun res e' m' => ∃ held,
      Sim s ⟨⟨k, held, .empty, none⟩, carry, f⟩ c e' m' ∧ res.1.Is e' m' (~~~w) ∧
        HeldBy res.2 held) e m := by
  cases src with
  | constant v =>
    have hv : v = w := hsrc
    exact wp_pure ⟨_, h.weaken (Nat.le_succ k), congrArg (~~~ ·) hv, rfl⟩
  | reg r =>
    refine wp_bind h.scratch_spec ?_
    rintro temp e₁ m₁ ⟨h₁, hk₁, -, -, -⟩
    have hs : m₁.step (.unary .mvn32 temp r) = .next (m₁.setX temp (ofWord (~~~w))) := by
      simp only [Machine.step, UnaryOp.eval, (hk₁.has hsrc).val, low_ofWord]
    refine wp_bind (h₁.emitHeld (RegSet.contains_insert_self _ _) hs) ?_
    rintro - e₂ m₂ ⟨h₂, -, hv⟩
    exact wp_pure ⟨_, h₂, hv, rfl⟩

theorem Sim.addExtended_spec (h : Sim s ⟨⟨5, .empty, .empty, none⟩, carry, f⟩ c e m)
    (inverted second : Bool) : wp (addExtended inverted second) (fun _ =>
      SumEnds s f c (if inverted then ~~~c.gpr s.word.ra else c.gpr s.word.ra)
        (if second then c.gpr s.word.rb else 0)) e m := by
  unfold addExtended
  refine wp_look rfl ?_
  rw [h.fixed.word]
  refine wp_bind (h.source_spec s.word.ra) ?_
  rintro a e₁ m₁ ⟨h₁, -, ha⟩
  cases inverted with
  | false =>
    have ht : HeldBy none .empty := rfl
    exact (h₁.weaken (by omega)).secondOperand ht ha second
  | true =>
    refine wp_bind (h₁.complement_spec ha) ?_
    rintro ⟨x, temp⟩ e₂ m₂ ⟨held, h₂, hx, ht⟩
    exact h₂.secondOperand ht hx second

end Recompiler.Emit
