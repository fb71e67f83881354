import Recompiler.Proofs.Emission

/-!
# The ways of the carry bit

A new carry is kept in the host flag, as a constant or in guest memory. Wherever it goes, emitter
and machine agree on it afterwards; a carry that nobody looks at is forgotten.
-/

namespace Recompiler.Emit

open Alloc Arm Block PowerPC

variable {s : Setting} {u : Stage} {c : Contents} {e e' : Emitter} {m m' : Machine} {iu : Usage 40}
  {carry : Carry} {f : FloatStage} {ca : Option Bool} {r : HostReg}

/-! ## Cells outside the caches -/

/-- Integer slots do not notice a write to a cell that no slot is for. -/
theorem Sim.ints_of_put (h : Sim s u c e m) (cell : PowerPC.Cell) (hc : cell.cls = none)
    (v : BitVec cell.width) :
    Cache.At s.ints e.integers { m with state := m.state.put cell v } c.slot u.ints := by
  refine h.ints.of_frame ?_ (fun _ _ => rfl) ?_
  · exact h.ints.holds.on.put s.valid cell v
  intro slot
  have hne : IntSlot.cell slot ≠ cell := by
    rintro rfl
    rw [IntSlot.cls_cell] at hc
    simp at hc
  exact congrArg (BitVec.setWidth 64) (h.ints.holds.on.fetch_put_of_ne s.valid cell v hne)

theorem Sim.vecs_of_put (h : Sim s u c e m) (cell : PowerPC.Cell) (hc : cell.cls = none)
    (v : BitVec cell.width) :
    Cache.At s.vecs e.vectors.cache { m with state := m.state.put cell v } c.ps u.floats.usage := by
  refine h.vecs.of_frame ?_ (fun _ _ => rfl) ?_
  · exact h.vecs.holds.on.put s.valid cell v
  intro slot
  have hne : PowerPC.Cell.ps slot ≠ cell := by
    rintro rfl
    simp [PowerPC.Cell.cls] at hc
  exact h.vecs.holds.on.fetch_put_of_ne s.valid cell v hne

theorem Sim.put_xerCa (h : Sim s u c e m) (v : BitVec 8) :
    Sim s u (c.setCa none) e { m with state := m.state.put .xerCa v } := by
  have hon : m.state.On s.layout := h.ints.holds.on
  have hother : ∀ cell : PowerPC.Cell, cell ≠ .xerCa →
      (m.state.put .xerCa v).fetch cell = m.state.fetch cell :=
    fun cell hne => hon.fetch_put_of_ne s.valid .xerCa v hne
  refine ⟨h.fixed, ⟨h.around.stack, h.around.flush, h.around.interpreter, ?_, ?_⟩,
    h.ints_of_put .xerCa rfl v, h.vecs_of_put .xerCa rfl v, by simp [Contents.setCa]⟩
  · exact (hother .xerSoOv (by simp)).trans h.around.soOv
  · exact (hother .fpscr (by simp)).trans h.around.fpscr

/-! ## Steps -/

theorem Sim.setCarry_spec (h : Sim s ⟨iu, carry, f⟩ c e m) (carry' : Carry)
    (hca : ∀ b, ca = some b → CarryIs carry' m b) : wp (setCarry carry') (fun _ e' m' =>
      Sim s ⟨iu, carry', f⟩ (c.setCa ca) e' m' ∧ Keeps e m e' m' ∧ m' = m) e m :=
  wp_modify rfl ⟨⟨{ h.fixed with carry := rfl }, { h.around with }, h.ints, h.vecs, hca⟩,
    ⟨fun _ _ hb => hb, fun hx => ⟨hx.owns, hx.val⟩, fun _ _ hb => hb,
      fun hx => ⟨hx.owns, hx.val⟩⟩, rfl⟩

theorem Sim.dropCarry_spec (h : Sim s ⟨iu, carry, f⟩ c e m) : wp dropCarry (fun _ e' m' =>
    Sim s ⟨iu, .inGuestState, f⟩ (c.setCa none) e' m' ∧ Keeps e m e' m' ∧ m' = m) e m :=
  h.setCarry_spec .inGuestState (by simp)

theorem Sim.storeCarry_spec (h : Sim s u c e m) (r : HostReg) : wp (storeCarry r) (fun _ e' m' =>
    Sim s u (c.setCa none) e' m' ∧ Keeps e m e' m' ∧ m'.flags = m.flags ∧
      m'.state.fetch .xerCa = (m.getX r).setWidth 8) e m := by
  refine wp_get ?_
  rw [h.fixed.layout]
  have hs : m.step (.store .byte r stateReg s.layout.xerCa) =
      .next { m with state := m.state.put .xerCa ((m.getX r).setWidth 8) } :=
    congrArg m.proceed (Machine.writeState_cell s.valid h.ints.holds.on .xerCa _)
  refine wp_emit h.fixed.code hs ⟨(h.put_xerCa _).with_code _, ⟨fun _ _ hb => hb,
    fun hx => ⟨hx.owns, hx.val⟩, fun _ _ hb => hb, fun hx => ⟨hx.owns, hx.val⟩⟩, rfl, ?_⟩
  exact h.ints.holds.on.fetch_put_self s.valid _ _

/-- A write to the register that carries constants is seen by nobody. -/
theorem Sim.emitFlush (h : Sim s u c e m) {inst : Inst} {v : BitVec 64}
    (hs : m.step inst = .next (m.setX flushReg v)) : wp (emit inst) (fun _ e' m' =>
      Sim s u c e' m' ∧ Keeps e m e' m' ∧ m'.getX flushReg = v) e m := by
  have hsame := SameBut.setX m flushReg v
  have hk : KeepsBut flushReg e m { e with code := e.code.emit inst } (m.setX flushReg v) :=
    hsame.keeps rfl rfl
  have hl := h.not_mem_order s.flushReg_not_mem
  refine wp_emit h.fixed.code hs ⟨?_, ⟨hk.bound, ?_, hk.boundV, hk.hasV⟩,
    m.getX_setX_self (by decide) v⟩
  · exact (h.of_same hl hsame fun b hb =>
      (h.ca b hb).of_same hsame (flags_setX m flushReg v)).with_code inst
  · intro q x hx
    refine hk.has ?_ hx
    rintro rfl
    exact s.flushReg_not_mem (h.mem_order hx.owns)

/-- The step that ends putting the carry into guest memory. -/
private theorem Sim.flushed (h : Sim s ⟨iu, carry, f⟩ c e m) (hk : Keeps e' m' e m)
    (hca : ∀ b, ca = some b → m.state.fetch .xerCa = (BitVec.ofBool b).setWidth 8) :
    wp (modify fun e : Emitter =>
      { e with
        carry := .inGuestState
        stats := { e.stats with carryFlushes := e.stats.carryFlushes + 1 } }) (fun _ e₁ m₁ =>
        Sim s ⟨iu, .inGuestState, f⟩ (c.setCa ca) e₁ m₁ ∧ Keeps e' m' e₁ m₁) e m :=
  wp_modify rfl ⟨⟨{ h.fixed with carry := rfl }, { h.around with }, h.ints, h.vecs, hca⟩,
    hk.trans ⟨fun _ _ hb => hb, fun hx => ⟨hx.owns, hx.val⟩, fun _ _ hb => hb,
      fun hx => ⟨hx.owns, hx.val⟩⟩⟩

@[simp] theorem Contents.setCa_setCa (c : Contents) (ca ca' : Option Bool) :
    (c.setCa ca).setCa ca' = c.setCa ca' := rfl

theorem Contents.setGpr_setCa (c : Contents) (ca : Option Bool) (reg : GuestReg) (w : BitVec 32) :
    (c.setCa ca).setGpr reg w = (c.setGpr reg w).setCa ca := rfl

theorem Contents.recorded_setCa (c : Contents) (ca : Option Bool) (rc : Bool) (w : BitVec 32) :
    (c.setCa ca).recorded rc w = (c.recorded rc w).setCa ca := by
  unfold recorded
  split <;> rfl

/-- The carry goes to guest memory. -/
theorem Sim.flushCarry_spec (h : Sim s ⟨iu, carry, f⟩ c e m) : wp flushCarry (fun _ e' m' =>
    Sim s ⟨iu, .inGuestState, f⟩ c e' m' ∧ Keeps e m e' m') e m := by
  have hca := h.ca
  unfold flushCarry
  refine wp_get ?_
  rw [h.fixed.carry]
  cases carry with
  | inGuestState => exact wp_pure ⟨h, .refl e m⟩
  | inHostCarry =>
    refine wp_bind (h.emitFlush rfl) ?_
    rintro - e₁ m₁ ⟨h₁, hk₁, hv⟩
    refine wp_bind (h₁.storeCarry_spec flushReg) ?_
    rintro - e₂ m₂ ⟨h₂, hk₂, -, hbyte⟩
    refine h₂.flushed (hk₁.trans hk₂) ?_
    intro b hb
    have hflag : m.flags.c = b := hca b hb
    rw [hbyte, hv, Cond.holds, hflag]
    simp
  | constantTrue =>
    refine wp_bind (h.emitFlush rfl) ?_
    rintro - e₁ m₁ ⟨h₁, hk₁, hv⟩
    refine wp_bind (h₁.storeCarry_spec flushReg) ?_
    rintro - e₂ m₂ ⟨h₂, hk₂, -, hbyte⟩
    refine h₂.flushed (hk₁.trans hk₂) ?_
    intro b hb
    have hb' : b = true := hca b hb
    rw [hbyte, hv, hb']
    decide
  | constantFalse =>
    refine wp_bind (h.storeCarry_spec zeroReg) ?_
    rintro - e₁ m₁ ⟨h₁, hk₁, -, hbyte⟩
    refine h₁.flushed hk₁ ?_
    intro b hb
    have hb' : b = false := hca b hb
    rw [hbyte, hb', Machine.getX_zeroReg]
    decide

/-- What is known of a new carry afterwards. -/
def Setting.carryOut (s : Setting) (b : Bool) : Option Bool :=
  if s.hints.wantsCa then some b else none

theorem Sim.carryFromFlags_spec (h : Sim s ⟨iu, carry, f⟩ c e m) {b : Bool}
    (hb : s.hints.wantsCa = true → m.flags.c = b) : wp carryFromFlags (fun _ e' m' =>
      ∃ carry', Sim s ⟨iu, carry', f⟩ (c.setCa (s.carryOut b)) e' m' ∧ Keeps e m e' m') e m := by
  unfold carryFromFlags Setting.carryOut
  refine wp_get ?_
  rw [h.fixed.hints]
  split
  · next hw =>
    have hflag : ∀ b', some b = some b' → CarryIs .inHostCarry m b' := by
      rintro b' ⟨⟩
      exact hb hw
    refine wp_bind (h.setCarry_spec .inHostCarry hflag) ?_
    rintro - e₁ m₁ ⟨h₁, hk₁, -⟩
    split
    · exact wp_pure ⟨_, h₁, hk₁⟩
    · refine wp_mono h₁.flushCarry_spec ?_
      rintro - e₂ m₂ ⟨h₂, hk₂⟩
      exact ⟨_, h₂, hk₁.trans hk₂⟩
  · refine wp_mono h.dropCarry_spec ?_
    rintro - e₁ m₁ ⟨h₁, hk₁, -⟩
    exact ⟨_, h₁, hk₁⟩

/-- The carry flag after comparing a bit with one is the bit. -/
theorem carry_compare_one (b : Bool) :
    (TestImmOp.eval .cmp (low ((BitVec.ofBool b).setWidth 64)) 1).c = b := by
  cases b <;> decide

theorem Sim.carryFromReg_spec (h : Sim s ⟨iu, carry, f⟩ c e m) {b : Bool}
    (hr : m.getX r = (BitVec.ofBool b).setWidth 64) : wp (carryFromReg r) (fun _ e' m' =>
      ∃ carry', Sim s ⟨iu, carry', f⟩ (c.setCa (s.carryOut b)) e' m' ∧ Keeps e m e' m') e m := by
  unfold carryFromReg Setting.carryOut
  refine wp_get ?_
  rw [h.fixed.hints]
  split
  · split
    · refine wp_bind (h.emitTest rfl) ?_
      rintro - e₁ m₁ ⟨h₁, hk₁, hf₁⟩
      have hflag : ∀ b', some b = some b' → CarryIs .inHostCarry m₁ b' := by
        rintro b' ⟨⟩
        rw [CarryIs, hf₁, Machine.getW, hr]
        exact carry_compare_one b
      refine wp_mono (h₁.setCarry_spec .inHostCarry hflag) ?_
      rintro - e₂ m₂ ⟨h₂, hk₂, -⟩
      exact ⟨_, h₂, hk₁.trans hk₂⟩
    · refine wp_bind (h.storeCarry_spec r) ?_
      rintro - e₁ m₁ ⟨h₁, hk₁, -, hbyte⟩
      have hmem : ∀ b', some b = some b' → CarryIs .inGuestState m₁ b' := by
        rintro b' ⟨⟩
        rw [CarryIs, hbyte, hr]
        simp
      refine wp_mono (h₁.setCarry_spec .inGuestState hmem) ?_
      rintro - e₂ m₂ ⟨h₂, hk₂, -⟩
      exact ⟨_, h₂, hk₁.trans hk₂⟩
  · refine wp_mono h.dropCarry_spec ?_
    rintro - e₁ m₁ ⟨h₁, hk₁, -⟩
    exact ⟨_, h₁, hk₁⟩

theorem Sim.carryConstant_spec (h : Sim s ⟨iu, carry, f⟩ c e m) (b : Bool) :
    wp (carryConstant b) (fun _ e' m' =>
      ∃ carry', Sim s ⟨iu, carry', f⟩ (c.setCa (s.carryOut b)) e' m' ∧ Keeps e m e' m') e m := by
  unfold carryConstant Setting.carryOut
  refine wp_get ?_
  rw [h.fixed.hints]
  split
  · have hconst : ∀ b', some b = some b' → CarryIs (.ofBool b) m b' := by
      rintro b' ⟨⟩
      cases b <;> rfl
    refine wp_mono (h.setCarry_spec (.ofBool b) hconst) ?_
    rintro - e₁ m₁ ⟨h₁, hk₁, -⟩
    exact ⟨_, h₁, hk₁⟩
  · refine wp_mono h.dropCarry_spec ?_
    rintro - e₁ m₁ ⟨h₁, hk₁, -⟩
    exact ⟨_, h₁, hk₁⟩

section Scratch

variable {k : Nat} {held locked : RegSet} {hole : Option IntSlot}

theorem step_loadCarry (s : Setting) (hon : m.state.On s.layout) (r : HostReg) :
    m.step (.load .byte r stateReg s.layout.xerCa) =
      .next (m.setX r ((m.state.fetch .xerCa).setWidth 64)) :=
  congrArg (fun read : Except Fault (BitVec 8) =>
      m.proceed (read.map fun value : BitVec 8 => m.setX r (BitVec.setWidth 64 value)))
    (Machine.readState_cell s.valid hon .xerCa)

/-- The carry byte goes to a scratch register. -/
theorem Sim.loadCarry (h : Sim s ⟨⟨k, held.insert r, locked, hole⟩, carry, f⟩ c e m) :
    wp (emit (.load .byte r stateReg s.layout.xerCa)) (fun _ e' m' =>
      Sim s ⟨⟨k, held.insert r, locked, hole⟩, carry, f⟩ c e' m' ∧
        KeepsBut r e m e' m' ∧ e'.Has m' r ((m.state.fetch .xerCa).setWidth 64)) e m :=
  h.emitHeld (RegSet.contains_insert_self _ _) (step_loadCarry s h.ints.holds.on r)

end Scratch

end Recompiler.Emit
