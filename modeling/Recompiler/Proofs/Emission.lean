import Recompiler.Lower.Operand
import Recompiler.Proofs.Simulation

/-!
# Emitting code

What the steps that emit code do to emitter and machine: instructions that write a register,
constants, records of results, and the ways of the carry bit.
-/

namespace Recompiler.Emit

open Alloc Arm Block PowerPC

variable {s : Setting} {u : Stage} {c : Contents} {e e' : Emitter} {m m' : Machine}
  {dst : HostReg} {inst : Inst} {v : BitVec 64} {w : BitVec 32} {slot : IntSlot}

/-! ## Instructions that write one general register -/

/-- The machines agree, except for one general register and the flags. -/
structure SameBut (dst : HostReg) (m m' : Machine) : Prop where
  x : ∀ r, r ≠ dst → m'.getX r = m.getX r
  v : m'.v = m.v
  state : m'.state = m.state
  stack : m'.stack = m.stack
  flush : m'.flush = m.flush
  interpreter : m'.interpreter = m.interpreter

theorem SameBut.setX (m : Machine) (dst : HostReg) (v : BitVec 64) :
    SameBut dst m (m.setX dst v) := by
  refine ⟨fun r hr => m.getX_setX_of_ne hr v, ?_, ?_, ?_, ?_, ?_⟩ <;>
  · unfold Machine.setX
    split <;> rfl

theorem SameBut.flags (h : SameBut dst m m') (flags : Flags) :
    SameBut dst m { m' with flags } :=
  ⟨h.x, h.v, h.state, h.stack, h.flush, h.interpreter⟩

theorem SameBut.refl (dst : HostReg) (m : Machine) : SameBut dst m m :=
  ⟨fun _ _ => rfl, rfl, rfl, rfl, rfl, rfl⟩

@[simp] theorem flags_setX (m : Machine) (dst : HostReg) (v : BitVec 64) :
    (m.setX dst v).flags = m.flags := by
  unfold Machine.setX
  split <;> rfl

/-- No slot is in the register, except one that is not written yet. -/
def Loose (u : Stage) (e : Emitter) (dst : HostReg) : Prop :=
  ∀ slot, e.integers.binding slot = .host dst → u.ints.hole = some slot

theorem Sim.loose_bound (h : Sim s u c e m) (hb : e.integers.Bound slot dst)
    (hh : u.ints.hole = some slot) : Loose u e dst := by
  intro slot' hb'
  rw [hh, h.ints.ready.owned.host_inj hb.1 hb']

theorem Sim.loose_held (h : Sim s u c e m) (hr : u.ints.held.contains dst = true) :
    Loose u e dst := by
  intro slot hb
  have := h.ints.ready.owned.not_scratch hb
  rw [h.ints.ready.held, hr] at this
  simp at this

theorem Sim.not_mem_order (h : Sim s u c e m) (hd : dst ∉ s.ints.order) : Loose u e dst := by
  intro slot hb
  have := h.ints.ready.owned.owner_mem dst slot ((h.ints.ready.owned.owner_iff dst slot).2 hb)
  rw [h.ints.ready.order] at this
  exact absurd this hd

theorem Sim.mem_order (h : Sim s u c e m) (hd : e.integers.Owns dst) : dst ∈ s.ints.order :=
  h.ints.ready.mem_order hd

theorem Sim.ne_zeroReg (h : Sim s u c e m) (hd : e.integers.Owns dst) : dst ≠ zeroReg :=
  s.ne_zeroReg (h.mem_order hd)

theorem Setting.zeroReg_not_mem (s : Setting) : zeroReg ∉ s.ints.order :=
  fun h => s.ne_zeroReg h rfl

theorem Setting.flushReg_not_mem (s : Setting) : flushReg ∉ s.ints.order :=
  fun h => (s.accepted.goodPool .general).ne_flushReg h rfl

/-- Held registers are not those of slots. -/
theorem Sim.bound_ne_held (h : Sim s u c e m) {r : HostReg} (hb : e.integers.Bound slot dst)
    (hr : u.ints.held.contains r = true) : dst ≠ r := by
  rintro rfl
  have := h.ints.ready.owned.not_scratch hb.1
  rw [h.ints.ready.held, hr] at this
  simp at this

/-- Another machine for the same emitter. -/
theorem Sim.of_same (h : Sim s u c e m) (hl : Loose u e dst) (hm : SameBut dst m m')
    (hca : ∀ b, c.ca = some b → CarryIs u.carry m' b) : Sim s u c e m' where
  fixed := h.fixed
  around :=
    { stack := hm.stack.trans h.around.stack
      flush := hm.flush.trans h.around.flush
      interpreter := hm.interpreter.trans h.around.interpreter
      soOv := (congrArg (fun state => State.fetch state .xerSoOv) hm.state).trans h.around.soOv
      fpscr := (congrArg (fun state => State.fetch state .fpscr) hm.state).trans h.around.fpscr }
  ints := by
    apply h.ints.of_write hl
    · rw [hm.state]
      exact h.ints.holds.on
    · intro q _ hq
      exact hm.x q hq
    · intro slot
      rw [hm.state]
  vecs := by
    apply h.vecs.of_frame
    · rw [hm.state]
      exact h.vecs.holds.on
    · intro r _
      exact congrArg (fun bank => Bank.get bank r) hm.v
    · intro slot
      rw [hm.state]
  ca := hca

theorem CarryIs.of_same {carry : Carry} {b : Bool} (h : CarryIs carry m b) (hm : SameBut dst m m')
    (hf : m'.flags = m.flags) : CarryIs carry m' b := by
  cases carry with
  | inGuestState => exact (congrArg (fun state => State.fetch state .xerCa) hm.state).trans h
  | inHostCarry => exact (congrArg Flags.c hf).trans h
  | constantTrue | constantFalse => exact h

theorem Sim.with_buffer (h : Sim s u c e m) {code : CodeBuffer} (hc : code.Ok) :
    Sim s u c { e with code } m :=
  ⟨{ h.fixed with code := hc }, h.around, h.ints, h.vecs, h.ca⟩

theorem Sim.with_code (h : Sim s u c e m) (inst : Inst) :
    Sim s u c { e with code := e.code.emit inst } m :=
  h.with_buffer (h.fixed.code.emit inst)

theorem SameBut.keeps (hm : SameBut dst m m') (hi : e'.integers = e.integers)
    (hv : e'.vectors = e.vectors) : KeepsBut dst e m e' m' where
  bound _ _ hb := hi ▸ hb
  has hr hx := ⟨hi ▸ hx.owns, (hm.x _ hr).trans hx.val⟩
  boundV _ _ hb := hv ▸ hb
  hasV hx := ⟨hv ▸ hx.owns, (congrArg (fun bank => Bank.get bank _) hm.v).trans hx.val⟩

theorem Sim.forgetCa (h : Sim s u c e m) : Sim s u (c.setCa none) e m :=
  ⟨h.fixed, { h.around with }, h.ints, h.vecs, by simp [Contents.setCa]⟩

/-- An instruction that writes a register that no slot needs. -/
theorem Sim.emit_spec (h : Sim s u c e m) (hd : e.integers.Owns dst) (hl : Loose u e dst)
    (hs : m.step inst = .next (m.setX dst v)) : wp (emit inst) (fun _ e' m' =>
      Sim s u c e' m' ∧ KeepsBut dst e m e' m' ∧ e'.Has m' dst v) e m := by
  have hsame := SameBut.setX m dst v
  refine wp_emit h.fixed.code hs ⟨?_, hsame.keeps rfl rfl, hd, ?_⟩
  · exact (h.of_same hl hsame fun b hb =>
      (h.ca b hb).of_same hsame (flags_setX m dst v)).with_code inst
  · exact m.getX_setX_self (h.ne_zeroReg hd) v

theorem Sim.owns_held (h : Sim s u c e m) (hr : u.ints.held.contains dst = true) :
    e.integers.Owns dst :=
  .inr (by rw [h.ints.ready.held, hr])

/-- An instruction that writes a scratch register. -/
theorem Sim.emitHeld (h : Sim s u c e m) (hr : u.ints.held.contains dst = true)
    (hs : m.step inst = .next (m.setX dst v)) : wp (emit inst) (fun _ e' m' =>
      Sim s u c e' m' ∧ KeepsBut dst e m e' m' ∧ e'.Has m' dst v) e m :=
  h.emit_spec (h.owns_held hr) (h.loose_held hr) hs

/-- An instruction that writes such a register and the flags. -/
theorem Sim.emitFlags (h : Sim s u c e m) (hd : e.integers.Owns dst) (hl : Loose u e dst)
    {flags : Flags} (hs : m.step inst = .next { m.setX dst v with flags }) :
    wp (emit inst) (fun _ e' m' => Sim s u (c.setCa none) e' m' ∧ KeepsBut dst e m e' m' ∧
      e'.Has m' dst v ∧ m'.flags = flags) e m := by
  have hsame := (SameBut.setX m dst v).flags flags
  refine wp_emit h.fixed.code hs ⟨?_, hsame.keeps rfl rfl, ⟨hd, ?_⟩, rfl⟩
  · exact (h.forgetCa.of_same hl hsame (by simp [Contents.setCa])).with_code inst
  · exact m.getX_setX_self (h.ne_zeroReg hd) v

/-- An instruction that writes the flags only. -/
theorem Sim.emitTest (h : Sim s u c e m) {flags : Flags}
    (hs : m.step inst = .next { m with flags }) :
    wp (emit inst) (fun _ e' m' => Sim s u (c.setCa none) e' m' ∧ Keeps e m e' m' ∧
      m'.flags = flags) e m := by
  have hsame := (SameBut.refl zeroReg m).flags flags
  refine wp_emit h.fixed.code hs ⟨?_, ⟨fun _ _ hb => hb, ?_, fun _ _ hb => hb, ?_⟩, rfl⟩
  · exact (h.forgetCa.of_same (h.not_mem_order s.zeroReg_not_mem) hsame
      (by simp [Contents.setCa])).with_code inst
  · intro r x hx
    exact ⟨hx.owns, hx.val⟩
  · intro r x hx
    exact ⟨hx.owns, hx.val⟩

section Stages

variable {k : Nat} {held locked : RegSet} {hole : Option IntSlot} {carry : Carry} {f : FloatStage}
  {reg : GuestReg}

/-- A slot whose register has been written has the value of the register. -/
theorem Sim.closeGpr
    (h : Sim s ⟨⟨k, held, locked, some (IntSlot.gpr reg)⟩, carry, f⟩ c e m)
    (hb : e.integers.Bound (IntSlot.gpr reg) dst) (hv : m.getX dst = ofWord w) :
    Sim s ⟨⟨k, held, locked, none⟩, carry, f⟩ (c.setGpr reg w) e m where
  fixed := { h.fixed with }
  around := { h.around with }
  ints := by
    rw [Contents.slot_setGpr]
    exact h.ints.close hb hv (IntSlot.fits_gpr reg w)
  vecs := h.vecs
  ca := h.ca

theorem Sim.closeCr {field : CrField}
    (h : Sim s ⟨⟨k, held, locked, some (IntSlot.cr field)⟩, carry, f⟩ c e m)
    (hb : e.integers.Bound (IntSlot.cr field) dst) (hv : m.getX dst = v) :
    Sim s ⟨⟨k, held, locked, none⟩, carry, f⟩ (c.setCr field v) e m where
  fixed := { h.fixed with }
  around := { h.around with }
  ints := by
    rw [Contents.slot_setCr]
    exact h.ints.close hb hv (IntSlot.fits_cr field v)
  vecs := h.vecs
  ca := h.ca

/-- The instruction that gives a general register its new value. -/
theorem Sim.emitGpr (h : Sim s ⟨⟨k, held, locked, some (IntSlot.gpr reg)⟩, carry, f⟩ c e m)
    (hb : e.integers.Bound (IntSlot.gpr reg) dst)
    (hs : m.step inst = .next (m.setX dst (ofWord w))) : wp (emit inst) (fun _ e' m' =>
      Sim s ⟨⟨k, held, locked, none⟩, carry, f⟩ (c.setGpr reg w) e' m' ∧ KeepsBut dst e m e' m' ∧
        e'.Has m' dst (ofWord w)) e m := by
  refine wp_mono (h.emit_spec hb.owns (h.loose_bound hb rfl) hs) ?_
  rintro - e' m' ⟨h', hk, hv⟩
  exact ⟨h'.closeGpr (hk.bound _ _ hb) hv.val, hk, hv⟩

/-- The instruction that gives a general register its new value and sets the flags. -/
theorem Sim.emitGprFlags (h : Sim s ⟨⟨k, held, locked, some (IntSlot.gpr reg)⟩, carry, f⟩ c e m)
    (hb : e.integers.Bound (IntSlot.gpr reg) dst) {flags : Flags}
    (hs : m.step inst = .next { m.setX dst (ofWord w) with flags }) :
    wp (emit inst) (fun _ e' m' =>
      Sim s ⟨⟨k, held, locked, none⟩, carry, f⟩ ((c.setCa none).setGpr reg w) e' m' ∧
        KeepsBut dst e m e' m' ∧ e'.Has m' dst (ofWord w) ∧ m'.flags = flags) e m := by
  refine wp_mono (h.emitFlags hb.owns (h.loose_bound hb rfl) hs) ?_
  rintro - e' m' ⟨h', hk, hv, hf⟩
  exact ⟨h'.closeGpr (hk.bound _ _ hb) hv.val, hk, hv, hf⟩

/-! ## Constants -/

theorem Sim.gprConstant_eq (h : Sim s u c e m) (hc : e.gprConstant? reg = some w) :
    c.gpr reg = w := by
  unfold Emitter.gprConstant? Emitter.wordConstant? Emitter.slotConstant? Cache.constant? at hc
  split at hc
  · next v hv =>
    have hval : c.slot (.gpr reg) = v := h.ints.holds.constant _ v hv
    rw [Contents.slot_gpr] at hval
    rw [Option.map_some, Option.some.injEq, ← hval] at hc
    rw [← hc]
    exact (low_ofWord _).symm
  · simp at hc

theorem Sim.setWord_spec (h : Sim s ⟨⟨k, held, locked, none⟩, carry, f⟩ c e m) (reg : GuestReg)
    (w : BitVec 32) : wp (setWord (.gpr reg) w) (fun _ e' m' =>
      Sim s ⟨⟨k, held, locked, none⟩, carry, f⟩ (c.setGpr reg w) e' m') e m := by
  have hat := h.ints.setConstant trivial (IntSlot.gpr reg) (w.setWidth 64)
  have htr : s.ints.access.truncate (IntSlot.gpr reg) (w.setWidth 64) = ofWord w := by
    have : IntSlot.truncate (.gpr reg) (w.setWidth 64) = ofWord w := by
      rw [IntSlot.truncate, IntSlot.isWide_gpr]
      simp [ofWord]
    exact this
  rw [htr] at hat
  refine wp_modify rfl ⟨{ h.fixed with }, { h.around with }, ?_, h.vecs, h.ca⟩
  rw [Contents.slot_setGpr, h.fixed.layout]
  exact hat

theorem Sim.setCrConstant_spec (h : Sim s ⟨⟨k, held, locked, none⟩, carry, f⟩ c e m)
    (field : CrField) (v : BitVec 64) : wp (setCrConstant field v) (fun _ e' m' =>
      Sim s ⟨⟨k, held, locked, none⟩, carry, f⟩ (c.setCr field v) e' m') e m := by
  have hat := h.ints.setConstant trivial (IntSlot.cr field) v
  have htr : s.ints.access.truncate (IntSlot.cr field) v = v := by
    have : IntSlot.truncate (.cr field) v = v := by
      rw [IntSlot.truncate, IntSlot.isWide_cr, if_pos rfl]
    exact this
  rw [htr] at hat
  refine wp_modify rfl ⟨{ h.fixed with }, { h.around with }, ?_, h.vecs, h.ca⟩
  rw [Contents.slot_setCr, h.fixed.layout]
  exact hat

theorem Sim.foldGpr_spec (h : Sim s ⟨⟨k, held, locked, none⟩, carry, f⟩ c e m) (reg : GuestReg)
    (w : BitVec 32) : wp (foldGpr reg w) (fun _ e' m' =>
      Sim s ⟨⟨k, held, locked, none⟩, carry, f⟩ (c.setGpr reg w) e' m') e m := by
  refine wp_bind (h.setWord_spec reg w) ?_
  intro _ e₁ m₁ h₁
  exact wp_modify rfl ⟨{ h₁.fixed with }, h₁.around, h₁.ints, h₁.vecs, h₁.ca⟩

/-! ## Records -/

/-- The contents with the sign of a result in condition field 0, if the result is recorded. -/
def Contents.recorded (c : Contents) (rc : Bool) (w : BitVec 32) : Contents :=
  if rc then c.setCr 0 (Condition.ofResult w) else c

theorem Sim.recordReg_spec (h : Sim s ⟨⟨k + 1, held, locked, none⟩, carry, f⟩ c e m) {r : HostReg}
    (hr : e.Has m r (ofWord w)) : wp (recordReg r) (fun _ e' m' =>
      Sim s ⟨⟨k, held, locked, none⟩, carry, f⟩ (c.setCr 0 (Condition.ofResult w)) e' m') e m := by
  refine wp_bind (h.writeSlot_spec (IntSlot.cr 0) false) ?_
  rintro cr0 e₁ m₁ ⟨h₁, hk₁, hb, -⟩
  have hr₁ := hk₁.has hr
  have hs : m₁.step (.unary .sxtw64 cr0 r) = .next (m₁.setX cr0 (Condition.ofResult w)) := by
    simp only [Machine.step, hr₁.val, UnaryOp.eval, low_ofWord, Condition.ofResult]
  refine wp_mono (h₁.emit_spec hb.owns (h₁.loose_bound hb rfl) hs) ?_
  rintro - e₂ m₂ ⟨h₂, hk₂, hv⟩
  exact h₂.closeCr (hk₂.bound _ _ hb) hv.val

theorem Sim.weaken {k' : Nat} (h : Sim s ⟨⟨k, held, locked, hole⟩, carry, f⟩ c e m) (hk : k' ≤ k) :
    Sim s ⟨⟨k', held, locked, hole⟩, carry, f⟩ c e m :=
  ⟨{ h.fixed with }, h.around, h.ints.weaken hk, h.vecs, h.ca⟩

theorem Sim.weakenV {k' : Nat} {u : Usage 40} {p : Bank 32 Precision}
    {pd : Bank 32 (Option Precision)} {hole : Option (Fin 32)}
    (h : Sim s ⟨u, carry, ⟨⟨k, held, locked, hole⟩, p, pd⟩⟩ c e m) (hk : k' ≤ k) :
    Sim s ⟨u, carry, ⟨⟨k', held, locked, hole⟩, p, pd⟩⟩ c e m :=
  ⟨{ h.fixed with }, h.around, h.ints, h.vecs.weaken hk, h.ca⟩

theorem Sim.with_stats {u : Stage} (h : Sim s u c e m) (stats : Stats) :
    Sim s u c { e with stats } m :=
  ⟨{ h.fixed with }, h.around, h.ints, h.vecs, h.ca⟩

theorem Sim.record_spec (h : Sim s ⟨⟨k + 1, held, locked, none⟩, carry, f⟩ c e m) {r : HostReg}
    (hr : e.Has m r (ofWord w)) : wp (Lower.record r) (fun _ e' m' =>
      Sim s ⟨⟨k, held, locked, none⟩, carry, f⟩ (c.recorded s.word.rc w) e' m') e m := by
  refine wp_look rfl ?_
  rw [h.fixed.word]
  unfold Contents.recorded
  split
  · exact h.recordReg_spec hr
  · exact wp_pure (h.weaken (Nat.le_succ k))

theorem Sim.recordConstant_spec (h : Sim s ⟨⟨k, held, locked, none⟩, carry, f⟩ c e m)
    (w : BitVec 32) : wp (recordConstant w) (fun _ e' m' =>
      Sim s ⟨⟨k, held, locked, none⟩, carry, f⟩ (c.setCr 0 (Condition.ofResult w)) e' m') e m :=
  h.setCrConstant_spec 0 _

theorem Sim.recordFolded_spec (h : Sim s ⟨⟨k, held, locked, none⟩, carry, f⟩ c e m)
    (w : BitVec 32) : wp (Lower.recordFolded w) (fun _ e' m' =>
      Sim s ⟨⟨k, held, locked, none⟩, carry, f⟩ (c.recorded s.word.rc w) e' m') e m := by
  refine wp_look rfl ?_
  rw [h.fixed.word]
  unfold Contents.recorded
  split
  · exact h.recordConstant_spec w
  · exact wp_pure h

theorem Sim.fold_spec (h : Sim s ⟨⟨k, held, locked, none⟩, carry, f⟩ c e m) (reg : GuestReg)
    (w : BitVec 32) : wp (Lower.fold reg w) (fun _ e' m' =>
      Sim s ⟨⟨k, held, locked, none⟩, carry, f⟩ ((c.setGpr reg w).recorded s.word.rc w) e' m')
      e m := by
  refine wp_bind (h.foldGpr_spec reg w) ?_
  intro _ e₁ m₁ h₁
  exact h₁.recordFolded_spec w

end Stages

end Recompiler.Emit
