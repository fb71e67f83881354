import Recompiler.Proofs.CacheLocks
import Recompiler.Proofs.RoutineCall
import Recompiler.Proofs.VectorSlots

/-!
# Calls of routines in the code of an instruction

An instruction that calls a routine has no general registers, so it can lock those in which the
routine passes values. A call then changes a vector register and the status word, and nothing else.
-/

namespace Recompiler

open Alloc Arm Block PowerPC Ieee

/-- What a routine does to the status word. -/
def Arm.Routine.status (routine : Routine) (arg : BitVec 64) (status : BitVec 32) : BitVec 32 :=
  match routine with
  | .fprfSingle => Status.withClass status (Double.classifyAs arg true)
  | .fprfDouble => Status.withClass status (Double.classifyAs arg false)
  | .fres | .frsqrte | .singleToDouble | .doubleToSingle => status

/-- The effect of a routine, cell by cell. -/
theorem Arm.Routine.fetch_effect {layout : Layout} {state : State} (hv : layout.Valid)
    (h : state.On layout) (routine : Routine) (arg : BitVec 64) :
    (routine.effect arg state).On layout ∧
      (routine.effect arg state).fetch .fpscr = routine.status arg (state.fetch .fpscr) ∧
      ∀ cell, cell ≠ .fpscr → (routine.effect arg state).fetch cell = state.fetch cell := by
  have hput : ∀ value, (state.put .fpscr value).On layout ∧
      (state.put .fpscr value).fetch .fpscr = value ∧
      ∀ cell, cell ≠ .fpscr → (state.put .fpscr value).fetch cell = state.fetch cell :=
    fun value => ⟨h.put hv .fpscr value, h.fetch_put_self hv .fpscr value,
      fun cell hne => h.fetch_put_of_ne hv .fpscr value hne⟩
  cases routine with
  | fprfSingle | fprfDouble => exact hput _
  | fres | frsqrte | singleToDouble | doubleToSingle => exact ⟨h, rfl, fun _ _ => rfl⟩

theorem Arm.callerSaved_of_clobbers {routine : Routine} {r : HostReg}
    (h : routine.convention.clobbers.contains r = true) : callerSaved.contains r = true := by
  have hall : routine.convention.clobbers.sdiff callerSaved = .empty := by
    cases routine <;> decide +kernel
  have hr := congrArg (fun set : RegSet => set.contains r) hall
  simp only [RegSet.contains_sdiff, RegSet.contains_empty, h, Bool.true_and] at hr
  simpa using hr

/-- A slot owns the register, or it is held as scratch. -/
def Alloc.Cache.InUse (cache : Cache 40) (r : HostReg) : Prop :=
  (∃ slot, cache.binding slot = .host r) ∨ cache.pool.scratch.contains r = true

namespace Emit

variable {s : Setting} {c : Contents} {e e' : Emitter} {m m' : Machine} {carry : Carry}
  {f : FloatStage} {routine : Routine} {dst : HostReg}

/-- No general register is in use. -/
def Setting.idle (s : Setting) : Usage 40 := ⟨s.ints.beside .empty, .empty, .empty, none⟩

/-- The general registers of a call are locked, and no other is in use. -/
def Setting.calling (s : Setting) (routine : Routine) : Usage 40 :=
  ⟨s.ints.beside (s.ints.lockable (passedIn routine.convention)), .empty,
    s.ints.lockable (passedIn routine.convention), none⟩

/-! ## Locking -/

theorem run_lockRegs {regs : RegSet}
    (h : (Cache.lock (.integer e.layout) e.integers regs.toList).fault = none) :
    (lockRegs regs).run.run e = (.ok (), { e with
      integers := (Cache.lock (.integer e.layout) e.integers regs.toList).cache
      code := e.code.emitAll (Cache.lock (.integer e.layout) e.integers regs.toList).code }) := by
  unfold lockRegs
  rw [run_get_bind]
  dsimp only
  rw [h]
  rfl

theorem Sim.prepareCall_spec (h : Sim s ⟨s.idle, carry, f⟩ c e m) (routine : Routine) :
    wp (prepareCall routine) (fun call e' m' =>
      call = ⟨routine, passedIn routine.convention⟩ ∧
        Sim s ⟨s.calling routine, carry, f⟩ c e' m' ∧ Keeps e m e' m' ∧ m'.v = m.v) e m := by
  obtain ⟨m', hfault, hstep, hat⟩ := h.ints.lock (passedIn routine.convention)
  have hlock : wp (lockRegs (passedIn routine.convention)) (fun _ e' m' =>
      Sim s ⟨s.calling routine, carry, f⟩ c e' m' ∧ Keeps e m e' m' ∧ m'.v = m.v) e m := by
    have haccess : s.ints.access = .integer e.layout := by rw [h.fixed.layout]; rfl
    rw [haccess] at hfault hstep hat
    refine ⟨(), _, m', run_lockRegs hfault, .emitAll h.fixed.code hstep.exec, ?_, ?_,
      hstep.frame.v rfl⟩
    · exact
        { fixed := { h.fixed with code := h.fixed.code.emitAll _ }
          around := h.around.of_frame hstep.frame
          ints := hat
          vecs := h.vecs_of_frame hstep.frame
          ca := fun b hb => (h.ca b hb).of_frame hstep.frame }
    · refine ⟨hstep.keeps.bound, ?_, fun _ _ hb => hb, ?_⟩
      · intro r v hv
        have := hstep.keeps.has r v ⟨hv.owns, hv.val⟩
        exact ⟨this.1, this.2⟩
      · intro r v hv
        exact ⟨hv.owns, Frame.hasV_of_general hstep.frame hv.val⟩
  refine wp_bind hlock ?_
  intro _ e₁ m₁ hq
  exact wp_pure ⟨rfl, hq⟩

theorem Sim.finishCall_spec (h : Sim s ⟨s.calling routine, carry, f⟩ c e m) :
    wp (finishCall ⟨routine, passedIn routine.convention⟩) (fun _ e' m' =>
      Sim s ⟨s.idle, carry, f⟩ c e' m' ∧ Keeps e m e' m' ∧ m' = m) e m := by
  obtain ⟨hat, hkeeps⟩ := h.ints.unlock
  refine wp_modify rfl ⟨⟨{ h.fixed with }, h.around, hat, h.vecs, h.ca⟩, ⟨hkeeps.bound, ?_,
    fun _ _ hb => hb, fun hx => ⟨hx.owns, hx.val⟩⟩, rfl⟩
  intro r v hv
  have := hkeeps.has r v ⟨hv.owns, hv.val⟩
  exact ⟨this.1, this.2⟩

/-! ## Calling -/

/-- The contents when a routine has noted the class of a result. -/
def Contents.noted (c : Contents) (routine : Routine) (arg : BitVec 64) : Contents :=
  c.setFpscr (routine.status arg c.fpscr)

/-- The registers of the call are locked. -/
structure PreparedCall.Ready (call : PreparedCall) (cache : Cache 40) : Prop where
  owned : cache.Owned
  locked : ∀ r ∈ cache.pool.order, call.locked.contains r = true →
    cache.pool.locked.contains r = true

/-- A register in use that the routine destroys is saved. -/
theorem PreparedCall.Ready.saved {call : PreparedCall} {cache : Cache 40} (h : call.Ready cache)
    {r : HostReg} (hr : cache.InUse r)
    (hclobbers : call.routine.convention.clobbers.contains r = true) :
    (call.saved cache).contains r = true := by
  have hmem : r ∈ cache.pool.order ∧
      ((cache.pool.owner.get r).isSome || cache.pool.scratch.contains r) = true := by
    rcases hr with ⟨slot, hb⟩ | hs
    · have howner := (h.owned.owner_iff r slot).2 hb
      exact ⟨h.owned.owner_mem r slot howner, by rw [howner]; rfl⟩
    · exact ⟨h.owned.scratch_mem r hs, by rw [hs, Bool.or_true]⟩
  have huse : cache.pool.inUse.contains r = true := by
    rw [Pool.inUse, RegSet.contains_ofList, decide_eq_true_eq, List.mem_filter]
    exact hmem
  have hfree : call.locked.contains r = false := by
    by_contra hl
    obtain ⟨hnone, hscratch⟩ :=
      h.owned.locked_free r (h.locked r hmem.1 (eq_true_of_ne_false hl))
    have hheld := hmem.2
    rw [hnone, hscratch] at hheld
    simp at hheld
  rw [PreparedCall.saved, RegSet.contains_sdiff, RegSet.contains_inter, Cache.callerSavedInUse,
    RegSet.contains_inter, huse, callerSaved_of_clobbers hclobbers, hclobbers, hfree]
  rfl

/-- A register of a slot is saved if the routine destroys it. -/
theorem Sim.saved_of_clobbers (h : Sim s ⟨s.calling routine, carry, f⟩ c e m) {slot : IntSlot}
    {r : HostReg} (hb : e.integers.binding slot = .host r)
    (hr : routine.convention.clobbers.contains r = true) :
    (PreparedCall.saved ⟨routine, passedIn routine.convention⟩ e.integers).contains r = true := by
  have hready : PreparedCall.Ready ⟨routine, passedIn routine.convention⟩ e.integers := by
    refine ⟨h.ints.ready.owned, fun q hq hl => ?_⟩
    rw [h.ints.ready.order] at hq
    rw [h.ints.ready.locked, Setting.calling, Home.contains_lockable, hl, decide_eq_true hq]
    rfl
  exact hready.saved (.inl ⟨slot, hb⟩) hr

theorem saved_subset {call : PreparedCall} {cache : Cache 40} {q : HostReg}
    (h : (call.saved cache).contains q = true) :
    call.routine.convention.clobbers.contains q = true := by
  rw [PreparedCall.saved, RegSet.contains_sdiff, RegSet.contains_inter, Bool.and_eq_true,
    Bool.and_eq_true] at h
  exact h.1.2

/-- The emitter stands for the same contents after the code of a call, except for the status word
and for a vector register that no slot needs. -/
theorem Sim.of_call (h : Sim s ⟨s.calling routine, .inGuestState, f⟩ c e m) {arg : BitVec 64}
    {v : Bank 256 (BitVec 128)} (hl : LooseV f e dst)
    (hv : ∀ r, r ≠ dst → v.get r = m.getV r)
    (hcall : Machine.AfterCall routine
      (PreparedCall.saved ⟨routine, passedIn routine.convention⟩ e.integers) arg v m m') :
    Sim s ⟨s.calling routine, .inGuestState, f⟩ (c.noted routine arg) e m' := by
  have hon : m.state.On s.layout := h.ints.holds.on
  obtain ⟨hon', hfpscr, hother⟩ := Routine.fetch_effect s.valid hon routine arg
  rw [← hcall.state] at hon' hfpscr hother
  refine h.of_machine m' _ ?_ ?_ hon' (hfpscr.trans (by rw [h.around.fpscr])) hother hcall.stack
    hcall.flush hcall.interpreter
  · intro slot r hb _
    refine hcall.x r ?_
    cases hr : routine.convention.clobbers.contains r with
    | false => exact .inr rfl
    | true => exact .inl (h.saved_of_clobbers hb hr)
  · intro reg r hb hhole
    refine (congrArg (fun bank => Bank.get bank r) hcall.v).trans (hv r ?_)
    rintro rfl
    exact hhole (hl reg hb)

theorem run_emitCall (call : PreparedCall) (setup teardown : List Inst) (e : Emitter) :
    (emitCall call setup teardown).run.run e = (.ok (), { e with
      code := e.code.emitAll (call.code (call.saved e.integers) setup teardown)
      stats := { e.stats with helperCalls := e.stats.helperCalls + 1 } }) := rfl

/-- A call that gives a vector register a new value, or none. -/
theorem Sim.emitCall_spec (h : Sim s ⟨s.calling routine, .inGuestState, f⟩ c e m)
    {setup : Inst} {teardown : List Inst} {arg : BitVec 64} {v : Bank 256 (BitVec 128)}
    (hl : LooseV f e dst) (hv : ∀ r, r ≠ dst → v.get r = m.getV r)
    (hsetup : ∀ n : Machine, n.v = m.v →
      n.step setup = .next (n.setX routine.convention.arg arg))
    (htear : ∀ n : Machine, n.v = m.v →
      (∀ r w, routine.convention.result = some r → routine.value arg = some w → n.getX r = w) →
      n.execAll teardown = some { n with v }) :
    wp (emitCall ⟨routine, passedIn routine.convention⟩ [setup] teardown) (fun _ e' m' =>
      Sim s ⟨s.calling routine, .inGuestState, f⟩ (c.noted routine arg) e' m' ∧
        (∀ reg r, e.vectors.cache.Bound reg r → e'.vectors.cache.Bound reg r) ∧ m'.v = v) e m := by
  obtain ⟨m', hexec, hcall⟩ := Machine.exec_callCode (m := m)
    ⟨routine, passedIn routine.convention⟩
    (PreparedCall.saved ⟨routine, passedIn routine.convention⟩ e.integers) hsetup htear
    fun _ hq => saved_subset hq
  refine ⟨(), _, m', run_emitCall _ _ _ e, .emitAll h.fixed.code hexec, ?_, fun _ _ hb => hb,
    hcall.v⟩
  have h' := h.of_call hl hv hcall
  exact ⟨{ h'.fixed with code := h.fixed.code.emitAll _ }, h'.around, h'.ints, h'.vecs, h'.ca⟩

/-! ## Result classes -/

theorem element_double_zero (v : BitVec 128) : element v .double 0 = lane v 0 := by
  simp [element, lane, ElemSize.bits]

theorem step_fmovToGeneral (n : Machine) (dst src : HostReg) :
    n.step (.fmovToGeneral .double dst src) = .next (n.setX dst (lane (n.getV src) 0)) := by
  rw [← element_double_zero]
  rfl

/-- The contents when the class of a result has been noted, if somebody looks at it. -/
def Contents.classed (c : Contents) (s : Setting) (single : Bool) (result : BitVec 64) : Contents :=
  if s.config.fprf && s.hints.wantsFprf then
    c.noted (if single then .fprfSingle else .fprfDouble) result
  else c

theorem Sim.updateClass_spec (h : Sim s ⟨s.idle, .inGuestState, f⟩ c e m) (vector : HostReg)
    (single : Bool) : wp (updateClass vector single) (fun _ e' m' =>
      Sim s ⟨s.idle, .inGuestState, f⟩ (c.classed s single (lane (m.getV vector) 0))
        e' m') e m := by
  refine wp_get ?_
  rw [h.fixed.config, h.fixed.hints]
  unfold Contents.classed
  split
  · generalize (if single then Routine.fprfSingle else Routine.fprfDouble) = routine
    refine wp_bind (h.prepareCall_spec routine) ?_
    rintro _ e₁ m₁ ⟨rfl, h₁, -, hv₁⟩
    have hv : m₁.getV vector = m.getV vector := congrArg (fun bank => Bank.get bank vector) hv₁
    have hsetup : ∀ n : Machine, n.v = m₁.v →
        n.step (.fmovToGeneral .double routine.convention.arg vector) =
          .next (n.setX routine.convention.arg (lane (m.getV vector) 0)) := by
      intro n hn
      rw [step_fmovToGeneral, ← hv]
      simp only [Machine.getV, hn]
    refine wp_bind (h₁.emitCall_spec (h₁.looseV_of_not_mem s.vectorScratch_not_mem)
      (fun _ _ => rfl) hsetup (fun n hn _ => by rw [Machine.execAll_nil, ← hn])) ?_
    rintro - e₂ m₂ ⟨h₂, -, -⟩
    refine wp_mono h₂.finishCall_spec ?_
    rintro - e₃ m₃ ⟨h₃, -, -⟩
    exact h₃
  · exact wp_pure h

end Emit

end Recompiler
