import Mathlib.Tactic.Common
import Recompiler.Emit.Call
import Recompiler.Proofs.CodeRun
import Recompiler.Proofs.GuestHomes

/-!
# Calls on the machine

A routine destroys the registers that its convention names and leaves noise in the flags. Code that
saves registers before a call and restores them after it finds them as they were.
-/

namespace Recompiler.Arm.Machine

open PowerPC

/-! ## What a call destroys -/

/-- The machines agree, except for general registers, flags and noise. -/
structure SameOutside (m m' : Machine) : Prop where
  v : m'.v = m.v
  state : m'.state = m.state
  stack : m'.stack = m.stack
  flush : m'.flush = m.flush
  interpreter : m'.interpreter = m.interpreter

theorem SameOutside.refl (m : Machine) : SameOutside m m := ⟨rfl, rfl, rfl, rfl, rfl⟩

theorem SameOutside.trans {l m n : Machine} (h : SameOutside l m) (h' : SameOutside m n) :
    SameOutside l n :=
  ⟨h'.v.trans h.v, h'.state.trans h.state, h'.stack.trans h.stack, h'.flush.trans h.flush,
    h'.interpreter.trans h.interpreter⟩

theorem SameOutside.setX (m : Machine) (r : HostReg) (v : BitVec 64) :
    SameOutside m (m.setX r v) := by
  unfold Machine.setX
  split <;> exact ⟨rfl, rfl, rfl, rfl, rfl⟩

theorem scrambleX_eq (m : Machine) (r : HostReg) :
    m.scrambleX r = { m with noise := m.drawNoise.2.noise }.setX r m.drawNoise.1 := by
  unfold scrambleX drawNoise
  dsimp only

theorem scrambleFlags_eq (m : Machine) : m.scrambleFlags =
    { m with noise := m.drawNoise.2.noise, flags := .ofNat m.drawNoise.1.toNat } := by
  unfold scrambleFlags drawNoise
  dsimp only

theorem SameOutside.scrambleX (m : Machine) (r : HostReg) : SameOutside m (m.scrambleX r) := by
  have hset := SameOutside.setX { m with noise := m.drawNoise.2.noise } r m.drawNoise.1
  rw [scrambleX_eq]
  exact ⟨hset.v, hset.state, hset.stack, hset.flush, hset.interpreter⟩

theorem SameOutside.scrambleFlags (m : Machine) : SameOutside m m.scrambleFlags := by
  rw [scrambleFlags_eq]
  exact ⟨rfl, rfl, rfl, rfl, rfl⟩

theorem getX_scrambleX (m : Machine) {r q : HostReg} (h : q ≠ r) :
    (m.scrambleX r).getX q = m.getX q := by
  rw [scrambleX_eq, getX_setX_of_ne _ h]
  simp only [getX]

theorem getX_scrambleFlags (m : Machine) (q : HostReg) : m.scrambleFlags.getX q = m.getX q := by
  rw [scrambleFlags_eq]
  simp only [getX]

theorem SameOutside.scramble (regs : List HostReg) (m : Machine) :
    SameOutside m (regs.foldl Machine.scrambleX m) := by
  induction regs generalizing m with
  | nil => exact .refl m
  | cons r regs ih => exact (SameOutside.scrambleX m r).trans (ih _)

theorem getX_scramble (regs : List HostReg) (m : Machine) {q : HostReg} (h : q ∉ regs) :
    (regs.foldl Machine.scrambleX m).getX q = m.getX q := by
  induction regs generalizing m with
  | nil => rfl
  | cons r regs ih =>
    rw [List.mem_cons, not_or] at h
    rw [List.foldl_cons, ih _ h.2, getX_scrambleX m h.1]

/-- What a call leaves of the machine. -/
structure Called (routine : Routine) (m m' : Machine) : Prop where
  x : ∀ q : HostReg, routine.convention.clobbers.contains q = false → m'.getX q = m.getX q
  result : ∀ r v, routine.convention.result = some r →
    routine.value (m.getX routine.convention.arg) = some v → m'.getX r = v
  v : m'.v = m.v
  state : m'.state = routine.effect (m.getX routine.convention.arg) m.state
  stack : m'.stack = m.stack
  flush : m'.flush = m.flush
  interpreter : m'.interpreter = m.interpreter

theorem result_mem_clobbers {routine : Routine} {r : HostReg}
    (h : routine.convention.result = some r) :
    routine.convention.clobbers.contains r = true ∧ r ≠ zeroReg := by
  cases routine <;> simp only [Routine.convention, Option.some.injEq, reduceCtorEq] at h <;>
    subst h <;> decide +kernel

/-- The machine of a call when noise has come into its registers. -/
def scrambled (m : Machine) (routine : Routine) : Machine :=
  routine.convention.clobbers.toList.foldl scrambleX
    { m with state := routine.effect (m.getX routine.convention.arg) m.state }

/-- What the result register gets. -/
def withResult (m : Machine) : Option HostReg → Option (BitVec 64) → Machine
  | some reg, some value => m.setX reg value
  | _, _ => m

theorem callRoutine_eq (m : Machine) (routine : Routine) :
    m.callRoutine routine = ((m.scrambled routine).withResult routine.convention.result
      (routine.value (m.getX routine.convention.arg))).scrambleFlags := by
  unfold callRoutine scrambled withResult
  rfl

theorem SameOutside.withResult (m : Machine) (r : Option HostReg) (v : Option (BitVec 64)) :
    SameOutside m (m.withResult r v) := by
  unfold Machine.withResult
  split
  · exact .setX m _ _
  · exact .refl m

theorem called_callRoutine (m : Machine) (routine : Routine) :
    Called routine m (m.callRoutine routine) := by
  have hscr := SameOutside.scramble routine.convention.clobbers.toList
    { m with state := routine.effect (m.getX routine.convention.arg) m.state }
  have hsame := (hscr.trans (.withResult _ routine.convention.result
    (routine.value (m.getX routine.convention.arg)))).trans (.scrambleFlags _)
  have hkept : ∀ q : HostReg, routine.convention.clobbers.contains q = false →
      (m.scrambled routine).getX q = m.getX q := by
    intro q hq
    refine getX_scramble _ _ ?_
    rw [RegSet.mem_toList, hq]
    simp
  rw [callRoutine_eq]
  refine ⟨?_, ?_, hsame.v, hsame.state, hsame.stack, hsame.flush, hsame.interpreter⟩
  · intro q hq
    rw [getX_scrambleFlags, ← hkept q hq]
    unfold withResult
    split
    · next r v hr hv =>
      refine getX_setX_of_ne _ ?_ v
      rintro rfl
      rw [(result_mem_clobbers hr).1] at hq
      simp at hq
    · rfl
  · intro r v hr hv
    rw [getX_scrambleFlags, hr, hv]
    exact getX_setX_self _ (result_mem_clobbers hr).2 v

/-! ## Saving registers -/

theorem push_eq (m : Machine) (regs : List HostReg) (stack : List (BitVec 64)) :
    regs.foldl (fun stack reg => m.getX reg :: stack) stack =
      (regs.reverse.map m.getX) ++ stack := by
  induction regs generalizing stack with
  | nil => rfl
  | cons r regs ih => rw [List.foldl_cons, ih]; simp

/-- Popping gives registers the values on the stack. -/
theorem popRegs_eq (f : HostReg → BitVec 64) (rest : List (BitVec 64)) (regs : List HostReg) :
    ∀ m : Machine, regs.Nodup → (∀ r ∈ regs, r ≠ zeroReg) → m.stack = regs.map f ++ rest →
      ∃ m', m.popRegs regs = .next m' ∧ (∀ q, m'.getX q = if q ∈ regs then f q else m.getX q) ∧
        m'.v = m.v ∧ m'.state = m.state ∧ m'.stack = rest ∧ m'.flush = m.flush ∧
        m'.interpreter = m.interpreter := by
  induction regs with
  | nil =>
    intro m _ _ hs
    exact ⟨m, rfl, by simp, rfl, rfl, hs, rfl, rfl⟩
  | cons r regs ih =>
    intro m hn hz hs
    rw [List.nodup_cons] at hn
    rw [List.map_cons, List.cons_append] at hs
    have hsame := SameOutside.setX { m with stack := regs.map f ++ rest } r (f r)
    obtain ⟨m', hpop, hx, hv, hst, hstack, hfl, hint⟩ :=
      ih ({ m with stack := regs.map f ++ rest }.setX r (f r)) hn.2
        (fun q hq => hz q (List.mem_cons_of_mem r hq)) hsame.stack
    refine ⟨m', ?_, ?_, hv.trans hsame.v, hst.trans hsame.state, hstack, hfl.trans hsame.flush,
      hint.trans hsame.interpreter⟩
    · rw [popRegs, hs]
      exact hpop
    · intro q
      rw [hx q]
      by_cases hq : q = r
      · subst hq
        rw [if_neg hn.1, if_pos List.mem_cons_self]
        exact getX_setX_self _ (hz q List.mem_cons_self) _
      · have hmem : q ∈ r :: regs ↔ q ∈ regs := by simp [hq]
        simp only [hmem]
        split
        · rfl
        · exact getX_setX_of_ne { m with stack := regs.map f ++ rest } hq _

/-! ## The code of a call -/

theorem arg_mem_clobbers (routine : Routine) :
    routine.convention.clobbers.contains routine.convention.arg = true ∧
      routine.convention.arg ≠ zeroReg := by
  cases routine <;> decide +kernel

theorem zeroReg_not_clobbered (routine : Routine) :
    routine.convention.clobbers.contains zeroReg = false := by
  cases routine <;> decide +kernel

/-- What the code of a call leaves of the machine, if it saves the given registers. -/
structure AfterCall (routine : Routine) (saved : RegSet) (arg : BitVec 64)
    (v : Bank 256 (BitVec 128)) (m m' : Machine) : Prop where
  x : ∀ q : HostReg, saved.contains q = true ∨ routine.convention.clobbers.contains q = false →
    m'.getX q = m.getX q
  v : m'.v = v
  state : m'.state = routine.effect arg m.state
  stack : m'.stack = m.stack
  flush : m'.flush = m.flush
  interpreter : m'.interpreter = m.interpreter

variable {routine : Routine} {setup teardown : List Inst} {m : Machine} {arg : BitVec 64}
  {v : Bank 256 (BitVec 128)}

/-- The machine when a routine has been called with an argument. -/
def calledWith (m : Machine) (routine : Routine) (arg : BitVec 64) : Machine :=
  (m.setX routine.convention.arg arg).callRoutine routine

theorem called_calledWith (m : Machine) (routine : Routine) (arg : BitVec 64) :
    (∀ r w, routine.convention.result = some r → routine.value arg = some w →
      (m.calledWith routine arg).getX r = w) ∧
    AfterCall routine .empty arg m.v m (m.calledWith routine arg) := by
  obtain ⟨hclob, hz⟩ := arg_mem_clobbers routine
  have hset := SameOutside.setX m routine.convention.arg arg
  have harg : (m.setX routine.convention.arg arg).getX routine.convention.arg = arg :=
    getX_setX_self m hz arg
  have hcalled := called_callRoutine (m.setX routine.convention.arg arg) routine
  have hstate := hcalled.state
  have hresult := hcalled.result
  rw [harg] at hstate hresult
  refine ⟨hresult, ?_, hcalled.v.trans hset.v, hstate.trans (by rw [hset.state]),
    hcalled.stack.trans hset.stack, hcalled.flush.trans hset.flush,
    hcalled.interpreter.trans hset.interpreter⟩
  intro q hq
  have hq' : routine.convention.clobbers.contains q = false := by simpa using hq
  have hne : q ≠ routine.convention.arg := by
    rintro rfl
    rw [hclob] at hq'
    simp at hq'
  exact (hcalled.x q hq').trans (getX_setX_of_ne m hne arg)

/-- The call itself, between saving and restoring. -/
theorem exec_unsavedCall {n : Machine}
    (hsetup : n.execAll setup = some (n.setX routine.convention.arg arg))
    (htear : (n.calledWith routine arg).execAll teardown =
      some { n.calledWith routine arg with v }) :
    ∃ n', n.execAll (setup ++ [.call routine] ++ teardown) = some n' ∧
      AfterCall routine .empty arg v n n' := by
  obtain ⟨-, hcall⟩ := called_calledWith n routine arg
  refine ⟨{ n.calledWith routine arg with v }, ?_, hcall.x, rfl, hcall.state, hcall.stack,
    hcall.flush, hcall.interpreter⟩
  rw [List.append_assoc, execAll_append _ hsetup, List.singleton_append, execAll_cons _ rfl]
  exact htear

/-- The machine with registers saved on its stack. -/
def pushed (m : Machine) (saved : RegSet) : Machine :=
  { m with stack := saved.toList.foldl (fun stack reg => m.getX reg :: stack) m.stack }

theorem pushed_empty (m : Machine) : m.pushed .empty = m := by
  have hnone : RegSet.empty.toList = [] := by
    simp [RegSet.toList]
  rw [pushed, hnone]
  rfl

/-- The code of a call leaves the registers alone that are saved or that the routine spares. -/
theorem exec_savedCall (call : Emit.PreparedCall) (saved : RegSet)
    (hsetup : (m.pushed saved).execAll setup =
      some ((m.pushed saved).setX call.routine.convention.arg arg))
    (htear : ((m.pushed saved).calledWith call.routine arg).execAll teardown =
      some { (m.pushed saved).calledWith call.routine arg with v })
    (hsaved : ∀ q : HostReg, saved.contains q = true →
      call.routine.convention.clobbers.contains q = true) :
    ∃ m', m.execAll (call.code saved setup teardown) = some m' ∧
      AfterCall call.routine saved arg v m m' := by
  unfold Emit.PreparedCall.code
  obtain ⟨n₁, hexec, hafter⟩ := exec_unsavedCall hsetup htear
  split
  · next hempty =>
    rw [RegSet.isEmpty_iff] at hempty
    subst hempty
    rw [pushed_empty] at hexec hafter
    exact ⟨n₁, by simpa using hexec, hafter⟩
  · have hnz : ∀ r ∈ saved.toList.reverse, r ≠ zeroReg := by
      rintro r hr rfl
      rw [List.mem_reverse, RegSet.mem_toList] at hr
      have := hsaved zeroReg hr
      rw [zeroReg_not_clobbered] at this
      simp at this
    have hpush : m.step (.push saved) = .next (m.pushed saved) := rfl
    have hstep : ∀ l : Machine, l.step (.pop saved) = l.popRegs saved.toList.reverse := fun _ => rfl
    have hstack : n₁.stack = saved.toList.reverse.map m.getX ++ m.stack :=
      hafter.stack.trans (push_eq m _ _)
    obtain ⟨m', hpop, hx, hv, hst, hs, hfl, hint⟩ := popRegs_eq m.getX m.stack _ n₁
      (List.pairwise_reverse.2 (saved.toList_nodup.imp Ne.symm)) hnz hstack
    refine ⟨m', ?_, ?_, hv.trans hafter.v, hst.trans hafter.state, hs, hfl.trans hafter.flush,
      hint.trans hafter.interpreter⟩
    · have hmid : (m.pushed saved).execAll
          (setup ++ [.call call.routine] ++ teardown ++ [.pop saved]) = some m' := by
        rw [execAll_append _ hexec, execAll_cons _ ((hstep n₁).trans hpop)]
        rfl
      rw [List.append_assoc, List.append_assoc, List.append_assoc, List.singleton_append,
        execAll_cons _ hpush]
      simpa using hmid
    · intro q hq
      rw [hx q]
      have hmem : q ∈ saved.toList.reverse ↔ saved.contains q = true := by
        rw [List.mem_reverse, RegSet.mem_toList]
      rw [if_congr hmem rfl rfl]
      split
      · rfl
      · next hns =>
        rcases hq with hq | hq
        · exact absurd hq hns
        · exact hafter.x q (.inr hq)

/-- A call whose argument and result pass through vector registers. -/
theorem exec_callCode {setup : Inst} (call : Emit.PreparedCall) (saved : RegSet)
    (hsetup : ∀ n : Machine, n.v = m.v →
      n.step setup = .next (n.setX call.routine.convention.arg arg))
    (htear : ∀ n : Machine, n.v = m.v →
      (∀ r w, call.routine.convention.result = some r → call.routine.value arg = some w →
        n.getX r = w) → n.execAll teardown = some { n with v })
    (hsaved : ∀ q : HostReg, saved.contains q = true →
      call.routine.convention.clobbers.contains q = true) :
    ∃ m', m.execAll (call.code saved [setup] teardown) = some m' ∧
      AfterCall call.routine saved arg v m m' := by
  obtain ⟨hresult, hcall⟩ := called_calledWith (m.pushed saved) call.routine arg
  exact exec_savedCall call saved (execAll_cons [] (hsetup (m.pushed saved) rfl))
    (htear _ hcall.v hresult) hsaved

end Recompiler.Arm.Machine
