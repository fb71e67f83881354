import Recompiler.Proofs.BlockAccounts

/-!
# Code that leaves the rest of the state alone

Instructions that compute, move slots or keep the status word, branches and calls of support
routines write at most the cells of registers and of the status word. Code made of them, and of
exits, keeps every other byte of the state block on every run, those of the carry and those between
the cells included.
-/

namespace Recompiler

open Alloc Arm Block Emit Lower PowerPC

/-! ## Bytes of the state block -/

namespace PowerPC

variable {layout : Layout} {state other : State}

theorem State.On.byte_eq (h : state.On layout) (hv : layout.Valid) {cell : Cell} {k : Nat}
    (hk : cell.Covers layout k) : state.memory.byte k =
      (state.fetch cell).extractLsb' (8 * (k - (cell.offset layout).toNat)) 8 := by
  obtain ⟨hlow, hhigh⟩ := hk
  have hwidth := cell.width_eq
  apply BitVec.eq_of_getLsbD_eq
  intro i hi
  have hbit : 8 * (k - (cell.offset layout).toNat) + i < 8 * cell.bytes := by omega
  have hbyte : (cell.offset layout).toNat + (8 * (k - (cell.offset layout).toNat) + i) / 8 = k := by
    omega
  have hmod : (8 * (k - (cell.offset layout).toNat) + i) % 8 = i := by omega
  rw [BitVec.getLsbD_extractLsb', h.fetch_eq hv, h.layout_eq, Memory.getLsbD_load, hbyte, hmod,
    decide_eq_true hi, decide_eq_true (hwidth ▸ hbit), decide_eq_true hbit]
  rfl

/-- No byte is in two cells. -/
theorem Cell.Covers.unique (hv : layout.Valid) {cell cell' : Cell} {k : Nat}
    (h : cell.Covers layout k) (h' : cell'.Covers layout k) : cell = cell' := by
  by_contra hne
  have hdisjoint := Cell.disjoint hv hne
  obtain ⟨hlow, hhigh⟩ := h
  obtain ⟨hlow', hhigh'⟩ := h'
  omega

/-- The contents of a cell are those of its bytes. -/
theorem State.On.fetch_congr (h : state.On layout) (h' : other.On layout) (hv : layout.Valid)
    {cell : Cell} (hbyte : ∀ k, cell.Covers layout k → state.memory.byte k = other.memory.byte k) :
    state.fetch cell = other.fetch cell := by
  have hwidth := cell.width_eq
  apply BitVec.eq_of_getLsbD_eq
  intro i hi
  have hcovers : cell.Covers layout ((cell.offset layout).toNat + i / 8) :=
    ⟨by omega, by omega⟩
  rw [h.fetch_eq hv, h'.fetch_eq hv, h.layout_eq, h'.layout_eq, Memory.getLsbD_load,
    Memory.getLsbD_load, hbyte _ hcovers]

theorem Memory.ext_byte {a b : Memory} (hsize : a.size = b.size) (h : ∀ k, a.byte k = b.byte k) :
    a = b := by
  obtain ⟨left⟩ := a
  obtain ⟨right⟩ := b
  have hbytes : left = right := by
    apply Array.ext hsize
    intro k hl hr
    have hk := h k
    simpa [Memory.byte, hl, hr] using hk
  rw [hbytes]

/-- The cells of the carry and the overflow bits. -/
def Cell.inXer : Cell → Bool
  | .xerCa | .xerSoOv => true
  | _ => false

/-- Two blocks are the same if all other cells are, and all bytes outside of these. -/
theorem State.On.ext (h : state.On layout) (h' : other.On layout) (hv : layout.Valid)
    (hcell : ∀ cell : Cell, cell.inXer = false → state.fetch cell = other.fetch cell)
    (hbyte : ∀ k, (∀ cell : Cell, cell.Covers layout k → cell.inXer = true) →
      state.memory.byte k = other.memory.byte k) : state = other := by
  have hmemory : state.memory = other.memory := by
    refine Memory.ext_byte (h.size_eq.trans h'.size_eq.symm) fun k => ?_
    by_cases hk : ∃ cell : Cell, cell.Covers layout k ∧ cell.inXer = false
    · obtain ⟨cell, hcovers, hxer⟩ := hk
      rw [h.byte_eq hv hcovers, h'.byte_eq hv hcovers, hcell cell hxer]
    · refine hbyte k fun cell hcovers => ?_
      rw [← Bool.not_eq_false]
      exact fun hxer => hk ⟨cell, hcovers, hxer⟩
  have hlayout : state.layout = other.layout := h.layout_eq.trans h'.layout_eq.symm
  cases state
  cases other
  dsimp only at hmemory hlayout
  rw [hmemory, hlayout]

end PowerPC

/-! ## Steps of the machine -/

namespace Arm

/-- The machine after a step. -/
def Outcome.machine : Outcome → Machine
  | .next m | .jump _ m | .exit m | .fault _ m => m

namespace Machine

variable {m : Machine}

/-- What one instruction keeps, a run of code keeps. -/
theorem runFrom_keeps {I : Machine → Prop} {code : Array Inst}
    (hstep : ∀ i ∈ code, ∀ m : Machine, I m → I (m.step i).machine) (fuel pc : Nat) (m : Machine)
    (h : I m) : I (runFrom code fuel pc m).1 := by
  induction fuel generalizing pc m with
  | zero => exact h
  | succ fuel ih =>
    unfold runFrom
    split
    · exact h
    · next i hi =>
      have hnext := hstep i (Array.mem_of_getElem? hi) m h
      cases hout : m.step i with
      | next m' =>
        rw [hout] at hnext
        exact ih _ _ hnext
      | jump offset m' =>
        rw [hout] at hnext
        dsimp only
        split
        · exact hnext
        · exact ih _ _ hnext
      | exit m' =>
        rw [hout] at hnext
        exact hnext
      | fault fault m' =>
        rw [hout] at hnext
        exact hnext

/-- Places that are visited keep what their instructions keep. -/
theorem Reaches.keeps {I : Machine → Prop} {code : Array Inst} {visited : List Nat}
    {pc pc' : Nat} {m' : Machine} (h : Reaches code visited pc m pc' m')
    (hstep : ∀ k ∈ visited, ∀ i, code[k]? = some i → ∀ m : Machine, I m → I (m.step i).machine)
    (hm : I m) : I m' := by
  induction h with
  | refl => exact hm
  | @cons_next pc pc' inst m m₁ m' visited hc hs _ ih =>
    have hnext := hstep pc List.mem_cons_self inst hc m hm
    rw [hs] at hnext
    exact ih (fun k hk => hstep k (List.mem_cons_of_mem _ hk)) hnext
  | @cons_jump pc pc' target inst offset m m₁ m' visited hc hs _ _ ih =>
    have hnext := hstep pc List.mem_cons_self inst hc m hm
    rw [hs] at hnext
    exact ih (fun k hk => hstep k (List.mem_cons_of_mem _ hk)) hnext

theorem state_popRegs (regs : List HostReg) (m : Machine) :
    (m.popRegs regs).machine.state = m.state := by
  induction regs generalizing m with
  | nil => rfl
  | cons reg regs ih =>
    unfold popRegs
    split
    · rfl
    · exact (ih _).trans (state_setX _ _ _)

theorem state_proceed {α : Type} {result : Except Fault α} {f : α → Machine}
    (h : ∀ a, (f a).state = m.state) : (m.proceed (result.map f)).machine.state = m.state := by
  cases result with
  | ok a => exact h a
  | error fault => rfl

theorem state_writeElement (size : ElemSize) (reg : HostReg) (index : Nat) (value : BitVec 64) :
    (m.proceed (m.writeElement size reg index value)).machine.state = m.state := by
  unfold writeElement
  split <;> rfl

theorem state_branch (c : Prop) [Decidable c] (offset : Int) :
    (if c then Outcome.jump offset m else .next m).machine.state = m.state := by
  split <;> rfl

/-- Instructions that compute leave the guest state alone. -/
theorem state_step_of_computes {i : Inst} (h : i.computes = true) :
    (m.step i).machine.state = m.state := by
  cases i with
  | store | storeVector | call | interpret | exit => cases h
  | movImm32 | movImm64 | unary | binary | setFlags | adc32 | adcs32 | imm32 | addsImm32 | addImm64
  | negs32 | andRor32 | shift | bitfield | cset32 | csel32 | fcvtzs => exact state_setX _ _ _
  | test | testImm | branch | push | farith | ffused | funary | fcmp | fcmpSingle | fabsSingle
  | fcsel | fcvt | fmovFromGeneral | dup | vmov | vmovImm | vand | vadd64 | facgtSingle => rfl
  | load size =>
    cases size <;> exact state_proceed fun _ => state_setX _ _ _
  | loadVector => exact state_proceed fun _ => rfl
  | branchIf | branchIfZero => exact state_branch _ _
  | pop regs => exact state_popRegs _ m
  | fmovToGeneral size dst src =>
    have hstep : m.step (.fmovToGeneral size dst src) =
        m.proceed ((m.readElement size src 0).map fun value => m.setX dst value) := by rw [step]
    rw [hstep]
    exact state_proceed fun _ => state_setX _ _ _
  | umov => exact state_proceed fun _ => state_setX _ _ _
  | insGeneral size dst index src => exact state_writeElement size dst index _
  | insElement size dst dstIndex src srcIndex =>
    show (m.proceed ((m.readElement size src srcIndex).bind fun value =>
      m.writeElement size dst dstIndex value)).machine.state = m.state
    cases m.readElement size src srcIndex with
    | ok value => exact state_writeElement size dst dstIndex value
    | error fault => rfl

end Machine

end Arm

namespace Emit

variable {layout : Layout} {m : Machine} {i : Inst}

/-- Instructions that compute, move slots or keep the status word, and calls, with the carry left
where it is. -/
def Quiet : Permits where
  inst layout i := i.computes = true ∨ (Access.integer layout).Gives i ∨
    (Access.vector layout).Gives i ∨ ∃ reg, i = .store .word reg stateReg layout.fpscr
  calls := True
  carry := False

instance : Allows Quiet where
  computes h := .inl h
  integer h := .inr (.inl h)
  vector h := .inr (.inr (.inl h))
  status := .inr (.inr (.inr ⟨_, rfl⟩))
  calls := trivial

/-- The machine's state block differs from another one at most in the cells of registers and of the
status word. -/
structure Spares (layout : Layout) (before : State) (m : Machine) : Prop where
  on : m.state.On layout
  byte : ∀ k, (∀ cell : PowerPC.Cell, cell.Covers layout k → cell.inXer = true) →
    m.state.memory.byte k = before.memory.byte k

variable {before : State}

theorem Spares.of_state {m' : Machine} (h : Spares layout before m) (hs : m'.state = m.state) :
    Spares layout before m' := ⟨hs ▸ h.on, hs ▸ h.byte⟩

theorem Spares.put (hv : layout.Valid) (h : Spares layout before m) {cell : PowerPC.Cell}
    (hcell : cell.inXer = false) (v : BitVec cell.width) :
    Spares layout before { m with state := m.state.put cell v } where
  on := h.on.put hv cell v
  byte k hk := by
    have hout : ¬cell.Covers layout k := by
      intro hcovers
      rw [hk cell hcovers] at hcell
      cases hcell
    exact (h.on.byte_put hv hout v).trans (h.byte k hk)

theorem computes_of_isBranch (h : i.isBranch = true) : i.computes = true := by
  cases i <;> first | rfl | cases h

/-- A routine writes the status word or nothing. -/
theorem effect_eq (routine : Routine) (arg : BitVec 64) (state : State) :
    routine.effect arg state = state ∨
      ∃ value, routine.effect arg state = state.put .fpscr value := by
  cases routine with
  | fprfSingle | fprfDouble => exact .inr ⟨_, rfl⟩
  | fres | frsqrte | singleToDouble | doubleToSingle => exact .inl rfl

/-- One instruction spares the bytes. -/
theorem Spares.step (hv : layout.Valid) (h : Spares layout before m)
    (hi : Appendable Quiet layout i ∨ i = .exit) : Spares layout before (m.step i).machine := by
  have hcomputes : ∀ {i : Inst}, i.computes = true → Spares layout before (m.step i).machine :=
    fun hi => h.of_state (Machine.state_step_of_computes hi)
  rcases hi with ((hc | hg | hg | ⟨reg, rfl⟩) | hb | ⟨-, routine, rfl⟩) | rfl
  · exact hcomputes hc
  · cases hg with
    | load => exact hcomputes rfl
    | constant slot reg value =>
      refine hcomputes ?_
      unfold Access.integer IntSlot.constant
      dsimp only
      split <;> rfl
    | store slot reg =>
      rw [m.step_store_slot hv h.on]
      refine h.put hv ?_ _
      rcases IntSlot.eq_gpr_or_cr slot with ⟨reg, rfl⟩ | ⟨field, rfl⟩
      · rw [IntSlot.cell_gpr]
        rfl
      · rw [IntSlot.cell_cr]
        rfl
  · cases hg with
    | load | constant => exact hcomputes rfl
    | store slot reg =>
      rw [m.step_store_vector hv h.on]
      have hcell : (PowerPC.Cell.ps slot).inXer = false := rfl
      exact h.put hv hcell _
  · have hstep : m.step (.store .word reg stateReg layout.fpscr) =
        .next { m with state := m.state.put .fpscr (m.getW reg) } :=
      congrArg m.proceed (Machine.writeState_cell hv h.on .fpscr _)
    have hcell : PowerPC.Cell.fpscr.inXer = false := rfl
    rw [hstep]
    exact h.put hv hcell _
  · exact hcomputes (computes_of_isBranch hb)
  · have hstate := (m.called_callRoutine routine).state
    rcases effect_eq routine (m.getX routine.convention.arg) m.state with heffect | ⟨value, heffect⟩
    · exact h.of_state (hstate.trans heffect)
    · have hcell : PowerPC.Cell.fpscr.inXer = false := rfl
      exact (h.put hv hcell value).of_state (hstate.trans heffect)
  · exact h

/-- Code that is quiet, apart from branches, calls and exits, spares the bytes. -/
theorem Spares.runFrom (hv : layout.Valid) (h : Spares layout before m) {code : Array Inst}
    (hcode : ∀ i ∈ code, Appendable Quiet layout i ∨ i = .exit) (fuel pc : Nat) :
    Spares layout before (Machine.runFrom code fuel pc m).1 :=
  Machine.runFrom_keeps (fun i hi _ hm => hm.step hv (hcode i hi)) fuel pc m h

/-- The carry and the overflow bits are among what is spared. -/
theorem Spares.fetch (hv : layout.Valid) (h : Spares layout before m) (hon : before.On layout)
    {cell : PowerPC.Cell} (hcell : cell.inXer = true) : m.state.fetch cell = before.fetch cell := by
  refine h.on.fetch_congr hon hv fun k hk => h.byte k fun other hother => ?_
  rw [← hk.unique hv hother]
  exact hcell

/-- What is appended to a buffer keeps what its instructions keep, whatever was there before. -/
theorem CodeBuffer.Runs.keeps {I : Machine → Prop} {P : Inst → Prop} {a b : CodeBuffer}
    {m' : Machine} (h : a.Runs b m m') (hb : b.Ok) (hP : ∀ {i : Inst}, i.isBranch = true → P i)
    (hfresh : ∀ pos i, a.inst? pos = none → b.inst? pos = some i → P i)
    (hstep : ∀ i, P i → ∀ m : Machine, I m → I (m.step i).machine) (hm : I m) : I m' := by
  obtain ⟨code, -, -, hlaid⟩ := hb.finish
  obtain ⟨visited, -, hvisited, hreaches⟩ := h.run _ _ _ hlaid
  refine hreaches.keeps ?_ hm
  intro k hk i hi
  refine hstep i ?_
  obtain ⟨pos, j, hnone, hsome, rfl⟩ := hvisited k hk
  by_cases hfix : ∃ fixup ∈ b.fixups, fixup.branch = pos
  · obtain ⟨fixup, hmem, rfl⟩ := hfix
    obtain ⟨target, htarget⟩ := hb.placed fixup hmem
    rw [hlaid.branch fixup hmem j target hsome htarget] at hi
    exact hP (Inst.isBranch_of_withOffset hi).2
  · have hplain := hlaid.plain pos j hsome fun fixup hmem heq => hfix ⟨fixup, hmem, heq⟩
    rw [hi] at hplain
    cases hplain
    exact hfresh pos i hnone hsome

/-- Moves that are quiet add code that spares the bytes. -/
theorem Spares.runs (hv : layout.Valid) {e e' : Emitter} {m' : Machine}
    (hlayout : e.layout = layout) (hmoves : e.Moves Quiet e') (hcode : e'.code.Ok)
    (hruns : e.code.Runs e'.code m m') (h : Spares layout before m) : Spares layout before m' := by
  refine hruns.keeps (P := Appendable Quiet layout) hcode (fun hi => .inr (.inl hi)) ?_
    (fun i hi m hm => hm.step hv (.inl hi)) h
  intro pos i hnone hsome
  obtain ⟨insts, hadded, hinsts⟩ := hmoves.added pos.region
  rw [← hlayout]
  apply hinsts
  unfold CodeBuffer.inst? at hnone hsome
  rw [← Array.getElem?_toList, hadded] at hsome
  rw [← Array.getElem?_toList, List.getElem?_eq_none_iff] at hnone
  rw [List.getElem?_append_right hnone] at hsome
  exact List.mem_of_getElem? hsome

/-! ## Quiet blocks -/

variable {e e' : Emitter} {block : CompiledBlock}

/-- All the code of an emitter is quiet, apart from branches and calls. -/
def Emitter.IsQuiet (e : Emitter) : Prop :=
  ∀ region, ∀ i ∈ (e.code.code region).toList, Appendable Quiet e.layout i

theorem Emitter.Moves.isQuiet (h : e.Moves Quiet e') (he : e.IsQuiet) : e'.IsQuiet := by
  intro region i hi
  obtain ⟨insts, hadded, hinsts⟩ := h.added region
  rw [hadded] at hi
  rw [h.layout_eq]
  exact (List.mem_append.1 hi).elim (he region i) (hinsts i)

theorem run_flushCarry (h : e.carry = .inGuestState) : flushCarry.run.run e = (.ok (), e) := by
  unfold flushCarry
  rw [run_get_bind, h]
  rfl

/-- With the carry in memory, only what comes after bringing it there is left. -/
theorem Emits.Flushes.moves {P : Permits} {prog : EmitM Unit} (h : Emits.Flushes P prog)
    (hcarry : e.carry = .inGuestState) (hrun : prog.run.run e = (.ok (), e')) : e.Moves P e' := by
  obtain ⟨rest, rfl, hrest⟩ := h
  rw [run_bind_ok (run_flushCarry hcarry)] at hrun
  exact hrest.moves hrun

/-- Finishing code keeps what is true of all branches. -/
theorem CodeBuffer.forall_finish {b : CodeBuffer} {code : Array Inst} {P : Inst → Prop}
    (hP : ∀ {i : Inst}, i.isBranch = true → P i) (h : b.finish = .ok code)
    (hb : ∀ i ∈ b.near ++ b.far, P i) : ∀ i ∈ code, P i := by
  have hmap := CodeBuffer.map_finish (f := P)
    (fun hi hi' => propext ⟨fun _ => hP hi', fun _ => hP hi⟩) h
  intro i hi
  have hmem : P i ∈ code.map P := Array.mem_map.2 ⟨i, hi, rfl⟩
  rw [hmap] at hmem
  obtain ⟨j, hj, heq⟩ := Array.mem_map.1 hmem
  exact heq ▸ hb j hj

/-- A block whose carry is in memory is closed by quiet code and the exit. -/
theorem Emitter.IsQuiet.finish (he : e.IsQuiet) (hcarry : e.carry = .inGuestState)
    (h : Compiler.finish e = .ok block) :
    ∀ i ∈ block.code, Appendable Quiet e.layout i ∨ i = .exit := by
  have hflush : Emits Quiet (do
      flushIntegers
      flushVectors) := .bind .flushIntegers fun _ => .flushVectors
  unfold Compiler.finish at h
  split at h
  · cases h
  · next e₂ hclose =>
    obtain ⟨⟨⟩, e₁, hall, hexit⟩ := run_bind_eq_ok hclose
    cases hexit
    have hsteps : (do
        flushIntegers
        flushVectors : EmitM Unit).run.run e = (.ok (), e₁) :=
      (run_bind_ok (run_flushCarry hcarry)).symm.trans hall
    have hmoves := hflush.moves hsteps
    have hquiet := hmoves.isQuiet he
    rw [← hmoves.layout_eq]
    unfold Compiler.collected at h
    split at h
    · cases h
    · next code hcode =>
      cases h
      refine CodeBuffer.forall_finish (fun hi => .inl (.inr (.inl hi))) hcode ?_
      have hregion : ∀ region, ∀ i ∈ ((e₁.code.emit .exit).code region).toList,
          Appendable Quiet e₁.layout i ∨ i = .exit := by
        intro region i hi
        rw [CodeBuffer.code_emit] at hi
        rcases List.mem_append.1 hi with hi | hi
        · exact .inl (hquiet region i hi)
        · split at hi
          · exact .inr (List.mem_singleton.1 hi)
          · cases hi
      intro i hi
      rcases Array.mem_append.1 hi with hi | hi
      · exact hregion .near i (Array.mem_toList_iff.2 hi)
      · exact hregion .far i (Array.mem_toList_iff.2 hi)

end Emit

end Recompiler
