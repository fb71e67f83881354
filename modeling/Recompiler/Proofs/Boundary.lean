import Recompiler.Block.Compiler
import Recompiler.Proofs.CacheHistory
import Recompiler.Proofs.Tracking

/-!
# Between instructions

`Boundary s carry p c e m` says that emitter and machine stand for guest contents while no
instruction is under way. A flush brings everything to guest memory; from then on the emitter stands
for whatever memory holds, so that the interpreter may change it.
-/

namespace Recompiler

open Alloc Arm Block Emit Lower PowerPC

/-! ## Precisions -/

/-- A loop over all slots whose step replaces, or keeps, the cell of its slot. -/
theorem Bank.get_foldl {n : Nat} {α : Type} {step : Bank n α → Fin n → Bank n α}
    {f : Fin n → Option α} (hstep : ∀ bank j, step bank j = (f j).elim bank (bank.set j))
    (bank : Bank n α) (i : Fin n) :
    ((List.finRange n).foldl step bank).get i = (f i).getD (bank.get i) := by
  have hslots : ∀ (slots : List (Fin n)) (bank : Bank n α), (slots.foldl step bank).get i =
      if i ∈ slots then (f i).getD (bank.get i) else bank.get i := by
    intro slots
    induction slots with
    | nil => simp
    | cons j slots ih =>
      intro bank
      rw [List.foldl_cons, ih, hstep]
      by_cases hij : i = j
      · subst hij
        cases f i <;> simp
      · cases f j <;> simp [Bank.get_set, hij]
  rw [hslots, if_pos (List.mem_finRange i)]

/-- The precisions when the registers of a mask have been noted as single. -/
def seeded (p : Bank 32 Precision) (mask : BitVec 32) : Bank 32 Precision :=
  (List.finRange 32).foldl
    (fun bank reg => if mask.getLsbD reg.val then bank.set reg .bothSingle else bank) p

/-- The precisions when those to come have taken effect. -/
def committed (p : Bank 32 Precision) (pd : Bank 32 (Option Precision)) : Bank 32 Precision :=
  (List.finRange 32).foldl
    (fun bank reg => match pd.get reg with
      | some precision => bank.set reg precision
      | none => bank) p

theorem get_seeded (p : Bank 32 Precision) (mask : BitVec 32) (reg : GuestReg) :
    (seeded p mask).get reg = if mask.getLsbD reg.val then .bothSingle else p.get reg := by
  rw [seeded,
    Bank.get_foldl (f := fun reg => if mask.getLsbD reg.val then some .bothSingle else none)]
  · cases mask.getLsbD reg.val <;> rfl
  · intro bank j
    cases mask.getLsbD j.val <;> rfl

theorem get_committed (p : Bank 32 Precision) (pd : Bank 32 (Option Precision)) (reg : GuestReg) :
    (committed p pd).get reg = (pd.get reg).getD (p.get reg) := by
  rw [committed, Bank.get_foldl (f := fun reg => pd.get reg)]
  intro bank j
  cases pd.get j <;> rfl

/-! ## Caches without bindings -/

namespace Alloc.Cache

variable {n : Nat} {V : Type} {home : Home n V} {cache : Cache n} {u : Usage n} {m : Machine}

/-- A cache whose slots are all in memory stands for what memory holds. -/
theorem Ready.at_memory (h : Ready home cache u) (hcells : ∀ slot, cache.cells.get slot = {})
    (hon : m.state.On home.layout) : At home cache m (home.mem m.state) u where
  ready := h
  holds := by
    have hbinding : ∀ slot, cache.binding slot = .memory := fun slot => by
      rw [Cache.binding, hcells]
    refine ⟨hon, ?_, fun _ _ => rfl, ?_, fun slot _ => home.mem_fits _ slot hon⟩
    · intro slot r hb
      rw [hbinding] at hb
      simp at hb
    · intro slot v hb
      rw [hbinding] at hb
      simp at hb

theorem Ready.new (home : Home n V) (cls : RegClass) :
    Ready home (.new cls home.order) ⟨home.order.length, .empty, .empty, none⟩ where
  order := rfl
  owned := owned_new cls home.order
  clean slot _ := by simp [Cache.isDirty, Cache.new]
  const slot v hb := by simp [Cache.binding, Cache.new] at hb
  room := by
    have hbusy : (Cache.new cls home.order : Cache n).pool.busy = 0 :=
      Pool.busy_eq_zero rfl rfl rfl
    rw [hbusy, Nat.zero_add]
  held := rfl
  locked := rfl
  hole slot hs := by simp at hs

end Alloc.Cache

/-! ## What calls of the interpreter leave alone -/

namespace Arm.Machine

/-- Two machines have the same guest and the same surroundings. -/
structure SameGuest (m m' : Machine) : Prop where
  state : m'.state = m.state
  stack : m'.stack = m.stack
  flush : m'.flush = m.flush
  interpreter : m'.interpreter = m.interpreter

theorem SameGuest.trans {l m n : Machine} (h : SameGuest l m) (h' : SameGuest m n) :
    SameGuest l n :=
  ⟨h'.state.trans h.state, h'.stack.trans h.stack, h'.flush.trans h.flush,
    h'.interpreter.trans h.interpreter⟩

theorem SameOutside.guest {m m' : Machine} (h : SameOutside m m') : SameGuest m m' :=
  ⟨h.state, h.stack, h.flush, h.interpreter⟩

theorem SameGuest.scrambleV (regs : List HostReg) (m : Machine) :
    SameGuest m (regs.foldl Machine.scrambleV m) := by
  induction regs generalizing m with
  | nil => exact ⟨rfl, rfl, rfl, rfl⟩
  | cons r regs ih =>
    have hstep : SameGuest m (m.scrambleV r) := ⟨rfl, rfl, rfl, rfl⟩
    exact hstep.trans (ih _)

theorem SameGuest.scrambleCallerSaved (m : Machine) : SameGuest m m.scrambleCallerSaved :=
  ((SameOutside.scramble _ m).guest.trans (.scrambleV _ _)).trans
    (SameOutside.scrambleFlags _).guest

theorem step_interpret {m : Machine} {word : Word} {after : State}
    (h : m.interpreter.step m.state word = .ok after) :
    ∃ m', m.step (.interpret word) = .next m' ∧ SameGuest { m with state := after } m' := by
  refine ⟨_, ?_, .scrambleCallerSaved _⟩
  simp only [step, h]
  rfl

theorem step_interpret_fault {m : Machine} {word : Word} {fault : Fault}
    (h : m.interpreter.step m.state word = .error fault) :
    m.step (.interpret word) = .fault fault m := by
  simp only [step, h]
  rfl

end Arm.Machine

namespace Emit

variable {s : Setting} {carry : Carry} {p : Bank 32 Precision} {pd : Bank 32 (Option Precision)}
  {c : Contents} {e e' : Emitter} {m m' : Machine} {iu : Usage 40} {f : FloatStage} {k kv : Nat}
  {held locked heldV lockedV : RegSet}

/-! ## Beginning and ending -/

/-- The setting of another instruction. -/
def Setting.reading (s : Setting) (word : Word) (hints : Hints) (next : Option NextInstruction) :
    Setting := { s with word, hints, next }

/-- Nothing is in use. -/
def Setting.rest (s : Setting) (carry : Carry) (p : Bank 32 Precision) : Stage :=
  ⟨s.idle, carry, ⟨⟨s.vecs.order.length, .empty, .empty, none⟩, p, .replicate 32 none⟩⟩

/-- Emitter and machine stand for the contents, and no instruction is under way. -/
def Boundary (s : Setting) (carry : Carry) (p : Bank 32 Precision) (c : Contents) (e : Emitter)
    (m : Machine) : Prop :=
  Sim (s.reading e.word e.hints e.next) (s.rest carry p) c e m

theorem Boundary.begin_spec (h : Boundary s carry p c e m) (word : Word) (hints : Hints)
    (next : Option NextInstruction) : wp (beginInstruction word hints next) (fun _ e' m' =>
      Sim (s.reading word hints next) (s.rest carry (seeded p hints.singles)) c e' m') e m := by
  have hprecision : e.vectors.precision = p := h.fixed.precision
  refine wp_modify rfl ⟨⟨h.fixed.config, h.fixed.layout, rfl, rfl, rfl, ?_, h.fixed.pending,
    h.fixed.carry, h.fixed.code⟩, ⟨h.around.stack, h.around.flush, h.around.interpreter,
    h.around.soOv, h.around.fpscr⟩, h.ints, h.vecs, h.ca⟩
  exact congrArg (fun p => seeded p hints.singles) hprecision

theorem Sim.end_spec (h : Sim s ⟨⟨k, .empty, .empty, none⟩, carry,
      ⟨⟨kv, .empty, .empty, none⟩, p, pd⟩⟩ c e m) :
    wp endInstruction (fun _ e' m' => Boundary s carry (committed p pd) c e' m' ∧
      e'.code = e.code ∧ m' = m) e m := by
  obtain ⟨ints, hints, hat, -, -⟩ := h.ints.endInstruction
  obtain ⟨vecs, hvecs, hatv, -, -⟩ := h.vecs.endInstruction
  have hprecision : e.vectors.precision = p := h.fixed.precision
  have hpending : e.vectors.pending = pd := h.fixed.pending
  have hrun : endInstruction.run.run e = (.ok (), { e with
      integers := ints
      vectors := { e.vectors with cache := vecs }.commit }) := by
    have hfirst : endIntegers.run.run e = (.ok (), { e with integers := ints }) := by
      unfold endIntegers
      rw [run_get_bind, hints]
      rfl
    unfold endInstruction
    rw [run_bind_ok hfirst]
    unfold endVectors
    rw [run_get_bind]
    simp only [Vectors.endInstruction, hvecs]
    rfl
  refine ⟨(), _, m, hrun, .refl _ _, ⟨⟨h.fixed.config, h.fixed.layout, rfl, rfl, rfl, ?_, rfl,
    h.fixed.carry, h.fixed.code⟩, ⟨h.around.stack, h.around.flush, h.around.interpreter,
    h.around.soOv, h.around.fpscr⟩, ?_, hatv, h.ca⟩, rfl, rfl⟩
  · show committed e.vectors.precision e.vectors.pending = committed p pd
    rw [hprecision, hpending]
  · have hroom : s.ints.beside .empty = s.ints.order.length := s.ints.beside_empty
    unfold Setting.rest Setting.idle
    rw [hroom]
    exact hat

/-! ## Flushing -/

/-- Every slot is in memory, and memory is up to date. -/
structure Emitter.InMemory (e : Emitter) : Prop where
  ints : ∀ slot, e.integers.cells.get slot = {}
  vecs : ∀ reg, e.vectors.cache.cells.get reg = {}

theorem Sim.flushIntegers_spec (h : Sim s ⟨⟨k, held, locked, none⟩, carry, f⟩ c e m) :
    wp flushIntegers (fun _ e' m' => Sim s ⟨⟨k, held, locked, none⟩, carry, f⟩ c e' m' ∧
      ∀ slot, e'.integers.cells.get slot = {}) e m := by
  obtain ⟨m', hexec, hframe, hat, hcells⟩ := h.ints.flush
  have haccess : s.ints.access = .integer e.layout := by
    rw [h.fixed.layout]
    rfl
  rw [haccess] at hexec hat hcells
  refine ⟨(), _, m', rfl, .emitAll h.fixed.code hexec, ?_, hcells⟩
  exact
    { fixed := { h.fixed with code := h.fixed.code.emitAll _ }
      around := h.around.of_frame hframe
      ints := hat
      vecs := h.vecs_of_frame hframe
      ca := fun b hb => (h.ca b hb).of_frame hframe }

theorem Sim.flushVectors_spec (h : Sim s ⟨iu, carry, ⟨⟨kv, heldV, lockedV, none⟩, p, pd⟩⟩ c e m) :
    wp flushVectors (fun _ e' m' => Sim s ⟨iu, carry, ⟨⟨kv, heldV, lockedV, none⟩, p, pd⟩⟩ c e' m' ∧
      e'.integers = e.integers ∧ ∀ reg, e'.vectors.cache.cells.get reg = {}) e m := by
  obtain ⟨m', hexec, hframe, hat, hcells⟩ := h.vecs.flush
  have haccess : s.vecs.access = .vector e.layout := by
    rw [h.fixed.layout]
    rfl
  rw [haccess] at hexec hat hcells
  refine ⟨(), _, m', rfl, .emitAll h.fixed.code hexec, ?_, rfl, hcells⟩
  exact
    { fixed := { h.fixed with code := h.fixed.code.emitAll _ }
      around := h.around.of_frame hframe
      ints := h.ints_of_frame hframe
      vecs := hat
      ca := fun b hb => (h.ca b hb).of_frame hframe }

theorem Sim.flushAll_spec (h : Sim s ⟨⟨k, held, locked, none⟩, carry,
      ⟨⟨kv, heldV, lockedV, none⟩, p, pd⟩⟩ c e m) : wp flushAll (fun _ e' m' =>
        Sim s ⟨⟨k, held, locked, none⟩, .inGuestState,
          ⟨⟨kv, heldV, lockedV, none⟩, p, pd⟩⟩ c e' m' ∧
          e'.InMemory) e m := by
  refine wp_bind h.flushCarry_spec ?_
  rintro - e₁ m₁ ⟨h₁, -⟩
  refine wp_bind h₁.flushIntegers_spec ?_
  rintro - e₂ m₂ ⟨h₂, hints⟩
  refine wp_mono h₂.flushVectors_spec ?_
  rintro - e₃ m₃ ⟨h₃, hsame, hvecs⟩
  exact ⟨h₃, hsame ▸ hints, hvecs⟩

/-! ## Memory and contents -/

/-- The contents that memory holds. A carry byte other than zero and one stands for nothing. -/
def Contents.ofState (state : State) : Contents where
  gpr reg := state.fetch (.gpr reg)
  cr field := state.fetch (.cr field)
  ps reg := state.fetch (.ps reg)
  ca :=
    if state.fetch .xerCa = 0#8 then some false
    else if state.fetch .xerCa = 1#8 then some true
    else none
  soOv := state.fetch .xerSoOv
  fpscr := state.fetch .fpscr

theorem Contents.ca_ofState {state : State} {b : Bool} (h : (Contents.ofState state).ca = some b) :
    state.fetch .xerCa = (BitVec.ofBool b).setWidth 8 := by
  unfold ofState at h
  dsimp only at h
  split at h
  · next hz => rw [hz, ← Option.some.inj h]; rfl
  · split at h
    · next ho => rw [ho, ← Option.some.inj h]; rfl
    · simp at h

theorem Setting.mem_gpr (s : Setting) (state : State) (reg : GuestReg) :
    s.ints.mem state (IntSlot.gpr reg) = ofWord (state.fetch (.gpr reg)) := by
  have hcell : ∀ cell, cell = PowerPC.Cell.gpr reg →
      (state.fetch cell).setWidth 64 = ofWord (state.fetch (.gpr reg)) := by
    rintro _ rfl
    rfl
  exact hcell _ (IntSlot.cell_gpr reg)

theorem Setting.mem_cr (s : Setting) (state : State) (field : CrField) :
    s.ints.mem state (IntSlot.cr field) = state.fetch (.cr field) := by
  have hcell : ∀ cell, cell = PowerPC.Cell.cr field →
      (state.fetch cell).setWidth 64 = state.fetch (.cr field) := by
    rintro _ rfl
    exact BitVec.setWidth_eq _
  exact hcell _ (IntSlot.cell_cr field)

/-- With everything in memory, memory holds the contents. -/
theorem Sim.fetch_eq (h : Sim s ⟨iu, .inGuestState, f⟩ c e m) (hmem : e.InMemory)
    (cell : PowerPC.Cell) (hcell : cell = .xerCa → c.ca.isSome = true) :
    m.state.fetch cell = c.cell cell := by
  have hslot : ∀ slot, s.ints.mem m.state slot = c.slot slot := by
    intro slot
    apply h.ints.holds.memory
    rw [Cache.isDirty, hmem.ints]
  cases cell with
  | gpr reg =>
    have hgpr := hslot (IntSlot.gpr reg)
    rw [Contents.slot_gpr, s.mem_gpr] at hgpr
    exact (low_ofWord _).symm.trans ((congrArg low hgpr).trans (low_ofWord _))
  | cr field =>
    have hcr := hslot (IntSlot.cr field)
    rwa [Contents.slot_cr, s.mem_cr] at hcr
  | ps reg =>
    apply h.vecs.holds.memory
    rw [Cache.isDirty, hmem.vecs]
  | xerCa =>
    obtain ⟨b, hb⟩ := Option.isSome_iff_exists.1 (hcell rfl)
    have hbyte : m.state.fetch .xerCa = (BitVec.ofBool b).setWidth 8 := h.ca b hb
    rw [hbyte, Contents.cell, hb]
    rfl
  | xerSoOv => exact h.around.soOv
  | fpscr => exact h.around.fpscr

/-! ## Whatever memory holds -/

/-- A machine that can run the rest of a block whose registers are all in memory. -/
structure Setting.Hosts (s : Setting) (m : Machine) : Prop where
  on : m.state.On s.layout
  stack : m.stack = []
  flush : m.flush = s.flush
  interpreter : m.interpreter = s.interpreter

theorem Sim.hosts (h : Sim s ⟨iu, carry, f⟩ c e m) : s.Hosts m :=
  ⟨h.ints.holds.on, h.around.stack, h.around.flush, h.around.interpreter⟩

theorem Setting.slot_ofState (s : Setting) (state : State) :
    (Contents.ofState state).slot = s.ints.mem state := by
  funext slot
  rcases slot.eq_gpr_or_cr with ⟨reg, rfl⟩ | ⟨field, rfl⟩
  · rw [Contents.slot_gpr, s.mem_gpr]
    rfl
  · rw [Contents.slot_cr, s.mem_cr]
    rfl

theorem Sim.of_inMemory (h : Sim s ⟨⟨k, held, locked, none⟩, .inGuestState,
      ⟨⟨kv, heldV, lockedV, none⟩, p, pd⟩⟩ c e m) (hmem : e.InMemory) (hm : s.Hosts m') :
    Sim s ⟨⟨k, held, locked, none⟩, .inGuestState, ⟨⟨kv, heldV, lockedV, none⟩, p, pd⟩⟩
      (.ofState m'.state) e m' where
  fixed := h.fixed
  around := ⟨hm.stack, hm.flush, hm.interpreter, rfl, rfl⟩
  ints := by
    rw [s.slot_ofState]
    exact h.ints.ready.at_memory hmem.ints hm.on
  vecs := h.vecs.ready.at_memory hmem.vecs hm.on
  ca _ hb := Contents.ca_ofState hb

/-- Before the first word everything is in memory. -/
theorem Boundary.start (hm : s.Hosts m) :
    Boundary s .inGuestState (.replicate 32 .double) (.ofState m.state) (.new s.config s.layout)
      m where
  fixed := ⟨rfl, rfl, rfl, rfl, rfl, rfl, rfl, rfl, .empty⟩
  around := ⟨hm.stack, hm.flush, hm.interpreter, rfl, rfl⟩
  ints := by
    rw [s.slot_ofState]
    have hready := Cache.Ready.new s.ints .general
    rw [← s.ints.beside_empty] at hready
    exact hready.at_memory (fun slot => Bank.get_replicate _ _) hm.on
  vecs := (Cache.Ready.new s.vecs .vector).at_memory (fun slot => Bank.get_replicate _ _) hm.on
  ca _ hb := Contents.ca_ofState hb

end Emit

end Recompiler
