import Mathlib.Logic.Function.Basic
import Mathlib.Tactic.Common
import Recompiler.Alloc.Cache
import Recompiler.Proofs.CodeRun
import Recompiler.Proofs.RegisterPool
import Recompiler.Proofs.StateCells

/-!
# What slot caches hold

A cache stands for a value of each of its slots: the value is in the register, in guest memory or in
the constant that the slot is bound to. Running the code that an operation gives back turns a
machine for the old cache into a machine for the new one, and the values stay what they were.

Everything here is about caches of either class; `Home` says what a class needs for that.
-/

namespace Recompiler

open Arm PowerPC

/-- The class whose slots a cell is for. -/
def PowerPC.Cell.cls : Cell → Option RegClass
  | .gpr _ | .cr _ => some .general
  | .ps _ => some .vector
  | .xerCa | .xerSoOv | .fpscr => none

namespace Alloc

/-! ## Classes of slots -/

/-- What moving slots of one class leaves alone. -/
structure Frame (cls : RegClass) (m m' : Machine) : Prop where
  x : cls = .vector → m'.x = m.x
  v : cls = .general → m'.v = m.v
  flags : m'.flags = m.flags
  stack : m'.stack = m.stack
  flush : m'.flush = m.flush
  interpreter : m'.interpreter = m.interpreter
  on : ∀ layout, m.state.On layout → m'.state.On layout
  cell : ∀ cell, cell.cls ≠ some cls → m'.state.fetch cell = m.state.fetch cell

theorem Frame.refl (cls : RegClass) (m : Machine) : Frame cls m m :=
  ⟨fun _ => rfl, fun _ => rfl, rfl, rfl, rfl, rfl, fun _ h => h, fun _ _ => rfl⟩

theorem Frame.trans {cls : RegClass} {l m n : Machine} (h : Frame cls l m) (h' : Frame cls m n) :
    Frame cls l n where
  x hc := (h'.x hc).trans (h.x hc)
  v hc := (h'.v hc).trans (h.v hc)
  flags := h'.flags.trans h.flags
  stack := h'.stack.trans h.stack
  flush := h'.flush.trans h.flush
  interpreter := h'.interpreter.trans h.interpreter
  on layout hon := h'.on layout (h.on layout hon)
  cell cell hc := (h'.cell cell hc).trans (h.cell cell hc)

/-- How the slots of a class live on the machine, and what their loads and stores do. Values that
`fits` come back from memory as they were. -/
structure Home (n : Nat) (V : Type) where
  cls : RegClass
  layout : Layout
  order : List HostReg
  access : Access n
  reg : Machine → HostReg → V
  mem : State → Fin n → V
  fits : Fin n → V → Prop
  imm : BitVec 64 → V
  /-- Whether slots may be constants. -/
  constants : Prop
  nodup : order.Nodup
  ne_flush : ∀ r ∈ order, constants → r ≠ flushReg
  mem_fits : ∀ s slot, s.On layout → fits slot (mem s slot)
  imm_fits : ∀ slot v, access.truncate slot v = v → fits slot (imm v)
  truncate_truncate : ∀ slot v, access.truncate slot (access.truncate slot v) =
    access.truncate slot v
  imm_zero : constants → ∀ m, reg m zeroReg = imm 0
  store : ∀ m slot r, m.state.On layout → ∃ m', m.step (access.store slot r) = .next m' ∧
    Frame cls m m' ∧ (∀ q, reg m' q = reg m q) ∧
    (∀ s, s ≠ slot → mem m'.state s = mem m.state s) ∧
    (fits slot (reg m r) → mem m'.state slot = reg m r)
  load : ∀ m slot, ∀ r ∈ order, m.state.On layout →
    ∃ m', m.step (access.load slot r) = .next m' ∧ Frame cls m m' ∧
      reg m' r = mem m.state slot ∧ (∀ q, q ≠ r → reg m' q = reg m q) ∧
      ∀ s, mem m'.state s = mem m.state s
  constant : constants → ∀ m slot r v, r ∈ order ∨ r = flushReg → access.truncate slot v = v →
    m.state.On layout →
    ∃ m', m.step (access.constant slot r v) = .next m' ∧ Frame cls m m' ∧ reg m' r = imm v ∧
      (∀ q, q ≠ r → reg m' q = reg m q) ∧ ∀ s, mem m'.state s = mem m.state s

/-- What the current instruction has of a cache: how many registers it may still ask for, what it
holds as scratch, what is locked, and the slot that is bound but not written yet. -/
structure Usage (n : Nat) where
  room : Nat
  held : RegSet
  locked : RegSet
  hole : Option (Fin n)

namespace Cache

variable {n : Nat} {V : Type} {home : Home n V} {cache cache' : Cache n} {m m' : Machine}
  {val : Fin n → V} {u : Usage n}

@[simp] theorem binding_setCell (cache : Cache n) (slot s : Fin n) (cell : Cell) :
    (cache.setCell slot cell).binding s = if s = slot then cell.binding else cache.binding s := by
  simp only [binding, setCell, Bank.get_set]
  split <;> rfl

@[simp] theorem isDirty_setCell (cache : Cache n) (slot s : Fin n) (cell : Cell) :
    (cache.setCell slot cell).isDirty s = if s = slot then cell.dirty else cache.isDirty s := by
  simp only [isDirty, setCell, Bank.get_set]
  split <;> rfl

@[simp] theorem binding_pool (cache : Cache n) (pool : Pool n) (s : Fin n) :
    { cache with pool }.binding s = cache.binding s := rfl

@[simp] theorem isDirty_pool (cache : Cache n) (pool : Pool n) (s : Fin n) :
    { cache with pool }.isDirty s = cache.isDirty s := rfl

@[simp] theorem pool_setCell (cache : Cache n) (slot : Fin n) (cell : Cell) :
    (cache.setCell slot cell).pool = cache.pool := rfl

/-! ## Ownership -/

/-- The two records of who has which register agree, and registers that are held or locked have no
owner. -/
structure Owned (cache : Cache n) : Prop where
  owner_iff : ∀ r slot, cache.pool.owner.get r = some slot ↔ cache.binding slot = .host r
  owner_mem : ∀ r slot, cache.pool.owner.get r = some slot → r ∈ cache.pool.order
  scratch_mem : ∀ r : HostReg, cache.pool.scratch.contains r = true → r ∈ cache.pool.order
  scratch_free : ∀ r : HostReg, cache.pool.scratch.contains r = true →
    cache.pool.owner.get r = none
  locked_free : ∀ r : HostReg, cache.pool.locked.contains r = true →
    cache.pool.owner.get r = none ∧ cache.pool.scratch.contains r = false

/-- A slot is in a register that the current instruction has touched. -/
def Bound (cache : Cache n) (slot : Fin n) (r : HostReg) : Prop :=
  cache.binding slot = .host r ∧ cache.pool.pinned.contains r = true

/-- The current instruction may rely on a register. -/
def Owns (cache : Cache n) (r : HostReg) : Prop :=
  (∃ slot, cache.Bound slot r) ∨ cache.pool.scratch.contains r = true

/-- The current instruction may rely on the value of a register. -/
def Has (home : Home n V) (cache : Cache n) (m : Machine) (r : HostReg) (v : V) : Prop :=
  cache.Owns r ∧ home.reg m r = v

/-- The current instruction loses nothing that it relies on. -/
structure Keeps (home : Home n V) (cache : Cache n) (m : Machine) (cache' : Cache n)
    (m' : Machine) : Prop where
  bound : ∀ slot r, cache.Bound slot r → cache'.Bound slot r
  has : ∀ r v, cache.Has home m r v → cache'.Has home m' r v

theorem Keeps.trans {c₁ c₂ c₃ : Cache n} {m₁ m₂ m₃ : Machine} (h : Keeps home c₁ m₁ c₂ m₂)
    (h' : Keeps home c₂ m₂ c₃ m₃) : Keeps home c₁ m₁ c₃ m₃ :=
  ⟨fun s r hb => h'.bound s r (h.bound s r hb), fun r v hv => h'.has r v (h.has r v hv)⟩

namespace Owned

theorem host_inj (h : cache.Owned) {s t : Fin n} {r : HostReg} (hs : cache.binding s = .host r)
    (ht : cache.binding t = .host r) : s = t := by
  have h₁ := (h.owner_iff r s).2 hs
  have h₂ := (h.owner_iff r t).2 ht
  rw [h₁] at h₂
  exact Option.some.inj h₂

theorem not_scratch (h : cache.Owned) {s : Fin n} {r : HostReg} (hs : cache.binding s = .host r) :
    cache.pool.scratch.contains r = false := by
  by_contra hc
  have := h.scratch_free r (by simpa using hc)
  rw [(h.owner_iff r s).2 hs] at this
  simp at this

/-- A free register is none that the current instruction relies on. -/
theorem ne_of_isFree (h : cache.Owned) {r q : HostReg} (hf : cache.pool.isFree r = true)
    (hq : cache.Owns q) : q ≠ r := by
  rw [Pool.isFree_iff] at hf
  rintro rfl
  rcases hq with ⟨slot, hb, -⟩ | hs
  · rw [(h.owner_iff _ _).2 hb] at hf
    simp at hf
  · rw [hs] at hf
    simp at hf

end Owned

/-- Take a slot out of its register, if it is in one, and give it another state. -/
def unbind (cache : Cache n) (slot : Fin n) (cell : Cell) : Cache n :=
  let pool :=
    match cache.binding slot with
    | .host reg => cache.pool.vacate reg
    | _ => cache.pool
  { cache with pool }.setCell slot cell

theorem flushSlot_eq (access : Access n) (cache : Cache n) (slot : Fin n) :
    flushSlot access cache slot =
      (writeBack access slot (cache.cells.get slot), cache.unbind slot {}) := rfl

theorem setConstant_eq (access : Access n) (cache : Cache n) (slot : Fin n) (v : BitVec 64) :
    setConstant access cache slot v =
      cache.unbind slot ⟨.constant (access.truncate slot v), true⟩ := rfl

section Unbind

variable {slot : Fin n} {cell : Cell}

@[simp] theorem binding_unbind (s : Fin n) :
    (cache.unbind slot cell).binding s = if s = slot then cell.binding else cache.binding s := by
  simp [unbind]

@[simp] theorem isDirty_unbind (s : Fin n) :
    (cache.unbind slot cell).isDirty s = if s = slot then cell.dirty else cache.isDirty s := by
  simp [unbind]

@[simp] theorem order_unbind : (cache.unbind slot cell).pool.order = cache.pool.order := by
  unfold unbind
  rw [pool_setCell]
  split <;> rfl

@[simp] theorem locked_unbind : (cache.unbind slot cell).pool.locked = cache.pool.locked := by
  unfold unbind
  rw [pool_setCell]
  split <;> rfl

@[simp] theorem pinned_unbind : (cache.unbind slot cell).pool.pinned = cache.pool.pinned := by
  unfold unbind
  rw [pool_setCell]
  split <;> rfl

theorem busy_unbind : (cache.unbind slot cell).pool.busy ≤ cache.pool.busy := by
  unfold unbind
  rw [pool_setCell]
  split
  · exact Pool.busy_vacate _ _
  · exact Nat.le_refl _

theorem Owned.scratch_unbind (h : cache.Owned) :
    (cache.unbind slot cell).pool.scratch = cache.pool.scratch := by
  unfold unbind
  rw [pool_setCell]
  split
  · next r hr =>
    apply RegSet.ext_contains
    intro q
    simp only [Pool.vacate]
    by_cases hq : q = r
    · subst hq
      rw [RegSet.contains_erase_self, h.not_scratch hr]
    · rw [RegSet.contains_erase_of_ne hq]
  · rfl

theorem owner_unbind (r : HostReg) :
    (cache.unbind slot cell).pool.owner.get r =
      if cache.binding slot = .host r then none else cache.pool.owner.get r := by
  unfold unbind
  rw [pool_setCell]
  cases hb : cache.binding slot with
  | host q =>
    simp only [Pool.vacate, Bank.get_set, Binding.host.injEq]
    by_cases hr : r = q
    · simp [hr]
    · have hr' : ¬q = r := fun he => hr he.symm
      simp [hr, hr']
  | memory | constant => simp

theorem Owned.unbind (h : cache.Owned) (hc : ∀ r, cell.binding ≠ .host r) :
    (cache.unbind slot cell).Owned where
  owner_iff r s := by
    rw [owner_unbind, binding_unbind]
    by_cases hs : s = slot
    · subst hs
      rw [if_pos rfl]
      constructor
      · intro ho
        split at ho
        · simp at ho
        · next hb => exact absurd ((h.owner_iff r s).1 ho) hb
      · intro hb
        exact absurd hb (hc r)
    · rw [if_neg hs]
      split
      · next hb =>
        constructor
        · intro ho
          simp at ho
        · intro hb'
          exact absurd (h.host_inj hb' hb) hs
      · exact h.owner_iff r s
  owner_mem r s ho := by
    rw [owner_unbind] at ho
    rw [order_unbind]
    split at ho
    · simp at ho
    · exact h.owner_mem r s ho
  scratch_mem r hr := by
    rw [h.scratch_unbind] at hr
    rw [order_unbind]
    exact h.scratch_mem r hr
  scratch_free r hr := by
    rw [h.scratch_unbind] at hr
    rw [owner_unbind, h.scratch_free r hr, ite_self]
  locked_free r hr := by
    rw [locked_unbind] at hr
    rw [owner_unbind, h.scratch_unbind, (h.locked_free r hr).1, ite_self]
    exact ⟨rfl, (h.locked_free r hr).2⟩

theorem Bound.unbind {s : Fin n} {r : HostReg} (hb : cache.Bound s r) (hs : s ≠ slot) :
    (cache.unbind slot cell).Bound s r := by
  refine ⟨?_, ?_⟩
  · rw [binding_unbind, if_neg hs]
    exact hb.1
  · rw [pinned_unbind]
    exact hb.2

end Unbind

section Lock

variable {slot : Fin n} {r : HostReg}

/-- A register that nobody has can be locked. -/
theorem Owned.lock (h : cache.Owned) (ho : cache.pool.owner.get r = none)
    (hs : cache.pool.scratch.contains r = false) :
    Owned { cache with pool := cache.pool.lock r } := by
  refine ⟨h.owner_iff, h.owner_mem, h.scratch_mem, h.scratch_free, ?_⟩
  intro q hq
  by_cases he : q = r
  · subst he
    exact ⟨ho, hs⟩
  · simp only [Pool.lock, RegSet.contains_insert_of_ne he] at hq
    exact h.locked_free q hq

/-- Nobody has the register of a slot that is evicted. -/
theorem Owned.evicted (access : Access n) (h : cache.Owned) (hb : cache.binding slot = .host r) :
    (flushSlot access cache slot).2.pool.owner.get r = none ∧
      (flushSlot access cache slot).2.pool.scratch.contains r = false := by
  rw [flushSlot_eq, owner_unbind, h.scratch_unbind]
  exact ⟨if_pos hb, h.not_scratch hb⟩

/-- The cache when a slot is evicted and its register locked. -/
def evictAndLock (cache : Cache n) (access : Access n) (slot : Fin n) (r : HostReg) : Cache n :=
  { (flushSlot access cache slot).2 with pool := (flushSlot access cache slot).2.pool.lock r }

theorem Owned.evictAndLock (access : Access n) (h : cache.Owned)
    (hb : cache.binding slot = .host r) : (cache.evictAndLock access slot r).Owned := by
  obtain ⟨howner, hscratch⟩ := h.evicted access hb
  have hunbound : (flushSlot access cache slot).2.Owned := h.unbind (by simp)
  exact hunbound.lock howner hscratch

/-- Locking goes register by register: one outside of the pool is passed over, one in use ends it,
one that no slot has is locked, and so is one whose slot is evicted. -/
@[elab_as_elim]
theorem lock_induction (access : Access n) {motive : Cache n → List HostReg → Locking n → Prop}
    (nil : ∀ cache, motive cache [] ⟨[], cache, none⟩)
    (skip : ∀ cache r regs, r ∉ cache.pool.order → motive cache regs (lock access cache regs) →
      motive cache (r :: regs) (lock access cache regs))
    (busy : ∀ cache r regs, r ∈ cache.pool.order → cache.inUseNow r = true →
      motive cache (r :: regs) ⟨[], cache, some (.lockInUse r)⟩)
    (free : ∀ cache r regs, r ∈ cache.pool.order → cache.inUseNow r = false →
      cache.pool.owner.get r = none →
      motive { cache with pool := cache.pool.lock r } regs
        (lock access { cache with pool := cache.pool.lock r } regs) →
      motive cache (r :: regs) (lock access { cache with pool := cache.pool.lock r } regs))
    (evict : ∀ cache r regs slot, r ∈ cache.pool.order → cache.inUseNow r = false →
      cache.pool.owner.get r = some slot →
      motive (cache.evictAndLock access slot r) regs
        (lock access (cache.evictAndLock access slot r) regs) →
      motive cache (r :: regs) { lock access (cache.evictAndLock access slot r) regs with
        code := (flushSlot access cache slot).1 ++
          (lock access (cache.evictAndLock access slot r) regs).code })
    (cache : Cache n) (regs : List HostReg) : motive cache regs (lock access cache regs) := by
  induction regs generalizing cache with
  | nil => exact nil cache
  | cons r regs ih =>
    unfold lock
    split
    · next hr =>
      split
      · next huse => exact busy cache r regs hr huse
      · next huse =>
        have hunused := eq_false_of_ne_true huse
        cases hown : cache.pool.owner.get r with
        | none => exact free cache r regs hr hunused hown (ih _)
        | some slot => exact evict cache r regs slot hr hunused hown (ih _)
    · next hr => exact skip cache r regs hr (ih cache)

end Lock

section Bind

variable {slot : Fin n} {r : HostReg} {dirty : Bool}

@[simp] theorem binding_bind (s : Fin n) :
    (cache.bind slot r dirty).binding s = if s = slot then .host r else cache.binding s := by
  simp [bind]

@[simp] theorem isDirty_bind (s : Fin n) :
    (cache.bind slot r dirty).isDirty s = if s = slot then dirty else cache.isDirty s := by
  simp [bind]

theorem owner_bind (q : HostReg) : (cache.bind slot r dirty).pool.owner.get q =
    if q = r then some slot else cache.pool.owner.get q := by
  simp [bind, Pool.assign, Pool.touch, Bank.get_set]

theorem Owned.bind (h : cache.Owned) (hs : ∀ q, cache.binding slot ≠ .host q)
    (hm : r ∈ cache.pool.order) (hf : cache.pool.isFree r = true) :
    (cache.bind slot r dirty).Owned where
  owner_iff q s := by
    rw [Pool.isFree_iff] at hf
    rw [owner_bind, binding_bind]
    by_cases hq : q = r
    · subst hq
      rw [if_pos rfl, Option.some.injEq]
      by_cases hss : s = slot
      · simp [hss]
      · rw [if_neg hss]
        constructor
        · intro he
          exact absurd he.symm hss
        · intro hb
          rw [(h.owner_iff q s).2 hb] at hf
          simp at hf
    · rw [if_neg hq, h.owner_iff]
      by_cases hss : s = slot
      · subst hss
        rw [if_pos rfl, Binding.host.injEq]
        constructor
        · intro hb
          exact absurd hb (hs q)
        · intro he
          exact absurd he.symm hq
      · rw [if_neg hss]
  owner_mem q s ho := by
    rw [owner_bind] at ho
    split at ho
    · next hq =>
      rw [hq]
      exact hm
    · exact h.owner_mem q s ho
  scratch_mem q hq := h.scratch_mem q hq
  scratch_free q hq := by
    rw [Pool.isFree_iff] at hf
    have hq' : cache.pool.scratch.contains q = true := hq
    rw [owner_bind, if_neg, h.scratch_free q hq']
    rintro rfl
    rw [hf.2.1] at hq'
    simp at hq'
  locked_free q hq := by
    rw [Pool.isFree_iff] at hf
    have hq' : cache.pool.locked.contains q = true := hq
    rw [owner_bind, if_neg]
    · exact h.locked_free q hq'
    · rintro rfl
      rw [hf.2.2] at hq'
      simp at hq'

theorem Bound.bind {s : Fin n} {q : HostReg} (hb : cache.Bound s q) (hs : s ≠ slot) :
    (cache.bind slot r dirty).Bound s q := by
  refine ⟨?_, ?_⟩
  · rw [binding_bind, if_neg hs]
    exact hb.1
  · have hpin : (cache.bind slot r dirty).pool.pinned = cache.pool.pinned.insert r := rfl
    rw [hpin, RegSet.contains_insert, hb.2, Bool.true_or]

theorem bound_bind : (cache.bind slot r dirty).Bound slot r := by
  refine ⟨?_, ?_⟩
  · rw [binding_bind, if_pos rfl]
  · have hpin : (cache.bind slot r dirty).pool.pinned = cache.pool.pinned.insert r := rfl
    rw [hpin]
    exact RegSet.contains_insert_self _ _

end Bind

/-! ## Grants -/

section Grants

variable {access : Access n} {slot : Fin n} {grant : Grant n}

theorem host?_eq_some {r : HostReg} : cache.host? slot = some r ↔ cache.binding slot = .host r := by
  unfold host?
  cases cache.binding slot <;> simp

theorem host?_eq_none : cache.host? slot = none ↔ ∀ r, cache.binding slot ≠ .host r := by
  unfold host?
  cases cache.binding slot <;> simp

/-- An allocation comes to a free register, or to that of a slot that is evicted. -/
theorem allocate_eq_ok (h : allocate access cache = .ok grant) :
    (∃ r, cache.pool.free? = some r ∧ grant = ⟨r, [], cache⟩) ∨
      ∃ r s, cache.pool.victim? = some (r, s) ∧
        grant = ⟨r, (flushSlot access { cache with spills := cache.spills + 1 } s).1,
          (flushSlot access { cache with spills := cache.spills + 1 } s).2⟩ := by
  unfold allocate at h
  split at h
  · next r hfree =>
    rw [Except.ok.injEq] at h
    exact .inl ⟨r, hfree, h.symm⟩
  · split at h
    · next r s hvictim =>
      rw [Except.ok.injEq] at h
      exact .inr ⟨r, s, hvictim, h.symm⟩
    · cases h

/-- How a slot that has no register gets into one: by which instruction, and whether memory lacks
its value. -/
inductive Fills (access : Access n) (cache : Cache n) (slot : Fin n) (reg : HostReg) :
    Inst → Bool → Prop
  | constant {value : BitVec 64} (h : cache.binding slot = .constant value) :
      Fills access cache slot reg (access.constant slot reg value) (cache.isDirty slot)
  | memory (h : cache.binding slot = .memory) :
      Fills access cache slot reg (access.load slot reg) false

theorem Fills.not_host {reg : HostReg} {fill : Inst} {dirty : Bool}
    (h : Fills access cache slot reg fill dirty) (r : HostReg) : cache.binding slot ≠ .host r := by
  cases h with
  | constant h => simp [h]
  | memory h => simp [h]

/-- A slot that is read has a register, or gets one that a single instruction fills. -/
theorem read_eq_ok (h : read access cache slot = .ok grant) :
    (∃ r, cache.binding slot = .host r ∧
      grant = ⟨r, [], { cache with pool := cache.pool.touch r }⟩) ∨
      ∃ given fill dirty, allocate access cache = .ok given ∧
        Fills access cache slot given.reg fill dirty ∧
        grant = ⟨given.reg, given.code ++ [fill], given.cache.bind slot given.reg dirty⟩ := by
  unfold read at h
  split at h
  · next r dirty hcell =>
    rw [Except.ok.injEq] at h
    exact .inl ⟨r, by rw [binding, hcell], h.symm⟩
  · next value dirty hcell =>
    split at h
    · cases h
    · next given hgiven =>
      have hdirty : cache.isDirty slot = dirty := by rw [isDirty, hcell]
      rw [Except.ok.injEq] at h
      rw [← hdirty] at h
      exact .inr ⟨given, _, _, hgiven, .constant (by rw [binding, hcell]), h.symm⟩
  · next dirty hcell =>
    split at h
    · cases h
    · next given hgiven =>
      rw [Except.ok.injEq] at h
      exact .inr ⟨given, _, _, hgiven, .memory (by rw [binding, hcell]), h.symm⟩

/-- A slot that is written has a register, is read first, or gets a register as it is. -/
theorem write_eq_ok {keep : Bool} (h : write access cache slot keep = .ok grant) :
    (∃ r, cache.binding slot = .host r ∧
      grant = ⟨r, [], { cache with pool := cache.pool.touch r }.setDirty slot⟩) ∨
    (∃ given, keep = true ∧ read access cache slot = .ok given ∧
      grant = { given with cache := given.cache.setDirty slot }) ∨
    ∃ given, keep = false ∧ allocate access cache = .ok given ∧
      (∀ r, cache.binding slot ≠ .host r) ∧
      grant = { given with cache := given.cache.bind slot given.reg true } := by
  unfold write at h
  split at h
  · next r hr =>
    rw [Except.ok.injEq] at h
    exact .inl ⟨r, host?_eq_some.1 hr, h.symm⟩
  · next hnone =>
    split at h
    · next hkeep =>
      split at h
      · cases h
      · next given hgiven =>
        rw [Except.ok.injEq] at h
        exact .inr (.inl ⟨given, hkeep, hgiven, h.symm⟩)
    · next hkeep =>
      split at h
      · cases h
      · next given hgiven =>
        rw [Except.ok.injEq] at h
        exact .inr (.inr ⟨given, eq_false_of_ne_true hkeep, hgiven, host?_eq_none.1 hnone, h.symm⟩)

/-- A scratch register is one that is allocated. -/
theorem scratch_eq_ok (h : scratch access cache = .ok grant) :
    ∃ given, allocate access cache = .ok given ∧
      grant = { given with cache :=
        { given.cache with pool := given.cache.pool.hold given.reg } } := by
  unfold scratch at h
  split at h
  · cases h
  · next given hgiven =>
    rw [Except.ok.injEq] at h
    exact ⟨given, hgiven, h.symm⟩

end Grants

/-! ## Refusals -/

section Refusals

variable (access : Access n) {slot : Fin n} {refused : Refusal n}

/-- The fault of a request that finds no register. -/
def exhaustion (cache : Cache n) : Fault :=
  .poolExhausted cache.cls cache.pool.pinned.size cache.pool.order.length

/-- No register, no code and the cache as it was. -/
def refusal (cache : Cache n) : Refusal n := ⟨cache.exhaustion, [], cache⟩

/-- A request for the slot needs a new register, and there is none. -/
def Denies (cache : Cache n) (slot : Fin n) : Prop :=
  (∀ reg, cache.binding slot ≠ .host reg) ∧ cache.pool.Exhausted

/-- An allocation fails before it evicts anything. -/
theorem allocate_eq_error : allocate access cache = .error refused ↔
    cache.pool.Exhausted ∧ refused = cache.refusal := by
  rw [Pool.exhausted_iff]
  unfold allocate
  cases hfree : cache.pool.free? with
  | some reg => simp
  | none =>
    cases hvictim : cache.pool.victim? with
    | some victim => simp
    | none =>
      simp only [Except.error.injEq, and_self, true_and, refusal, exhaustion]
      exact eq_comm

theorem scratch_eq_error : scratch access cache = .error refused ↔
    cache.pool.Exhausted ∧ refused = cache.refusal := by
  rw [← allocate_eq_error access]
  unfold scratch
  cases allocate access cache <;> simp

theorem read_eq_error : read access cache slot = .error refused ↔
    cache.Denies slot ∧ refused = cache.refusal := by
  rw [Denies, and_assoc, ← allocate_eq_error access]
  unfold read binding
  rcases cache.cells.get slot with ⟨binding, dirty⟩
  cases binding with
  | host reg => simp
  | constant value => cases allocate access cache <;> simp
  | memory => cases allocate access cache <;> simp

theorem write_eq_error {keep : Bool} : write access cache slot keep = .error refused ↔
    cache.Denies slot ∧ refused = cache.refusal := by
  unfold write
  cases hhost : cache.host? slot with
  | some reg =>
    have hbound := host?_eq_some.1 hhost
    simp [Denies, hbound]
  | none =>
    have hunbound := host?_eq_none.1 hhost
    cases keep with
    | true =>
      -- keeping the old value is reading it first, and a read fails for the same reason
      rw [← read_eq_error access]
      cases read access cache slot <;> simp
    | false =>
      rw [Denies, and_assoc, ← allocate_eq_error access]
      cases allocate access cache <;> simp [hunbound]

end Refusals

end Cache

end Alloc

end Recompiler
