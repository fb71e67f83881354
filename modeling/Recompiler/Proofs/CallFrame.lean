import Recompiler.Proofs.CacheCoherence
import Recompiler.Proofs.CallSteps
import Recompiler.Proofs.Liveness
import Recompiler.Proofs.QuietCode

/-!
# What calls leave alone

Preparing a call evicts the slots that are in its argument and result registers and locks these
registers. From then on a register that is in use is never one of them, so each call saves whatever
it would destroy. Between preparing a call and finishing it, the code of the call may run any number
of times: slots keep their values, and guest memory changes by the slots that were evicted and by
the class of a result.
-/

namespace Recompiler

open Alloc Arm PowerPC

/-! ## Frames -/

theorem Alloc.IntSlot.cell_ne_fpscr (slot : IntSlot) : slot.cell ≠ .fpscr := by
  rcases slot.eq_gpr_or_cr with ⟨g, rfl⟩ | ⟨f, rfl⟩ <;> simp

namespace Emit

/-- What code leaves alone: the general registers in `kept`, the vector registers outside of
`targets`, the guest memory outside of `cells`, the status word but for the result class, the stack
and the modes of the machine. -/
structure Preserves (layout : Layout) (kept targets : HostReg → Prop)
    (cells : PowerPC.Cell → Prop) (m m' : Machine) : Prop where
  on : m'.state.On layout
  getX : ∀ r, kept r → m'.getX r = m.getX r
  getV : ∀ r, ¬targets r → m'.getV r = m.getV r
  byte : ∀ k, (∀ cell : PowerPC.Cell, cells cell → ¬cell.Covers layout k) →
    m'.state.memory.byte k = m.state.memory.byte k
  status : m'.state.fpscr &&& ~~~Status.classMask = m.state.fpscr &&& ~~~Status.classMask
  stack : m'.stack = m.stack
  flush : m'.flush = m.flush
  interpreter : m'.interpreter = m.interpreter

variable {layout : Layout} {kept targets : HostReg → Prop} {cells : PowerPC.Cell → Prop}
  {l m n : Machine}

namespace Preserves

theorem refl (hon : m.state.On layout) : Preserves layout kept targets cells m m :=
  ⟨hon, fun _ _ => rfl, fun _ _ => rfl, fun _ _ => rfl, rfl, rfl, rfl, rfl⟩

theorem trans (h : Preserves layout kept targets cells l m)
    (h' : Preserves layout kept targets cells m n) : Preserves layout kept targets cells l n where
  on := h'.on
  getX r hr := (h'.getX r hr).trans (h.getX r hr)
  getV r hr := (h'.getV r hr).trans (h.getV r hr)
  byte k hk := (h'.byte k hk).trans (h.byte k hk)
  status := h'.status.trans h.status
  stack := h'.stack.trans h.stack
  flush := h'.flush.trans h.flush
  interpreter := h'.interpreter.trans h.interpreter

theorem mono {kept' targets' : HostReg → Prop} {cells' : PowerPC.Cell → Prop}
    (h : Preserves layout kept targets cells m n) (hk : ∀ r, kept' r → kept r)
    (ht : ∀ r, targets r → targets' r) (hc : ∀ cell, cells cell → cells' cell) :
    Preserves layout kept' targets' cells' m n :=
  { h with
    getX := fun r hr => h.getX r (hk r hr)
    getV := fun r hr => h.getV r fun hr' => hr (ht r hr')
    byte := fun k hk' => h.byte k fun cell hcell => hk' cell (hc cell hcell) }

/-- A cell that is not among those written keeps its contents. -/
theorem fetch (h : Preserves layout kept targets cells m n) (hv : layout.Valid)
    (hon : m.state.On layout) {cell : PowerPC.Cell} (hcell : ¬cells cell) :
    n.state.fetch cell = m.state.fetch cell := by
  refine h.on.fetch_congr hon hv fun k hk => h.byte k fun other hother hcovers => hcell ?_
  rw [hk.unique hv hcovers]
  exact hother

theorem memValue (h : Preserves layout kept targets cells m n) (hv : layout.Valid)
    (hon : m.state.On layout) {slot : IntSlot} (hslot : ¬cells slot.cell) :
    memValue n.state slot = memValue m.state slot := by
  rw [Alloc.memValue, h.fetch hv hon hslot, Alloc.memValue]

/-- A slot that is written back. -/
theorem put_slot (hv : layout.Valid) (hon : m.state.On layout) (slot : IntSlot)
    (value : BitVec slot.cell.width) (hcell : cells slot.cell) :
    Preserves layout kept targets cells m { m with state := m.state.put slot.cell value } where
  on := hon.put hv _ _
  getX _ _ := rfl
  getV _ _ := rfl
  byte _ hk := hon.byte_put hv (hk _ hcell) _
  status := by
    have hne : PowerPC.Cell.fpscr ≠ slot.cell := fun he => IntSlot.cell_ne_fpscr slot he.symm
    exact congrArg (· &&& ~~~Status.classMask) (hon.fetch_put_of_ne hv slot.cell value hne)
  stack := rfl
  flush := rfl
  interpreter := rfl

end Preserves

end Emit

/-! ## Evictions -/

namespace Alloc

variable {layout : Layout} {cache cache' : Cache 40} {m m' : Machine} {slot : IntSlot}

namespace Cache

/-- The value of a slot, wherever it is. -/
def current (cache : Cache 40) (m : Machine) (slot : IntSlot) : BitVec 64 :=
  match cache.binding slot with
  | .memory => memValue m.state slot
  | .constant value => value
  | .host r => IntSlot.truncate slot (m.getX r)

/-- If the slot is in a register and not dirty, then memory has its value too. -/
def UpToDate (cache : Cache 40) (m : Machine) (slot : IntSlot) : Prop :=
  ∀ r, cache.binding slot = .host r → cache.isDirty slot = false →
    memValue m.state slot = IntSlot.truncate slot (m.getX r)

/-- The cells of the slots that went from a register to memory with a new value. -/
def WrittenBack (cache cache' : Cache 40) (cell : PowerPC.Cell) : Prop :=
  ∃ slot r, cache.binding slot = .host r ∧ cache'.binding slot = .memory ∧
    cache.isDirty slot = true ∧ cell = IntSlot.cell slot

theorem writtenBack_slot (h : WrittenBack cache cache' slot.cell) :
    (∃ r, cache.binding slot = .host r) ∧ cache.isDirty slot = true := by
  obtain ⟨s, r, hb, -, hd, he⟩ := h
  rw [IntSlot.cell_inj he]
  exact ⟨⟨r, hb⟩, hd⟩

end Cache

/-- What evicting slots comes to: those that are not in memory yet go there, and neither the rest of
memory nor any register changes. -/
structure Evicts (layout : Layout) (cache cache' : Cache 40) (m m' : Machine) : Prop where
  preserves : Emit.Preserves layout (fun _ => True) (fun _ => False) (cache.WrittenBack cache') m m'
  home : ∀ slot r, cache.binding slot = .host r → cache'.binding slot = .memory →
    cache.isDirty slot = true → memValue m'.state slot = IntSlot.truncate slot (m.getX r)
  binding : ∀ slot, cache'.binding slot = cache.binding slot ∨
    (∃ r, cache.binding slot = .host r) ∧ cache'.binding slot = .memory

namespace Cache

/-- One slot goes home from its register. -/
theorem exec_flushSlot_host (hv : layout.Valid) (hon : m.state.On layout) {r : HostReg}
    (hb : cache.binding slot = .host r) :
    ∃ m₁, m.execAll (flushSlot (.integer layout) cache slot).1 = some m₁ ∧
      Evicts layout cache (flushSlot (.integer layout) cache slot).2 m m₁ := by
  have hbinding : ∀ s, (flushSlot (.integer layout) cache slot).2.binding s =
      if s = slot then .memory else cache.binding s := fun s => by
    rw [flushSlot_eq, binding_unbind]
  have hmoves : ∀ s, (flushSlot (.integer layout) cache slot).2.binding s = cache.binding s ∨
      (∃ r, cache.binding s = .host r) ∧
        (flushSlot (.integer layout) cache slot).2.binding s = .memory := by
    intro s
    rw [hbinding s]
    split
    · next hs => exact .inr ⟨⟨r, hs ▸ hb⟩, rfl⟩
    · exact .inl rfl
  -- a slot that is bound before and in memory after is the one that is flushed
  have honly : ∀ s q, cache.binding s = .host q →
      (flushSlot (.integer layout) cache slot).2.binding s = .memory → s = slot := by
    intro s q hs hmem
    by_contra hne
    rw [hbinding s, if_neg hne, hs] at hmem
    cases hmem
  have hcode : (flushSlot (.integer layout) cache slot).1 =
      if cache.isDirty slot then [(Access.integer layout).store slot r] else [] := by
    rw [binding] at hb
    rw [flushSlot_eq, writeBack, hb]
    rfl
  rw [hcode]
  split
  · next hdirty =>
    refine ⟨_, Machine.execAll_cons [] (m.step_store_slot hv hon slot r),
      .put_slot hv hon slot _ ⟨slot, r, hb, ?_, hdirty, rfl⟩, ?_, hmoves⟩
    · rw [hbinding, if_pos rfl]
    · intro s q hs hmem _
      obtain rfl := honly s q hs hmem
      obtain rfl : q = r := by
        rw [hs, Binding.host.injEq] at hb
        exact hb
      rw [memValue, hon.fetch_put_self hv, IntSlot.truncate_eq]
  · next hclean =>
    refine ⟨m, rfl, .refl hon, ?_, hmoves⟩
    intro s q hs hmem hdirty
    rw [honly s q hs hmem] at hdirty
    exact absurd hdirty hclean

end Cache

namespace Evicts

theorem refl (hon : m.state.On layout) (hb : ∀ slot, cache'.binding slot = cache.binding slot) :
    Evicts layout cache cache' m m where
  preserves := .refl hon
  home slot r hs hmem _ := by
    rw [hb slot, hs] at hmem
    cases hmem
  binding slot := .inl (hb slot)

/-- Evictions one after the other. -/
theorem trans {c₁ c₂ c₃ : Cache 40} {m₁ m₂ m₃ : Machine} (hv : layout.Valid)
    (h : Evicts layout c₁ c₂ m₁ m₂) (h' : Evicts layout c₂ c₃ m₂ m₃)
    (hdirty : ∀ slot r, c₂.binding slot = .host r → c₂.isDirty slot = c₁.isDirty slot) :
    Evicts layout c₁ c₃ m₁ m₃ := by
  have hback : ∀ slot r, c₂.binding slot = .host r → c₁.binding slot = .host r := by
    intro slot r hr
    rcases h.binding slot with he | ⟨-, hmem⟩
    · rw [← he, hr]
    · rw [hmem] at hr
      cases hr
  have hstays : ∀ slot, c₂.binding slot = .memory → c₃.binding slot = .memory := by
    intro slot hmem
    rcases h'.binding slot with he | ⟨-, he⟩
    · rw [he, hmem]
    · exact he
  have hfirst : ∀ cell, c₁.WrittenBack c₂ cell → c₁.WrittenBack c₃ cell := by
    rintro cell ⟨slot, r, hb, hmem, hd, rfl⟩
    exact ⟨slot, r, hb, hstays slot hmem, hd, rfl⟩
  have hsecond : ∀ cell, c₂.WrittenBack c₃ cell → c₁.WrittenBack c₃ cell := by
    rintro cell ⟨slot, r, hb, hmem, hd, rfl⟩
    exact ⟨slot, r, hback slot r hb, hmem, (hdirty slot r hb) ▸ hd, rfl⟩
  refine ⟨(h.preserves.mono (fun _ hr => hr) (fun _ hr => hr) hfirst).trans
    (h'.preserves.mono (fun _ hr => hr) (fun _ hr => hr) hsecond), ?_, ?_⟩
  · intro slot r hb hmem hd
    rcases h.binding slot with he | ⟨-, hgone⟩
    · have hb₂ : c₂.binding slot = .host r := he.trans hb
      rw [h'.home slot r hb₂ hmem (by rw [hdirty slot r hb₂, hd]), h.preserves.getX r trivial]
    · -- the slot went home first, and is not written again
      have hnot : ¬c₂.WrittenBack c₃ (IntSlot.cell slot) := by
        intro hw
        obtain ⟨⟨q, hq⟩, -⟩ := Cache.writtenBack_slot hw
        rw [hgone] at hq
        cases hq
      rw [h'.preserves.memValue hv h.preserves.on hnot, h.home slot r hb hgone hd]
  · intro slot
    rcases h'.binding slot with he | ⟨⟨r, hr⟩, hmem⟩
    · rw [he]
      exact h.binding slot
    · exact .inr ⟨⟨r, hback slot r hr⟩, hmem⟩

/-- Whatever leaves the registers in use and all other cells of slots alone keeps the values of the
slots. -/
theorem current {targets : HostReg → Prop} {cells : PowerPC.Cell → Prop} {m'' : Machine}
    (hv : layout.Valid) (hon : m.state.On layout) (h : Evicts layout cache cache' m m')
    (hcalls : Emit.Preserves layout cache'.InUse targets cells m' m'')
    (hcells : ∀ slot : IntSlot, ¬cells slot.cell) (hslot : cache.UpToDate m slot) :
    cache'.current m'' slot = cache.current m slot := by
  have hlater := hcalls.memValue hv h.preserves.on (hcells slot)
  rcases h.binding slot with he | ⟨⟨r, hr⟩, hmem⟩
  · unfold Cache.current
    rw [he]
    cases hb : cache.binding slot with
    | memory =>
      have hnot : ¬cache.WrittenBack cache' slot.cell := by
        intro hw
        obtain ⟨⟨r, hr⟩, -⟩ := Cache.writtenBack_slot hw
        rw [hb] at hr
        cases hr
      exact hlater.trans (h.preserves.memValue hv hon hnot)
    | constant value => rfl
    | host r =>
      have hkept := hcalls.getX r (.inl ⟨slot, he.trans hb⟩)
      exact congrArg (IntSlot.truncate slot) (hkept.trans (h.preserves.getX r trivial))
  · simp only [Cache.current, hr, hmem]
    rw [hlater]
    cases hd : cache.isDirty slot with
    | true => exact h.home slot r hr hmem hd
    | false =>
      have hnot : ¬cache.WrittenBack cache' slot.cell := by
        intro hw
        rw [(Cache.writtenBack_slot hw).2] at hd
        cases hd
      rw [h.preserves.memValue hv hon hnot, hslot r hr hd]

end Evicts

namespace Cache

/-- Locking registers evicts slots. -/
theorem exec_lock (hv : layout.Valid) (regs : List HostReg) {cache : Cache 40} {m : Machine}
    (h : cache.Owned) (hon : m.state.On layout)
    (hfault : (lock (.integer layout) cache regs).fault = none) :
    ∃ m', m.execAll (lock (.integer layout) cache regs).code = some m' ∧
      Evicts layout cache (lock (.integer layout) cache regs).cache m m' ∧
      ∀ r : HostReg, (lock (.integer layout) cache regs).cache.pool.locked.contains r =
        (cache.pool.locked.contains r ||
          (decide (r ∈ regs) && decide (r ∈ cache.pool.order))) := by
  revert hfault
  induction cache, regs using lock_induction (.integer layout) generalizing m with
  | nil cache => exact fun _ => ⟨m, rfl, .refl hon fun _ => rfl, by simp⟩
  | skip cache r regs hr ih =>
    intro hfault
    obtain ⟨m', hexec, hevicts, hall⟩ := ih h hon hfault
    exact ⟨m', hexec, hevicts, fun q => (hall q).trans (contains_locked_skip hr q)⟩
  | busy cache r regs hr huse => exact nofun
  | free cache r regs hr huse hown ih =>
    intro hfault
    simp only [inUseNow, Bool.or_eq_false_iff] at huse
    obtain ⟨m', hexec, hevicts, hall⟩ := ih (h.lock hown huse.1) hon hfault
    exact ⟨m', hexec, ⟨hevicts.preserves, hevicts.home, hevicts.binding⟩,
      fun q => (hall q).trans (contains_locked_cons hr q)⟩
  | evict cache r regs slot hr huse hown ih =>
    intro hfault
    have hbind : cache.binding slot = .host r := (h.owner_iff r slot).1 hown
    obtain ⟨m₁, hexec₁, hfirst⟩ := exec_flushSlot_host hv hon hbind
    obtain ⟨m', hexec, hrest, hall⟩ := ih (h.evictAndLock _ hbind) hfirst.preserves.on hfault
    refine ⟨m', (Machine.execAll_append _ hexec₁).trans hexec, hfirst.trans hv
      ⟨hrest.preserves, hrest.home, hrest.binding⟩ ?_, ?_⟩
    · intro s q hs
      rw [flushSlot_eq, binding_unbind] at hs
      rw [flushSlot_eq, isDirty_unbind]
      split
      · next he =>
        rw [if_pos he] at hs
        cases hs
      · rfl
    · intro q
      rw [hall q, ← contains_locked_cons hr q]
      simp only [evictAndLock, flushSlot_eq, Pool.lock, locked_unbind, order_unbind]

/-! ## Locks along histories -/

section Locked

variable {n : Nat} {access : Access n} {cache : Cache n} {slot : Fin n} {grant : Grant n}
  {r : HostReg}

theorem locked_allocate (h : allocate access cache = .ok grant) :
    grant.cache.pool.locked = cache.pool.locked := by
  obtain ⟨r, -, rfl⟩ | ⟨r, s, -, rfl⟩ := allocate_eq_ok h
  · rfl
  · exact locked_unbind

theorem locked_read (h : read access cache slot = .ok grant) :
    grant.cache.pool.locked = cache.pool.locked := by
  obtain ⟨r, -, rfl⟩ | ⟨given, fill, dirty, hgiven, -, rfl⟩ := read_eq_ok h
  · rfl
  · exact (locked_allocate hgiven :)

theorem locked_write {keep : Bool} (h : write access cache slot keep = .ok grant) :
    grant.cache.pool.locked = cache.pool.locked := by
  obtain ⟨r, -, rfl⟩ | ⟨given, -, hread, rfl⟩ | ⟨given, -, hgiven, -, rfl⟩ := write_eq_ok h
  · rfl
  · exact (locked_read hread :)
  · exact (locked_allocate hgiven :)

theorem locked_scratch (h : scratch access cache = .ok grant) :
    grant.cache.pool.locked = cache.pool.locked := by
  obtain ⟨given, hgiven, rfl⟩ := scratch_eq_ok h
  exact (locked_allocate hgiven :)

theorem locked_flushSlots (slots : List (Fin n)) : ∀ cache : Cache n,
    (flushSlots access cache slots).2.pool.locked = cache.pool.locked := by
  induction slots with
  | nil => exact fun _ => rfl
  | cons slot slots ih => exact fun cache => (ih _).trans locked_unbind

/-- Locking takes no lock away, whether it succeeds or not. -/
theorem locked_lock (regs : List HostReg) {cache : Cache n}
    (h : cache.pool.locked.contains r = true) :
    (lock access cache regs).cache.pool.locked.contains r = true := by
  have hinsert : ∀ {pool : Pool n} {q : HostReg}, pool.locked.contains r = true →
      (pool.lock q).locked.contains r = true := by
    intro pool q hpool
    simp only [Pool.lock, RegSet.contains_insert, hpool, Bool.true_or]
  revert h
  induction cache, regs using lock_induction access with
  | nil cache => exact id
  | skip cache q regs hq ih => exact ih
  | busy cache q regs hq huse => exact id
  | free cache q regs hq huse hown ih => exact fun h => ih (hinsert h)
  | evict cache q regs slot hq huse hown ih =>
    refine fun h => ih (hinsert ?_)
    rw [flushSlot_eq, locked_unbind]
    exact h

end Locked

end Cache

/-- Whether a register may be handed out again. -/
def Request.unlocks {n : Nat} (r : HostReg) : Request n → Bool
  | .unlock regs => regs.contains r
  | _ => false

/-- A register stays locked until it is unlocked. -/
theorem locked_perform {n : Nat} {access : Access n} {cache : Cache n} {r : HostReg}
    (h : cache.pool.locked.contains r = true) {request : Request n}
    (hrequest : request.unlocks r = false) :
    (request.perform access cache).cache.pool.locked.contains r = true := by
  have hgrant : ∀ {given : Cache n}, given.pool.locked = cache.pool.locked →
      given.pool.locked.contains r = true := fun hlocked => hlocked ▸ h
  cases request with
  | read slot =>
    exact Reply.cache_ofGrant (P := fun cache => cache.pool.locked.contains r = true) h
      (fun _ hno => ((Cache.read_eq_error _).1 hno).2)
      fun _ hok => hgrant (Cache.locked_read hok)
  | write slot keep =>
    exact Reply.cache_ofGrant (P := fun cache => cache.pool.locked.contains r = true) h
      (fun _ hno => ((Cache.write_eq_error _).1 hno).2)
      fun _ hok => hgrant (Cache.locked_write hok)
  | scratch =>
    exact Reply.cache_ofGrant (P := fun cache => cache.pool.locked.contains r = true) h
      (fun _ hno => ((Cache.scratch_eq_error _).1 hno).2)
      fun _ hok => hgrant (Cache.locked_scratch hok)
  | setConstant slot value =>
    rw [Request.perform, Cache.setConstant_eq, Cache.locked_unbind]
    exact h
  | release q => exact h
  | flushSlot slot =>
    simp only [Request.perform, Cache.flushSlot_eq, Cache.locked_unbind]
    exact h
  | flush =>
    simp only [Request.perform, Cache.flush, Cache.locked_flushSlots]
    exact h
  | lock regs => exact Cache.locked_lock _ h
  | unlock regs =>
    have hout : regs.contains r = false := hrequest
    simp only [Request.perform, Cache.unlock, Pool.unlock, RegSet.contains_sdiff, h, hout]
    rfl
  | endInstruction =>
    simp only [Request.perform, Cache.endInstruction]
    cases cache.pool.heldScratch? with
    | none => exact h
    | some q => exact h

theorem locked_after {n : Nat} {access : Access n} {r : HostReg} (requests : List (Request n)) :
    ∀ {cache : Cache n}, cache.pool.locked.contains r = true →
      (∀ q ∈ requests, q.unlocks r = false) →
      (cache.after access requests).pool.locked.contains r = true := by
  induction requests with
  | nil => exact fun h _ => h
  | cons request requests ih =>
    intro cache h hall
    rw [Cache.after_cons]
    exact ih (locked_perform h (hall request List.mem_cons_self))
      fun q hq => hall q (List.mem_cons_of_mem _ hq)

end Alloc

/-! ## Calls -/

/-- The routine notes the class of a result. -/
def Arm.Routine.notesClass : Routine → Bool
  | .fprfSingle | .fprfDouble => true
  | .fres | .frsqrte | .singleToDouble | .doubleToSingle => false

/-- The cell that a routine may write. -/
def Arm.Routine.Writes (routine : Routine) (cell : PowerPC.Cell) : Prop :=
  routine.notesClass = true ∧ cell = .fpscr

theorem Arm.Routine.not_writes_slot (routine : Routine) (slot : IntSlot) :
    ¬routine.Writes slot.cell := by
  rintro ⟨-, he⟩
  exact IntSlot.cell_ne_fpscr slot he

namespace Emit

variable {layout : Layout} {targets : HostReg → Prop} {m : Machine} {cache : Cache 40}
  {call : PreparedCall} {setup teardown : List Inst}

/-- Code that runs to its end and writes one general register. -/
def SetsOnly (layout : Layout) (r : HostReg) (code : List Inst) : Prop :=
  ∀ m : Machine, m.state.On layout → ∃ value, m.execAll code = some (m.setX r value)

/-- Code that runs to its end and writes vector registers, of the given ones. -/
def WritesVectors (layout : Layout) (targets : HostReg → Prop) (code : List Inst) : Prop :=
  ∀ m : Machine, m.state.On layout → ∃ v, m.execAll code = some { m with v } ∧
    ∀ r, ¬targets r → v.get r = m.v.get r

theorem setsOnly_fmovToGeneral (dst src : HostReg) :
    SetsOnly layout dst [.fmovToGeneral .double dst src] :=
  fun m _ => ⟨_, Machine.execAll_cons [] (step_fmovToGeneral m dst src)⟩

theorem writesVectors_fmovFromGeneral (size : ElemSize) (dst src : HostReg) :
    WritesVectors layout (fun r => r = dst) [.fmovFromGeneral size dst src] :=
  fun m _ => ⟨m.v.set dst (withElement 0 size 0 (m.getX src)), rfl,
    fun _ hr => Bank.get_set_of_ne _ _ hr⟩

/-- The registers stay locked until one of them is unlocked. -/
theorem PreparedCall.Ready.after (h : call.Ready cache) {later : List (Request 40)}
    (hlater : ∀ q ∈ later, ∀ r : HostReg, call.locked.contains r = true → q.unlocks r = false) :
    call.Ready (cache.after (.integer layout) later) := by
  have hrespects := Cache.respects_after (.integer layout) later h.owned
  refine ⟨hrespects.owned, fun r hr hl => ?_⟩
  rw [hrespects.order] at hr
  exact locked_after later (h.locked r hr hl) fun q hq => hlater q hq r hl

/-- The effect of a routine on guest memory. -/
theorem Preserves.effect (hv : layout.Valid) (hon : m.state.On layout) (routine : Routine)
    (arg : BitVec 64) : Preserves layout (fun _ => True) targets routine.Writes m
      { m with state := routine.effect arg m.state } := by
  have hput : ∀ {cls : BitVec 5}, routine.notesClass = true →
      Preserves layout (fun _ => True) targets routine.Writes m
        { m with state := m.state.put .fpscr (Status.withClass (m.state.fetch .fpscr) cls) } := by
    intro cls hnotes
    refine ⟨hon.put hv _ _, fun _ _ => rfl, fun _ _ => rfl, ?_, ?_, rfl, rfl, rfl⟩
    · exact fun k hk => hon.byte_put hv (hk _ ⟨hnotes, rfl⟩) _
    · exact (congrArg (· &&& ~~~Status.classMask) (hon.fetch_put_self hv .fpscr _)).trans
        (State.Agrees.withClass_outside _ cls)
  cases routine with
  | fprfSingle | fprfDouble => exact hput rfl
  | fres | frsqrte | singleToDouble | doubleToSingle => exact .refl hon

/-- One call. -/
theorem PreparedCall.Ready.exec (h : call.Ready cache) (hv : layout.Valid)
    (hon : m.state.On layout) (hsetup : SetsOnly layout call.routine.convention.arg setup)
    (htear : WritesVectors layout targets teardown) :
    ∃ m', m.execAll (call.code (call.saved cache) setup teardown) = some m' ∧
      Preserves layout cache.InUse targets call.routine.Writes m m' := by
  obtain ⟨arg, hset⟩ := hsetup (m.pushed (call.saved cache)) hon
  obtain ⟨-, hcall⟩ :=
    Machine.called_calledWith (m.pushed (call.saved cache)) call.routine arg
  have heffect : Preserves layout (fun _ => True) targets call.routine.Writes m
      { m with state := call.routine.effect arg m.state } := .effect hv hon _ arg
  have hon' : ((m.pushed (call.saved cache)).calledWith call.routine arg).state.On layout := by
    rw [hcall.state]
    exact heffect.on
  obtain ⟨v, hteardown, hothers⟩ := htear _ hon'
  obtain ⟨m', hexec, hafter⟩ :=
    Machine.exec_savedCall call (call.saved cache) hset hteardown fun _ hq => saved_subset hq
  refine ⟨m', hexec, ?_, ?_, ?_, ?_, ?_, hafter.stack, hafter.flush, hafter.interpreter⟩
  · rw [hafter.state]
    exact heffect.on
  · intro r hr
    refine hafter.x r ?_
    cases hc : call.routine.convention.clobbers.contains r with
    | false => exact .inr rfl
    | true => exact .inl (h.saved hr hc)
  · intro r hr
    have hv' : m'.v = v := hafter.v
    rw [Machine.getV, hv', hothers r hr, hcall.v]
    rfl
  · rw [hafter.state]
    exact heffect.byte
  · rw [hafter.state]
    exact heffect.status

/-- Emit a prepared call with each setup and teardown. -/
def emitCalls (call : PreparedCall) (calls : List (List Inst × List Inst)) : EmitM Unit :=
  calls.forM fun c => emitCall call c.1 c.2

theorem run_emitCalls (call : PreparedCall) (calls : List (List Inst × List Inst)) :
    ∀ e : Emitter, ∃ stats, (emitCalls call calls).run.run e = (.ok (), { e with
      code := e.code.emitAll (calls.flatMap fun c => call.code (call.saved e.integers) c.1 c.2)
      stats }) := by
  induction calls with
  | nil => exact fun e => ⟨e.stats, rfl⟩
  | cons c calls ih =>
    intro e
    obtain ⟨stats, hrest⟩ := ih _
    refine ⟨stats, (run_bind_ok (run_emitCall call c.1 c.2 e)).trans (hrest.trans ?_)⟩
    rw [List.flatMap_cons, CodeBuffer.emitAll_append]

/-- Any number of calls. -/
theorem PreparedCall.Ready.exec_calls (h : call.Ready cache) (hv : layout.Valid)
    {calls : List (List Inst × List Inst)}
    (hcalls : ∀ c ∈ calls, SetsOnly layout call.routine.convention.arg c.1 ∧
      WritesVectors layout targets c.2) : ∀ {m : Machine}, m.state.On layout →
    ∃ m', m.execAll (calls.flatMap fun c => call.code (call.saved cache) c.1 c.2) = some m' ∧
      Preserves layout cache.InUse targets call.routine.Writes m m' := by
  induction calls with
  | nil => exact fun hon => ⟨_, rfl, .refl hon⟩
  | cons c calls ih =>
    intro m hon
    obtain ⟨hsetup, htear⟩ := hcalls c List.mem_cons_self
    obtain ⟨m₁, hexec₁, hfirst⟩ := h.exec hv hon hsetup htear
    obtain ⟨m', hexec, hrest⟩ := ih (fun d hd => hcalls d (List.mem_cons_of_mem c hd)) hfirst.on
    exact ⟨m', (Machine.execAll_append _ hexec₁).trans hexec, hfirst.trans hrest⟩

/-- The code of the calls, emitted here, runs to its end and leaves alone what is in use. -/
def CallsPreserve (layout : Layout) (call : PreparedCall) (calls : List (List Inst × List Inst))
    (targets : HostReg → Prop) (e : Emitter) (m : Machine) : Prop :=
  ∃ e' code m', (emitCalls call calls).run.run e = (.ok (), e') ∧
    e'.code = e.code.emitAll code ∧ m.execAll code = some m' ∧
    Preserves layout e.integers.InUse targets call.routine.Writes m m'

/-- What preparing a call comes to when it succeeds. -/
theorem run_prepareCall {routine : Routine} {e e' : Emitter}
    (h : (prepareCall routine).run.run e = (.ok call, e')) :
    call = ⟨routine, passedIn routine.convention⟩ ∧
      (Cache.lock (.integer e.layout) e.integers call.locked.toList).fault = none ∧
      e'.integers = (Cache.lock (.integer e.layout) e.integers call.locked.toList).cache ∧
      e'.code = e.code.emitAll
        (Cache.lock (.integer e.layout) e.integers call.locked.toList).code := by
  obtain ⟨⟨⟩, e₁, hlock, hrest⟩ := run_bind_eq_ok h
  cases hrest
  cases hfault : (Cache.lock (.integer e.layout) e.integers
      (passedIn routine.convention).toList).fault with
  | none =>
    rw [run_lockRegs hfault] at hlock
    cases hlock
    exact ⟨rfl, rfl, rfl, rfl⟩
  | some fault =>
    unfold lockRegs at hlock
    rw [run_get_bind] at hlock
    simp only [hfault] at hlock
    cases hlock

/-- A call is prepared on any cache that operations lead to, emitted any number of times and
finished. When the code runs, registers in use, the stack, vector registers outside of the targets,
the values of slots and guest memory are as before, except that slots which were evicted are now in
memory and that a routine may have noted the class of a result. In the end the registers of the call
are unlocked. The same holds of calls that are emitted later, when more registers are in use. -/
theorem calls_preserve_what_is_live {layout : Layout} (hv : layout.Valid) {order : List HostReg}
    {requests : List (Request 40)} {e e₁ : Emitter} (hlayout : e.layout = layout)
    (hreached : e.integers = (Cache.new .general order).after (.integer layout) requests)
    {routine : Routine} {call : PreparedCall}
    (hprepare : (prepareCall routine).run.run e = (.ok call, e₁)) {targets : HostReg → Prop}
    {calls : List (List Inst × List Inst)}
    (hcalls : ∀ c ∈ calls, SetsOnly layout routine.convention.arg c.1 ∧
      WritesVectors layout targets c.2) {m : Machine} (hon : m.state.On layout) :
    ∃ e₂ e₃ code m', (emitCalls call calls).run.run e₁ = (.ok (), e₂) ∧
      e₂.integers = e₁.integers ∧ e₂.code = e.code.emitAll code ∧ m.execAll code = some m' ∧
      Preserves layout e₁.integers.InUse targets
        (fun cell => e.integers.WrittenBack e₁.integers cell ∨ routine.Writes cell) m m' ∧
      (∀ slot, e.integers.UpToDate m slot →
        e₁.integers.current m' slot = e.integers.current m slot) ∧
      (finishCall call).run.run e₂ = (.ok (), e₃) ∧ e₃.code = e₂.code ∧
      (∀ r : HostReg, e₃.integers.pool.locked.contains r =
        (e.integers.pool.locked.contains r && !call.locked.contains r)) ∧
      ∀ later e', (∀ q ∈ later, ∀ r : HostReg, call.locked.contains r = true →
          q.unlocks r = false) →
        e'.integers = e₁.integers.after (.integer layout) later →
        ∀ n : Machine, n.state.On layout → CallsPreserve layout call calls targets e' n := by
  obtain ⟨hcall, hfault, hints, hcode⟩ := run_prepareCall hprepare
  have hroutine : call.routine = routine := by rw [hcall]
  rw [← hroutine] at hcalls ⊢
  rw [hlayout] at hfault hints hcode
  have hbefore : e.integers.Owned := by
    rw [hreached]
    exact (Cache.respects_after _ requests (Cache.owned_new _ _)).owned
  obtain ⟨m₁, hexec₁, hevicts, hlocks⟩ := Cache.exec_lock hv _ hbefore hon hfault
  have hrespects : Cache.Respects (fun _ => False) (fun _ => False) e.integers e₁.integers := by
    rw [hints]
    exact Cache.respects_locking _ hbefore
  rw [← hints] at hevicts hlocks
  have hready : call.Ready e₁.integers := by
    refine ⟨hrespects.owned, fun r hr hl => ?_⟩
    rw [hrespects.order] at hr
    rw [hlocks r, decide_eq_true ((RegSet.mem_toList _ r).2 hl), decide_eq_true hr]
    simp
  obtain ⟨m', hexec, hcallsExec⟩ := hready.exec_calls hv hcalls hevicts.preserves.on
  obtain ⟨stats, hrun⟩ := run_emitCalls call calls e₁
  refine ⟨_, _, _, m', hrun, rfl, ?_, (Machine.execAll_append _ hexec₁).trans hexec, ?_, ?_, rfl,
    rfl, ?_, ?_⟩
  · rw [CodeBuffer.emitAll_append, ← hcode]
  · exact (hevicts.preserves.mono (fun _ _ => trivial) (fun _ => False.elim) fun _ => .inl).trans
      (hcallsExec.mono (fun _ hr => hr) (fun _ ht => ht) fun _ => .inr)
  · exact fun slot hslot => hevicts.current hv hon hcallsExec call.routine.not_writes_slot hslot
  · intro r
    have hmem : decide (r ∈ call.locked.toList) = call.locked.contains r := by
      rw [Bool.eq_iff_iff, decide_eq_true_eq, RegSet.mem_toList]
    simp only [Cache.unlock, Pool.unlock, RegSet.contains_sdiff, hlocks r, hmem]
    cases call.locked.contains r <;> simp
  · intro later e' hkeep hlater n hn
    obtain ⟨n', hexec', hpreserves⟩ := (hready.after hkeep).exec_calls hv hcalls hn
    obtain ⟨stats', hrun'⟩ := run_emitCalls call calls e'
    rw [← hlater] at hexec' hpreserves
    exact ⟨_, _, n', hrun', rfl, hexec', hpreserves⟩

/-- A reciprocal is taken twice while one register has a new value in the result register of the
routine, another is in a register that the routine destroys, and a third is held as scratch. -/
theorem reciprocals_preserve_what_is_live :
    let e : Emitter := { Emitter.new {} .standard with
      integers := (Cache.new .general [0, 2, 3]).after (.integer .standard)
        [.write (IntSlot.gpr 3) false, .read (IntSlot.gpr 4), .endInstruction, .scratch] }
    let m : Machine := { state := ⟨.standard, .zeros 712⟩, x := .replicate 256 5 }
    ∃ call e₁ e₂ code m', (prepareCall .fres).run.run e = (.ok call, e₁) ∧
      (emitCalls call (.replicate 2 ([.fmovToGeneral .double 1 8],
        [.fmovFromGeneral .double 8 0]))).run.run e₁ = (.ok (), e₂) ∧
      e₂.code = e.code.emitAll code ∧ m.execAll code = some m' ∧ m'.getX 2 = 5 ∧ m'.getX 3 = 5 ∧
      m'.stack = [] ∧ memValue m'.state (IntSlot.gpr 3) = 5 := by
  intro e m
  have hon : m.state.On .standard := ⟨rfl, Array.size_replicate⟩
  let locking := Cache.lock (.integer e.layout) e.integers (passedIn Routine.fres.convention).toList
  have hfault : locking.fault = none := by decide +kernel
  have hprepare : (prepareCall .fres).run.run e = (.ok ⟨.fres, passedIn Routine.fres.convention⟩,
      { e with integers := locking.cache, code := e.code.emitAll locking.code }) :=
    run_bind_ok (run_lockRegs hfault)
  have hcalls : ∀ c ∈ List.replicate 2 (([.fmovToGeneral .double 1 8],
      [.fmovFromGeneral .double 8 0]) : List Inst × List Inst),
      SetsOnly .standard Routine.fres.convention.arg c.1 ∧
        WritesVectors .standard (fun r => r = 8) c.2 := by
    intro c hc
    rw [List.eq_of_mem_replicate hc]
    exact ⟨setsOnly_fmovToGeneral 1 8, writesVectors_fmovFromGeneral .double 8 0⟩
  obtain ⟨e₂, -, code, m', hrun, -, hcode, hexec, hpreserves, hcurrent, -⟩ :=
    calls_preserve_what_is_live Layout.valid_standard rfl rfl hprepare hcalls hon
  have hread : locking.cache.binding (IntSlot.gpr 4) = .host 2 := by decide +kernel
  have hheld : locking.cache.pool.scratch.contains (3 : HostReg) = true := by decide +kernel
  have hnew : e.integers.binding (IntSlot.gpr 3) = .host 0 ∧
      e.integers.isDirty (IntSlot.gpr 3) = true := by decide +kernel
  have hhome : locking.cache.binding (IntSlot.gpr 3) = .memory := by decide +kernel
  have hvalue := hcurrent (IntSlot.gpr 3) fun r _ hclean => by
    rw [hnew.2] at hclean
    cases hclean
  simp only [Cache.current, hnew.1, hhome] at hvalue
  exact ⟨_, _, e₂, code, m', hprepare, hrun, hcode, hexec, hpreserves.getX 2 (.inl ⟨_, hread⟩),
    hpreserves.getX 3 (.inr hheld), hpreserves.stack, hvalue⟩

end Emit

end Recompiler
