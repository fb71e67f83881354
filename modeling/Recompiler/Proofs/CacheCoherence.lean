import Recompiler.Proofs.CacheHistory
import Recompiler.Proofs.GuestHomes

/-!
# Current values of the integer slots

Code that is emitted by the cache of general registers and condition fields runs interleaved with
writes to the registers that the cache handed out. However slots move between registers, memory and
constants, whoever asks for a slot is given its current value, and a flush leaves the current values
of all slots in memory.
-/

namespace Recompiler.Alloc

open Arm PowerPC

/-! ## Slots in memory -/

/-- The contents of a slot in guest memory. -/
def memValue (state : State) (slot : IntSlot) : BitVec 64 :=
  (state.fetch (IntSlot.cell slot)).setWidth 64

section Memory

variable {layout : Layout} {state : State}

theorem truncate_truncate (slot : IntSlot) (v : BitVec 64) :
    IntSlot.truncate slot (IntSlot.truncate slot v) = IntSlot.truncate slot v := by
  unfold IntSlot.truncate
  split <;> simp

theorem truncate_memValue (state : State) (slot : IntSlot) :
    IntSlot.truncate slot (memValue state slot) = memValue state slot := by
  have hw : (IntSlot.cell slot).width ≤ 64 := by
    rcases IntSlot.eq_gpr_or_cr slot with ⟨r, rfl⟩ | ⟨f, rfl⟩ <;> simp [PowerPC.Cell.width]
  rw [IntSlot.truncate_eq, memValue, BitVec.setWidth_setWidth_of_le _ hw, BitVec.setWidth_eq]

/-- Storing a slot from a register. -/
theorem store_slot {m : Machine} (hv : layout.Valid) (h : m.state.On layout) (slot : IntSlot)
    (r : HostReg) :
    ∃ m', m.step ((Access.integer layout).store slot r) = .next m' ∧ m'.state.On layout ∧
      (∀ q, m'.getX q = m.getX q) ∧ ∀ s, memValue m'.state s =
        if s = slot then IntSlot.truncate slot (m.getX r) else memValue m.state s := by
  refine ⟨_, m.step_store_slot hv h slot r, h.put hv _ _, fun _ => rfl, ?_⟩
  intro s
  dsimp only [memValue]
  split
  · next he =>
    subst he
    rw [h.fetch_put_self hv, IntSlot.truncate_eq]
  · next hs =>
    rw [h.fetch_put_of_ne hv]
    exact fun he => hs (IntSlot.cell_inj he)

end Memory

/-! ## A cache and the values it stands for -/

/-- A machine on which every slot has its value where the cache says it is. Slots in `unwritten`
have a register that holds nothing yet. Registers may have junk above the width of a slot unless
`extended` holds. -/
structure Agrees (layout : Layout) (value : IntSlot → BitVec 64) (unwritten : IntSlot → Bool)
    (extended : Prop) (cache : Cache 40) (m : Machine) : Prop where
  owned : cache.Owned
  unreserved : ∀ r ∈ cache.pool.order, reserved.contains r = false
  on : m.state.On layout
  fits : ∀ slot, IntSlot.truncate slot (value slot) = value slot
  clean : ∀ slot, cache.binding slot = .memory → cache.isDirty slot = false
  constant : ∀ slot v, cache.binding slot = .constant v → v = value slot
  host : ∀ slot r, cache.binding slot = .host r → unwritten slot = false →
    IntSlot.truncate slot (m.getX r) = value slot ∧ (extended → m.getX r = value slot)
  memory : ∀ slot, cache.isDirty slot = false → memValue m.state slot = value slot

namespace Agrees

variable {layout : Layout} {value : IntSlot → BitVec 64} {unwritten : IntSlot → Bool}
  {extended : Prop} {cache cache' : Cache 40} {m m' : Machine} {slot : IntSlot}

theorem ne_zeroReg (h : Agrees layout value unwritten extended cache m) {r : HostReg}
    (hr : r ∈ cache.pool.order) : r ≠ zeroReg := by
  rintro rfl
  have := h.unreserved _ hr
  revert this
  decide +kernel

theorem ne_flushReg (h : Agrees layout value unwritten extended cache m) {r : HostReg}
    (hr : r ∈ cache.pool.order) : r ≠ flushReg := by
  rintro rfl
  have := h.unreserved _ hr
  revert this
  decide +kernel

theorem mem_order (h : Agrees layout value unwritten extended cache m) {r : HostReg}
    (hb : cache.binding slot = .host r) : r ∈ cache.pool.order :=
  h.owned.owner_mem r slot ((h.owned.owner_iff r slot).2 hb)

/-- The bookkeeping of a cache may change as long as its slots and its pool stay. -/
theorem of_cells (h : Agrees layout value unwritten extended cache m) (ho : cache'.Owned)
    (horder : cache'.pool.order = cache.pool.order) (hcells : cache'.cells = cache.cells) :
    Agrees layout value unwritten extended cache' m := by
  have hb : ∀ s, cache'.binding s = cache.binding s := fun s => by
    rw [Cache.binding, hcells, Cache.binding]
  have hd : ∀ s, cache'.isDirty s = cache.isDirty s := fun s => by
    rw [Cache.isDirty, hcells, Cache.isDirty]
  refine ⟨ho, ?_, h.on, h.fits, ?_, ?_, ?_, ?_⟩
  · rw [horder]
    exact h.unreserved
  · intro s
    rw [hb, hd]
    exact h.clean s
  · intro s v
    rw [hb]
    exact h.constant s v
  · intro s r
    rw [hb]
    exact h.host s r
  · intro s
    rw [hd]
    exact h.memory s

/-! ## Writing back -/

/-- Writing a slot back brings memory up to date and touches no register of the pool. -/
theorem writeBack (hv : layout.Valid) (h : Agrees layout value unwritten extended cache m)
    (hu : unwritten slot = false) :
    ∃ m', m.execAll (Cache.writeBack (.integer layout) slot (cache.cells.get slot)) = some m' ∧
      m'.state.On layout ∧ (∀ q, q ≠ flushReg → m'.getX q = m.getX q) ∧
      ∀ s, memValue m'.state s = if s = slot then value slot else memValue m.state s := by
  have hsame : memValue m.state slot = value slot →
      ∀ s, memValue m.state s = if s = slot then value slot else memValue m.state s := by
    intro hm s
    split
    · next he => rw [he, hm]
    · rfl
  unfold Cache.writeBack
  split
  · next hdirty =>
    split
    · next hbind =>
      exact ⟨m, rfl, h.on, fun _ _ => rfl, hsame (h.memory slot (h.clean slot hbind))⟩
    · next r hbind =>
      obtain ⟨m', hstep, hon, hx, hmem⟩ := store_slot hv h.on slot r
      rw [(h.host slot r hbind hu).1] at hmem
      exact ⟨m', Machine.execAll_cons [] hstep, hon, fun q _ => hx q, hmem⟩
    · next v hbind =>
      have hval := h.constant slot v hbind
      have ht : IntSlot.truncate slot v = v := by rw [hval, h.fits]
      split
      · next hzero =>
        obtain ⟨m', hstep, hon, hx, hmem⟩ := store_slot hv h.on slot zeroReg
        rw [Machine.getX_zeroReg, ← hzero, ht, hval] at hmem
        exact ⟨m', Machine.execAll_cons [] hstep, hon, fun q _ => hx q, hmem⟩
      · -- the constant goes through the register that no pool has
        have hset := m.step_constant_slot slot flushReg v ht
        have hstate : (m.setX flushReg v).state = m.state := m.state_setX flushReg v
        have hon₁ : (m.setX flushReg v).state.On layout := by
          rw [hstate]
          exact h.on
        obtain ⟨m', hstep, hon, hx, hmem⟩ := store_slot hv hon₁ slot flushReg
        have hself : (m.setX flushReg v).getX flushReg = v := m.getX_setX_self (by decide) v
        rw [hself, ht, hstate, hval] at hmem
        refine ⟨m', ?_, hon, ?_, hmem⟩
        · exact (Machine.execAll_cons _ hset).trans (Machine.execAll_cons [] hstep)
        · intro q hq
          rw [hx q, m.getX_setX_of_ne hq]
  · next hclean =>
    have hd : cache.isDirty slot = false := eq_false_of_ne_true hclean
    exact ⟨m, rfl, h.on, fun _ _ => rfl, hsame (h.memory slot hd)⟩

theorem flushSlot (hv : layout.Valid) (h : Agrees layout value unwritten extended cache m)
    (hu : unwritten slot = false) :
    ∃ m', m.execAll (Cache.flushSlot (.integer layout) cache slot).1 = some m' ∧
      Agrees layout value unwritten extended (Cache.flushSlot (.integer layout) cache slot).2
        m' := by
  obtain ⟨m', hrun, hon, hx, hmem⟩ := h.writeBack hv hu
  refine ⟨m', hrun, ?_⟩
  rw [Cache.flushSlot_eq]
  refine ⟨h.owned.unbind (by simp), ?_, hon, h.fits, ?_, ?_, ?_, ?_⟩
  · rw [Cache.order_unbind]
    exact h.unreserved
  · intro s
    rw [Cache.binding_unbind, Cache.isDirty_unbind]
    split
    · exact fun _ => rfl
    · exact h.clean s
  · intro s v
    rw [Cache.binding_unbind]
    split
    · simp
    · exact h.constant s v
  · intro s r
    rw [Cache.binding_unbind]
    split
    · simp
    · intro hb
      rw [hx r (h.ne_flushReg (h.mem_order hb))]
      exact h.host s r hb
  · intro s
    rw [Cache.isDirty_unbind, hmem]
    split
    · next he =>
      intro _
      rw [he]
    · exact h.memory s

theorem flushSlots (hv : layout.Valid) (slots : List IntSlot) :
    ∀ {cache : Cache 40} {m : Machine}, Agrees layout value unwritten extended cache m →
      (∀ s ∈ slots, unwritten s = false) →
      ∃ m', m.execAll (Cache.flushSlots (.integer layout) cache slots).1 = some m' ∧
        Agrees layout value unwritten extended
          (Cache.flushSlots (.integer layout) cache slots).2 m' := by
  induction slots with
  | nil => exact fun h _ => ⟨_, rfl, h⟩
  | cons slot slots ih =>
    intro cache m h hu
    obtain ⟨m₁, hrun₁, h₁⟩ := h.flushSlot hv (hu slot List.mem_cons_self)
    obtain ⟨m₂, hrun₂, h₂⟩ := ih h₁ fun s hs => hu s (List.mem_cons_of_mem _ hs)
    exact ⟨m₂, (Machine.execAll_append _ hrun₁).trans hrun₂, h₂⟩

end Agrees

namespace Cache

variable {access : Access 40} {cache : Cache 40} {slot s : IntSlot}

theorem binding_flushSlots (slots : List IntSlot) : ∀ {cache : Cache 40},
    (flushSlots access cache slots).2.binding s =
      if s ∈ slots then .memory else cache.binding s := by
  induction slots with
  | nil => simp [flushSlots]
  | cons slot slots ih =>
    intro cache
    rw [flushSlots, ih, flushSlot_eq, binding_unbind]
    by_cases hs : s = slot <;> by_cases hm : s ∈ slots <;> simp [hs, hm]

theorem isDirty_flushSlots (slots : List IntSlot) : ∀ {cache : Cache 40},
    (flushSlots access cache slots).2.isDirty s =
      if s ∈ slots then false else cache.isDirty s := by
  induction slots with
  | nil => simp [flushSlots]
  | cons slot slots ih =>
    intro cache
    rw [flushSlots, ih, flushSlot_eq, isDirty_unbind]
    by_cases hs : s = slot <;> by_cases hm : s ∈ slots <;> simp [hs, hm]

/-- Locking never takes a slot out of memory. -/
theorem binding_lock_memory (regs : List HostReg) {cache : Cache 40}
    (h : cache.binding s = .memory) : (lock access cache regs).cache.binding s = .memory := by
  revert h
  induction cache, regs using lock_induction access with
  | nil cache => exact id
  | skip cache r regs hr ih => exact ih
  | busy cache r regs hr huse => exact id
  | free cache r regs hr huse hown ih => exact ih
  | evict cache r regs slot hr huse hown ih =>
    intro h
    refine ih ?_
    rw [evictAndLock, binding_pool, flushSlot_eq, binding_unbind, h, ite_self]

end Cache

namespace Agrees

variable {layout : Layout} {value : IntSlot → BitVec 64} {unwritten : IntSlot → Bool}
  {extended : Prop} {cache cache' : Cache 40} {m m' : Machine} {slot : IntSlot}

/-! ## Handing out registers -/

/-- Making room evicts a slot whose value is known. -/
theorem allocate (hv : layout.Valid) (h : Agrees layout value unwritten extended cache m)
    {grant : Grant 40} (hok : Cache.allocate (.integer layout) cache = .ok grant)
    (hu : ∀ s, unwritten s = true → grant.cache.binding s ≠ .memory) :
    ∃ m', m.execAll grant.code = some m' ∧
      Agrees layout value unwritten extended grant.cache m' := by
  obtain ⟨r, -, rfl⟩ | ⟨r, victim, -, rfl⟩ := Cache.allocate_eq_ok hok
  · exact ⟨m, rfl, h⟩
  · have hspill : Agrees layout value unwritten extended
        { cache with spills := cache.spills + 1 } m :=
      h.of_cells (h.owned.of_le (fun _ => rfl) rfl rfl (fun _ hs => hs) fun _ hl => hl) rfl rfl
    refine hspill.flushSlot hv (eq_false_of_ne_true fun hw => hu victim hw ?_)
    rw [Cache.flushSlot_eq, Cache.binding_unbind, if_pos rfl]

/-- Binding a slot to a free register that holds its value. -/
theorem bind (h : Agrees layout value unwritten extended cache m)
    (hs : ∀ q, cache.binding slot ≠ .host q) {r : HostReg} {dirty : Bool}
    (hm : r ∈ cache.pool.order) (hf : cache.pool.isFree r = true) (hon : m'.state.On layout)
    (hx : ∀ q, q ≠ r → m'.getX q = m.getX q)
    (hmem : ∀ s, memValue m'.state s = memValue m.state s)
    (hr : unwritten slot = false →
      IntSlot.truncate slot (m'.getX r) = value slot ∧ (extended → m'.getX r = value slot))
    (hd : dirty = false → cache.isDirty slot = false) :
    Agrees layout value unwritten extended (cache.bind slot r dirty) m' := by
  refine ⟨h.owned.bind hs hm hf, h.unreserved, hon, h.fits, ?_, ?_, ?_, ?_⟩
  · intro s
    rw [Cache.binding_bind, Cache.isDirty_bind]
    split
    · simp
    · exact h.clean s
  · intro s v
    rw [Cache.binding_bind]
    split
    · simp
    · exact h.constant s v
  · intro s q
    rw [Cache.binding_bind]
    split
    · next he =>
      subst he
      rw [Binding.host.injEq]
      rintro rfl
      exact hr
    · intro hb
      have hne : q ≠ r := by
        rintro rfl
        rw [Pool.isFree_iff, (h.owned.owner_iff _ _).2 hb] at hf
        simp at hf
      rw [hx q hne]
      exact h.host s q hb
  · intro s
    rw [Cache.isDirty_bind, hmem]
    split
    · next he =>
      subst he
      exact fun hclean => h.memory s (hd hclean)
    · exact h.memory s

theorem touch (h : Agrees layout value unwritten extended cache m) (r : HostReg) :
    Agrees layout value unwritten extended { cache with pool := cache.pool.touch r } m :=
  h.of_cells (h.owned.touch r) rfl rfl

/-- A slot in a register may always be marked as changed. -/
theorem setDirty (h : Agrees layout value unwritten extended cache m) {r : HostReg}
    (hb : cache.binding slot = .host r) :
    Agrees layout value unwritten extended (cache.setDirty slot) m := by
  have howned : (cache.setDirty slot).Owned :=
    h.owned.of_le (Cache.binding_setDirty slot) rfl rfl (fun _ hs => hs) fun _ hl => hl
  have hdirty : ∀ s, (cache.setDirty slot).isDirty s = if s = slot then true else cache.isDirty s :=
    fun s => by rw [Cache.setDirty, Cache.isDirty_setCell]
  refine ⟨howned, h.unreserved, h.on, h.fits, ?_, ?_, ?_, ?_⟩
  · intro s
    rw [Cache.binding_setDirty, hdirty]
    split
    · next he => simp [he, hb]
    · exact h.clean s
  · intro s v
    rw [Cache.binding_setDirty]
    exact h.constant s v
  · intro s q
    rw [Cache.binding_setDirty]
    exact h.host s q
  · intro s
    rw [hdirty]
    split
    · simp
    · exact h.memory s

/-- What the register of a slot holds. -/
def Serves (value : IntSlot → BitVec 64) (extended : Prop) (m : Machine) (slot : IntSlot)
    (r : HostReg) : Prop :=
  IntSlot.truncate slot (m.getX r) = value slot ∧ (extended → m.getX r = value slot)

theorem serves_of_eq (h : Agrees layout value unwritten extended cache m) {r : HostReg}
    (hr : m'.getX r = value slot) : Serves value extended m' slot r := by
  refine ⟨?_, fun _ => hr⟩
  rw [hr, h.fits]

/-- A slot outside the registers that gets one, filled by an instruction of the cache. -/
theorem fill (hv : layout.Valid) (h : Agrees layout value unwritten extended cache m)
    (hs : ∀ q, cache.binding slot ≠ .host q) {grant : Grant 40}
    (hok : Cache.allocate (.integer layout) cache = .ok grant) {inst : Inst} {dirty : Bool}
    (hinst : ∀ m', Agrees layout value unwritten extended grant.cache m' →
      m'.step inst = .next (m'.setX grant.reg (value slot)))
    (hd : dirty = false → cache.isDirty slot = false)
    (hu : ∀ s, unwritten s = true → (grant.cache.bind slot grant.reg dirty).binding s ≠ .memory)
    (hslot : unwritten slot = false) :
    ∃ m', m.execAll (grant.code ++ [inst]) = some m' ∧
      Agrees layout value unwritten extended (grant.cache.bind slot grant.reg dirty) m' ∧
      Serves value extended m' slot grant.reg := by
  have hg := Cache.granted_allocate h.owned hok
  have hcell := hg.cells slot hs
  have hu' : ∀ s, unwritten s = true → grant.cache.binding s ≠ .memory := by
    intro s hw
    have hne : s ≠ slot := by
      rintro rfl
      rw [hslot] at hw
      simp at hw
    have := hu s hw
    rw [Cache.binding_bind, if_neg hne] at this
    exact this
  obtain ⟨m₁, hrun, h₁⟩ := h.allocate hv hok hu'
  have hmem : grant.reg ∈ grant.cache.pool.order := by
    rw [hg.respects.order]
    exact hg.mem
  have hself : (m₁.setX grant.reg (value slot)).getX grant.reg = value slot :=
    m₁.getX_setX_self (h₁.ne_zeroReg hmem) _
  have hserves := h₁.serves_of_eq hself
  refine ⟨_, (Machine.execAll_append _ hrun).trans (Machine.execAll_cons [] (hinst m₁ h₁)), ?_,
    hserves⟩
  refine h₁.bind ?_ hmem hg.free ?_ ?_ ?_ (fun _ => hserves) ?_
  · intro q
    rw [Cache.binding, hcell]
    exact hs q
  · rw [Machine.state_setX]
    exact h₁.on
  · exact fun q hq => m₁.getX_setX_of_ne hq _
  · intro s
    rw [Machine.state_setX]
  · intro hclean
    rw [Cache.isDirty, hcell]
    exact hd hclean

theorem read (hv : layout.Valid) (h : Agrees layout value unwritten extended cache m)
    {grant : Grant 40} (hok : Cache.read (.integer layout) cache slot = .ok grant)
    (hu : ∀ s, unwritten s = true → grant.cache.binding s ≠ .memory)
    (hslot : unwritten slot = false) :
    ∃ m', m.execAll grant.code = some m' ∧
      Agrees layout value unwritten extended grant.cache m' ∧
      Serves value extended m' slot grant.reg := by
  obtain ⟨r, hb, rfl⟩ | ⟨given, fill, dirty, hgiven, hfill, rfl⟩ := Cache.read_eq_ok hok
  · exact ⟨m, rfl, h.touch r, h.host slot r hb hslot⟩
  cases hfill with
  | constant hb =>
    have hval := h.constant slot _ hb
    refine h.fill hv (by simp [hb]) hgiven ?_ id hu hslot
    intro m' h'
    rw [← hval]
    exact m'.step_constant_slot slot _ _ (by rw [hval, h.fits])
  | memory hb =>
    refine h.fill hv (by simp [hb]) hgiven ?_ (fun _ => h.clean slot hb) hu hslot
    intro m' h'
    have hcell := (Cache.granted_allocate h.owned hgiven).cells slot (by simp [hb])
    have hclean : given.cache.isDirty slot = false := by
      rw [Cache.isDirty, hcell]
      exact h.clean slot hb
    rw [← h'.memory slot hclean]
    exact m'.step_load_slot hv h'.on slot _

/-- Fewer values need to be known when a register is about to be written. -/
theorem mono {unwritten' : IntSlot → Bool} (h : Agrees layout value unwritten extended cache m)
    (hu : ∀ s, unwritten' s = false → unwritten s = false) :
    Agrees layout value unwritten' extended cache m :=
  { h with host := fun s r hb hs => h.host s r hb (hu s hs) }

theorem scratch (hv : layout.Valid) (h : Agrees layout value unwritten extended cache m)
    {grant : Grant 40} (hok : Cache.scratch (.integer layout) cache = .ok grant)
    (hu : ∀ s, unwritten s = true → grant.cache.binding s ≠ .memory) :
    ∃ m', m.execAll grant.code = some m' ∧
      Agrees layout value unwritten extended grant.cache m' := by
  have howned := (Cache.respects_scratch h.owned hok).1.owned
  obtain ⟨given, hgiven, rfl⟩ := Cache.scratch_eq_ok hok
  obtain ⟨m', hrun, h'⟩ := h.allocate hv hgiven hu
  exact ⟨m', hrun, h'.of_cells howned rfl rfl⟩

/-- Whether a slot has a register that holds nothing yet, after one was asked for. -/
def stillUnwritten (unwritten : IntSlot → Bool) (slot : IntSlot) (keep : Bool) (s : IntSlot) :
    Bool :=
  (!keep && decide (s = slot)) || unwritten s

/-- A slot that gets a register as it is. It may have been unwritten before, in no register of its
own, so it is left out until it is bound. -/
theorem bindUnwritten (hv : layout.Valid) (h : Agrees layout value unwritten extended cache m)
    {grant : Grant 40} (hok : Cache.allocate (.integer layout) cache = .ok grant)
    (hs : ∀ r, cache.binding slot ≠ .host r)
    (hu : ∀ s, unwritten s = true → (grant.cache.bind slot grant.reg true).binding s ≠ .memory) :
    ∃ m', m.execAll grant.code = some m' ∧
      Agrees layout value (stillUnwritten unwritten slot false) extended
        (grant.cache.bind slot grant.reg true) m' := by
  have hg := Cache.granted_allocate h.owned hok
  have hbind : ∀ q, grant.cache.binding slot ≠ .host q := by
    intro q
    rw [Cache.binding, hg.cells slot hs]
    exact hs q
  have hmem : grant.reg ∈ grant.cache.pool.order := by
    rw [hg.respects.order]
    exact hg.mem
  have h₀ : Agrees layout value (fun s => unwritten s && decide (s ≠ slot)) extended cache m := by
    refine { h with host := ?_ }
    intro s r hb hs'
    by_cases he : s = slot
    · subst he
      exact absurd hb (hs r)
    · exact h.host s r hb (by simpa [he] using hs')
  have hu₀ : ∀ s, (unwritten s && decide (s ≠ slot)) = true → grant.cache.binding s ≠ .memory := by
    intro s hw
    rw [Bool.and_eq_true, decide_eq_true_eq] at hw
    have := hu s hw.1
    rw [Cache.binding_bind, if_neg hw.2] at this
    exact this
  obtain ⟨m', hrun, h'⟩ := h₀.allocate hv hok hu₀
  refine ⟨m', hrun, ?_⟩
  have hstill :
      Agrees layout value (stillUnwritten unwritten slot false) extended grant.cache m' := by
    refine h'.mono fun s hs' => ?_
    simp only [stillUnwritten, Bool.or_eq_false_iff] at hs'
    rw [hs'.2, Bool.false_and]
  refine hstill.bind hbind hmem hg.free h'.on (fun _ _ => rfl) (fun _ => rfl) ?_ (by simp)
  simp [stillUnwritten]

theorem write (hv : layout.Valid) (h : Agrees layout value unwritten extended cache m)
    {grant : Grant 40} {keep : Bool}
    (hok : Cache.write (.integer layout) cache slot keep = .ok grant)
    (hu : ∀ s, unwritten s = true → grant.cache.binding s ≠ .memory)
    (hslot : keep = true → unwritten slot = false) :
    ∃ m', m.execAll grant.code = some m' ∧
      Agrees layout value (stillUnwritten unwritten slot keep) extended grant.cache m' ∧
      (keep = true → Serves value extended m' slot grant.reg) := by
  have hmono : ∀ s, stillUnwritten unwritten slot keep s = false → unwritten s = false :=
    fun s hs => (Bool.or_eq_false_iff.1 hs).2
  obtain ⟨r, hb, rfl⟩ | ⟨given, hkeep, hread, rfl⟩ | ⟨given, rfl, hgiven, hs, rfl⟩ :=
    Cache.write_eq_ok hok
  · exact ⟨m, rfl, (Agrees.setDirty (h.touch r) (r := r) hb).mono hmono,
      fun hkeep => h.host slot r hb (hslot hkeep)⟩
  · have hu' : ∀ s, unwritten s = true → given.cache.binding s ≠ .memory := by
      intro s hw
      have := hu s hw
      rw [Cache.binding_setDirty] at this
      exact this
    obtain ⟨m', hrun, h', hserves⟩ := h.read hv hread hu' (hslot hkeep)
    have hb := (Cache.provided_read h.owned hread).bound.1
    exact ⟨m', hrun, (h'.setDirty hb).mono hmono, fun _ => hserves⟩
  · obtain ⟨m', hrun, h'⟩ := h.bindUnwritten hv hgiven hs hu
    exact ⟨m', hrun, h', nofun⟩

/-! ## Locks -/

theorem lock (hv : layout.Valid) (regs : List HostReg) {cache : Cache 40} {m : Machine}
    (h : Agrees layout value unwritten extended cache m)
    (hu : ∀ s, unwritten s = true →
      (Cache.lock (.integer layout) cache regs).cache.binding s ≠ .memory) :
    ∃ m', m.execAll (Cache.lock (.integer layout) cache regs).code = some m' ∧
      Agrees layout value unwritten extended
        (Cache.lock (.integer layout) cache regs).cache m' := by
  revert hu
  induction cache, regs using Cache.lock_induction (.integer layout) generalizing m with
  | nil cache => exact fun _ => ⟨m, rfl, h⟩
  | skip cache r regs hr ih => exact ih h
  | busy cache r regs hr huse => exact fun _ => ⟨m, rfl, h⟩
  | free cache r regs hr huse hown ih =>
    simp only [Cache.inUseNow, Bool.or_eq_false_iff] at huse
    exact ih (h.of_cells (h.owned.lock hown huse.1) rfl rfl)
  | evict cache r regs slot hr huse hown ih =>
    intro hu
    -- a slot that is evicted here stays in memory until the end
    have hwritten : unwritten slot = false := by
      refine eq_false_of_ne_true fun hw => hu slot hw ?_
      apply Cache.binding_lock_memory
      rw [Cache.evictAndLock, Cache.binding_pool, Cache.flushSlot_eq, Cache.binding_unbind,
        if_pos rfl]
    obtain ⟨m₁, hrun₁, h₁⟩ := h.flushSlot hv hwritten
    have howned := h.owned.evictAndLock (.integer layout) ((h.owned.owner_iff r slot).1 hown)
    obtain ⟨m₂, hrun₂, h₂⟩ := ih (h₁.of_cells howned rfl rfl) hu
    exact ⟨m₂, (Machine.execAll_append _ hrun₁).trans hrun₂, h₂⟩

/-! ## Constants and writes -/

/-- A slot that becomes a constant has that constant as its value. -/
theorem setConstant (h : Agrees layout value unwritten extended cache m) (v : BitVec 64) :
    Agrees layout (Function.update value slot (IntSlot.truncate slot v))
      (fun s => unwritten s && decide (s ≠ slot)) extended
      (Cache.setConstant (.integer layout) cache slot v) m := by
  rw [Cache.setConstant_eq]
  refine ⟨h.owned.unbind (by simp), ?_, h.on, ?_, ?_, ?_, ?_, ?_⟩
  · rw [Cache.order_unbind]
    exact h.unreserved
  · intro s
    by_cases hs : s = slot
    · rw [hs, Function.update_self, truncate_truncate]
    · rw [Function.update_of_ne hs, h.fits]
  · intro s
    rw [Cache.binding_unbind, Cache.isDirty_unbind]
    split
    · simp
    · exact h.clean s
  · intro s w
    rw [Cache.binding_unbind]
    split
    · next hs =>
      rw [hs, Function.update_self, Binding.constant.injEq]
      exact fun he => he.symm
    · next hs =>
      rw [Function.update_of_ne hs]
      exact h.constant s w
  · intro s r
    rw [Cache.binding_unbind]
    split
    · simp
    · next hs =>
      rw [Function.update_of_ne hs]
      intro hb hu
      exact h.host s r hb (by simpa [hs] using hu)
  · intro s
    rw [Cache.isDirty_unbind]
    split
    · simp
    · next hs =>
      rw [Function.update_of_ne hs]
      exact h.memory s

end Agrees

/-! ## Sessions -/

/-- Whether a register with the value of a slot is asked for. -/
def Request.asksValue (slot : IntSlot) : Request 40 → Bool
  | .read s | .write s true => s = slot
  | _ => false

/-- A cache in use: the machine that runs its code, the current value of each slot, the slots that
the current instruction may write, those of them whose register holds nothing yet, and whether all
values written so far had zeros above the width of their slot. -/
structure Session where
  cache : Cache 40
  machine : Machine
  value : IntSlot → BitVec 64
  writable : IntSlot → Bool := fun _ => false
  unwritten : IntSlot → Bool := fun _ => false
  extended : Prop := True

/-- What happens in a session: an operation of the cache, or code that puts a value into a
register. -/
inductive Event where
  | request (request : Request 40)
  | store (reg : HostReg) (value : BitVec 64)

namespace Session

/-- A new cache on a machine. -/
def start (order : List HostReg) (machine : Machine) : Session where
  cache := .new .general order
  machine
  value := memValue machine.state

/-- Whether a register is the one that a slot is written in. -/
def receives (session : Session) (reg : HostReg) (slot : IntSlot) : Bool :=
  session.writable slot && decide (session.cache.binding slot = .host reg)

/-- A slot may be written from the request for it to the end of the instruction, as long as it stays
in its register. -/
def writableAfter (session : Session) (request : Request 40) (reply : Reply 40) (slot : IntSlot) :
    Bool :=
  match request, reply.fault with
  | .endInstruction, none => false
  | .write s _, none =>
    decide (slot = s) || (session.writable slot && (reply.cache.host? slot).isSome)
  | _, _ => session.writable slot && (reply.cache.host? slot).isSome

def unwrittenAfter (session : Session) (request : Request 40) (reply : Reply 40) (slot : IntSlot) :
    Bool :=
  match request, reply.fault with
  | .write s keep, none => Agrees.stillUnwritten session.unwritten s keep slot
  | .setConstant s _, _ => session.unwritten slot && decide (slot ≠ s)
  | _, _ => session.unwritten slot

def valueAfter (session : Session) : Request 40 → IntSlot → BitVec 64
  | .setConstant slot value => Function.update session.value slot (IntSlot.truncate slot value)
  | _ => session.value

/-- A session after an operation, on the machine that its code led to. -/
def answered (session : Session) (request : Request 40) (reply : Reply 40) (machine : Machine) :
    Session where
  cache := reply.cache
  machine
  value := session.valueAfter request
  writable := session.writableAfter request reply
  unwritten := session.unwrittenAfter request reply
  extended := session.extended

/-- A session after a value was put into a register. -/
def stored (session : Session) (reg : HostReg) (value : BitVec 64) : Session where
  cache := session.cache
  machine := session.machine.setX reg value
  value slot :=
    if session.receives reg slot then IntSlot.truncate slot value else session.value slot
  writable := session.writable
  unwritten slot := session.unwritten slot && !session.receives reg slot
  extended := session.extended ∧
    ∀ slot, session.receives reg slot = true → IntSlot.truncate slot value = value

/-- One event; nothing if the machine cannot run the code of an operation. -/
def step (layout : Layout) (session : Session) : Event → Option Session
  | .request request =>
    let reply := request.perform (.integer layout) session.cache
    (session.machine.execAll reply.code).map (session.answered request reply)
  | .store reg value => some (session.stored reg value)

def run (layout : Layout) (session : Session) (events : List Event) : Option Session :=
  events.foldlM (step layout) session

/-- What an event must keep to. Values go to registers that the current instruction holds, as
scratch or to write a slot. No slot is looked at, evicted or flushed while its register holds
nothing yet. -/
def Legal (layout : Layout) (session : Session) : Event → Prop
  | .store reg _ => session.cache.pool.scratch.contains reg = true ∨
      ∃ slot, session.receives reg slot = true
  | .request request => ∀ slot, session.unwritten slot = true →
      request.asksValue slot = false ∧
        (request.perform (.integer layout) session.cache).cache.binding slot ≠ .memory

/-- Every event along a run keeps to that. -/
def LegalRun (layout : Layout) : Session → List Event → Prop
  | _, [] => True
  | session, event :: events => session.Legal layout event ∧
      ∀ next, session.step layout event = some next → LegalRun layout next events

/-- What holds of a session at all times. -/
structure Coherent (layout : Layout) (session : Session) : Prop where
  agrees : Agrees layout session.value session.unwritten session.extended session.cache
    session.machine
  writable : ∀ slot, session.writable slot = true →
    session.cache.isDirty slot = true ∧ ∃ r, session.cache.Bound slot r

variable {layout : Layout} {session : Session}

theorem coherent_start (order : List HostReg) (machine : Machine)
    (horder : ∀ r ∈ order, reserved.contains r = false) (hon : machine.state.On layout) :
    (start order machine).Coherent layout where
  agrees := by
    refine ⟨Cache.owned_new _ _, horder, hon, truncate_memValue _, fun _ _ => ?_, ?_, ?_,
      fun _ _ => rfl⟩
    · simp [start, Cache.new, Cache.isDirty]
    · simp [start, Cache.new, Cache.binding]
    · simp [start, Cache.new, Cache.binding]
  writable slot h := by simp [start] at h

/-! ## One event -/

/-- The code of an operation runs, the cache agrees with the machine after it, and a register that
was asked for a value has it. -/
theorem Coherent.perform (hv : layout.Valid) (h : session.Coherent layout) (request : Request 40)
    (hlegal : session.Legal layout (.request request)) :
    ∃ m', session.machine.execAll (request.perform (.integer layout) session.cache).code =
        some m' ∧
      Agrees layout (session.valueAfter request)
        (session.unwrittenAfter request (request.perform (.integer layout) session.cache))
        session.extended (request.perform (.integer layout) session.cache).cache m' ∧
      ∀ slot r, request.asksValue slot = true →
        (request.perform (.integer layout) session.cache).reg = some r →
        Agrees.Serves session.value session.extended m' slot r := by
  have hu : ∀ s, session.unwritten s = true →
      (request.perform (.integer layout) session.cache).cache.binding s ≠ .memory :=
    fun s hs => (hlegal s hs).2
  have hask : ∀ s, request.asksValue s = true → session.unwritten s = false := by
    intro s hs
    refine eq_false_of_ne_true fun hw => ?_
    rw [(hlegal s hw).1] at hs
    simp at hs
  cases request with
  | read slot =>
    cases hok : Cache.read (.integer layout) session.cache slot with
    | error refused =>
      obtain ⟨-, rfl⟩ := (Cache.read_eq_error _).1 hok
      simp only [Request.perform, hok, Reply.ofGrant] at hu ⊢
      exact ⟨_, rfl, h.agrees, by simp⟩
    | ok grant =>
      simp only [Request.perform, hok, Reply.ofGrant] at hu ⊢
      obtain ⟨m', hrun, hagrees, hserves⟩ :=
        h.agrees.read hv hok hu (hask slot (by simp [Request.asksValue]))
      refine ⟨m', hrun, hagrees, ?_⟩
      intro s r hs hr
      rw [Option.some.injEq] at hr
      simp only [Request.asksValue, decide_eq_true_eq] at hs
      rw [← hs, ← hr]
      exact hserves
  | write slot keep =>
    cases hok : Cache.write (.integer layout) session.cache slot keep with
    | error refused =>
      obtain ⟨-, rfl⟩ := (Cache.write_eq_error _).1 hok
      simp only [Request.perform, hok, Reply.ofGrant] at hu ⊢
      exact ⟨_, rfl, h.agrees, by simp⟩
    | ok grant =>
      simp only [Request.perform, hok, Reply.ofGrant] at hu ⊢
      obtain ⟨m', hrun, hagrees, hserves⟩ :=
        h.agrees.write hv hok hu fun hkeep => hask slot (by simp [hkeep, Request.asksValue])
      refine ⟨m', hrun, hagrees, ?_⟩
      intro s r hs hr
      rw [Option.some.injEq] at hr
      cases keep with
      | false => simp [Request.asksValue] at hs
      | true =>
        simp only [Request.asksValue, decide_eq_true_eq] at hs
        rw [← hs, ← hr]
        exact hserves rfl
  | scratch =>
    cases hok : Cache.scratch (.integer layout) session.cache with
    | error refused =>
      obtain ⟨-, rfl⟩ := (Cache.scratch_eq_error _).1 hok
      simp only [Request.perform, hok, Reply.ofGrant] at hu ⊢
      exact ⟨_, rfl, h.agrees, by simp⟩
    | ok grant =>
      simp only [Request.perform, hok, Reply.ofGrant] at hu ⊢
      obtain ⟨m', hrun, hagrees⟩ := h.agrees.scratch hv hok hu
      exact ⟨m', hrun, hagrees, by simp [Request.asksValue]⟩
  | setConstant slot value =>
      exact ⟨_, rfl, h.agrees.setConstant value, by simp [Request.asksValue]⟩
  | release r =>
    have hrelease : Cache.Respects (fun _ => False) (fun q => q = r) session.cache _ :=
      Cache.respects_release h.agrees.owned r
    exact ⟨_, rfl, h.agrees.of_cells hrelease.owned rfl rfl, by simp [Request.asksValue]⟩
  | flushSlot slot =>
    have hwritten : session.unwritten slot = false := by
      refine eq_false_of_ne_true fun hw => hu slot hw ?_
      simp only [Request.perform, Cache.flushSlot_eq, Cache.binding_unbind, if_pos]
    obtain ⟨m', hrun, hagrees⟩ := h.agrees.flushSlot hv hwritten
    exact ⟨m', hrun, hagrees, by simp [Request.asksValue]⟩
  | flush =>
    have hwritten : ∀ s ∈ List.finRange 40, session.unwritten s = false := by
      intro s hs
      refine eq_false_of_ne_true fun hw => hu s hw ?_
      simp only [Request.perform, Cache.flush, Cache.binding_flushSlots, if_pos hs]
    obtain ⟨m', hrun, hagrees⟩ := Agrees.flushSlots hv _ h.agrees hwritten
    exact ⟨m', hrun, hagrees, by simp [Request.asksValue]⟩
  | lock regs =>
    obtain ⟨m', hrun, hagrees⟩ := Agrees.lock hv _ h.agrees hu
    exact ⟨m', hrun, hagrees, by simp [Request.asksValue]⟩
  | unlock regs =>
    have hunlock : Cache.Respects (fun _ => False) (fun _ => False) session.cache _ :=
      Cache.respects_unlock h.agrees.owned regs
    exact ⟨_, rfl, h.agrees.of_cells hunlock.owned rfl rfl, by simp [Request.asksValue]⟩
  | endInstruction =>
    have hend := (Cache.respects_perform (.integer layout) h.agrees.owned .endInstruction).owned
    simp only [Request.perform, Cache.endInstruction] at hend ⊢
    cases hheld : session.cache.pool.heldScratch? with
    | some r =>
      simp only [hheld] at hend ⊢
      exact ⟨_, rfl, h.agrees, by simp⟩
    | none =>
      simp only [hheld] at hend ⊢
      exact ⟨_, rfl, h.agrees.of_cells hend rfl rfl, by simp⟩

theorem isDirty_write {access : Access 40} {cache : Cache 40} {slot : IntSlot} {keep : Bool}
    {grant : Grant 40} (hok : Cache.write access cache slot keep = .ok grant) :
    grant.cache.isDirty slot = true := by
  obtain ⟨r, -, rfl⟩ | ⟨given, -, -, rfl⟩ | ⟨given, -, -, -, rfl⟩ := Cache.write_eq_ok hok
  · simp [Cache.setDirty]
  · simp [Cache.setDirty]
  · simp

theorem Coherent.writable_perform (h : session.Coherent layout) {request : Request 40}
    {slot : IntSlot} (hw : session.writableAfter request
      (request.perform (.integer layout) session.cache) slot = true) :
    (request.perform (.integer layout) session.cache).cache.isDirty slot = true ∧
      ∃ r, (request.perform (.integer layout) session.cache).cache.Bound slot r := by
  have hstep := Cache.respects_perform (.integer layout) h.agrees.owned request
  -- a slot that could be written before and is still in a register
  have hkept : request.frees slot = false → session.writable slot = true →
      (request.perform (.integer layout) session.cache).cache.isDirty slot = true ∧
        ∃ r, (request.perform (.integer layout) session.cache).cache.Bound slot r := by
    intro hf hs
    obtain ⟨hdirty, r, hb⟩ := h.writable slot hs
    have hnot : ¬request.frees slot = true := by simp [hf]
    exact ⟨hstep.dirty slot r hnot hb hdirty, r, hstep.bound slot r hnot hb⟩
  cases request with
  | write s keep =>
    cases hok : Cache.write (.integer layout) session.cache s keep with
    | error fault =>
      simp only [writableAfter, Request.perform, hok, Reply.ofGrant, Bool.and_eq_true] at hw
      exact hkept rfl hw.1
    | ok grant =>
      simp only [writableAfter, Request.perform, hok, Reply.ofGrant, Bool.or_eq_true,
        Bool.and_eq_true, decide_eq_true_eq] at hw
      rcases hw with rfl | hw
      · simp only [Request.perform, hok, Reply.ofGrant]
        exact ⟨isDirty_write hok, grant.reg, (Cache.provided_write h.agrees.owned hok).bound⟩
      · exact hkept rfl hw.1
  | setConstant s v =>
    simp only [writableAfter, Bool.and_eq_true] at hw
    refine hkept ?_ hw.1
    simp only [Request.frees, decide_eq_false_iff_not]
    rintro rfl
    simp [Request.perform, Cache.setConstant_eq, Cache.host?] at hw
  | flushSlot s =>
    simp only [writableAfter, Bool.and_eq_true] at hw
    refine hkept ?_ hw.1
    simp only [Request.frees, decide_eq_false_iff_not]
    rintro rfl
    simp [Request.perform, Cache.flushSlot_eq, Cache.host?] at hw
  | flush =>
    simp [writableAfter, Request.perform, Cache.flush, Cache.host?, Cache.binding_flushSlots] at hw
  | endInstruction =>
    simp only [Request.perform, Cache.endInstruction] at hw ⊢
    cases hheld : session.cache.pool.heldScratch? with
    | none => simp [hheld, writableAfter] at hw
    | some r =>
      simp only [hheld, writableAfter, Bool.and_eq_true] at hw ⊢
      exact h.writable slot hw.1
  | read s | scratch | release r | lock regs | unlock regs =>
    simp only [writableAfter, Bool.and_eq_true] at hw
    exact hkept rfl hw.1

/-- A value that goes to a register in use becomes the value of the slot that the register is
for. -/
theorem Coherent.store (h : session.Coherent layout) {reg : HostReg} {v : BitVec 64}
    (hlegal : session.Legal layout (.store reg v)) : (session.stored reg v).Coherent layout := by
  have hmem : reg ∈ session.cache.pool.order := by
    rcases hlegal with hscratch | ⟨slot, hslot⟩
    · exact h.agrees.owned.scratch_mem reg hscratch
    · simp only [receives, Bool.and_eq_true, decide_eq_true_eq] at hslot
      exact h.agrees.mem_order hslot.2
  refine ⟨⟨h.agrees.owned, h.agrees.unreserved, ?_, ?_, h.agrees.clean, ?_, ?_, ?_⟩, h.writable⟩
  · rw [stored, Machine.state_setX]
    exact h.agrees.on
  · intro slot
    dsimp only [stored]
    split
    · exact truncate_truncate slot v
    · exact h.agrees.fits slot
  · intro slot w hb
    dsimp only [stored] at hb
    have hnot : session.receives reg slot = false := by
      simp only [receives, hb, reduceCtorEq, decide_false, Bool.and_false]
    simp only [stored, hnot, Bool.false_eq_true, if_false]
    exact h.agrees.constant slot w hb
  · intro slot r hb hu
    dsimp only [stored] at hb hu ⊢
    by_cases hr : r = reg
    · subst hr
      rw [session.machine.getX_setX_self (h.agrees.ne_zeroReg hmem)]
      -- the register is no scratch register, so the slot is the one that is written
      have hreceives : session.receives r slot = true := by
        rcases hlegal with hscratch | ⟨s, hs⟩
        · rw [h.agrees.owned.not_scratch hb] at hscratch
          simp at hscratch
        · have hs' := hs
          simp only [receives, Bool.and_eq_true, decide_eq_true_eq] at hs'
          rw [h.agrees.owned.host_inj hb hs'.2]
          exact hs
      rw [if_pos hreceives]
      exact ⟨rfl, fun hext => (hext.2 slot hreceives).symm⟩
    · have hnot : session.receives reg slot = false := by
        have hne : ¬Binding.host r = .host reg := by simpa using hr
        simp only [receives, hb, hne, decide_false, Bool.and_false]
      rw [session.machine.getX_setX_of_ne hr]
      simp only [hnot, Bool.not_false, Bool.and_true, Bool.false_eq_true, if_false] at hu ⊢
      obtain ⟨hlow, hfull⟩ := h.agrees.host slot r hb hu
      exact ⟨hlow, fun hext => hfull hext.1⟩
  · intro slot hclean
    dsimp only [stored] at hclean
    have hnot : session.receives reg slot = false := by
      refine eq_false_of_ne_true fun hw => ?_
      simp only [receives, Bool.and_eq_true] at hw
      rw [(h.writable slot hw.1).1] at hclean
      simp at hclean
    simp only [stored, hnot, Bool.false_eq_true, if_false, Machine.state_setX]
    exact h.agrees.memory slot hclean

/-- One event keeps everything coherent. -/
theorem Coherent.step (hv : layout.Valid) (h : session.Coherent layout) {event : Event}
    (hlegal : session.Legal layout event) :
    ∃ next, session.step layout event = some next ∧ next.Coherent layout := by
  cases event with
  | request request =>
    obtain ⟨m', hrun, hagrees, -⟩ := h.perform hv request hlegal
    refine ⟨session.answered request (request.perform (.integer layout) session.cache) m', ?_,
      hagrees, fun slot hw => h.writable_perform hw⟩
    simp only [Session.step, hrun, Option.map_some]
  | store reg v => exact ⟨_, rfl, h.store hlegal⟩

/-- So does a whole run. -/
theorem Coherent.run (hv : layout.Valid) (events : List Event) :
    ∀ {session : Session}, session.Coherent layout → session.LegalRun layout events →
      ∃ final, session.run layout events = some final ∧ final.Coherent layout := by
  induction events with
  | nil => exact fun h _ => ⟨_, rfl, h⟩
  | cons event events ih =>
    intro session h hlegal
    obtain ⟨next, hnext, hcoherent⟩ := h.step hv hlegal.1
    obtain ⟨final, hrun, hfinal⟩ := ih hcoherent (hlegal.2 next hnext)
    refine ⟨final, ?_, hfinal⟩
    rw [Session.run, List.foldlM_cons, hnext]
    exact hrun

end Session

/-- Whatever was done with a cache before, a register that is asked for the value of a slot holds
the current value, and after a flush memory holds the current values of all registers and condition
fields. -/
theorem cache_serves_current_values {layout : Layout} (hv : layout.Valid) {order : List HostReg}
    (horder : ∀ r ∈ order, reserved.contains r = false) {machine : Machine}
    (hon : machine.state.On layout) (events : List Event)
    (hlegal : (Session.start order machine).LegalRun layout events) :
    ∃ session, (Session.start order machine).run layout events = some session ∧
      (∀ request slot r, session.Legal layout (.request request) →
        request.asksValue slot = true →
        (request.perform (.integer layout) session.cache).reg = some r →
        ∃ m, session.machine.execAll (request.perform (.integer layout) session.cache).code =
            some m ∧
          IntSlot.truncate slot (m.getX r) = session.value slot ∧
          (session.extended → m.getX r = session.value slot)) ∧
      (session.Legal layout (.request .flush) →
        ∃ m, session.machine.execAll
            (Request.perform (.integer layout) session.cache .flush).code = some m ∧
          (∀ reg : GuestReg, m.state.gpr reg = (session.value (.gpr reg)).setWidth 32) ∧
          ∀ field : CrField, m.state.cr field = session.value (.cr field)) := by
  obtain ⟨session, hrun, h⟩ := (Session.coherent_start order machine horder hon).run
    hv events hlegal
  refine ⟨session, hrun, ?_, ?_⟩
  · intro request slot r hlegal' hask hr
    obtain ⟨m, hcode, -, hserves⟩ := h.perform hv request hlegal'
    exact ⟨m, hcode, hserves slot r hask hr⟩
  · intro hlegal'
    obtain ⟨m, hcode, hagrees, -⟩ := h.perform hv .flush hlegal'
    have hmem : ∀ slot, memValue m.state slot = session.value slot := by
      intro slot
      refine hagrees.memory slot ?_
      simp [Request.perform, Cache.flush, Cache.isDirty_flushSlots]
    refine ⟨m, hcode, ?_, ?_⟩
    · intro reg
      rw [← hmem, memValue, IntSlot.cell_gpr]
      have hwidth : (Cell.gpr reg).width ≤ 64 := Nat.le_of_ble_eq_true rfl
      rw [BitVec.setWidth_setWidth_of_le _ hwidth]
      exact (BitVec.setWidth_eq _).symm
    · intro field
      rw [← hmem, memValue, IntSlot.cell_cr]
      exact (BitVec.setWidth_eq _).symm

/-- A register that is bound without its old value, written, and flushed. -/
theorem cache_serves_value_just_written :
    ∃ session, (Session.start [19] { state := ⟨.standard, .zeros 712⟩ }).run .standard
        [.request (.write (IntSlot.gpr 3) false), .store 19 7] = some session ∧
      ∃ m, session.machine.execAll
          (Request.perform (.integer .standard) session.cache .flush).code = some m ∧
        m.state.gpr 3 = 7 := by
  have hon : State.On .standard ⟨.standard, .zeros 712⟩ :=
    ⟨rfl, Array.size_replicate⟩
  have hreply : Request.perform (.integer .standard) (.new .general [19])
      (.write (IntSlot.gpr 3) false) =
        { cache := Cache.bind (.new .general [19]) (IntSlot.gpr 3) 19 true, reg := some 19 } := rfl
  have hlegal : (Session.start [19] { state := ⟨.standard, .zeros 712⟩ }).LegalRun .standard
      [.request (.write (IntSlot.gpr 3) false), .store 19 7] := by
    refine ⟨fun slot h => by simp [Session.start] at h, ?_⟩
    intro next hnext
    simp only [Session.step, Session.start, hreply, Machine.execAll_nil, Option.map_some,
      Option.some.injEq] at hnext
    subst hnext
    refine ⟨.inr ⟨IntSlot.gpr 3, ?_⟩, fun _ _ => trivial⟩
    simp [Session.receives, Session.answered, Session.writableAfter]
  obtain ⟨session, hrun, -, hflush⟩ := cache_serves_current_values Layout.valid_standard
    (by decide +kernel) hon _ hlegal
  refine ⟨session, hrun, ?_⟩
  simp only [Session.run, List.foldlM_cons, Session.step, Session.start, hreply,
    Machine.execAll_nil, Option.map_some, Option.bind_eq_bind, Option.bind_some, List.foldlM_nil,
    Option.pure_def, Option.some.injEq] at hrun
  have hwritten : session.Legal .standard (.request .flush) := by
    intro slot hu
    rw [← hrun] at hu
    simp [Session.stored, Session.answered, Session.unwrittenAfter, Session.receives,
      Session.writableAfter, Agrees.stillUnwritten] at hu
    simp [hu] at hu
  obtain ⟨m, hcode, hgpr, -⟩ := hflush hwritten
  have hvalue : session.value (IntSlot.gpr 3) = 7 := by
    rw [← hrun]
    rfl
  have hthree := hgpr 3
  rw [hvalue] at hthree
  exact ⟨m, hcode, hthree⟩

end Recompiler.Alloc
