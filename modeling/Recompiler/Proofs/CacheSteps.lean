import Recompiler.Proofs.CacheHistory

/-!
# Cache operations keep the values of slots

`Cache.At home cache m val u` says that on machine `m` the cache stands for the values `val`, while
the current instruction uses it as `u` says. Each operation is described by what it does to this:
the code that it gives back runs, and leads to a machine for the new cache.
-/

namespace Recompiler.Alloc.Cache

open Arm PowerPC

variable {n : Nat} {V : Type} {home : Home n V} {cache cache' : Cache n} {m m' : Machine}
  {val : Fin n → V} {u : Usage n} {k : Nat} {held locked : RegSet} {hole : Option (Fin n)}
  {slot : Fin n}

/-- The part of the invariant that does not depend on the machine. -/
structure Ready (home : Home n V) (cache : Cache n) (u : Usage n) : Prop where
  order : cache.pool.order = home.order
  owned : cache.Owned
  clean : ∀ slot, cache.binding slot = .memory → cache.isDirty slot = false
  const : ∀ slot v, cache.binding slot = .constant v →
    cache.isDirty slot = true ∧ home.constants ∧ home.access.truncate slot v = v
  room : cache.pool.busy + u.room ≤ home.order.length
  held : cache.pool.scratch = u.held
  locked : cache.pool.locked = u.locked
  hole : ∀ slot, u.hole = some slot → cache.isDirty slot = true ∧ ∃ r, cache.Bound slot r

/-- The slots have the given values, except one that is not written yet. -/
structure Holds (home : Home n V) (cache : Cache n) (m : Machine) (val : Fin n → V)
    (hole : Option (Fin n)) : Prop where
  on : m.state.On home.layout
  host : ∀ slot r, cache.binding slot = .host r → hole ≠ some slot → home.reg m r = val slot
  memory : ∀ slot, cache.isDirty slot = false → home.mem m.state slot = val slot
  constant : ∀ slot v, cache.binding slot = .constant v → val slot = home.imm v
  fits : ∀ slot, hole ≠ some slot → home.fits slot (val slot)

structure At (home : Home n V) (cache : Cache n) (m : Machine) (val : Fin n → V)
    (u : Usage n) : Prop where
  ready : Ready home cache u
  holds : Holds home cache m val u.hole

/-- Running `code` leads from one cache on its machine to another. -/
structure Step (home : Home n V) (cache : Cache n) (m : Machine) (code : List Inst)
    (cache' : Cache n) (m' : Machine) : Prop where
  exec : m.execAll code = some m'
  frame : Frame home.cls m m'
  keeps : Keeps home cache m cache' m'

/-! ## Consequences -/

theorem Owned.mem_order (h : cache.Owned) {r : HostReg} (hr : cache.Owns r) :
    r ∈ cache.pool.order := by
  rcases hr with ⟨slot, hb, -⟩ | hs
  · exact h.owner_mem r slot ((h.owner_iff r slot).2 hb)
  · exact h.scratch_mem r hs

theorem Ready.mem_order (h : Ready home cache u) {r : HostReg} (hr : cache.Owns r) :
    r ∈ home.order := h.order ▸ h.owned.mem_order hr

theorem Bound.owns {r : HostReg} (h : cache.Bound slot r) : cache.Owns r := .inl ⟨slot, h⟩

theorem Respects.owns (h : Respects (fun _ => False) (fun _ => False) cache cache') {r : HostReg}
    (hr : cache.Owns r) : cache'.Owns r := by
  rcases hr with ⟨slot, hb⟩ | hs
  · exact .inl ⟨slot, h.bound slot r not_false hb⟩
  · exact .inr (h.held r not_false hs)

/-- Registers that stay with the current instruction keep their values as long as no code writes
them. -/
theorem Respects.keeps (h : Respects (fun _ => False) (fun _ => False) cache cache')
    (hreg : ∀ r, cache.Owns r → home.reg m' r = home.reg m r) : Keeps home cache m cache' m' where
  bound slot r hb := h.bound slot r not_false hb
  has r _ hv := ⟨h.owns hv.1, (hreg r hv.1).trans hv.2⟩

/-- A bound slot is in a register with its value. -/
theorem At.has (h : At home cache m val u) {r : HostReg} (hb : cache.Bound slot r)
    (hs : u.hole ≠ some slot) : cache.Has home m r (val slot) :=
  ⟨hb.owns, h.holds.host slot r hb.1 hs⟩

theorem At.with_spills (h : At home cache m val u) (spills : Nat) :
    At home { cache with spills } m val u where
  ready := ⟨h.ready.order,
    h.ready.owned.of_le (fun _ => rfl) rfl rfl (fun _ hs => hs) fun _ hl => hl,
    h.ready.clean, h.ready.const, h.ready.room, h.ready.held, h.ready.locked, h.ready.hole⟩
  holds := ⟨h.holds.on, h.holds.host, h.holds.memory, h.holds.constant, h.holds.fits⟩

/-- Less room may be left than there is. -/
theorem At.weaken {k' : Nat} (h : At home cache m val ⟨k, held, locked, hole⟩) (hk : k' ≤ k) :
    At home cache m val ⟨k', held, locked, hole⟩ where
  ready := { h.ready with room := Nat.le_trans (Nat.add_le_add_left hk _) h.ready.room }
  holds := h.holds

/-! ## Other machines for the same cache -/

/-- A machine that agrees on the registers and on memory will do. -/
theorem At.of_frame (h : At home cache m val u) (hon : m'.state.On home.layout)
    (hreg : ∀ r ∈ home.order, home.reg m' r = home.reg m r)
    (hmem : ∀ s, home.mem m'.state s = home.mem m.state s) : At home cache m' val u where
  ready := h.ready
  holds := by
    refine ⟨hon, ?_, ?_, h.holds.constant, h.holds.fits⟩
    · intro s r hb hs
      have hm : r ∈ home.order :=
        h.ready.order ▸ h.ready.owned.owner_mem r s ((h.ready.owned.owner_iff r s).2 hb)
      rw [hreg r hm]
      exact h.holds.host s r hb hs
    · intro s hd
      rw [hmem]
      exact h.holds.memory s hd

/-- Writing a register that no slot is in, except one that is not written yet. -/
theorem At.of_write (h : At home cache m val u) {r : HostReg}
    (hr : ∀ s, cache.binding s = .host r → u.hole = some s) (hon : m'.state.On home.layout)
    (hreg : ∀ q ∈ home.order, q ≠ r → home.reg m' q = home.reg m q)
    (hmem : ∀ s, home.mem m'.state s = home.mem m.state s) : At home cache m' val u where
  ready := h.ready
  holds := by
    refine ⟨hon, ?_, ?_, h.holds.constant, h.holds.fits⟩
    · intro s q hb hs
      have hm : q ∈ home.order :=
        h.ready.order ▸ h.ready.owned.owner_mem q s ((h.ready.owned.owner_iff q s).2 hb)
      have hq : q ≠ r := by
        rintro rfl
        exact hs (hr s hb)
      rw [hreg q hm hq]
      exact h.holds.host s q hb hs
    · intro s hd
      rw [hmem]
      exact h.holds.memory s hd

/-- A slot that was not written yet has the value that is in its register now. -/
theorem At.close (h : At home cache m val ⟨k, held, locked, some slot⟩) {r : HostReg} {v : V}
    (hb : cache.Bound slot r) (hr : home.reg m r = v) (hv : home.fits slot v) :
    At home cache m (Function.update val slot v) ⟨k, held, locked, none⟩ where
  ready := { h.ready with hole := by simp }
  holds := by
    have hd := (h.ready.hole slot rfl).1
    have hother : ∀ s, s ≠ slot → some slot ≠ some s := by
      intro s hs he
      exact hs (Option.some.inj he).symm
    refine ⟨h.holds.on, ?_, ?_, ?_, ?_⟩
    · intro s q hq _
      by_cases hs : s = slot
      · subst hs
        have hqr : r = q := by
          rw [hb.1, Binding.host.injEq] at hq
          exact hq
        rw [Function.update_self, ← hqr, hr]
      · rw [Function.update_of_ne hs]
        exact h.holds.host s q hq (hother s hs)
    · intro s hds
      have hs : s ≠ slot := by
        rintro rfl
        rw [hd] at hds
        simp at hds
      rw [Function.update_of_ne hs]
      exact h.holds.memory s hds
    · intro s w hw
      have hs : s ≠ slot := by
        rintro rfl
        rw [hb.1] at hw
        simp at hw
      rw [Function.update_of_ne hs]
      exact h.holds.constant s w hw
    · intro s _
      by_cases hs : s = slot
      · subst hs
        rw [Function.update_self]
        exact hv
      · rw [Function.update_of_ne hs]
        exact h.holds.fits s (hother s hs)

/-! ## Writing back -/

/-- The code that brings memory up to date for a slot runs, and does so. It may use the register
that is kept for constants. -/
theorem At.exec_writeBack (h : At home cache m val u) (hs : u.hole ≠ some slot) :
    ∃ m', m.execAll (writeBack home.access slot (cache.cells.get slot)) = some m' ∧
      Frame home.cls m m' ∧ (∀ q, (home.constants → q ≠ flushReg) → home.reg m' q = home.reg m q) ∧
      (∀ s, s ≠ slot → home.mem m'.state s = home.mem m.state s) ∧
      home.mem m'.state slot = val slot := by
  have hfits := h.holds.fits slot hs
  unfold writeBack
  cases hd : (cache.cells.get slot).dirty with
  | false =>
    refine ⟨m, rfl, .refl _ _, fun _ _ => rfl, fun _ _ => rfl, ?_⟩
    exact h.holds.memory slot hd
  | true =>
    rw [if_pos rfl]
    cases hb : (cache.cells.get slot).binding with
    | memory =>
      have := h.ready.clean slot hb
      rw [isDirty, hd] at this
      simp at this
    | host r =>
      obtain ⟨m', hstep, hf, hreg, hmem, hself⟩ := home.store m slot r h.holds.on
      have hval := h.holds.host slot r hb hs
      refine ⟨m', ?_, hf, fun q _ => hreg q, hmem, ?_⟩
      · rw [Machine.execAll_cons _ hstep, Machine.execAll_nil]
      · rw [← hval] at hfits ⊢
        exact hself hfits
    | constant v =>
      obtain ⟨-, hc, htr⟩ := h.ready.const slot v hb
      have hval := h.holds.constant slot v hb
      dsimp only
      by_cases hv : v = 0
      · rw [if_pos hv]
        obtain ⟨m', hstep, hf, hreg, hmem, hself⟩ := home.store m slot zeroReg h.holds.on
        refine ⟨m', ?_, hf, fun q _ => hreg q, hmem, ?_⟩
        · rw [Machine.execAll_cons _ hstep, Machine.execAll_nil]
        · have hz := home.imm_zero hc m
          rw [hval, hv, ← hz] at hfits ⊢
          exact hself hfits
      · rw [if_neg hv]
        obtain ⟨m₁, hstep₁, hf₁, hr₁, hreg₁, hmem₁⟩ :=
          home.constant hc m slot flushReg v (.inr rfl) htr h.holds.on
        obtain ⟨m₂, hstep₂, hf₂, hreg₂, hmem₂, hself⟩ :=
          home.store m₁ slot flushReg (hf₁.on _ h.holds.on)
        refine ⟨m₂, ?_, hf₁.trans hf₂, ?_, ?_, ?_⟩
        · rw [Machine.execAll_cons _ hstep₁, Machine.execAll_cons _ hstep₂, Machine.execAll_nil]
        · intro q hq
          rw [hreg₂, hreg₁ q (hq hc)]
        · intro s hne
          rw [hmem₂ s hne, hmem₁]
        · rw [hval, ← hr₁] at hfits ⊢
          exact hself hfits

theorem Ready.unbind (h : Ready home cache u) (hs : u.hole ≠ some slot) {cell : Cell}
    (hhost : ∀ r, cell.binding ≠ .host r) (hclean : cell.binding = .memory → cell.dirty = false)
    (hconst : ∀ v, cell.binding = .constant v →
      cell.dirty = true ∧ home.constants ∧ home.access.truncate slot v = v) :
    Ready home (cache.unbind slot cell) u where
  order := by rw [order_unbind, h.order]
  owned := h.owned.unbind hhost
  clean s hb := by
    rw [binding_unbind] at hb
    rw [isDirty_unbind]
    split at hb
    · next he =>
      rw [if_pos he]
      exact hclean hb
    · next he =>
      rw [if_neg he]
      exact h.clean s hb
  const s v hb := by
    rw [binding_unbind] at hb
    rw [isDirty_unbind]
    split at hb
    · next he =>
      rw [if_pos he, he]
      exact hconst v hb
    · next he =>
      rw [if_neg he]
      exact h.const s v hb
  room := Nat.le_trans (Nat.add_le_add_right busy_unbind _) h.room
  held := by rw [h.owned.scratch_unbind, h.held]
  locked := by rw [locked_unbind, h.locked]
  hole s hh := by
    have hne : s ≠ slot := fun he => hs (he ▸ hh)
    obtain ⟨hd, r, hb⟩ := h.hole s hh
    rw [isDirty_unbind, if_neg hne]
    exact ⟨hd, r, hb.unbind hne⟩

theorem At.flushSlot (h : At home cache m val u) (hs : u.hole ≠ some slot) :
    ∃ m', m.execAll (flushSlot home.access cache slot).1 = some m' ∧ Frame home.cls m m' ∧
      (∀ q, (home.constants → q ≠ flushReg) → home.reg m' q = home.reg m q) ∧
      At home (flushSlot home.access cache slot).2 m' val u := by
  obtain ⟨m', hexec, hf, hreg, hmem, hself⟩ := h.exec_writeBack hs
  rw [flushSlot_eq]
  refine ⟨m', hexec, hf, hreg, ?_, ?_⟩
  · apply h.ready.unbind hs
    · intro r hb
      simp at hb
    · intro _
      rfl
    · intro v hb
      simp at hb
  · refine ⟨hf.on _ h.holds.on, ?_, ?_, ?_, h.holds.fits⟩
    · intro s r hb hh
      rw [binding_unbind] at hb
      split at hb
      · simp at hb
      · have hm : r ∈ home.order :=
          h.ready.order ▸ h.ready.owned.owner_mem r s ((h.ready.owned.owner_iff r s).2 hb)
        rw [hreg r (home.ne_flush r hm)]
        exact h.holds.host s r hb hh
    · intro s hd
      rw [isDirty_unbind] at hd
      by_cases he : s = slot
      · rw [he, hself]
      · rw [if_neg he] at hd
        rw [hmem s he]
        exact h.holds.memory s hd
    · intro s v hb
      rw [binding_unbind] at hb
      split at hb
      · simp at hb
      · exact h.holds.constant s v hb

/-- Slots that are flushed are in memory, clean; the others are as they were. -/
theorem cells_flushSlot (access : Access n) (cache : Cache n) (slot s : Fin n) :
    (Cache.flushSlot access cache slot).2.cells.get s =
      if s = slot then {} else cache.cells.get s := by
  simp only [flushSlot_eq, unbind, setCell, Bank.get_set]

theorem At.flushSlots (slots : List (Fin n)) :
    ∀ {cache : Cache n} {m : Machine}, At home cache m val ⟨k, held, locked, none⟩ →
      ∃ m', m.execAll (flushSlots home.access cache slots).1 = some m' ∧ Frame home.cls m m' ∧
        At home (flushSlots home.access cache slots).2 m' val ⟨k, held, locked, none⟩ ∧
        ∀ s, (flushSlots home.access cache slots).2.cells.get s =
          if s ∈ slots then {} else cache.cells.get s := by
  induction slots with
  | nil =>
    intro cache m h
    exact ⟨m, rfl, .refl _ _, h, by simp [Cache.flushSlots]⟩
  | cons slot slots ih =>
    intro cache m h
    have hs : (none : Option (Fin n)) ≠ some slot := by simp
    obtain ⟨m₁, hexec₁, hf₁, -, h₁⟩ := h.flushSlot hs
    obtain ⟨m₂, hexec₂, hf₂, h₂, hcells⟩ := ih h₁
    refine ⟨m₂, ?_, hf₁.trans hf₂, h₂, ?_⟩
    · simp only [Cache.flushSlots]
      rw [Machine.execAll_append _ hexec₁]
      exact hexec₂
    · intro s
      simp only [Cache.flushSlots]
      rw [hcells s, cells_flushSlot]
      by_cases hin : s ∈ slots
      · simp [hin]
      · simp [hin]

/-- After a flush every slot is in memory, with its value. -/
theorem At.flush (h : At home cache m val ⟨k, held, locked, none⟩) :
    ∃ m', m.execAll (flush home.access cache).1 = some m' ∧ Frame home.cls m m' ∧
      At home (flush home.access cache).2 m' val ⟨k, held, locked, none⟩ ∧
      ∀ s, (flush home.access cache).2.cells.get s = {} := by
  obtain ⟨m', hexec, hf, hat, hcells⟩ := h.flushSlots (List.finRange n)
  refine ⟨m', hexec, hf, hat, ?_⟩
  intro s
  have := hcells s
  rwa [if_pos (List.mem_finRange s)] at this

/-! ## Constants -/

theorem At.setConstant (h : At home cache m val ⟨k, held, locked, none⟩) (hc : home.constants)
    (slot : Fin n) (v : BitVec 64) :
    At home (setConstant home.access cache slot v) m
      (Function.update val slot (home.imm (home.access.truncate slot v)))
      ⟨k, held, locked, none⟩ := by
  have htr := home.truncate_truncate slot v
  rw [setConstant_eq]
  refine ⟨h.ready.unbind (by simp) ?_ ?_ ?_, h.holds.on, ?_, ?_, ?_, ?_⟩
  · intro r hb
    simp at hb
  · intro hb
    simp at hb
  · intro w hw
    simp only [Binding.constant.injEq] at hw
    subst hw
    exact ⟨rfl, hc, htr⟩
  · intro s r hb hh
    rw [binding_unbind] at hb
    split at hb
    · simp at hb
    · next hne =>
      rw [Function.update_of_ne hne]
      exact h.holds.host s r hb hh
  · intro s hd
    rw [isDirty_unbind] at hd
    split at hd
    · simp at hd
    · next hne =>
      rw [Function.update_of_ne hne]
      exact h.holds.memory s hd
  · intro s w hb
    rw [binding_unbind] at hb
    split at hb
    · next he =>
      simp only [Binding.constant.injEq] at hb
      subst he hb
      rw [Function.update_self]
    · next hne =>
      rw [Function.update_of_ne hne]
      exact h.holds.constant s w hb
  · intro s hh
    by_cases he : s = slot
    · subst he
      rw [Function.update_self]
      exact home.imm_fits s _ htr
    · rw [Function.update_of_ne he]
      exact h.holds.fits s hh

/-! ## Handing out registers -/

/-- With room left a register can be had, and nothing that the current instruction relies on has
moved. -/
theorem At.allocate (h : At home cache m val ⟨k + 1, held, locked, hole⟩) :
    ∃ grant m', allocate home.access cache = .ok grant ∧
      Step home cache m grant.code grant.cache m' ∧
      At home grant.cache m' val ⟨k + 1, held, locked, hole⟩ ∧ Granted cache grant := by
  cases hfree : cache.pool.free? with
  | some r =>
    have hok : Cache.allocate home.access cache = .ok ⟨r, [], cache⟩ := by
      simp only [Cache.allocate, hfree]
    exact ⟨_, m, hok, ⟨rfl, .refl _ _, (Respects.refl h.ready.owned).keeps fun _ _ => rfl⟩, h,
      granted_allocate h.ready.owned hok⟩
  | none =>
    have hroom := h.ready.room
    have hbusy : cache.pool.busy < cache.pool.order.length := by
      rw [h.ready.order]
      dsimp only at hroom
      omega
    obtain ⟨r, s, hv⟩ := Pool.victim?_isSome_of_busy_lt hbusy hfree
    have hok : Cache.allocate home.access cache =
        .ok ⟨r, (Cache.flushSlot home.access { cache with spills := cache.spills + 1 } s).1,
          (Cache.flushSlot home.access { cache with spills := cache.spills + 1 } s).2⟩ := by
      simp only [Cache.allocate, hfree, hv]
    have hgranted := granted_allocate h.ready.owned hok
    have hne : hole ≠ some s := by
      intro he
      obtain ⟨-, q, hq⟩ := h.ready.hole s he
      exact victim_not_bound h.ready.owned hv hq rfl
    obtain ⟨m', hexec, hf, hreg, hat⟩ := (h.with_spills (cache.spills + 1)).flushSlot hne
    refine ⟨_, m', hok, ⟨hexec, hf, hgranted.respects.keeps ?_⟩, hat, hgranted⟩
    intro q hq
    exact hreg q (home.ne_flush q (h.ready.mem_order hq))

theorem Ready.bind (h : Ready home cache ⟨k + 1, held, locked, none⟩) {r : HostReg} {dirty : Bool}
    (hs : ∀ q, cache.binding slot ≠ .host q) (hm : r ∈ home.order)
    (hf : cache.pool.isFree r = true) (hh : hole = none ∨ (hole = some slot ∧ dirty = true)) :
    Ready home (cache.bind slot r dirty) ⟨k, held, locked, hole⟩ where
  order := h.order
  owned := h.owned.bind hs (h.order ▸ hm) hf
  clean s hb := by
    rw [binding_bind] at hb
    rw [isDirty_bind]
    split at hb
    · simp at hb
    · next hne =>
      rw [if_neg hne]
      exact h.clean s hb
  const s v hb := by
    rw [binding_bind] at hb
    rw [isDirty_bind]
    split at hb
    · simp at hb
    · next hne =>
      rw [if_neg hne]
      exact h.const s v hb
  room := by
    have hroom := h.room
    have hn : cache.pool.order.Nodup := h.order ▸ home.nodup
    have hbusy := Pool.busy_assign cache.pool r slot hn
    have hpool : (cache.bind slot r dirty).pool = cache.pool.assign r slot := rfl
    rw [hpool]
    dsimp only at hroom ⊢
    omega
  held := h.held
  locked := h.locked
  hole s hs' := by
    dsimp only at hs'
    rcases hh with hh | ⟨hh, hdirty⟩
    · simp [hh] at hs'
    · have he : slot = s := by
        rw [hh, Option.some.injEq] at hs'
        exact hs'
      subst he
      refine ⟨?_, r, bound_bind⟩
      rw [isDirty_bind, if_pos rfl]
      exact hdirty

/-- Binding a slot to a free register that has its value, or is going to have it. -/
theorem At.bind (h : At home cache m val ⟨k + 1, held, locked, none⟩) {r : HostReg} {dirty : Bool}
    (hs : ∀ q, cache.binding slot ≠ .host q) (hm : r ∈ home.order)
    (hf : cache.pool.isFree r = true) (hh : hole = none ∨ (hole = some slot ∧ dirty = true))
    (hon : m'.state.On home.layout) (hreg : ∀ q, q ≠ r → home.reg m' q = home.reg m q)
    (hr : hole = none → home.reg m' r = val slot)
    (hmem : ∀ s, home.mem m'.state s = home.mem m.state s)
    (hd : dirty = false → cache.isDirty slot = false) :
    At home (cache.bind slot r dirty) m' val ⟨k, held, locked, hole⟩ where
  ready := h.ready.bind hs hm hf hh
  holds := by
    refine ⟨hon, ?_, ?_, ?_, fun s hs' => h.holds.fits s (by simp)⟩
    · intro s q hb hne
      dsimp only at hne
      rw [binding_bind] at hb
      split at hb
      · next he =>
        rw [Binding.host.injEq] at hb
        subst he hb
        apply hr
        rcases hh with hh | ⟨hh, -⟩
        · exact hh
        · exact absurd hh hne
      · have hqr : q ≠ r := by
          rintro rfl
          rw [Pool.isFree_iff, (h.ready.owned.owner_iff q s).2 hb] at hf
          simp at hf
        rw [hreg q hqr]
        exact h.holds.host s q hb (by simp)
    · intro s hds
      rw [isDirty_bind] at hds
      rw [hmem]
      split at hds
      · next he =>
        subst he
        exact h.holds.memory s (hd hds)
      · exact h.holds.memory s hds
    · intro s v hb
      rw [binding_bind] at hb
      split at hb
      · simp at hb
      · exact h.holds.constant s v hb

/-- Touching the register of a slot pins it. -/
theorem At.touch (h : At home cache m val ⟨k + 1, held, locked, none⟩) {r : HostReg}
    (hb : cache.binding slot = .host r) :
    At home { cache with pool := cache.pool.touch r } m val ⟨k, held, locked, none⟩ ∧
      Keeps home cache m { cache with pool := cache.pool.touch r } m ∧
      Bound { cache with pool := cache.pool.touch r } slot r := by
  have hroom := h.ready.room
  have hn : cache.pool.order.Nodup := h.ready.order ▸ home.nodup
  have hbusy := Pool.busy_touch cache.pool r hn
  have hprovided := Provided.of_host h.ready.owned hb
  refine ⟨⟨⟨h.ready.order, hprovided.respects.owned, h.ready.clean, h.ready.const, ?_, h.ready.held,
    h.ready.locked, by simp⟩, h.holds.on, h.holds.host, h.holds.memory, h.holds.constant,
    h.holds.fits⟩, hprovided.respects.keeps fun _ _ => rfl, hprovided.bound⟩
  dsimp only at hroom ⊢
  omega

/-- A slot that is in no register gets one, and an instruction brings its value there. -/
theorem At.fill (h : At home cache m val ⟨k + 1, held, locked, none⟩)
    (hs : ∀ q, cache.binding slot ≠ .host q) (inst : HostReg → Inst) {dirty : Bool}
    (hd : dirty = false → cache.isDirty slot = false)
    (hinst : ∀ m₁ : Machine, ∀ r ∈ home.order, m₁.state.On home.layout →
      (cache.isDirty slot = false → home.mem m₁.state slot = val slot) →
      ∃ m₂, m₁.step (inst r) = .next m₂ ∧ Frame home.cls m₁ m₂ ∧ home.reg m₂ r = val slot ∧
        (∀ q, q ≠ r → home.reg m₂ q = home.reg m₁ q) ∧
        ∀ s, home.mem m₂.state s = home.mem m₁.state s) :
    ∃ grant m', Cache.allocate home.access cache = .ok grant ∧
      Step home cache m (grant.code ++ [inst grant.reg]) (grant.cache.bind slot grant.reg dirty)
        m' ∧
      At home (grant.cache.bind slot grant.reg dirty) m' val ⟨k, held, locked, none⟩ := by
  obtain ⟨grant, m₁, hok, hstep, hat, hgranted⟩ := h.allocate
  have hmem : grant.reg ∈ home.order := h.ready.order ▸ hgranted.mem
  have hcell := hgranted.cells slot hs
  have hs' : ∀ q, grant.cache.binding slot ≠ .host q := by
    intro q
    rw [Cache.binding, hcell]
    exact hs q
  have hdirty : grant.cache.isDirty slot = cache.isDirty slot := by rw [isDirty, hcell, isDirty]
  obtain ⟨m₂, hrun, hf, hr, hreg, hmem₂⟩ := hinst m₁ grant.reg hmem hat.holds.on
    fun hclean => hat.holds.memory slot (hdirty.trans hclean)
  refine ⟨grant, m₂, hok, ⟨?_, hstep.frame.trans hf, hstep.keeps.trans ?_⟩, ?_⟩
  · rw [Machine.execAll_append _ hstep.exec, Machine.execAll_cons _ hrun, Machine.execAll_nil]
  · refine (respects_bind hat.ready.owned hs' (hat.ready.order ▸ hmem) hgranted.free).keeps ?_
    intro q hq
    exact hreg q (hat.ready.owned.ne_of_isFree hgranted.free hq)
  · exact hat.bind hs' hmem hgranted.free (.inl rfl) (hf.on _ hat.holds.on) hreg (fun _ => hr) hmem₂
      fun hclean => hdirty.trans (hd hclean)

/-- A read gives a register with the value of the slot. -/
theorem At.read (h : At home cache m val ⟨k + 1, held, locked, none⟩) (slot : Fin n) :
    ∃ grant m', read home.access cache slot = .ok grant ∧
      Step home cache m grant.code grant.cache m' ∧
      At home grant.cache m' val ⟨k, held, locked, none⟩ ∧ grant.cache.Bound slot grant.reg ∧
      (cache.isDirty slot = true → grant.cache.isDirty slot = true) := by
  cases hcell : cache.cells.get slot with
  | mk binding dirty =>
    have hb : cache.binding slot = binding := by rw [Cache.binding, hcell]
    have hdirty : cache.isDirty slot = dirty := by rw [isDirty, hcell]
    cases binding with
    | host r =>
      obtain ⟨hat, hk, hbound⟩ := h.touch hb
      refine ⟨⟨r, [], { cache with pool := cache.pool.touch r }⟩, m, ?_, ⟨rfl, .refl _ _, hk⟩, hat,
        hbound, fun hd => hd⟩
      simp only [Cache.read, hcell]
    | constant v =>
      obtain ⟨-, hc, htr⟩ := h.ready.const slot v hb
      obtain ⟨grant, m', hok, hstep, hat⟩ := h.fill (by simp [hb])
        (fun r => home.access.constant slot r v) (fun hd => hdirty.trans hd) (by
          intro m₁ r hmem hon _
          rw [h.holds.constant slot v hb]
          exact home.constant hc m₁ slot r v (.inl hmem) htr hon)
      refine ⟨⟨grant.reg, _, grant.cache.bind slot grant.reg dirty⟩, m', ?_, hstep, hat, bound_bind,
        ?_⟩
      · simp only [Cache.read, hcell, hok]
      · intro hd
        rw [isDirty_bind, if_pos rfl, ← hdirty, hd]
    | memory =>
      have hclean := h.ready.clean slot hb
      obtain ⟨grant, m', hok, hstep, hat⟩ := h.fill (by simp [hb])
        (fun r => home.access.load slot r) (fun _ => hclean) (by
          intro m₁ r hmem hon hmemory
          rw [← hmemory hclean]
          exact home.load m₁ slot r hmem hon)
      refine ⟨⟨grant.reg, _, grant.cache.bind slot grant.reg false⟩, m', ?_, hstep, hat, bound_bind,
        ?_⟩
      · simp only [Cache.read, hcell, hok]
      · intro hd
        rw [hclean] at hd
        simp at hd

/-- A bound slot whose value is about to be replaced. -/
theorem At.open (h : At home cache m val ⟨k, held, locked, none⟩) {r : HostReg}
    (hb : cache.Bound slot r) (hd : cache.isDirty slot = true) :
    At home cache m val ⟨k, held, locked, some slot⟩ where
  ready := { h.ready with
    hole := by
      intro s hs
      rw [Option.some.injEq] at hs
      subst hs
      exact ⟨hd, r, hb⟩ }
  holds := ⟨h.holds.on, fun s q hq _ => h.holds.host s q hq (by simp), h.holds.memory,
    h.holds.constant, fun s _ => h.holds.fits s (by simp)⟩

theorem Bound.setDirty {s : Fin n} {r : HostReg} (hb : cache.Bound s r) :
    (cache.setDirty slot).Bound s r :=
  ⟨(binding_setDirty slot s).trans hb.1, hb.2⟩

theorem At.setDirty (h : At home cache m val ⟨k, held, locked, none⟩) {r : HostReg}
    (hb : cache.Bound slot r) :
    At home (cache.setDirty slot) m val ⟨k, held, locked, none⟩ ∧
      Keeps home cache m (cache.setDirty slot) m ∧ (cache.setDirty slot).isDirty slot = true := by
  have hdirty : ∀ s, (cache.setDirty slot).isDirty s =
      if s = slot then true else cache.isDirty s := by
    intro s
    rw [Cache.setDirty, isDirty_setCell]
  have hrespects : Respects (fun _ => False) (fun _ => False) cache (cache.setDirty slot) :=
    respects_setDirty h.ready.owned slot
  refine ⟨⟨⟨h.ready.order, hrespects.owned, ?_, ?_, h.ready.room, h.ready.held, h.ready.locked,
    by simp⟩, h.holds.on, ?_, ?_, ?_, h.holds.fits⟩, hrespects.keeps fun _ _ => rfl, ?_⟩
  · intro s hs
    rw [binding_setDirty] at hs
    rw [hdirty, if_neg]
    · exact h.ready.clean s hs
    · rintro rfl
      rw [hb.1] at hs
      simp at hs
  · intro s v hs
    rw [binding_setDirty] at hs
    obtain ⟨hd, hrest⟩ := h.ready.const s v hs
    refine ⟨?_, hrest⟩
    rw [hdirty]
    split
    · rfl
    · exact hd
  · intro s q hq
    rw [binding_setDirty] at hq
    exact h.holds.host s q hq
  · intro s hs
    rw [hdirty] at hs
    split at hs
    · simp at hs
    · exact h.holds.memory s hs
  · intro s v hs
    rw [binding_setDirty] at hs
    exact h.holds.constant s v hs
  · rw [hdirty, if_pos rfl]

/-- A write gives a register for the slot, whose value is not written yet. The register has the old
value when that is asked for. -/
theorem At.write (h : At home cache m val ⟨k + 1, held, locked, none⟩) (slot : Fin n)
    (keep : Bool) :
    ∃ grant m', write home.access cache slot keep = .ok grant ∧
      Step home cache m grant.code grant.cache m' ∧
      At home grant.cache m' val ⟨k, held, locked, some slot⟩ ∧ grant.cache.Bound slot grant.reg ∧
      (keep = true → home.reg m' grant.reg = val slot) := by
  cases hhost : cache.host? slot with
  | some r =>
    have hb : cache.binding slot = .host r := host?_eq_some.1 hhost
    obtain ⟨hat, hk, hbound⟩ := h.touch hb
    obtain ⟨hat', hk', hd⟩ := hat.setDirty hbound
    refine ⟨⟨r, [], { cache with pool := cache.pool.touch r }.setDirty slot⟩, m, ?_,
      ⟨rfl, .refl _ _, hk.trans hk'⟩, hat'.open hbound.setDirty hd, hbound.setDirty, ?_⟩
    · simp only [Cache.write, hhost]
    · intro _
      exact h.holds.host slot r hb (by simp)
  | none =>
    have hnot : ∀ q, cache.binding slot ≠ .host q := host?_eq_none.1 hhost
    cases keep with
    | true =>
      obtain ⟨grant, m', hok, hstep, hat, hbound, -⟩ := h.read slot
      obtain ⟨hat', hk', hd⟩ := hat.setDirty hbound
      refine ⟨{ grant with cache := grant.cache.setDirty slot }, m', ?_,
        ⟨hstep.exec, hstep.frame, hstep.keeps.trans hk'⟩, hat'.open hbound.setDirty hd,
        hbound.setDirty, ?_⟩
      · simp only [Cache.write, hhost, hok, if_true]
      · intro _
        exact hat.holds.host slot grant.reg hbound.1 (by simp)
    | false =>
      obtain ⟨grant, m', hok, hstep, hat, hgranted⟩ := h.allocate
      have hmem : grant.reg ∈ home.order := h.ready.order ▸ hgranted.mem
      have hnot' : ∀ q, grant.cache.binding slot ≠ .host q := by
        intro q
        rw [Cache.binding, hgranted.cells slot hnot]
        exact hnot q
      have hbind : Respects (fun _ => False) (fun _ => False) grant.cache
          (grant.cache.bind slot grant.reg true) :=
        respects_bind hat.ready.owned hnot' (hat.ready.order ▸ hmem) hgranted.free
      refine ⟨{ grant with cache := grant.cache.bind slot grant.reg true }, m', ?_,
        ⟨hstep.exec, hstep.frame, hstep.keeps.trans (hbind.keeps fun _ _ => rfl)⟩, ?_, bound_bind,
        ?_⟩
      · simp only [Cache.write, hhost, hok, Bool.false_eq_true, if_false]
      · refine hat.bind hnot' hmem hgranted.free (.inr ⟨rfl, rfl⟩) hat.holds.on (fun _ _ => rfl) ?_
          (fun _ => rfl) ?_
        · intro hn
          simp at hn
        · intro hn
          simp at hn
      · intro hkeep
        simp at hkeep

/-! ## Scratch registers -/

theorem At.scratch (h : At home cache m val ⟨k + 1, held, locked, hole⟩) :
    ∃ grant m', scratch home.access cache = .ok grant ∧
      Step home cache m grant.code grant.cache m' ∧
      At home grant.cache m' val ⟨k, held.insert grant.reg, locked, hole⟩ ∧
      held.contains grant.reg = false ∧ grant.cache.Owns grant.reg ∧
      ∀ q, cache.Owns q → q ≠ grant.reg := by
  obtain ⟨grant, m', hok, hstep, hat, hgranted⟩ := h.allocate
  have hroom := hat.ready.room
  have hn : grant.cache.pool.order.Nodup := hat.ready.order ▸ home.nodup
  have hbusy := Pool.busy_hold grant.cache.pool grant.reg hn
  have hheld : grant.cache.pool.scratch = held := hat.ready.held
  have hscratch : Cache.scratch home.access cache =
      .ok { grant with cache := { grant.cache with pool := grant.cache.pool.hold grant.reg } } := by
    simp only [Cache.scratch, hok]
  obtain ⟨hrespects, hself⟩ := respects_scratch h.ready.owned hscratch
  have hreg : ∀ r, cache.Owns r → home.reg m' r = home.reg m r := fun r hr =>
    (hstep.keeps.has r _ ⟨hr, rfl⟩).2
  refine ⟨_, m', hscratch, ⟨hstep.exec, hstep.frame, hrespects.keeps hreg⟩,
    ⟨⟨hat.ready.order, hrespects.owned, hat.ready.clean, hat.ready.const, ?_, ?_, hat.ready.locked,
      ?_⟩, hat.holds.on, hat.holds.host, hat.holds.memory, hat.holds.constant, hat.holds.fits⟩, ?_,
    .inr hself, ?_⟩
  · dsimp only at hroom ⊢
    omega
  · simp only [Pool.hold, Pool.touch, hheld]
  · intro s hs
    obtain ⟨hd, q, hq⟩ := hat.ready.hole s hs
    exact ⟨hd, q, hq.touch⟩
  · rw [← hheld]
    exact (Pool.isFree_iff.1 hgranted.free).2.1
  · intro q hq
    exact hat.ready.owned.ne_of_isFree hgranted.free (hgranted.respects.owns hq)

/-- Giving a scratch register back. -/
theorem At.release {r : HostReg} (h : At home cache m val ⟨k, held.insert r, locked, hole⟩)
    (hr : held.contains r = false) :
    At home (cache.release r) m val ⟨k + 1, held, locked, hole⟩ ∧
      ∀ q v, q ≠ r → cache.Has home m q v → (cache.release r).Has home m q v := by
  have hroom := h.ready.room
  have hn : cache.pool.order.Nodup := h.ready.order ▸ home.nodup
  have hscr : cache.pool.scratch.contains r = true := by
    rw [h.ready.held]
    exact RegSet.contains_insert_self _ _
  have hunlocked : cache.pool.locked.contains r = false := by
    by_contra hc
    have := (h.ready.owned.locked_free r (by simpa using hc)).2
    rw [hscr] at this
    simp at this
  have hbusy := Pool.busy_release hn (h.ready.owned.scratch_mem r hscr) hscr
    (h.ready.owned.scratch_free r hscr) hunlocked
  have hrelease : Respects (fun _ => False) (fun q => q = r) cache (cache.release r) :=
    respects_release h.ready.owned r
  refine ⟨⟨⟨h.ready.order, hrelease.owned, h.ready.clean, h.ready.const, ?_, ?_, h.ready.locked,
    h.ready.hole⟩, h.holds.on, h.holds.host, h.holds.memory, h.holds.constant, h.holds.fits⟩, ?_⟩
  · have hpool : (cache.release r).pool = cache.pool.release r := rfl
    rw [hpool]
    dsimp only at hroom ⊢
    omega
  · simp only [Cache.release, Pool.release, h.ready.held]
    exact RegSet.erase_insert hr
  · rintro q v hne ⟨hq, hv⟩
    refine ⟨?_, hv⟩
    rcases hq with ⟨t, ht⟩ | hsc
    · exact .inl ⟨t, ht⟩
    · exact .inr (hrelease.held q hne hsc)

/-! ## Between instructions -/

/-- An instruction that has given everything back can end, and the next one has the whole pool. -/
theorem At.endInstruction (h : At home cache m val ⟨k, .empty, .empty, none⟩) :
    ∃ cache', cache.endInstruction = .ok cache' ∧
      At home cache' m val ⟨home.order.length, .empty, .empty, none⟩ ∧
      cache'.pool.pinned = .empty ∧ cache'.cells = cache.cells := by
  have hnone : cache.pool.heldScratch? = none := by
    rw [Pool.heldScratch?, List.find?_eq_none]
    intro r _
    rw [h.ready.held]
    simp
  have hbusy : cache.pool.unpin.busy = 0 :=
    Pool.busy_eq_zero h.ready.held h.ready.locked rfl
  refine ⟨{ cache with pool := cache.pool.unpin }, ?_, ⟨⟨h.ready.order, ?_, h.ready.clean,
    h.ready.const, ?_, h.ready.held, h.ready.locked, by simp⟩, h.holds.on, h.holds.host,
    h.holds.memory, h.holds.constant, h.holds.fits⟩, rfl, rfl⟩
  · simp only [Cache.endInstruction, hnone]
  · exact h.ready.owned.of_le (fun _ => rfl) rfl rfl (fun _ hs => hs) fun _ hl => hl
  · simp only [hbusy]
    omega

end Recompiler.Alloc.Cache
