import Recompiler.Proofs.CacheSteps

/-!
# Locked registers

Between instructions, and while an instruction only has registers of the other class, nothing but
locks keeps the registers of a pool. Then any register of the pool can be locked: its slot, if it
has one, goes to memory first.
-/

namespace Recompiler.Alloc

open Arm PowerPC

variable {n : Nat} {V : Type}

/-- How many registers of the pool are not among the locked ones. -/
def Home.beside (home : Home n V) (locked : RegSet) : Nat :=
  home.order.countP fun r : HostReg => !locked.contains r

theorem Home.beside_empty (home : Home n V) : home.beside .empty = home.order.length := by
  simp [beside]

theorem Home.length_eq_add_beside (home : Home n V) (locked : RegSet) :
    home.order.length =
      home.order.countP (fun r : HostReg => locked.contains r) + home.beside locked := by
  rw [List.length_eq_countP_add_countP fun r : HostReg => locked.contains r, beside]
  simp

/-- The registers of the pool that are among the given ones. -/
def Home.lockable (home : Home n V) (regs : RegSet) : RegSet :=
  regs.inter (.ofList home.order)

theorem Home.contains_lockable (home : Home n V) (regs : RegSet) (r : HostReg) :
    (home.lockable regs).contains r = (regs.contains r && decide (r ∈ home.order)) := by
  rw [lockable, RegSet.contains_inter, RegSet.contains_ofList]

/-- A predicate that counts no more than one that implies it is the same. -/
theorem eq_true_of_countP_le {α : Type} {p q : α → Bool} {l : List α}
    (himp : ∀ a ∈ l, p a = true → q a = true) (h : l.countP q ≤ l.countP p) :
    ∀ a ∈ l, q a = true → p a = true := by
  have hfilter : (l.filter q).countP p = l.countP p := by
    rw [List.countP_filter]
    apply List.countP_congr
    intro a ha
    rw [Bool.and_eq_true, and_iff_left_iff_imp]
    exact himp a ha
  have hall : ∀ a ∈ l.filter q, p a = true := by
    rw [← List.countP_eq_length, hfilter, ← List.countP_eq_length_filter]
    exact Nat.le_antisymm (List.countP_mono_left himp) h
  intro a ha hq
  exact hall a (List.mem_filter.2 ⟨ha, hq⟩)

/-- A register of the pool is locked, and then others. -/
theorem contains_locked_cons {locked : RegSet} {order regs : List HostReg} {r : HostReg}
    (hr : r ∈ order) (q : HostReg) :
    ((locked.insert r).contains q || (decide (q ∈ regs) && decide (q ∈ order))) =
      (locked.contains q || (decide (q ∈ r :: regs) && decide (q ∈ order))) := by
  by_cases he : q = r
  · subst he
    simp [RegSet.contains_insert_self, hr]
  · rw [RegSet.contains_insert_of_ne he]
    simp [he]

/-- A register outside of the pool is passed over. -/
theorem contains_locked_skip {locked : RegSet} {order regs : List HostReg} {r : HostReg}
    (hr : r ∉ order) (q : HostReg) :
    (locked.contains q || (decide (q ∈ regs) && decide (q ∈ order))) =
      (locked.contains q || (decide (q ∈ r :: regs) && decide (q ∈ order))) := by
  by_cases he : q = r
  · subst he
    simp [hr]
  · simp [he]

namespace Cache

variable {home : Home n V} {cache : Cache n} {m : Machine} {val : Fin n → V} {k : Nat}
  {held locked : RegSet} {hole : Option (Fin n)} {slot : Fin n}

/-- The current instruction has no register of the pool. -/
def Quiet (cache : Cache n) : Prop := ∀ r : HostReg, cache.inUseNow r = false

theorem Quiet.not_owns (h : cache.Quiet) (ho : cache.Owned) (r : HostReg) : ¬cache.Owns r := by
  intro hr
  have hq := h r
  simp only [inUseNow, Bool.or_eq_false_iff, Bool.and_eq_false_iff] at hq
  rcases hr with ⟨slot, hb, hpin⟩ | hs
  · rw [(ho.owner_iff r slot).2 hb, hpin] at hq
    simp at hq
  · rw [hs] at hq
    simp at hq

/-- Nothing is lost where nothing is relied on. -/
theorem Quiet.keeps (h : cache.Quiet) (ho : cache.Owned) {cache' : Cache n} {m' : Machine} :
    Keeps home cache m cache' m' where
  bound _ r hb := absurd (Bound.owns hb) (h.not_owns ho r)
  has r _ hv := absurd hv.1 (h.not_owns ho r)

/-- As much room as the locks leave means that nothing else is in use. -/
theorem At.quiet (h : At home cache m val ⟨home.beside locked, held, locked, hole⟩) :
    cache.Quiet := by
  have hroom := h.ready.room
  have horder : cache.pool.order = home.order := h.ready.order
  have hlocked : cache.pool.locked = locked := h.ready.locked
  have hsplit := home.length_eq_add_beside locked
  have hle : home.order.countP cache.pool.blocked ≤
      home.order.countP fun r : HostReg => locked.contains r := by
    rw [Pool.busy, horder] at hroom
    dsimp only at hroom
    omega
  have hall := eq_true_of_countP_le (p := fun r : HostReg => locked.contains r) (fun r _ hr => by
    simp [Pool.blocked, hlocked, hr]) hle
  intro r
  refine eq_false_of_ne_true fun huse => ?_
  have hblocked : cache.pool.blocked r = true := by
    simp only [inUseNow, Bool.or_eq_true] at huse
    simp only [Pool.blocked, Bool.or_eq_true]
    rcases huse with hs | hp
    · exact .inl (.inr hs)
    · exact .inr hp
  have hmem : r ∈ home.order := by
    rw [← horder]
    simp only [inUseNow, Bool.or_eq_true, Bool.and_eq_true] at huse
    rcases huse with hs | ⟨ho, -⟩
    · exact h.ready.owned.scratch_mem r hs
    · obtain ⟨slot, hslot⟩ := Option.isSome_iff_exists.1 ho
      exact h.ready.owned.owner_mem r slot hslot
  -- a register that is in use is not locked
  have hlock : cache.pool.locked.contains r = true := by
    rw [hlocked]
    exact hall r hmem hblocked
  obtain ⟨hfree, hscratch⟩ := h.ready.owned.locked_free r hlock
  simp [inUseNow, hfree, hscratch] at huse

theorem At.beside (h : At home cache m val ⟨k, held, locked, hole⟩) (hq : cache.Quiet) :
    At home cache m val ⟨home.beside locked, held, locked, hole⟩ where
  ready :=
    { h.ready with
      room := by
        have horder : cache.pool.order = home.order := h.ready.order
        have hlocked : cache.pool.locked = locked := h.ready.locked
        have hsplit := home.length_eq_add_beside locked
        have hle : home.order.countP cache.pool.blocked ≤
            home.order.countP fun r : HostReg => locked.contains r := by
          refine List.countP_mono_left fun r _ hr => ?_
          have hr' := hq r
          simp only [inUseNow, Bool.or_eq_false_iff] at hr'
          simp only [Pool.blocked, Bool.or_eq_true] at hr
          rcases hr with (hl | hs) | hp
          · rw [← hlocked]
            exact hl
          · rw [hr'.1] at hs
            simp at hs
          · rw [hr'.2] at hp
            simp at hp
        rw [Pool.busy, horder]
        dsimp only
        omega }
  holds := h.holds

theorem Quiet.unbind (h : cache.Quiet) (ho : cache.Owned) (cell : Cell) :
    (cache.unbind slot cell).Quiet := by
  intro r
  have hr := h r
  simp only [inUseNow, Bool.or_eq_false_iff, Bool.and_eq_false_iff] at hr ⊢
  rw [ho.scratch_unbind, owner_unbind, pinned_unbind]
  refine ⟨hr.1, ?_⟩
  split
  · exact .inl rfl
  · exact hr.2

/-- A register that is not in use can be locked. -/
theorem At.lockReg (h : At home cache m val ⟨0, held, locked, none⟩) {r : HostReg}
    (ho : cache.pool.owner.get r = none) (hs : cache.pool.scratch.contains r = false) :
    At home { cache with pool := cache.pool.lock r } m val ⟨0, held, locked.insert r, none⟩ where
  ready :=
    { order := h.ready.order
      owned := h.ready.owned.lock ho hs
      clean := h.ready.clean
      const := h.ready.const
      room := by
        have hle : (cache.pool.lock r).busy ≤ (cache.pool.lock r).order.length :=
          List.countP_le_length
        have horder : (cache.pool.lock r).order = home.order := h.ready.order
        rw [horder] at hle
        exact hle
      held := h.ready.held
      locked := by
        have hl : cache.pool.locked = locked := h.ready.locked
        simp only [Pool.lock, hl]
      hole := by simp }
  holds := ⟨h.holds.on, h.holds.host, h.holds.memory, h.holds.constant, h.holds.fits⟩

/-- Registers that nobody uses are locked one by one. -/
theorem At.lockAll (regs : List HostReg) {cache : Cache n} {m : Machine} {locked : RegSet}
    (h : At home cache m val ⟨0, held, locked, none⟩) (hq : cache.Quiet) :
    ∃ m' locked', m.execAll (lock home.access cache regs).code = some m' ∧
      Frame home.cls m m' ∧ (lock home.access cache regs).fault = none ∧
      At home (lock home.access cache regs).cache m' val ⟨0, held, locked', none⟩ ∧
      (lock home.access cache regs).cache.Quiet ∧
      ∀ r : HostReg, locked'.contains r =
        (locked.contains r || (decide (r ∈ regs) && decide (r ∈ home.order))) := by
  induction cache, regs using lock_induction home.access generalizing m locked with
  | nil cache => exact ⟨m, locked, rfl, .refl _ _, rfl, h, hq, by simp⟩
  | skip cache r regs hr ih =>
    rw [h.ready.order] at hr
    obtain ⟨m', locked', hexec, hf, hfault, hat, hq', hall⟩ := ih h hq
    exact ⟨m', locked', hexec, hf, hfault, hat, hq',
      fun q => (hall q).trans (contains_locked_skip hr q)⟩
  | busy cache r regs hr huse =>
    rw [hq r] at huse
    cases huse
  | free cache r regs hr huse hown ih =>
    rw [h.ready.order] at hr
    simp only [inUseNow, Bool.or_eq_false_iff] at huse
    obtain ⟨m', locked', hexec, hf, hfault, hat, hq', hall⟩ := ih (h.lockReg hown huse.1) hq
    exact ⟨m', locked', hexec, hf, hfault, hat, hq',
      fun q => (hall q).trans (contains_locked_cons hr q)⟩
  | evict cache r regs slot hr huse hown ih =>
    rw [h.ready.order] at hr
    have hbind : cache.binding slot = .host r := (h.ready.owned.owner_iff r slot).1 hown
    have hopen : (none : Option (Fin n)) ≠ some slot := by simp
    obtain ⟨m₁, hexec₁, hf₁, -, h₁⟩ := h.flushSlot hopen
    obtain ⟨howner, hscratch⟩ := h.ready.owned.evicted home.access hbind
    have hq₁ : (Cache.flushSlot home.access cache slot).2.Quiet := hq.unbind h.ready.owned {}
    obtain ⟨m', locked', hexec, hf, hfault, hat, hq', hall⟩ :=
      ih (h₁.lockReg howner hscratch) hq₁
    exact ⟨m', locked', (Machine.execAll_append _ hexec₁).trans hexec, hf₁.trans hf, hfault, hat,
      hq', fun q => (hall q).trans (contains_locked_cons hr q)⟩

/-- Locking on a quiet cache. -/
theorem At.lock (h : At home cache m val ⟨home.beside .empty, .empty, .empty, none⟩)
    (regs : RegSet) :
    ∃ m', (lock home.access cache regs.toList).fault = none ∧
      Step home cache m (lock home.access cache regs.toList).code
        (lock home.access cache regs.toList).cache m' ∧
      At home (lock home.access cache regs.toList).cache m' val
        ⟨home.beside (home.lockable regs), .empty, home.lockable regs, none⟩ := by
  have hq := h.quiet
  obtain ⟨m', locked', hexec, hf, hfault, hat, hq', hall⟩ :=
    (h.weaken (Nat.zero_le _)).lockAll regs.toList hq
  have hlocked : locked' = home.lockable regs := by
    apply RegSet.ext_contains
    intro r
    have hmem : decide (r ∈ regs.toList) = regs.contains r := by
      rw [Bool.eq_iff_iff, decide_eq_true_eq, RegSet.mem_toList]
    rw [hall r, RegSet.contains_empty, Bool.false_or, hmem, Home.contains_lockable]
  rw [hlocked] at hat
  exact ⟨m', hfault, ⟨hexec, hf, hq.keeps h.ready.owned⟩, hat.beside hq'⟩

/-- Unlocking what was locked. -/
theorem At.unlock {regs : RegSet} (h : At home cache m val
      ⟨home.beside (home.lockable regs), .empty, home.lockable regs, none⟩) :
    At home (cache.unlock regs) m val ⟨home.beside .empty, .empty, .empty, none⟩ ∧
      Keeps home cache m (cache.unlock regs) m := by
  have hq := h.quiet
  have hlocked : cache.pool.locked = home.lockable regs := h.ready.locked
  have hgone : (cache.unlock regs).pool.locked = .empty := by
    apply RegSet.ext_contains
    intro r
    simp only [Cache.unlock, Pool.unlock, hlocked, RegSet.contains_sdiff, Home.contains_lockable,
      RegSet.contains_empty]
    cases regs.contains r <;> simp
  have hat : At home (cache.unlock regs) m val ⟨0, .empty, .empty, none⟩ :=
    { ready :=
        { order := h.ready.order
          owned := by
            have howned := h.ready.owned
            refine ⟨howned.owner_iff, howned.owner_mem, howned.scratch_mem, howned.scratch_free, ?_⟩
            intro r hr
            rw [hgone] at hr
            simp at hr
          clean := h.ready.clean
          const := h.ready.const
          room := by
            have hle : (cache.unlock regs).pool.busy ≤ (cache.unlock regs).pool.order.length :=
              List.countP_le_length
            have horder : (cache.unlock regs).pool.order = home.order := h.ready.order
            rw [horder] at hle
            exact hle
          held := h.ready.held
          locked := hgone
          hole := by simp }
      holds := ⟨h.holds.on, h.holds.host, h.holds.memory, h.holds.constant, h.holds.fits⟩ }
  exact ⟨hat.beside hq, hq.keeps h.ready.owned⟩

end Cache

end Recompiler.Alloc
