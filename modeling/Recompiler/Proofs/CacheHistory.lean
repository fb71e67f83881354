import Recompiler.Alloc.Vectors
import Recompiler.Proofs.SlotCache

/-!
# Histories of a cache

A history is any sequence of operations on a cache, those that fail included. Along every history
the two records of who has which register agree, and a register that was handed out stays where it
is until the instruction ends or gives it up.
-/

namespace Recompiler.Alloc

open Arm PowerPC

/-- An operation on a cache. -/
inductive Request (n : Nat) where
  | read (slot : Fin n)
  | write (slot : Fin n) (keep : Bool)
  | setConstant (slot : Fin n) (value : BitVec 64)
  | scratch
  | release (reg : HostReg)
  | flushSlot (slot : Fin n)
  | flush
  | lock (regs : RegSet)
  | unlock (regs : RegSet)
  | endInstruction

/-- What an operation came to. -/
structure Reply (n : Nat) where
  cache : Cache n
  code : List Inst := []
  reg : Option HostReg := none
  fault : Option Fault := none

variable {n : Nat}

/-- A request for a register. -/
def Reply.ofGrant : Except (Refusal n) (Grant n) → Reply n
  | .ok grant => { cache := grant.cache, code := grant.code, reg := some grant.reg }
  | .error refusal => { cache := refusal.cache, code := refusal.code, fault := some refusal.fault }

/-- What holds of a cache holds after a request for a register if it holds of every grant, for a
refused request does nothing. -/
theorem Reply.cache_ofGrant {P : Cache n → Prop} {cache : Cache n} (h : P cache)
    {result : Except (Refusal n) (Grant n)}
    (hrefused : ∀ refused, result = .error refused → refused = cache.refusal)
    (hok : ∀ grant, result = .ok grant → P grant.cache) : P (Reply.ofGrant result).cache := by
  cases result with
  | error refused =>
    rw [hrefused refused rfl]
    exact h
  | ok grant => exact hok grant rfl

namespace Request

def perform (access : Access n) (cache : Cache n) : Request n → Reply n
  | .read slot => .ofGrant (Cache.read access cache slot)
  | .write slot keep => .ofGrant (Cache.write access cache slot keep)
  | .setConstant slot value => { cache := Cache.setConstant access cache slot value }
  | .scratch => .ofGrant (Cache.scratch access cache)
  | .release reg => { cache := cache.release reg }
  | .flushSlot slot =>
    let (code, cache) := Cache.flushSlot access cache slot
    { cache, code }
  | .flush =>
    let (code, cache) := Cache.flush access cache
    { cache, code }
  | .lock regs =>
    let locking := Cache.lock access cache regs.toList
    { cache := locking.cache, code := locking.code, fault := locking.fault }
  | .unlock regs => { cache := cache.unlock regs }
  | .endInstruction =>
    match cache.endInstruction with
    | .ok cache => { cache }
    | .error fault => { cache, fault := some fault }

/-- The slot that a register is asked for. -/
def slot? : Request n → Option (Fin n)
  | .read slot | .write slot _ => some slot
  | _ => none

/-- Whether a slot may leave its register. -/
def frees (slot : Fin n) : Request n → Bool
  | .flushSlot s | .setConstant s _ => s = slot
  | .flush | .endInstruction => true
  | _ => false

/-- Whether a scratch register may be handed out again. -/
def takesBack (reg : HostReg) : Request n → Bool
  | .release r => r = reg
  | .endInstruction => true
  | _ => false

end Request

namespace Cache

/-- The cache after a history. -/
def after (access : Access n) (cache : Cache n) (requests : List (Request n)) : Cache n :=
  requests.foldl (fun cache request => (request.perform access cache).cache) cache

variable {access : Access n} {cache cache' : Cache n} {slot : Fin n}

theorem after_cons (request : Request n) (requests : List (Request n)) :
    after access cache (request :: requests) =
      after access (request.perform access cache).cache requests := rfl

/-! ## What a step keeps -/

/-- What a step keeps: who owns what is consistent, the pool is the same, and registers that the
current instruction was given stay, apart from the slots in `free` and the registers in `back`. -/
structure Respects (free : Fin n → Prop) (back : HostReg → Prop) (cache cache' : Cache n) :
    Prop where
  owned : cache'.Owned
  order : cache'.pool.order = cache.pool.order
  bound : ∀ slot r, ¬free slot → cache.Bound slot r → cache'.Bound slot r
  dirty : ∀ slot r, ¬free slot → cache.Bound slot r → cache.isDirty slot = true →
    cache'.isDirty slot = true
  held : ∀ r : HostReg, ¬back r → cache.pool.scratch.contains r = true →
    cache'.pool.scratch.contains r = true

variable {free : Fin n → Prop} {back : HostReg → Prop}

theorem Respects.refl (h : cache.Owned) : Respects free back cache cache :=
  ⟨h, rfl, fun _ _ _ hb => hb, fun _ _ _ _ hd => hd, fun _ _ hs => hs⟩

theorem Respects.trans {c₁ c₂ c₃ : Cache n} (h : Respects free back c₁ c₂)
    (h' : Respects free back c₂ c₃) : Respects free back c₁ c₃ where
  owned := h'.owned
  order := h'.order.trans h.order
  bound slot r hf hb := h'.bound slot r hf (h.bound slot r hf hb)
  dirty slot r hf hb hd := h'.dirty slot r hf (h.bound slot r hf hb) (h.dirty slot r hf hb hd)
  held r hr hs := h'.held r hr (h.held r hr hs)

/-- A step that names fewer exceptions. -/
theorem Respects.mono {free' : Fin n → Prop} {back' : HostReg → Prop}
    (h : Respects free back cache cache') (hf : ∀ s, free s → free' s)
    (hb : ∀ r, back r → back' r) : Respects free' back' cache cache' where
  owned := h.owned
  order := h.order
  bound slot r hslot := h.bound slot r fun hs => hslot (hf slot hs)
  dirty slot r hslot := h.dirty slot r fun hs => hslot (hf slot hs)
  held r hr := h.held r fun hs => hr (hb r hs)

/-- Giving up scratch registers and locks leaves ownership alone. -/
theorem Owned.of_le (h : cache.Owned) (hb : ∀ s, cache'.binding s = cache.binding s)
    (ho : cache'.pool.owner = cache.pool.owner) (hord : cache'.pool.order = cache.pool.order)
    (hs : ∀ r : HostReg, cache'.pool.scratch.contains r = true →
      cache.pool.scratch.contains r = true)
    (hl : ∀ r : HostReg, cache'.pool.locked.contains r = true →
      cache.pool.locked.contains r = true) : cache'.Owned where
  owner_iff r s := by
    rw [ho, hb]
    exact h.owner_iff r s
  owner_mem r s hr := by
    rw [ho] at hr
    rw [hord]
    exact h.owner_mem r s hr
  scratch_mem r hr := by
    rw [hord]
    exact h.scratch_mem r (hs r hr)
  scratch_free r hr := by
    rw [ho]
    exact h.scratch_free r (hs r hr)
  locked_free r hr := by
    obtain ⟨hfree, hscratch⟩ := h.locked_free r (hl r hr)
    rw [ho]
    refine ⟨hfree, ?_⟩
    by_contra hc
    have := hs r (by simpa using hc)
    rw [hscratch] at this
    simp at this

theorem Owned.touch (h : cache.Owned) (r : HostReg) :
    Owned { cache with pool := cache.pool.touch r } :=
  h.of_le (fun _ => rfl) rfl rfl (fun _ hs => hs) fun _ hl => hl

theorem Bound.touch {r q : HostReg} (h : cache.Bound slot r) :
    Bound { cache with pool := cache.pool.touch q } slot r := by
  refine ⟨h.1, ?_⟩
  simp only [Pool.touch, RegSet.contains_insert, h.2, Bool.true_or]

theorem respects_touch (h : cache.Owned) (r : HostReg) :
    Respects free back cache { cache with pool := cache.pool.touch r } :=
  ⟨h.touch r, rfl, fun _ _ _ hb => hb.touch, fun _ _ _ _ hd => hd, fun _ _ hs => hs⟩

theorem binding_setDirty (slot s : Fin n) : (cache.setDirty slot).binding s = cache.binding s := by
  rw [setDirty, binding_setCell]
  split
  · next he =>
    subst he
    rfl
  · rfl

theorem respects_setDirty (h : cache.Owned) (slot : Fin n) :
    Respects free back cache (cache.setDirty slot) where
  owned := h.of_le (binding_setDirty slot) rfl rfl (fun _ hs => hs) fun _ hl => hl
  order := rfl
  bound s _ _ hb := ⟨(binding_setDirty slot s).trans hb.1, hb.2⟩
  dirty s _ _ _ hd := by
    rw [setDirty, isDirty_setCell]
    split
    · rfl
    · exact hd
  held _ _ hs := hs

theorem respects_unbind (h : cache.Owned) {cell : Cell} (hc : ∀ r, cell.binding ≠ .host r)
    (hs : free slot) : Respects free back cache (cache.unbind slot cell) where
  owned := h.unbind hc
  order := order_unbind
  bound _ _ hf hb := hb.unbind fun he => hf (he ▸ hs)
  dirty s _ hf _ hd := by
    have hne : s ≠ slot := fun he => hf (he ▸ hs)
    rw [isDirty_unbind, if_neg hne]
    exact hd
  held _ _ hr := by
    rw [h.scratch_unbind]
    exact hr

theorem respects_flushSlot (access : Access n) (h : cache.Owned) (hs : free slot) :
    Respects free back cache (flushSlot access cache slot).2 :=
  respects_unbind h (by simp) hs

theorem respects_flushSlots (slots : List (Fin n)) (hfree : ∀ s, free s) :
    ∀ {cache : Cache n}, cache.Owned →
      Respects free back cache (flushSlots access cache slots).2 := by
  induction slots with
  | nil => exact fun h => .refl h
  | cons slot slots ih =>
    intro cache h
    have hfirst : Respects free back cache (flushSlot access cache slot).2 :=
      respects_flushSlot access h (hfree slot)
    exact hfirst.trans (ih hfirst.owned)

/-! ## Handing out registers -/

/-- The register that is handed out is free, and everything that was pinned, held or locked is as
it was. -/
structure Granted (cache : Cache n) (grant : Grant n) : Prop where
  respects : Respects (fun _ => False) (fun _ => False) cache grant.cache
  mem : grant.reg ∈ cache.pool.order
  free : grant.cache.pool.isFree grant.reg = true
  cells : ∀ s, (∀ r, cache.binding s ≠ .host r) → grant.cache.cells.get s = cache.cells.get s

/-- Only a slot that is not pinned is evicted. -/
theorem victim_not_bound (h : cache.Owned) {r q : HostReg} {s t : Fin n}
    (hv : cache.pool.victim? = some (r, s)) (hb : cache.Bound t q) : t ≠ s := by
  rintro rfl
  obtain ⟨-, hpin, -, hown⟩ := Pool.victim?_some hv
  have hbind := (h.owner_iff r t).1 hown
  have hqr : q = r := by
    rw [hb.1, Binding.host.injEq] at hbind
    exact hbind
  rw [← hqr, hb.2] at hpin
  simp at hpin

theorem granted_allocate (h : cache.Owned) {grant : Grant n}
    (hok : allocate access cache = .ok grant) : Granted cache grant := by
  obtain ⟨r, hfree, rfl⟩ | ⟨r, s, hv, rfl⟩ := allocate_eq_ok hok
  · obtain ⟨hmem, hf⟩ := Pool.free?_some hfree
    exact ⟨.refl h, hmem, hf, fun _ _ => rfl⟩
  · obtain ⟨hmem, -, hlock, hown⟩ := Pool.victim?_some hv
    have hbind : cache.binding s = .host r := (h.owner_iff r s).1 hown
    have hspill : Owned { cache with spills := cache.spills + 1 } :=
      h.of_le (fun _ => rfl) rfl rfl (fun _ hs => hs) fun _ hl => hl
    have hflush : Respects (fun t => t = s) (fun _ => False)
        { cache with spills := cache.spills + 1 }
        (flushSlot access { cache with spills := cache.spills + 1 } s).2 :=
      respects_flushSlot access hspill rfl
    refine ⟨⟨hflush.owned, hflush.order, ?_, ?_, hflush.held⟩, hmem, ?_, ?_⟩
    · intro t q _ hb
      exact hflush.bound t q (victim_not_bound h hv hb) hb
    · intro t q _ hb hd
      exact hflush.dirty t q (victim_not_bound h hv hb) hb hd
    · rw [Pool.isFree_iff, flushSlot_eq, owner_unbind, hspill.scratch_unbind, locked_unbind]
      refine ⟨if_pos hbind, h.not_scratch hbind, hlock⟩
    · intro t ht
      have hne : t ≠ s := by
        rintro rfl
        exact ht r hbind
      simp only [flushSlot_eq, unbind, setCell, Bank.get_set, if_neg hne]

/-- A slot that gets a free register. -/
theorem respects_bind (h : cache.Owned) (hs : ∀ q, cache.binding slot ≠ .host q) {r : HostReg}
    {dirty : Bool} (hm : r ∈ cache.pool.order) (hf : cache.pool.isFree r = true) :
    Respects free back cache (cache.bind slot r dirty) where
  owned := h.bind hs hm hf
  order := rfl
  bound s q _ hb := hb.bind (by rintro rfl; exact hs q hb.1)
  dirty s q _ hb hd := by
    rw [isDirty_bind, if_neg (by rintro rfl; exact hs q hb.1)]
    exact hd
  held _ _ hr := hr

/-- What a request for the register of a slot comes to. -/
structure Provided (cache : Cache n) (slot : Fin n) (grant : Grant n) : Prop where
  respects : Respects (fun _ => False) (fun _ => False) cache grant.cache
  bound : grant.cache.Bound slot grant.reg

theorem Provided.of_granted {grant : Grant n} (hg : Granted cache grant)
    (hs : ∀ q, cache.binding slot ≠ .host q) (code : List Inst) (dirty : Bool) :
    Provided cache slot ⟨grant.reg, code, grant.cache.bind slot grant.reg dirty⟩ where
  respects := by
    have hs' : ∀ q, grant.cache.binding slot ≠ .host q := by
      intro q
      rw [binding, hg.cells slot hs]
      exact hs q
    refine hg.respects.trans (respects_bind hg.respects.owned hs' ?_ hg.free)
    rw [hg.respects.order]
    exact hg.mem
  bound := bound_bind

theorem Provided.of_host (h : cache.Owned) {r : HostReg} (hb : cache.binding slot = .host r) :
    Provided cache slot ⟨r, [], { cache with pool := cache.pool.touch r }⟩ where
  respects := respects_touch h r
  bound := by
    refine ⟨hb, ?_⟩
    simp only [Pool.touch]
    exact RegSet.contains_insert_self _ _

theorem Provided.setDirty {grant : Grant n} (h : Provided cache slot grant) :
    Provided cache slot { grant with cache := grant.cache.setDirty slot } where
  respects := h.respects.trans (respects_setDirty h.respects.owned slot)
  bound := ⟨(binding_setDirty slot slot).trans h.bound.1, h.bound.2⟩

theorem provided_read (h : cache.Owned) {grant : Grant n}
    (hok : read access cache slot = .ok grant) : Provided cache slot grant := by
  obtain ⟨r, hb, rfl⟩ | ⟨given, fill, dirty, hgiven, hfill, rfl⟩ := read_eq_ok hok
  · exact .of_host h hb
  · exact .of_granted (granted_allocate h hgiven) hfill.not_host _ _

theorem provided_write (h : cache.Owned) {grant : Grant n} {keep : Bool}
    (hok : write access cache slot keep = .ok grant) : Provided cache slot grant := by
  obtain ⟨r, hb, rfl⟩ | ⟨given, -, hread, rfl⟩ | ⟨given, -, hgiven, hs, rfl⟩ := write_eq_ok hok
  · exact (Provided.of_host h hb).setDirty
  · exact (provided_read h hread).setDirty
  · exact .of_granted (granted_allocate h hgiven) hs _ _

/-- A scratch register is one that nobody has, and it is held afterwards. -/
theorem respects_scratch (h : cache.Owned) {grant : Grant n}
    (hok : scratch access cache = .ok grant) :
    Respects (fun _ => False) (fun _ => False) cache grant.cache ∧
      grant.cache.pool.scratch.contains grant.reg = true := by
  obtain ⟨grant', hgrant, rfl⟩ := scratch_eq_ok hok
  have hg := granted_allocate h hgrant
  obtain ⟨hown, hscratch, hlock⟩ := Pool.isFree_iff.1 hg.free
  have howned := hg.respects.owned
  have hinsert : ∀ q : HostReg, (grant'.cache.pool.scratch.insert grant'.reg).contains q = true →
      q = grant'.reg ∨ grant'.cache.pool.scratch.contains q = true := by
    intro q hq
    by_cases he : q = grant'.reg
    · exact .inl he
    · rw [RegSet.contains_insert_of_ne he] at hq
      exact .inr hq
  have hkept : ∀ q : HostReg, grant'.cache.pool.scratch.contains q = true →
      (grant'.cache.pool.scratch.insert grant'.reg).contains q = true := by
    intro q hq
    rw [RegSet.contains_insert, hq, Bool.true_or]
  refine ⟨⟨⟨howned.owner_iff, howned.owner_mem, ?_, ?_, ?_⟩, hg.respects.order, ?_,
    hg.respects.dirty, ?_⟩, ?_⟩
  · intro q hq
    rcases hinsert q hq with rfl | hq
    · have hmem := hg.mem
      rw [← hg.respects.order] at hmem
      exact hmem
    · exact howned.scratch_mem q hq
  · intro q hq
    rcases hinsert q hq with rfl | hq
    · exact hown
    · exact howned.scratch_free q hq
  · intro q hq
    have hq' : grant'.cache.pool.locked.contains q = true := hq
    obtain ⟨hfree, hnot⟩ := howned.locked_free q hq'
    refine ⟨hfree, ?_⟩
    by_contra hc
    rcases hinsert q (eq_true_of_ne_false hc) with rfl | hq
    · rw [hlock] at hq'
      simp at hq'
    · rw [hq] at hnot
      simp at hnot
  · intro s r hf hb
    exact (hg.respects.bound s r hf hb).touch
  · intro r hr hs
    exact hkept r (hg.respects.held r hr hs)
  · exact RegSet.contains_insert_self _ _

theorem respects_release (h : cache.Owned) (r : HostReg) :
    Respects free (fun q => q = r) cache (cache.release r) where
  owned := by
    refine h.of_le (fun _ => rfl) rfl rfl ?_ fun _ hl => hl
    intro q hq
    simp only [Cache.release, Pool.release, RegSet.contains_erase, Bool.and_eq_true] at hq
    exact hq.1
  order := rfl
  bound _ _ _ hb := hb
  dirty _ _ _ _ hd := hd
  held q hq hs := by
    simp only [Cache.release, Pool.release, RegSet.contains_erase_of_ne hq]
    exact hs

/-! ## Locks -/

/-- A register that nobody needs can be locked. -/
theorem respects_lock (h : cache.Owned) {r : HostReg} (ho : cache.pool.owner.get r = none)
    (hs : cache.pool.scratch.contains r = false) :
    Respects free back cache { cache with pool := cache.pool.lock r } :=
  ⟨h.lock ho hs, rfl, fun _ _ _ hb => hb, fun _ _ _ _ hd => hd, fun _ _ hs => hs⟩

/-- A slot that is not pinned is evicted, and its register locked. -/
theorem respects_evictAndLock (h : cache.Owned) {r : HostReg} (hb : cache.binding slot = .host r)
    (hpin : cache.pool.pinned.contains r = false) :
    Respects free back cache (cache.evictAndLock access slot r) := by
  obtain ⟨howner, hscratch⟩ := h.evicted access hb
  have hevict : Respects (fun t => t = slot) back cache (flushSlot access cache slot).2 :=
    respects_flushSlot access h rfl
  -- the owner of a register that is not pinned is not bound by the instruction
  have hother : ∀ t q, cache.Bound t q → t ≠ slot := by
    rintro t q ht rfl
    have hqr : q = r := by
      rw [ht.1, Binding.host.injEq] at hb
      exact hb
    have hpinned := ht.2
    rw [hqr, hpin] at hpinned
    simp at hpinned
  have hkeep : Respects free back cache (flushSlot access cache slot).2 :=
    ⟨hevict.owned, hevict.order, fun t q _ ht => hevict.bound t q (hother t q ht) ht,
      fun t q _ ht hd => hevict.dirty t q (hother t q ht) ht hd, hevict.held⟩
  exact hkeep.trans (respects_lock hkeep.owned howner hscratch)

/-- Locking evicts no slot that is pinned and takes no scratch register. -/
theorem respects_locking (regs : List HostReg) {cache : Cache n} (h : cache.Owned) :
    Respects free back cache (lock access cache regs).cache := by
  revert h
  induction cache, regs using lock_induction access with
  | nil cache => exact fun h => .refl h
  | skip cache r regs hr ih => exact ih
  | busy cache r regs hr huse => exact fun h => .refl h
  | free cache r regs hr huse hown ih =>
    intro h
    simp only [inUseNow, Bool.or_eq_false_iff] at huse
    have hlock : Respects free back cache { cache with pool := cache.pool.lock r } :=
      respects_lock h hown huse.1
    exact hlock.trans (ih hlock.owned)
  | evict cache r regs slot hr huse hown ih =>
    intro h
    simp only [inUseNow, Bool.or_eq_false_iff, hown, Option.isSome_some, Bool.true_and] at huse
    have hevict : Respects free back cache (cache.evictAndLock access slot r) :=
      respects_evictAndLock h ((h.owner_iff r slot).1 hown) huse.2
    exact hevict.trans (ih hevict.owned)

theorem respects_unlock (h : cache.Owned) (regs : RegSet) :
    Respects free back cache (cache.unlock regs) where
  owned := by
    refine h.of_le (fun _ => rfl) rfl rfl (fun _ hs => hs) ?_
    intro q hq
    simp only [Cache.unlock, Pool.unlock, RegSet.contains_sdiff, Bool.and_eq_true] at hq
    exact hq.1
  order := rfl
  bound _ _ _ hb := hb
  dirty _ _ _ _ hd := hd
  held _ _ hs := hs

/-! ## Steps and histories -/

/-- What one operation keeps. -/
theorem respects_perform (access : Access n) (h : cache.Owned) (request : Request n) :
    Respects (fun s => request.frees s = true) (fun r => request.takesBack r = true) cache
      (request.perform access cache).cache := by
  have hgrant : ∀ {given : Cache n}, Respects (fun _ => False) (fun _ => False) cache given →
      Respects (fun s => request.frees s = true) (fun r => request.takesBack r = true) cache
        given := fun hgiven => hgiven.mono (fun _ hf => hf.elim) fun _ hf => hf.elim
  cases request with
  | read slot =>
    exact Reply.cache_ofGrant (.refl h) (fun _ hno => ((read_eq_error _).1 hno).2)
      fun grant hok => hgrant (provided_read h hok).respects
  | write slot keep =>
    exact Reply.cache_ofGrant (.refl h) (fun _ hno => ((write_eq_error _).1 hno).2)
      fun grant hok => hgrant (provided_write h hok).respects
  | scratch =>
    exact Reply.cache_ofGrant (.refl h) (fun _ hno => ((scratch_eq_error _).1 hno).2)
      fun grant hok => hgrant (respects_scratch h hok).1
  | setConstant slot value => exact respects_unbind h (by simp) (by simp [Request.frees])
  | release r =>
    exact (respects_release h r).mono (fun _ hf => hf) fun q hq => by simp [Request.takesBack, hq]
  | flushSlot slot => exact respects_flushSlot access h (by simp [Request.frees])
  | flush => exact respects_flushSlots _ (fun _ => rfl) h
  | lock regs => exact respects_locking _ h
  | unlock regs => exact respects_unlock h regs
  | endInstruction =>
    simp only [Request.perform, endInstruction]
    split
    · next hend =>
      split at hend
      · simp at hend
      · rw [Except.ok.injEq] at hend
        subst hend
        refine ⟨h.of_le (fun _ => rfl) rfl rfl (fun _ hs => hs) fun _ hl => hl, rfl, ?_, ?_, ?_⟩
        · intro s r hs _
          exact absurd rfl hs
        · intro s r _ _ hd
          exact hd
        · intro r hr _
          exact absurd rfl hr
    · exact .refl h

/-- What a history keeps. -/
theorem respects_after (access : Access n) (requests : List (Request n)) :
    ∀ {cache : Cache n}, cache.Owned →
    Respects (fun s => ∃ q ∈ requests, q.frees s = true)
      (fun r => ∃ q ∈ requests, q.takesBack r = true) cache (after access cache requests) := by
  induction requests with
  | nil => exact fun h => .refl h
  | cons request requests ih =>
    intro cache h
    have hstep := respects_perform access h request
    have hfirst := hstep.mono
      (fun s hs => (⟨request, by simp, hs⟩ : ∃ q ∈ request :: requests, q.frees s = true))
      (fun r hr => (⟨request, by simp, hr⟩ : ∃ q ∈ request :: requests, q.takesBack r = true))
    have hrest := (ih hstep.owned).mono
      (fun s ⟨q, hq, hs⟩ => (⟨q, by simp [hq], hs⟩ : ∃ q ∈ request :: requests, q.frees s = true))
      (fun r ⟨q, hq, hr⟩ =>
        (⟨q, by simp [hq], hr⟩ : ∃ q ∈ request :: requests, q.takesBack r = true))
    exact hfirst.trans hrest

theorem owned_new (cls : RegClass) (order : List HostReg) : (new cls order : Cache n).Owned where
  owner_iff r s := by simp [new, binding]
  owner_mem r s h := by simp [new] at h
  scratch_mem r h := by simp [new] at h
  scratch_free r h := by simp [new] at h
  locked_free r h := by simp [new] at h

end Cache

/-! ## Floating-point slots -/

/-- An operation on the floating-point slots. -/
inductive VectorRequest where
  | read (reg : GuestReg)
  | write (reg : GuestReg) (keep : Bool) (precision : Precision)
  | scratch
  | release (reg : HostReg)
  | flushSlot (reg : GuestReg)
  | flush
  | endInstruction
  | seedSingles (mask : BitVec 32)
  | resetPrecision

namespace VectorRequest

/-- What an operation asks of the cache; nothing if it is about precisions only. -/
def request? : VectorRequest → Option (Request 32)
  | .read reg => some (.read reg)
  | .write reg keep _ => some (.write reg keep)
  | .scratch => some .scratch
  | .release reg => some (.release reg)
  | .flushSlot reg => some (.flushSlot reg)
  | .flush => some .flush
  | .endInstruction => some .endInstruction
  | .seedSingles _ | .resetPrecision => none

/-- The slots after an operation. A value about to be written gets its precision if there is a
register for it. -/
def perform (access : Access 32) (vectors : Vectors) : VectorRequest → Vectors
  | .write reg keep precision =>
    match Cache.write access vectors.cache reg keep with
    | .ok grant => { vectors with cache := grant.cache }.setPending reg precision
    | .error refused => { vectors with cache := refused.cache }
  | .endInstruction =>
    match vectors.endInstruction with
    | .ok vectors => vectors
    | .error _ => vectors
  | .seedSingles mask => vectors.seedSingles mask
  | .resetPrecision => vectors.resetPrecision
  | .read reg =>
    { vectors with cache := ((Request.read reg).perform access vectors.cache).cache }
  | .scratch => { vectors with cache := (Request.scratch.perform access vectors.cache).cache }
  | .release reg => { vectors with cache := vectors.cache.release reg }
  | .flushSlot reg => { vectors with cache := (Cache.flushSlot access vectors.cache reg).2 }
  | .flush => { vectors with cache := (Cache.flush access vectors.cache).2 }

/-- Precisions have no part in who owns what. -/
theorem cache_perform (access : Access 32) (vectors : Vectors) (request : VectorRequest) :
    (request.perform access vectors).cache =
      match request.request? with
      | some q => (q.perform access vectors.cache).cache
      | none => vectors.cache := by
  cases request with
  | write reg keep precision =>
    simp only [perform, request?, Request.perform]
    cases Cache.write access vectors.cache reg keep <;> rfl
  | endInstruction =>
    simp only [perform, request?, Request.perform, Vectors.endInstruction]
    cases vectors.cache.endInstruction <;> rfl
  | read | scratch | release | flushSlot | flush | seedSingles | resetPrecision => rfl

end VectorRequest

/-- The floating-point slots after a history. -/
def Vectors.after (access : Access 32) (vectors : Vectors) (requests : List VectorRequest) :
    Vectors :=
  requests.foldl (fun vectors request => request.perform access vectors) vectors

theorem Vectors.cache_after (access : Access 32) (requests : List VectorRequest) :
    ∀ vectors : Vectors, (vectors.after access requests).cache =
      vectors.cache.after access (requests.filterMap VectorRequest.request?) := by
  induction requests with
  | nil => exact fun _ => rfl
  | cons request requests ih =>
    intro vectors
    have hrest := ih (request.perform access vectors)
    rw [VectorRequest.cache_perform] at hrest
    rw [List.filterMap_cons]
    cases hq : request.request? with
    | none =>
      rw [hq] at hrest
      exact hrest
    | some q =>
      rw [hq] at hrest
      exact hrest

/-! ## One holder for each register -/

/-- Every register of the pool has at most one holder, and both records of the holder agree. -/
structure Exclusive (order : List HostReg) (cache : Cache n) : Prop where
  bound_iff_owner : ∀ slot r, cache.binding slot = .host r ↔ cache.pool.owner.get r = some slot
  in_pool : ∀ r : HostReg, (cache.pool.owner.get r).isSome = true ∨
    cache.pool.scratch.contains r = true → r ∈ order
  owned_or_scratch : ∀ r : HostReg,
    ¬((cache.pool.owner.get r).isSome = true ∧ cache.pool.scratch.contains r = true)
  locked_unowned : ∀ r ∈ order, cache.pool.locked.contains r = true →
    cache.pool.owner.get r = none

/-- What a request handed out on `cache` is where it was on `final`, after the requests in `later`:
a slot in its register unless one of them frees the slot, a scratch register with its holder unless
one of them takes it back. -/
structure Tenure (access : Access n) (cache : Cache n) (request : Request n)
    (later : List (Request n)) (final : Cache n) : Prop where
  slot : ∀ slot r, request.slot? = some slot → (request.perform access cache).reg = some r →
    (∀ q ∈ later, q.frees slot = false) → final.binding slot = .host r
  scratch : ∀ r, request = .scratch → (request.perform access cache).reg = some r →
    (∀ q ∈ later, q.takesBack r = false) → final.pool.scratch.contains r = true

namespace Cache

variable {access : Access n} {cache : Cache n}

theorem Owned.exclusive (h : cache.Owned) {order : List HostReg} (ho : cache.pool.order = order) :
    Exclusive order cache where
  bound_iff_owner slot r := (h.owner_iff r slot).symm
  in_pool r hr := by
    rw [← ho]
    rcases hr with hr | hr
    · obtain ⟨slot, hslot⟩ := Option.isSome_iff_exists.1 hr
      exact h.owner_mem r slot hslot
    · exact h.scratch_mem r hr
  owned_or_scratch r hr := by
    have hnone := h.scratch_free r hr.2
    rw [hnone] at hr
    simp at hr
  locked_unowned r _ hl := (h.locked_free r hl).1

theorem exclusive_after (cls : RegClass) (order : List HostReg) (requests : List (Request n)) :
    Exclusive order ((new cls order : Cache n).after access requests) := by
  have h := respects_after access requests (owned_new cls order)
  exact h.owned.exclusive h.order

theorem perform_reg_slot (h : cache.Owned) {request : Request n} {slot : Fin n} {r : HostReg}
    (hs : request.slot? = some slot) (hr : (request.perform access cache).reg = some r) :
    (request.perform access cache).cache.Bound slot r := by
  have hgrant : ∀ {result : Except (Refusal n) (Grant n)}, (Reply.ofGrant result).reg = some r →
      (∀ grant, result = .ok grant → grant.cache.Bound slot grant.reg) →
      (Reply.ofGrant result).cache.Bound slot r := by
    intro result hreg hok
    cases result with
    | error fault => simp [Reply.ofGrant] at hreg
    | ok grant =>
      simp only [Reply.ofGrant, Option.some.injEq] at hreg
      subst hreg
      exact hok grant rfl
  cases request with
  | read s =>
    simp only [Request.slot?, Option.some.injEq] at hs
    subst hs
    exact hgrant hr fun grant hok => (provided_read h hok).bound
  | write s keep =>
    simp only [Request.slot?, Option.some.injEq] at hs
    subst hs
    exact hgrant hr fun grant hok => (provided_write h hok).bound
  | setConstant | scratch | release | flushSlot | flush | lock | unlock | endInstruction =>
    simp [Request.slot?] at hs

theorem Owned.tenure (h : cache.Owned) (request : Request n) (later : List (Request n)) :
    Tenure access cache request later
      ((request.perform access cache).cache.after access later) where
  slot slot r hs hr hlater := by
    have hb := perform_reg_slot h hs hr
    have hstep := respects_perform access h request
    have hrun := respects_after access later hstep.owned
    refine (hrun.bound slot r ?_ hb).1
    rintro ⟨q, hq, hf⟩
    rw [hlater q hq] at hf
    simp at hf
  scratch r hs hr hlater := by
    subst hs
    have hstep := respects_perform access h .scratch
    have hrun := respects_after access later hstep.owned
    refine hrun.held r ?_ ?_
    · rintro ⟨q, hq, hf⟩
      rw [hlater q hq] at hf
      simp at hf
    · cases hok : Cache.scratch access cache with
      | error fault => simp [Request.perform, hok, Reply.ofGrant] at hr
      | ok grant =>
        simp only [Request.perform, hok, Reply.ofGrant, Option.some.injEq] at hr ⊢
        subst hr
        exact (respects_scratch h hok).2

theorem after_append (cache : Cache n) (before later : List (Request n)) :
    cache.after access (before ++ later) = (cache.after access before).after access later :=
  List.foldl_append

theorem tenure_after (cls : RegClass) (order : List HostReg) (before : List (Request n))
    (request : Request n) (later : List (Request n)) :
    Tenure access ((new cls order : Cache n).after access before) request later
      ((new cls order : Cache n).after access (before ++ request :: later)) := by
  rw [after_append, after_cons]
  exact Owned.tenure (respects_after access before (owned_new cls order)).owned request later

end Cache

/-- Along every history of the integer slots, and along every history of the floating-point slots,
each register has one holder, and what was handed out stays there. -/
theorem registers_have_one_holder (layout : Layout) (order : List HostReg) :
    (∀ requests : List (Request 40),
      Exclusive order (Cache.after (.integer layout) (.new .general order) requests)) ∧
    (∀ (before : List (Request 40)) (request : Request 40) (later : List (Request 40)),
      Tenure (.integer layout) (Cache.after (.integer layout) (.new .general order) before) request
        later (Cache.after (.integer layout) (.new .general order) (before ++ request :: later))) ∧
    (∀ requests : List VectorRequest,
      Exclusive order (Vectors.after (.vector layout) (.new order) requests).cache) ∧
    ∀ (before : List VectorRequest) (request : VectorRequest) (later : List VectorRequest)
      (q : Request 32), request.request? = some q →
      Tenure (.vector layout) (Vectors.after (.vector layout) (.new order) before).cache q
        (later.filterMap VectorRequest.request?)
        (Vectors.after (.vector layout) (.new order) (before ++ request :: later)).cache := by
  refine ⟨?_, ?_, ?_, ?_⟩
  · exact fun requests => Cache.exclusive_after .general order requests
  · exact fun before request later => Cache.tenure_after .general order before request later
  · intro requests
    rw [Vectors.cache_after]
    exact Cache.exclusive_after .vector order _
  · intro before request later q hq
    rw [Vectors.cache_after, Vectors.cache_after, List.filterMap_append, List.filterMap_cons, hq]
    exact Cache.tenure_after .vector order _ q _

end Recompiler.Alloc
