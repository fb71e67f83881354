import Mathlib.Tactic.Common
import Recompiler.Alloc.Pool

/-!
# Which registers a pool can still hand out

A register is blocked when the current instruction relies on it. As long as a pool has more
registers than are blocked, one of them is free or can be taken from its owner. Every operation
blocks at most one register more.
-/

namespace Recompiler

open Arm

namespace Arm.RegSet

theorem ext_contains {left right : RegSet}
    (h : ∀ reg : HostReg, left.contains reg = right.contains reg) : left = right := by
  rcases left with ⟨l⟩
  rcases right with ⟨r⟩
  congr 1
  apply BitVec.eq_of_getLsbD_eq
  intro i hi
  exact h ⟨i, hi⟩

@[simp] theorem contains_sdiff (left right : RegSet) (reg : HostReg) :
    (left.sdiff right).contains reg = (left.contains reg && !right.contains reg) := by
  have hlt := reg.isLt
  simp [contains, sdiff, hlt]

theorem contains_insert_self (set : RegSet) (reg : HostReg) :
    (set.insert reg).contains reg = true := by
  simp [contains_insert]

theorem contains_insert_of_ne {set : RegSet} {reg other : HostReg} (h : other ≠ reg) :
    (set.insert reg).contains other = set.contains other := by
  have hf : (reg == other) = false := by simpa using fun he => h he.symm
  rw [contains_insert, hf, Bool.or_false]

theorem contains_erase_self (set : RegSet) (reg : HostReg) :
    (set.erase reg).contains reg = false := by
  simp [contains_erase]

theorem contains_erase_of_ne {set : RegSet} {reg other : HostReg} (h : other ≠ reg) :
    (set.erase reg).contains other = set.contains other := by
  have hf : (reg != other) = true := by simpa using fun he => h he.symm
  rw [contains_erase, hf, Bool.and_true]

theorem erase_insert {set : RegSet} {reg : HostReg} (h : set.contains reg = false) :
    (set.insert reg).erase reg = set := by
  apply ext_contains
  intro other
  by_cases he : other = reg
  · subst he
    rw [contains_erase_self, h]
  · rw [contains_erase_of_ne he, contains_insert_of_ne he]

theorem contains_foldl_insert (regs : List HostReg) (set : RegSet) (reg : HostReg) :
    (regs.foldl insert set).contains reg = (set.contains reg || decide (reg ∈ regs)) := by
  induction regs generalizing set with
  | nil => simp
  | cons r regs ih =>
    rw [List.foldl_cons, ih]
    by_cases he : reg = r
    · subst he
      simp [contains_insert_self]
    · rw [contains_insert_of_ne he]
      simp [he]

theorem contains_ofList (regs : List HostReg) (reg : HostReg) :
    (ofList regs).contains reg = decide (reg ∈ regs) := by
  rw [ofList, contains_foldl_insert, contains_empty, Bool.false_or]

theorem isEmpty_iff {set : RegSet} : set.isEmpty = true ↔ set = .empty := by
  rcases set with ⟨bits⟩
  simp [isEmpty, empty]

theorem toList_nodup (set : RegSet) : set.toList.Nodup :=
  (List.nodup_finRange 256).filter _

end Arm.RegSet

namespace Alloc

/-! ## Counting -/

/-- Predicates that differ at one place count alike but for that place. -/
theorem countP_add_of_agree {α : Type} [DecidableEq α] {p q : α → Bool} {l : List α} {a : α}
    (hl : l.Nodup) (ha : a ∈ l) (h : ∀ b, b ≠ a → q b = p b) :
    l.countP q + (if p a then 1 else 0) = l.countP p + if q a then 1 else 0 := by
  have hperm := List.perm_cons_erase ha
  have hrest : (l.erase a).countP q = (l.erase a).countP p := by
    apply List.countP_congr
    intro b hb
    rw [h b (hl.mem_erase_iff.1 hb).1]
  rw [hperm.countP_eq, hperm.countP_eq, List.countP_cons, List.countP_cons, hrest]
  omega

theorem countP_le_succ {α : Type} [DecidableEq α] {p q : α → Bool} {l : List α} {a : α}
    (hl : l.Nodup) (h : ∀ b, b ≠ a → q b = p b) : l.countP q ≤ l.countP p + 1 := by
  by_cases ha : a ∈ l
  · have hcount := countP_add_of_agree hl ha h
    split at hcount <;> split at hcount <;> omega
  · have hsame : l.countP q = l.countP p := by
      apply List.countP_congr
      intro b hb
      rw [h b (ne_of_mem_of_not_mem hb ha)]
    omega

/-- A predicate that gives up one place counts one less. -/
theorem countP_succ_of_erased {α : Type} [DecidableEq α] {p q : α → Bool} {l : List α} {a : α}
    (hl : l.Nodup) (ha : a ∈ l) (hp : p a = true) (hq : q a = false) (h : ∀ b, b ≠ a → q b = p b) :
    l.countP q + 1 = l.countP p := by
  have hcount := countP_add_of_agree hl ha h
  rwa [if_pos hp, hq, if_neg Bool.false_ne_true] at hcount

namespace Pool

variable {n : Nat}

/-- Whether the current instruction relies on a register as it is. -/
def blocked (pool : Pool n) (reg : HostReg) : Bool :=
  pool.locked.contains reg || pool.scratch.contains reg ||
    ((pool.owner.get reg).isSome && pool.pinned.contains reg)

/-- How many registers are blocked. -/
def busy (pool : Pool n) : Nat := pool.order.countP pool.blocked

theorem oldest_mem {pool : Pool n} {regs : List HostReg} {reg : HostReg}
    (h : pool.oldest regs = some reg) : reg ∈ regs := by
  induction regs generalizing reg with
  | nil => simp [oldest] at h
  | cons r regs ih =>
    rw [oldest] at h
    cases ho : pool.oldest regs with
    | none =>
      simp only [ho, Option.some.injEq] at h
      simp [h]
    | some other =>
      simp only [ho, Option.some.injEq] at h
      split at h
      · simp [h]
      · exact List.mem_cons_of_mem _ (ih (ho.trans (congrArg some h)))

theorem oldest_eq_none {pool : Pool n} {regs : List HostReg} (h : pool.oldest regs = none) :
    regs = [] := by
  cases regs with
  | nil => rfl
  | cons r regs =>
    rw [oldest] at h
    cases ho : pool.oldest regs <;> simp [ho] at h

theorem isFree_iff {pool : Pool n} {reg : HostReg} : pool.isFree reg = true ↔
    pool.owner.get reg = none ∧ pool.scratch.contains reg = false ∧
      pool.locked.contains reg = false := by
  simp [isFree, and_assoc]

theorem isEvictable_iff {pool : Pool n} {reg : HostReg} : pool.isEvictable reg = true ↔
    (pool.owner.get reg).isSome = true ∧ pool.pinned.contains reg = false ∧
      pool.locked.contains reg = false := by
  simp only [isEvictable, Bool.and_eq_true, Bool.not_eq_true']
  constructor
  · rintro ⟨⟨hpin, hlock⟩, howner⟩
    exact ⟨howner, hpin, hlock⟩
  · rintro ⟨howner, hpin, hlock⟩
    exact ⟨⟨hpin, hlock⟩, howner⟩

/-- The victim is a register of the pool that is neither pinned nor locked, and its owner. -/
theorem victim?_some {pool : Pool n} {reg : HostReg} {slot : Fin n}
    (h : pool.victim? = some (reg, slot)) :
    reg ∈ pool.order ∧ pool.pinned.contains reg = false ∧ pool.locked.contains reg = false ∧
      pool.owner.get reg = some slot := by
  unfold victim? at h
  cases ho : pool.oldest (pool.order.filter pool.isEvictable) with
  | none => simp [ho] at h
  | some r =>
    simp only [ho, Option.map_eq_some_iff, Prod.mk.injEq] at h
    obtain ⟨s, hs, hr, hslot⟩ := h
    subst hr hslot
    have hmem := List.mem_filter.1 (oldest_mem ho)
    have hev := hmem.2
    simp only [isEvictable, Bool.and_eq_true, Bool.not_eq_true'] at hev
    exact ⟨hmem.1, hev.1.1, hev.1.2, hs⟩

theorem free?_some {pool : Pool n} {reg : HostReg} (h : pool.free? = some reg) :
    reg ∈ pool.order ∧ pool.isFree reg = true :=
  ⟨List.mem_of_find?_eq_some h, List.find?_some h⟩

theorem free?_eq_none {pool : Pool n} :
    pool.free? = none ↔ ∀ reg ∈ pool.order, ¬pool.isFree reg = true :=
  List.find?_eq_none

/-- The oldest of some registers exists unless there are none, and every candidate has an owner. -/
theorem victim?_eq_none {pool : Pool n} :
    pool.victim? = none ↔ ∀ reg ∈ pool.order, ¬pool.isEvictable reg = true := by
  rw [← List.filter_eq_nil_iff]
  constructor
  · intro h
    cases holdest : pool.oldest (pool.order.filter pool.isEvictable) with
    | none => exact oldest_eq_none holdest
    | some reg =>
      obtain ⟨-, hevictable⟩ := List.mem_filter.1 (oldest_mem holdest)
      obtain ⟨slot, hslot⟩ := Option.isSome_iff_exists.1 (isEvictable_iff.1 hevictable).1
      simp [victim?, holdest, hslot] at h
  · intro h
    simp [victim?, h, oldest]

/-- Every register of the pool is held, locked or with an owner, and those with an owner are pinned
or locked. -/
structure Exhausted (pool : Pool n) : Prop where
  none_free : ∀ reg ∈ pool.order, ¬(pool.owner.get reg = none ∧
    pool.scratch.contains reg = false ∧ pool.locked.contains reg = false)
  none_evictable : ∀ reg ∈ pool.order, ¬((pool.owner.get reg).isSome = true ∧
    pool.pinned.contains reg = false ∧ pool.locked.contains reg = false)

theorem exhausted_iff {pool : Pool n} : pool.Exhausted ↔ pool.free? = none ∧ pool.victim? = none := by
  simp only [free?_eq_none, victim?_eq_none, isFree_iff, isEvictable_iff]
  exact ⟨fun h => ⟨h.none_free, h.none_evictable⟩, fun h => ⟨h.1, h.2⟩⟩

/-- A pool with a register that is not blocked can hand one out. -/
theorem victim?_isSome_of_busy_lt {pool : Pool n} (h : pool.busy < pool.order.length)
    (hf : pool.free? = none) : ∃ reg slot, pool.victim? = some (reg, slot) := by
  have hex : ∃ reg ∈ pool.order, pool.blocked reg = false := by
    by_contra hcon
    have hall : ∀ reg ∈ pool.order, pool.blocked reg = true := by
      intro reg hreg
      by_contra hb
      exact hcon ⟨reg, hreg, by simpa using hb⟩
    have := List.countP_eq_length.2 hall
    unfold busy at h
    omega
  obtain ⟨reg, hreg, hb⟩ := hex
  simp only [blocked, Bool.or_eq_false_iff, Bool.and_eq_false_iff] at hb
  have hfree := free?_eq_none.1 hf reg hreg
  have howned : (pool.owner.get reg).isSome = true := by
    cases ho : pool.owner.get reg with
    | none => simp [isFree, ho, hb.1.1, hb.1.2] at hfree
    | some slot => rfl
  have hpin : pool.pinned.contains reg = false := by
    rcases hb.2 with hn | hn
    · rw [howned] at hn
      simp at hn
    · exact hn
  have hevictable : pool.isEvictable reg = true := isEvictable_iff.2 ⟨howned, hpin, hb.1.1⟩
  cases hvictim : pool.victim? with
  | none => exact absurd hevictable (victim?_eq_none.1 hvictim reg hreg)
  | some victim => exact ⟨victim.1, victim.2, rfl⟩

/-! ## What the operations block -/

theorem busy_le_of_agree {pool pool' : Pool n} (reg : HostReg) (hn : pool.order.Nodup)
    (ho : pool'.order = pool.order) (h : ∀ r, r ≠ reg → pool'.blocked r = pool.blocked r) :
    pool'.busy ≤ pool.busy + 1 := by
  unfold busy
  rw [ho]
  exact countP_le_succ hn h

theorem busy_le_of_imp {pool pool' : Pool n} (ho : pool'.order = pool.order)
    (h : ∀ r, pool'.blocked r = true → pool.blocked r = true) : pool'.busy ≤ pool.busy := by
  unfold busy
  rw [ho]
  exact List.countP_mono_left fun r _ => h r

theorem blocked_touch_of_ne {pool : Pool n} {reg other : HostReg} (h : other ≠ reg) :
    (pool.touch reg).blocked other = pool.blocked other := by
  simp only [blocked, touch, RegSet.contains_insert_of_ne h]

theorem busy_touch (pool : Pool n) (reg : HostReg) (hn : pool.order.Nodup) :
    (pool.touch reg).busy ≤ pool.busy + 1 :=
  busy_le_of_agree reg hn rfl fun _ hr => blocked_touch_of_ne hr

theorem busy_assign (pool : Pool n) (reg : HostReg) (slot : Fin n) (hn : pool.order.Nodup) :
    (pool.assign reg slot).busy ≤ pool.busy + 1 := by
  refine busy_le_of_agree reg hn rfl ?_
  intro r hr
  rw [assign, blocked_touch_of_ne hr]
  simp only [blocked, Bank.get_set_of_ne _ _ hr]

theorem busy_hold (pool : Pool n) (reg : HostReg) (hn : pool.order.Nodup) :
    (pool.hold reg).busy ≤ pool.busy + 1 := by
  refine busy_le_of_agree reg hn rfl ?_
  intro r hr
  rw [hold, blocked_touch_of_ne hr]
  simp only [blocked, RegSet.contains_insert_of_ne hr]

theorem busy_vacate (pool : Pool n) (reg : HostReg) : (pool.vacate reg).busy ≤ pool.busy := by
  refine busy_le_of_imp rfl ?_
  intro r hb
  by_cases hr : r = reg
  · subst hr
    have hgone := pool.scratch.contains_erase_self r
    simp only [vacate, blocked, Bank.get_set_self, hgone, Option.isSome_none, Bool.false_and,
      Bool.or_false] at hb
    simp [blocked, hb]
  · simpa only [vacate, blocked, Bank.get_set_of_ne _ _ hr, RegSet.contains_erase_of_ne hr] using hb

theorem busy_release {pool : Pool n} {reg : HostReg} (hn : pool.order.Nodup)
    (hm : reg ∈ pool.order) (hs : pool.scratch.contains reg = true)
    (ho : pool.owner.get reg = none) (hl : pool.locked.contains reg = false) :
    (pool.release reg).busy + 1 = pool.busy := by
  unfold busy
  apply countP_succ_of_erased hn hm
  · simp [blocked, hs]
  · have hgone := pool.scratch.contains_erase_self reg
    simp [release, blocked, hgone, ho, hl]
  · intro r hr
    simp only [release, blocked, RegSet.contains_erase_of_ne hr]

theorem busy_eq_zero {pool : Pool n} (hs : pool.scratch = .empty) (hl : pool.locked = .empty)
    (hp : pool.pinned = .empty) : pool.busy = 0 := by
  unfold busy
  rw [List.countP_eq_zero]
  intro r _
  simp [blocked, hs, hl, hp]

end Pool

end Alloc

end Recompiler
