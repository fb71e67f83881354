import Mathlib.Tactic.Common
import Recompiler.Arm.Machine
import Recompiler.Emit.CodeBuffer

/-!
# Running code while it is written

A buffer grows by appending; branches in it get their offsets when it is laid out. `Laid` says that
an array is the final code of a buffer that may still grow. `Runs a b m n` says that, in whatever
code buffer `b` ends up, the machine goes from the end of `a` to the end of `b` and turns `m` into
`n`, visiting only instructions in between and taking no more steps than there are of them.
-/

namespace Recompiler

open Arm

namespace Arm.Machine

/-! ## Steps of the machine -/

/-- Steps lead from one place to another, executing the instructions at the places visited. -/
inductive Reaches (code : Array Inst) : List Nat → Nat → Machine → Nat → Machine → Prop
  | refl (pc : Nat) (m : Machine) : Reaches code [] pc m pc m
  | cons_next {pc pc' : Nat} {inst : Inst} {m m₁ m' : Machine} {visited : List Nat}
      (hc : code[pc]? = some inst) (hs : m.step inst = .next m₁)
      (h : Reaches code visited (pc + 1) m₁ pc' m') : Reaches code (pc :: visited) pc m pc' m'
  | cons_jump {pc pc' target : Nat} {inst : Inst} {offset : Int} {m m₁ m' : Machine}
      {visited : List Nat} (hc : code[pc]? = some inst) (hs : m.step inst = .jump offset m₁)
      (ht : (pc : Int) + offset = target) (h : Reaches code visited target m₁ pc' m') :
      Reaches code (pc :: visited) pc m pc' m'

theorem Reaches.trans {code : Array Inst} {visited visited' : List Nat} {p q r : Nat}
    {l m n : Machine} (h : Reaches code visited p l q m) (h' : Reaches code visited' q m r n) :
    Reaches code (visited ++ visited') p l r n := by
  induction h with
  | refl pc m => exact h'
  | cons_next hc hs _ ih => exact .cons_next hc hs (ih h')
  | cons_jump hc hs ht _ ih => exact .cons_jump hc hs ht (ih h')

theorem Reaches.next {code : Array Inst} {pc : Nat} {inst : Inst} {m m' : Machine}
    (hc : code[pc]? = some inst) (hs : m.step inst = .next m') :
    Reaches code [pc] pc m (pc + 1) m' :=
  .cons_next hc hs (.refl _ _)

/-- A run takes one step for each place visited. -/
theorem Reaches.runFrom {code : Array Inst} {visited : List Nat} {pc pc' : Nat} {m m' : Machine}
    (h : Reaches code visited pc m pc' m') (fuel : Nat) :
    Machine.runFrom code (visited.length + fuel) pc m = Machine.runFrom code fuel pc' m' := by
  induction h with
  | refl pc m => rw [List.length_nil, Nat.zero_add]
  | @cons_next pc pc' inst m m₁ m' visited hc hs _ ih =>
    have hlength : (pc :: visited).length + fuel = visited.length + fuel + 1 := by
      rw [List.length_cons]
      omega
    rw [hlength, Machine.runFrom, ← ih]
    simp only [hc, hs]
  | @cons_jump pc pc' target inst offset m m₁ m' visited hc hs ht _ ih =>
    have hlength : (pc :: visited).length + fuel = visited.length + fuel + 1 := by
      rw [List.length_cons]
      omega
    have hnonneg : ¬((target : Int) < 0) := by omega
    rw [hlength, Machine.runFrom, ← ih]
    simp only [hc, hs, ht, if_neg hnonneg, Int.toNat_natCast]

/-- Execute instructions none of which branches, exits or faults. -/
def execAll (m : Machine) : List Inst → Option Machine
  | [] => some m
  | inst :: insts =>
    match m.step inst with
    | .next m => m.execAll insts
    | _ => none

@[simp] theorem execAll_nil (m : Machine) : m.execAll [] = some m := rfl

theorem execAll_cons {m m' : Machine} {inst : Inst} (insts : List Inst)
    (h : m.step inst = .next m') : m.execAll (inst :: insts) = m'.execAll insts := by
  rw [execAll]
  simp only [h]

theorem execAll_append {m m' : Machine} {insts : List Inst} (rest : List Inst)
    (h : m.execAll insts = some m') : m.execAll (insts ++ rest) = m'.execAll rest := by
  induction insts generalizing m with
  | nil =>
    rw [execAll_nil, Option.some.injEq] at h
    rw [List.nil_append, h]
  | cons inst insts ih =>
    rw [execAll] at h
    rw [List.cons_append, execAll]
    split at h
    · next hs =>
      exact ih h
    · simp at h

end Arm.Machine

namespace Emit

open Machine

namespace CodeBuffer

/-- The instruction at a place. -/
def inst? (buffer : CodeBuffer) (pos : Position) : Option Inst :=
  (buffer.code pos.region)[pos.index]?

/-- The index of a place in the final code whose far part starts at `base`. -/
def indexFrom (base : Nat) (pos : Position) : Nat :=
  match pos.region with
  | .near => pos.index
  | .far => base + pos.index

/-! ## Growing -/

/-- `b` has everything that `a` has, and branches of its own only in code of its own. -/
structure Extends (a b : CodeBuffer) : Prop where
  inst : ∀ pos i, a.inst? pos = some i → b.inst? pos = some i
  place : ∀ label pos, a.place? label = some pos → b.place? label = some pos
  keep : ∀ fixup ∈ a.fixups, fixup ∈ b.fixups
  fresh : ∀ fixup ∈ b.fixups, fixup ∈ a.fixups ∨ a.inst? fixup.branch = none
  size : a.size ≤ b.size

theorem Extends.refl (a : CodeBuffer) : Extends a a :=
  ⟨fun _ _ h => h, fun _ _ h => h, fun _ h => h, fun _ h => .inl h, Nat.le_refl _⟩

theorem Extends.trans {a b c : CodeBuffer} (h : Extends a b) (h' : Extends b c) : Extends a c where
  inst pos i hi := h'.inst pos i (h.inst pos i hi)
  place label pos hp := h'.place label pos (h.place label pos hp)
  keep fixup hf := h'.keep fixup (h.keep fixup hf)
  fresh fixup hf := by
    rcases h'.fresh fixup hf with hb | hb
    · exact h.fresh fixup hb
    · right
      cases ha : a.inst? fixup.branch with
      | none => rfl
      | some i => rw [h.inst _ _ ha] at hb; exact hb
  size := Nat.le_trans h.size h'.size

/-- `code` is the final code of a buffer that may still grow: far code starts at `base`, and
`place` tells where labels end up. -/
structure Laid (code : Array Inst) (base : Nat) (place : Nat → Option Position)
    (b : CodeBuffer) : Prop where
  plain : ∀ pos i, b.inst? pos = some i → (∀ fixup ∈ b.fixups, fixup.branch ≠ pos) →
    code[indexFrom base pos]? = some i
  branch : ∀ fixup ∈ b.fixups, ∀ i target, b.inst? fixup.branch = some i →
    place fixup.label = some target →
    code[indexFrom base fixup.branch]? =
      i.withOffset? ((indexFrom base target : Int) - (indexFrom base fixup.branch : Int))
  label : ∀ label pos, b.place? label = some pos → place label = some pos

theorem Laid.of_extends {code : Array Inst} {base : Nat} {place : Nat → Option Position}
    {a b : CodeBuffer} (h : Laid code base place b) (hab : Extends a b) :
    Laid code base place a where
  plain pos i hi hfix := by
    apply h.plain pos i (hab.inst pos i hi)
    intro fixup hf heq
    rcases hab.fresh fixup hf with hin | hnew
    · exact hfix fixup hin heq
    · rw [heq, hi] at hnew
      simp at hnew
  branch fixup hf i target hi ht :=
    h.branch fixup (hab.keep fixup hf) i target (hab.inst _ _ hi) ht
  label label pos hp := h.label label pos (hab.place label pos hp)

/-! ## Well-formed buffers -/

/-- Every branch to be filled in stands in the code, once, and its label has a place. New code goes
to the near region. -/
structure Ok (b : CodeBuffer) : Prop where
  region : b.region = .near
  branch : ∀ fixup ∈ b.fixups, ∃ i, b.inst? fixup.branch = some i ∧ i.isBranch = true
  placed : ∀ fixup ∈ b.fixups, ∃ pos, b.place? fixup.label = some pos
  once : (b.fixups.toList.map (·.branch)).Nodup

theorem Ok.empty : Ok {} where
  region := rfl
  branch fixup hf := by simp at hf
  placed fixup hf := by simp at hf
  once := by simp

/-! ## Straight code -/

theorem inst?_push (b : CodeBuffer) (i : Inst) (hr : b.region = .near) (pos : Position) :
    (b.emit i).inst? pos = if pos = ⟨.near, b.near.size⟩ then some i else b.inst? pos := by
  rcases pos with ⟨region, index⟩
  cases region with
  | near =>
    simp only [emit, hr, inst?, code, Position.mk.injEq, true_and, Array.getElem?_push]
  | far => simp [emit, hr, inst?, code]

theorem inst?_near_size (b : CodeBuffer) : b.inst? ⟨.near, b.near.size⟩ = none := by
  simp [inst?, code]

theorem emit_near (b : CodeBuffer) (i : Inst) (hr : b.region = .near) :
    b.emit i = { b with near := b.near.push i } := by
  simp [emit, hr]

theorem Extends.emit (b : CodeBuffer) (i : Inst) (hr : b.region = .near) :
    Extends b (b.emit i) where
  inst pos i' hi := by
    rw [inst?_push b i hr]
    split
    · next h => rw [h, inst?_near_size] at hi; simp at hi
    · exact hi
  place label pos hp := by rw [emit_near b i hr]; exact hp
  keep fixup hf := by rw [emit_near b i hr]; exact hf
  fresh fixup hf := by
    rw [emit_near b i hr] at hf
    exact .inl hf
  size := by
    rw [emit_near b i hr]
    simp only [CodeBuffer.size, Array.size_push]
    omega

theorem Ok.emit {b : CodeBuffer} (h : Ok b) (i : Inst) : Ok (b.emit i) where
  region := by rw [emit_near b i h.region]; exact h.region
  branch fixup hf := by
    rw [emit_near b i h.region] at hf
    obtain ⟨i', hi, hb⟩ := h.branch fixup hf
    exact ⟨i', (Extends.emit b i h.region).inst _ _ hi, hb⟩
  placed fixup hf := by
    rw [emit_near b i h.region] at hf ⊢
    exact h.placed fixup hf
  once := by rw [emit_near b i h.region]; exact h.once

theorem emitAll_cons (b : CodeBuffer) (i : Inst) (insts : List Inst) :
    b.emitAll (i :: insts) = (b.emit i).emitAll insts := rfl

theorem emitAll_append (b : CodeBuffer) (left right : List Inst) :
    b.emitAll (left ++ right) = (b.emitAll left).emitAll right := by
  simp [emitAll, List.foldl_append]

theorem Ok.emitAll {b : CodeBuffer} (h : Ok b) (insts : List Inst) : Ok (b.emitAll insts) := by
  induction insts generalizing b with
  | nil => exact h
  | cons i insts ih => exact ih (h.emit i)

/-- A place of the final code that belongs to `b` and not yet to `a`. -/
def Fresh (a b : CodeBuffer) (base pc : Nat) : Prop :=
  ∃ pos i, a.inst? pos = none ∧ b.inst? pos = some i ∧ pc = indexFrom base pos

theorem Fresh.mono {a a' b b' : CodeBuffer} {base pc : Nat} (h : Fresh a b base pc)
    (ha : Extends a' a) (hb : Extends b b') : Fresh a' b' base pc := by
  obtain ⟨pos, i, hnone, hsome, hpc⟩ := h
  refine ⟨pos, i, ?_, hb.inst pos i hsome, hpc⟩
  cases hpos : a'.inst? pos with
  | none => rfl
  | some j => rw [ha.inst pos j hpos] at hnone; simp at hnone

/-- The machine goes through what is appended to `a` in `b`, and turns `m` into `n`. -/
structure Runs (a b : CodeBuffer) (m n : Machine) : Prop where
  ext : Extends a b
  run : ∀ code base place, Laid code base place b → ∃ visited : List Nat,
    visited.length + a.size ≤ b.size ∧ (∀ pc ∈ visited, Fresh a b base pc) ∧
      Reaches code visited a.near.size m b.near.size n

theorem Runs.refl (a : CodeBuffer) (m : Machine) : Runs a a m m where
  ext := .refl a
  run _ _ _ _ := ⟨[], by simp, by simp, .refl _ m⟩

theorem Runs.trans {a b c : CodeBuffer} {l m n : Machine} (h : Runs a b l m) (h' : Runs b c m n) :
    Runs a c l n where
  ext := h.ext.trans h'.ext
  run code base place hl := by
    obtain ⟨left, hi, hfresh, hr⟩ := h.run code base place (hl.of_extends h'.ext)
    obtain ⟨right, hj, hfresh', hr'⟩ := h'.run code base place hl
    refine ⟨left ++ right, ?_, ?_, hr.trans hr'⟩
    · rw [List.length_append]
      omega
    · intro pc hpc
      rcases List.mem_append.1 hpc with hpc | hpc
      · exact (hfresh pc hpc).mono (.refl a) h'.ext
      · exact (hfresh' pc hpc).mono h.ext (.refl c)

theorem Ok.laid_emit {b : CodeBuffer} (h : Ok b) {i : Inst} {code : Array Inst} {base : Nat}
    {place : Nat → Option Position} (hl : Laid code base place (b.emit i)) :
    code[b.near.size]? = some i := by
  apply hl.plain ⟨.near, b.near.size⟩ i
  · rw [inst?_push b i h.region, if_pos rfl]
  · intro fixup hf heq
    rw [emit_near b i h.region] at hf
    obtain ⟨i', hi, -⟩ := h.branch fixup hf
    rw [heq, inst?_near_size] at hi
    simp at hi

theorem Runs.emit {b : CodeBuffer} {m m' : Machine} {i : Inst} (h : Ok b)
    (hs : m.step i = .next m') : Runs b (b.emit i) m m' where
  ext := .emit b i h.region
  run code base place hl := by
    refine ⟨[b.near.size], ?_, ?_, ?_⟩
    · rw [emit_near b i h.region]
      simp only [CodeBuffer.size, Array.size_push, List.length_singleton]
      omega
    · intro pc hpc
      rw [List.mem_singleton] at hpc
      refine ⟨⟨.near, b.near.size⟩, i, inst?_near_size b, ?_, hpc⟩
      rw [inst?_push b i h.region, if_pos rfl]
    · have hsize : (b.emit i).near.size = b.near.size + 1 := by
        rw [emit_near b i h.region, Array.size_push]
      rw [hsize]
      exact .next (h.laid_emit hl) hs

theorem Runs.emitAll {b : CodeBuffer} {m m' : Machine} {insts : List Inst} (h : Ok b)
    (hs : m.execAll insts = some m') : Runs b (b.emitAll insts) m m' := by
  induction insts generalizing b m with
  | nil =>
    rw [execAll_nil, Option.some.injEq] at hs
    subst hs
    exact .refl b m
  | cons i insts ih =>
    rw [execAll] at hs
    split at hs
    · next hstep => exact (Runs.emit h hstep).trans (ih (h.emit i) hs)
    · simp at hs

/-! ## The final code -/

/-- What has become of the code once the fixups in `done` are resolved. -/
private structure Resolved (b : CodeBuffer) (done : List Fixup) (code : Array Inst) : Prop where
  size : code.size = b.size
  plain : ∀ pos i, b.inst? pos = some i → (∀ fixup ∈ done, fixup.branch ≠ pos) →
    code[b.finalIndex pos]? = some i
  branch : ∀ fixup ∈ done, ∀ i target, b.inst? fixup.branch = some i →
    b.place? fixup.label = some target →
    code[b.finalIndex fixup.branch]? =
      i.withOffset? ((b.finalIndex target : Int) - (b.finalIndex fixup.branch : Int))

private theorem finalIndex_eq (b : CodeBuffer) (pos : Position) :
    b.finalIndex pos = indexFrom b.near.size pos := rfl

private theorem index_lt {b : CodeBuffer} {pos : Position} {i : Inst} (h : b.inst? pos = some i) :
    pos.index < (b.code pos.region).size := (Array.getElem?_eq_some_iff.1 h).1

private theorem finalIndex_inj {b : CodeBuffer} {p q : Position} {i j : Inst}
    (hp : b.inst? p = some i) (hq : b.inst? q = some j) (h : b.finalIndex p = b.finalIndex q) :
    p = q := by
  have hpl := index_lt hp
  have hql := index_lt hq
  rcases p with ⟨rp, ip⟩
  rcases q with ⟨rq, iq⟩
  cases rp <;> cases rq <;> simp only [finalIndex, code, Position.mk.injEq] at hpl hql h ⊢
  · exact ⟨trivial, h⟩
  · omega
  · omega
  · exact ⟨trivial, by omega⟩

/-- Where an instruction is before branches are filled in. -/
theorem getElem?_finalIndex {b : CodeBuffer} {pos : Position} {i : Inst}
    (h : b.inst? pos = some i) : (b.near ++ b.far)[b.finalIndex pos]? = some i := by
  have hlt := index_lt h
  rcases pos with ⟨region, index⟩
  cases region with
  | near =>
    simp only [finalIndex, inst?, code] at *
    rw [Array.getElem?_append_left hlt, h]
  | far =>
    simp only [finalIndex, inst?, code] at *
    rw [Array.getElem?_append_right (by omega), Nat.add_sub_cancel_left, h]

private theorem Resolved.init (b : CodeBuffer) : Resolved b [] (b.near ++ b.far) where
  size := by simp [CodeBuffer.size]
  plain _ _ hi _ := getElem?_finalIndex hi
  branch fixup hf := by simp at hf

private theorem isBranch_withOffset {i : Inst} (h : i.isBranch = true) (offset : Int) :
    ∃ i', i.withOffset? offset = some i' := by
  cases i <;> simp_all [Inst.isBranch, Inst.withOffset?]

private theorem Resolved.resolve {b : CodeBuffer} (hb : Ok b) {done : List Fixup}
    {code : Array Inst} (h : Resolved b done code) {fixup : Fixup} (hf : fixup ∈ b.fixups)
    (hnew : ∀ f ∈ done, f.branch ≠ fixup.branch) :
    ∃ code', b.resolve code fixup = .ok code' ∧ Resolved b (done ++ [fixup]) code' := by
  obtain ⟨i, hi, hbr⟩ := hb.branch fixup hf
  obtain ⟨target, ht⟩ := hb.placed fixup hf
  have hat := h.plain fixup.branch i hi hnew
  obtain ⟨i', hi'⟩ := isBranch_withOffset hbr
    ((b.finalIndex target : Int) - (b.finalIndex fixup.branch : Int))
  refine ⟨code.setIfInBounds (b.finalIndex fixup.branch) i', ?_, ?_, ?_, ?_⟩
  · simp only [CodeBuffer.resolve, ht, hat, Option.bind_some, hi']
  · rw [Array.size_setIfInBounds, h.size]
  · intro pos j hj hfresh
    have hne : b.finalIndex fixup.branch ≠ b.finalIndex pos := fun he =>
      hfresh fixup (by simp) (finalIndex_inj hi hj he)
    rw [Array.getElem?_setIfInBounds_ne hne]
    exact h.plain pos j hj fun f hfd => hfresh f (by simp [hfd])
  · intro f hfd j target' hj ht'
    rw [List.mem_append, List.mem_singleton] at hfd
    rcases hfd with hfd | rfl
    · have hne : b.finalIndex fixup.branch ≠ b.finalIndex f.branch := fun he =>
        hnew f hfd (finalIndex_inj hi hj he).symm
      rw [Array.getElem?_setIfInBounds_ne hne]
      exact h.branch f hfd j target' hj ht'
    · rw [hi, Option.some.injEq] at hj
      rw [ht, Option.some.injEq] at ht'
      subst hj ht'
      have hlt : b.finalIndex f.branch < code.size := (Array.getElem?_eq_some_iff.1 hat).1
      rw [Array.getElem?_setIfInBounds_self_of_lt hlt, hi']

private theorem Resolved.foldlM {b : CodeBuffer} (hb : Ok b) (rest : List Fixup) :
    ∀ (done : List Fixup) (code : Array Inst), Resolved b done code →
      b.fixups.toList = done ++ rest →
      ∃ code', rest.foldlM b.resolve code = .ok code' ∧ Resolved b b.fixups.toList code' := by
  induction rest with
  | nil =>
    intro done code h hsplit
    rw [List.append_nil] at hsplit
    exact ⟨code, rfl, hsplit ▸ h⟩
  | cons fixup rest ih =>
    intro done code h hsplit
    have hmem : ∀ f ∈ done ++ fixup :: rest, f ∈ b.fixups := by
      intro f hf
      rw [← hsplit] at hf
      exact Array.mem_toList_iff.1 hf
    have honce := hb.once
    rw [hsplit, List.map_append, List.map_cons, List.nodup_append] at honce
    have hnew : ∀ f ∈ done, f.branch ≠ fixup.branch := fun f hf =>
      honce.2.2 f.branch (List.mem_map_of_mem hf) fixup.branch (by simp)
    obtain ⟨code₁, h₁, hr₁⟩ := h.resolve hb (hmem fixup (by simp)) hnew
    obtain ⟨code₂, h₂, hr₂⟩ := ih (done ++ [fixup]) code₁ hr₁ (by simp [hsplit])
    refine ⟨code₂, ?_, hr₂⟩
    rw [List.foldlM_cons, h₁]
    exact h₂

/-- A well-formed buffer can be finished, and the result is its final code. -/
theorem Ok.finish {b : CodeBuffer} (h : Ok b) :
    ∃ code, b.finish = .ok code ∧ code.size = b.size ∧ Laid code b.near.size b.place? b := by
  obtain ⟨code, hfin, hres⟩ := Resolved.foldlM h b.fixups.toList [] _ (Resolved.init b) rfl
  refine ⟨code, hfin, hres.size, ?_, ?_, ?_⟩
  · intro pos i hi hfresh
    rw [← finalIndex_eq]
    exact hres.plain pos i hi fun f hf => hfresh f (Array.mem_toList_iff.1 hf)
  · intro fixup hf i target hi ht
    rw [← finalIndex_eq, ← finalIndex_eq]
    exact hres.branch fixup (Array.mem_toList_iff.2 hf) i target hi ht
  · intro label pos hp
    exact hp

end CodeBuffer

end Emit

end Recompiler
