import Recompiler.Proofs.CodeRun

/-!
# Code with branches of its own

A piece of code is a list of near and a list of far instructions with labels and branches to them.
`Piece.run` follows its branches without laying it out; wherever the piece is appended, the machine
does the same.
-/

namespace Recompiler.Emit

open Arm Machine

/-- A piece of code whose branches stay inside it. Places count from its beginning. -/
structure Piece where
  near : List Inst
  far : List Inst := []
  /-- Where its labels are. -/
  places : List Position
  /-- Where its branches are, with the numbers of their labels. -/
  branches : List (Position × Nat)

namespace Piece

def inst? (p : Piece) (pos : Position) : Option Inst :=
  match pos.region with
  | .near => p.near[pos.index]?
  | .far => p.far[pos.index]?

def target? (p : Piece) (pos : Position) : Option Position :=
  match p.branches.lookup pos with
  | some label => p.places[label]?
  | none => none

def size (p : Piece) : Nat := p.near.length + p.far.length

/-- Run from a place to the end of the near part. -/
def run (p : Piece) : Nat → Position → Machine → Option Machine
  | 0, pos, m => if pos = ⟨.near, p.near.length⟩ then some m else none
  | fuel + 1, pos, m =>
    if pos = ⟨.near, p.near.length⟩ then some m
    else
      match p.inst? pos with
      | none => none
      | some inst =>
        match m.step inst with
        | .next m => p.run fuel ⟨pos.region, pos.index + 1⟩ m
        | .jump _ m =>
          match p.target? pos with
          | some target => p.run fuel target m
          | none => none
        | _ => none

/-- Every branch of a piece is one, once, and has a label. -/
structure Ok (p : Piece) : Prop where
  branch : ∀ b ∈ p.branches, ∃ i, p.inst? b.1 = some i ∧ i.isBranch = true
  label : ∀ b ∈ p.branches, ∃ pos, p.places[b.2]? = some pos
  once : (p.branches.map (·.1)).Nodup

variable {p : Piece} {fuel : Nat} {pos target : Position} {i : Inst} {m m' : Machine}
  {offset : Int}

theorem run_end (p : Piece) (fuel : Nat) (m : Machine) :
    p.run fuel ⟨.near, p.near.length⟩ m = some m := by
  cases fuel <;> simp [run]

theorem run_next (hi : p.inst? pos = some i) (hs : m.step i = .next m') :
    p.run (fuel + 1) pos m = p.run fuel ⟨pos.region, pos.index + 1⟩ m' := by
  have hne : pos ≠ ⟨.near, p.near.length⟩ := by
    rintro rfl
    simp [inst?] at hi
  simp only [run, if_neg hne, hi, hs]

theorem run_jump (hi : p.inst? pos = some i) (hs : m.step i = .jump offset m')
    (ht : p.target? pos = some target) : p.run (fuel + 1) pos m = p.run fuel target m' := by
  have hne : pos ≠ ⟨.near, p.near.length⟩ := by
    rintro rfl
    simp [inst?] at hi
  simp only [run, if_neg hne, hi, hs, ht]

/-- More fuel keeps a finished run. -/
theorem run_of_le {fuel' : Nat} (h : p.run fuel pos m = some m') (hle : fuel ≤ fuel') :
    p.run fuel' pos m = some m' := by
  by_cases hend : pos = ⟨.near, p.near.length⟩
  · subst hend
    rw [run_end] at h ⊢
    exact h
  · induction fuel generalizing fuel' pos m with
    | zero => simp [run, hend] at h
    | succ fuel ih =>
      obtain ⟨fuel', rfl⟩ : ∃ k, fuel' = k + 1 := ⟨fuel' - 1, by omega⟩
      have hrest : ∀ pos m, p.run fuel pos m = some m' → p.run fuel' pos m = some m' := by
        intro pos m hrun
        by_cases hp : pos = ⟨.near, p.near.length⟩
        · subst hp
          rw [run_end] at hrun ⊢
          exact hrun
        · exact ih hrun (by omega) hp
      simp only [run, if_neg hend] at h ⊢
      cases hi : p.inst? pos with
      | none => simp [hi] at h
      | some i =>
        simp only [hi] at h ⊢
        cases hs : m.step i with
        | next m₁ =>
          simp only [hs] at h ⊢
          exact hrest _ _ h
        | jump offset m₁ =>
          simp only [hs] at h ⊢
          cases ht : p.target? pos with
          | none => simp [ht] at h
          | some target =>
            simp only [ht] at h ⊢
            exact hrest _ _ h
        | fault fault m₁ => simp [hs] at h
        | exit m₁ => simp [hs] at h

/-- Code without branches runs as it does on its own. -/
theorem run_execAll {insts : List Inst} {region : Region} {index : Nat}
    (hi : ∀ j, j < insts.length → p.inst? ⟨region, index + j⟩ = insts[j]?)
    (hexec : m.execAll insts = some m') :
    p.run (insts.length + fuel) ⟨region, index⟩ m =
      p.run fuel ⟨region, index + insts.length⟩ m' := by
  induction insts generalizing index m with
  | nil =>
    rw [execAll_nil, Option.some.injEq] at hexec
    rw [hexec, List.length_nil, Nat.zero_add, Nat.add_zero]
  | cons inst insts ih =>
    rw [execAll] at hexec
    split at hexec
    · next m₁ hs =>
      have hfirst : p.inst? ⟨region, index⟩ = some inst := hi 0 (Nat.succ_pos _)
      have hrest : ∀ j, j < insts.length → p.inst? ⟨region, index + 1 + j⟩ = insts[j]? := by
        intro j hj
        rw [Nat.add_assoc, Nat.add_comm 1 j]
        exact hi (j + 1) (Nat.succ_lt_succ hj)
      have hfuel : (inst :: insts).length + fuel = insts.length + fuel + 1 := by
        rw [List.length_cons]
        omega
      rw [hfuel, run_next hfirst hs, ih hrest hexec, List.length_cons, Nat.add_assoc,
        Nat.add_comm 1]
    · simp at hexec

end Piece

theorem mem_of_lookup {pos : Position} {label : Nat} {l : List (Position × Nat)}
    (h : l.lookup pos = some label) : (pos, label) ∈ l := by
  induction l with
  | nil => simp at h
  | cons b l ih =>
    rw [List.lookup_cons] at h
    split at h
    · next heq =>
      rw [Option.some.injEq] at h
      have hpos : pos = b.1 := by simpa using heq
      rw [hpos, ← h]
      exact List.mem_cons_self
    · exact List.mem_cons_of_mem _ (ih h)

/-- A branch does the same with another offset, except for where it leads. -/
theorem step_withOffset {i : Inst} (h : i.isBranch = true) (offset : Int) (m : Machine) :
    ∃ j, i.withOffset? offset = some j ∧ (∀ m', m.step i = .next m' → m.step j = .next m') ∧
      ∀ o m', m.step i = .jump o m' → m.step j = .jump offset m' := by
  cases i with
  | branch o => exact ⟨_, rfl, by simp [step], by simp [step]⟩
  | branchIf cond o =>
    refine ⟨_, rfl, ?_, ?_⟩ <;> simp only [step] <;> split <;> simp
  | branchIfZero r o =>
    refine ⟨_, rfl, ?_, ?_⟩ <;> simp only [step] <;> split <;> simp
  | _ => simp [Inst.isBranch] at h

namespace CodeBuffer

/-- A place that counts from the end of a buffer. -/
def after (a : CodeBuffer) (pos : Position) : Position :=
  ⟨pos.region, (a.code pos.region).size + pos.index⟩

theorem after_inj {a : CodeBuffer} {p q : Position} (h : a.after p = a.after q) : p = q := by
  rcases p with ⟨region, index⟩
  rcases q with ⟨region', index'⟩
  simp only [after, Position.mk.injEq] at h
  obtain ⟨rfl, hi⟩ := h
  rw [Nat.add_left_cancel hi]

theorem inst?_after (a : CodeBuffer) (pos : Position) : a.inst? (a.after pos) = none := by
  simp [inst?, after]

/-- Buffer `b` is buffer `a` with a piece appended. -/
structure Follows (a b : CodeBuffer) (p : Piece) : Prop where
  near : b.near = a.near ++ p.near.toArray
  far : b.far = a.far ++ p.far.toArray
  region : b.region = .near
  fixups : b.fixups =
    a.fixups ++ (p.branches.map fun br => (⟨a.after br.1, a.labels.size + br.2⟩ : Fixup)).toArray
  places : ∀ l pos, p.places[l]? = some pos → b.place? (a.labels.size + l) = some (a.after pos)
  old : ∀ l pos, a.place? l = some pos → b.place? l = some pos

variable {a b : CodeBuffer} {p : Piece}

namespace Follows

theorem code_eq (h : Follows a b p) (region : Region) :
    b.code region = a.code region ++ (match region with
      | .near => p.near
      | .far => p.far).toArray := by
  cases region with
  | near => exact h.near
  | far => exact h.far

theorem inst?_old (h : Follows a b p) {pos : Position} {i : Inst} (hi : a.inst? pos = some i) :
    b.inst? pos = some i := by
  have hlt : pos.index < (a.code pos.region).size := by
    by_contra hge
    rw [inst?, Array.getElem?_eq_none (by omega)] at hi
    simp at hi
  rw [inst?, h.code_eq, Array.getElem?_append_left hlt]
  exact hi

theorem inst?_new (h : Follows a b p) {pos : Position} {i : Inst} (hi : p.inst? pos = some i) :
    b.inst? (a.after pos) = some i := by
  rw [inst?, h.code_eq, Array.getElem?_append_right (by simp [after])]
  rcases pos with ⟨region, index⟩
  cases region <;> simpa [after, Piece.inst?] using hi

theorem mem_fixups (h : Follows a b p) {fixup : Fixup} (hf : fixup ∈ b.fixups) :
    fixup ∈ a.fixups ∨ ∃ br ∈ p.branches, fixup = ⟨a.after br.1, a.labels.size + br.2⟩ := by
  rw [h.fixups, Array.mem_append] at hf
  rcases hf with hf | hf
  · exact .inl hf
  · right
    rw [List.mem_toArray, List.mem_map] at hf
    obtain ⟨br, hbr, rfl⟩ := hf
    exact ⟨br, hbr, rfl⟩

theorem size_eq (h : Follows a b p) : b.size = a.size + p.size := by
  rw [CodeBuffer.size, CodeBuffer.size, Piece.size, h.near, h.far]
  simp only [Array.size_append, List.size_toArray]
  omega

theorem grows (h : Follows a b p) : Extends a b where
  inst _ _ hi := h.inst?_old hi
  place := h.old
  keep fixup hf := by
    rw [h.fixups, Array.mem_append]
    exact .inl hf
  fresh fixup hf := by
    rcases h.mem_fixups hf with hf | ⟨br, -, rfl⟩
    · exact .inl hf
    · exact .inr (inst?_after a br.1)
  size := by
    rw [h.size_eq]
    omega

theorem ok (h : Follows a b p) (ha : a.Ok) (hp : p.Ok) : b.Ok where
  region := h.region
  branch fixup hf := by
    rcases h.mem_fixups hf with hf | ⟨br, hbr, rfl⟩
    · obtain ⟨i, hi, hb⟩ := ha.branch fixup hf
      exact ⟨i, h.inst?_old hi, hb⟩
    · obtain ⟨i, hi, hb⟩ := hp.branch br hbr
      exact ⟨i, h.inst?_new hi, hb⟩
  placed fixup hf := by
    rcases h.mem_fixups hf with hf | ⟨br, hbr, rfl⟩
    · obtain ⟨pos, hpos⟩ := ha.placed fixup hf
      exact ⟨pos, h.old _ _ hpos⟩
    · obtain ⟨pos, hpos⟩ := hp.label br hbr
      exact ⟨a.after pos, h.places _ _ hpos⟩
  once := by
    rw [h.fixups, Array.toList_append, List.map_append, List.nodup_append]
    refine ⟨ha.once, ?_, ?_⟩
    · have hmap : ((p.branches.map (·.1)).map a.after).Nodup :=
        List.Pairwise.map a.after (fun _ _ hne heq => hne (after_inj heq)) hp.once
      simpa [Function.comp_def] using hmap
    · intro pos hpos pos' hpos' heq
      rw [List.mem_map] at hpos
      obtain ⟨fixup, hf, rfl⟩ := hpos
      simp only [List.mem_map] at hpos'
      obtain ⟨_, ⟨br, -, rfl⟩, rfl⟩ := hpos'
      obtain ⟨i, hi, -⟩ := ha.branch fixup (Array.mem_toList_iff.1 hf)
      rw [heq, inst?_after] at hi
      simp at hi

/-! ## Where the piece is in the final code -/

variable {code : Array Inst} {base : Nat} {place : Nat → Option Position}

theorem plain (h : Follows a b p) (ha : a.Ok) (hl : Laid code base place b) {pos : Position}
    {i : Inst} (hi : p.inst? pos = some i) (hb : p.branches.lookup pos = none) :
    code[indexFrom base (a.after pos)]? = some i := by
  apply hl.plain _ _ (h.inst?_new hi)
  intro fixup hf heq
  rcases h.mem_fixups hf with hf | ⟨br, hbr, rfl⟩
  · obtain ⟨j, hj, -⟩ := ha.branch fixup hf
    rw [heq, inst?_after] at hj
    simp at hj
  · have hpos : br.1 = pos := after_inj heq
    rw [List.lookup_eq_none_iff] at hb
    have := hb br hbr
    rw [hpos] at this
    simp at this

theorem branch (h : Follows a b p) (hl : Laid code base place b) {pos target : Position}
    {i : Inst} {label : Nat} (hi : p.inst? pos = some i)
    (hb : p.branches.lookup pos = some label) (ht : p.places[label]? = some target) :
    code[indexFrom base (a.after pos)]? = i.withOffset?
      ((indexFrom base (a.after target) : Int) - (indexFrom base (a.after pos) : Int)) := by
  have hmem : (⟨a.after pos, a.labels.size + label⟩ : Fixup) ∈ b.fixups := by
    rw [h.fixups, Array.mem_append]
    right
    rw [List.mem_toArray, List.mem_map]
    exact ⟨(pos, label), mem_of_lookup hb, rfl⟩
  exact hl.branch _ hmem i _ (h.inst?_new hi) (hl.label _ _ (h.places _ _ ht))

/-- The machine does what the run of the piece says, in as many steps. -/
theorem reaches (h : Follows a b p) (ha : a.Ok) (hp : p.Ok) (hl : Laid code base place b)
    {m' : Machine} : ∀ fuel pos m, p.run fuel pos m = some m' → ∃ visited : List Nat,
      visited.length ≤ fuel ∧ (∀ pc ∈ visited, Fresh a b base pc) ∧
        Reaches code visited (indexFrom base (a.after pos)) m b.near.size m' := by
  have hend : indexFrom base (a.after ⟨.near, p.near.length⟩) = b.near.size := by
    rw [h.near, Array.size_append, List.size_toArray]
    rfl
  have hsucc : ∀ pos : Position, indexFrom base (a.after ⟨pos.region, pos.index + 1⟩) =
      indexFrom base (a.after pos) + 1 := by
    rintro ⟨region, index⟩
    cases region <;> simp only [after, indexFrom] <;> omega
  have hfresh : ∀ pos i, p.inst? pos = some i → Fresh a b base (indexFrom base (a.after pos)) :=
    fun pos i hi => ⟨a.after pos, i, inst?_after a pos, h.inst?_new hi, rfl⟩
  have hcons : ∀ pos i (visited : List Nat), p.inst? pos = some i →
      (∀ pc ∈ visited, Fresh a b base pc) →
      ∀ pc ∈ indexFrom base (a.after pos) :: visited, Fresh a b base pc := by
    intro pos i visited hi hrest pc hpc
    rcases List.mem_cons.1 hpc with rfl | hpc
    · exact hfresh pos i hi
    · exact hrest pc hpc
  intro fuel
  induction fuel with
  | zero =>
    intro pos m hrun
    rw [Piece.run] at hrun
    split at hrun
    · next hpos =>
      rw [Option.some.injEq] at hrun
      subst hrun hpos
      exact ⟨[], Nat.le_refl 0, by simp, hend ▸ .refl _ m⟩
    · simp at hrun
  | succ fuel ih =>
    intro pos m hrun
    rw [Piece.run] at hrun
    split at hrun
    · next hpos =>
      rw [Option.some.injEq] at hrun
      subst hrun hpos
      exact ⟨[], Nat.zero_le _, by simp, hend ▸ .refl _ m⟩
    · cases hi : p.inst? pos with
      | none => simp [hi] at hrun
      | some i =>
        simp only [hi] at hrun
        cases hb : p.branches.lookup pos with
        | none =>
          have hcode := h.plain ha hl hi hb
          cases hs : m.step i with
          | next m₁ =>
            simp only [hs] at hrun
            obtain ⟨visited, hle, hrest, hr⟩ := ih _ _ hrun
            rw [hsucc] at hr
            exact ⟨_ :: visited, Nat.succ_le_succ hle, hcons pos i visited hi hrest,
              .cons_next hcode hs hr⟩
          | jump offset m₁ => simp [hs, Piece.target?, hb] at hrun
          | exit m₁ => simp [hs] at hrun
          | fault fault m₁ => simp [hs] at hrun
        | some label =>
          obtain ⟨target, ht⟩ := hp.label _ (mem_of_lookup hb)
          obtain ⟨i', hi', hbr⟩ := hp.branch _ (mem_of_lookup hb)
          rw [hi, Option.some.injEq] at hi'
          subst hi'
          have hcode := h.branch hl hi hb ht
          obtain ⟨j, hj, hnext, hjump⟩ := step_withOffset hbr
            ((indexFrom base (a.after target) : Int) - (indexFrom base (a.after pos) : Int)) m
          rw [hj] at hcode
          cases hs : m.step i with
          | next m₁ =>
            simp only [hs] at hrun
            obtain ⟨visited, hle, hrest, hr⟩ := ih _ _ hrun
            rw [hsucc] at hr
            exact ⟨_ :: visited, Nat.succ_le_succ hle, hcons pos i visited hi hrest,
              .cons_next hcode (hnext m₁ hs) hr⟩
          | jump offset m₁ =>
            simp only [hs, Piece.target?, hb, ht] at hrun
            obtain ⟨visited, hle, hrest, hr⟩ := ih _ _ hrun
            refine ⟨_ :: visited, Nat.succ_le_succ hle, hcons pos i visited hi hrest,
              .cons_jump hcode (hjump offset m₁ hs) ?_ hr⟩
            omega
          | exit m₁ => simp [hs] at hrun
          | fault fault m₁ => simp [hs] at hrun

theorem runs (h : Follows a b p) (ha : a.Ok) (hp : p.Ok) {m m' : Machine}
    (hrun : p.run p.size ⟨.near, 0⟩ m = some m') : Runs a b m m' where
  ext := h.grows
  run code base place hl := by
    obtain ⟨visited, hle, hfresh, hr⟩ := h.reaches ha hp hl _ _ _ hrun
    refine ⟨visited, ?_, hfresh, hr⟩
    rw [h.size_eq]
    omega

end Follows

end CodeBuffer

/-! ## Writing a piece -/

/-- One step of writing a piece. Its labels are numbered from zero, in the order of their making. -/
inductive Asm where
  | label
  | place (label : Nat)
  | branch (i : Inst) (label : Nat)
  | emit (i : Inst)
  | switch (region : Region)

namespace CodeBuffer

/-- Write one step, with labels that count from `base`. -/
def write (base : Nat) (b : CodeBuffer) : Asm → CodeBuffer
  | .label => b.addLabel
  | .place label => b.placeLabel (base + label)
  | .branch i label => b.branchTo i (base + label)
  | .emit i => b.emit i
  | .switch region => b.switchTo region

def writeAll (base : Nat) (b : CodeBuffer) (steps : List Asm) : CodeBuffer :=
  steps.foldl (write base) b

theorem writeAll_append (base : Nat) (b : CodeBuffer) (steps steps' : List Asm) :
    b.writeAll base (steps ++ steps') = (b.writeAll base steps).writeAll base steps' :=
  List.foldl_append

theorem writeAll_emit (base : Nat) (b : CodeBuffer) (insts : List Inst) :
    b.writeAll base (insts.map .emit) = b.emitAll insts :=
  List.foldl_map

theorem emitAll_far (insts : List Inst) : ∀ {b : CodeBuffer}, b.region = .far →
    b.emitAll insts = { b with far := b.far ++ insts.toArray } := by
  induction insts with
  | nil => simp [emitAll]
  | cons inst insts ih =>
    intro b hr
    have hemit : b.emit inst = { b with far := b.far.push inst } := by simp [emit, hr]
    have hrest := ih (b := { b with far := b.far.push inst }) hr
    rw [emitAll_cons, hemit, hrest]
    simp

/-- Buffer `b` is buffer `a` followed by a buffer that was written on its own. -/
structure Appended (a q b : CodeBuffer) : Prop where
  near : b.near = a.near ++ q.near
  far : b.far = a.far ++ q.far
  region : b.region = q.region
  labels : b.labels = a.labels ++ q.labels.map (Option.map a.after)
  fixups : b.fixups = a.fixups ++
    q.fixups.map fun fixup => ⟨a.after fixup.branch, a.labels.size + fixup.label⟩

variable {a q b : CodeBuffer}

namespace Appended

theorem empty {a : CodeBuffer} (hr : a.region = .near) : Appended a {} a where
  near := by simp
  far := by simp
  region := hr
  labels := by simp
  fixups := by simp

theorem here (h : Appended a q b) : b.here = a.after q.here := by
  unfold CodeBuffer.here after
  rw [h.region]
  cases q.region
  · simp only [code, h.near, Array.size_append]
  · simp only [code, h.far, Array.size_append]

theorem emit (h : Appended a q b) (i : Inst) : Appended a (q.emit i) (b.emit i) := by
  have hr := h.region
  cases hq : q.region with
  | near =>
    rw [hq] at hr
    constructor <;> simp [CodeBuffer.emit, hr, hq, h.near, h.far, h.labels, h.fixups]
  | far =>
    rw [hq] at hr
    constructor <;> simp [CodeBuffer.emit, hr, hq, h.near, h.far, h.labels, h.fixups]

theorem write (h : Appended a q b) (step : Asm) :
    Appended a (q.write 0 step) (b.write a.labels.size step) := by
  cases step with
  | label =>
    refine ⟨h.near, h.far, h.region, ?_, h.fixups⟩
    simp [CodeBuffer.write, addLabel, h.labels]
  | place label =>
    refine ⟨h.near, h.far, h.region, ?_, h.fixups⟩
    simp only [CodeBuffer.write, placeLabel, h.labels, h.here]
    rw [Array.setIfInBounds_append_right (by omega)]
    simp
  | branch i label =>
    apply emit
    refine ⟨h.near, h.far, h.region, h.labels, ?_⟩
    simp [h.fixups, h.here]
  | emit i => exact h.emit i
  | switch region => exact ⟨h.near, h.far, rfl, h.labels, h.fixups⟩

theorem writeAll (steps : List Asm) : ∀ {q b : CodeBuffer}, Appended a q b →
    Appended a (q.writeAll 0 steps) (b.writeAll a.labels.size steps) := by
  induction steps with
  | nil => exact fun h => h
  | cons step steps ih => exact fun h => ih (h.write step)

end Appended

/-- The piece that steps write. -/
structure Writes (steps : List Asm) (p : Piece) : Prop where
  near : (writeAll 0 {} steps).near = p.near.toArray
  far : (writeAll 0 {} steps).far = p.far.toArray
  region : (writeAll 0 {} steps).region = .near
  labels : (writeAll 0 {} steps).labels = (p.places.map some).toArray
  fixups : (writeAll 0 {} steps).fixups = (p.branches.map fun br => ⟨br.1, br.2⟩).toArray

theorem Writes.follows {steps : List Asm} {p : Piece} (h : Writes steps p) {a : CodeBuffer}
    (hr : a.region = .near) : a.Follows (a.writeAll a.labels.size steps) p := by
  have happ := (Appended.empty hr).writeAll steps
  refine ⟨?_, ?_, ?_, ?_, ?_, ?_⟩
  · rw [happ.near, h.near]
  · rw [happ.far, h.far]
  · rw [happ.region, h.region]
  · rw [happ.fixups, h.fixups]
    simp [Function.comp_def]
  · intro l pos hpos
    rw [place?, happ.labels, h.labels, Array.getElem?_append_right (by omega)]
    simp [hpos]
  · intro l pos hpos
    have hlt : l < a.labels.size := by
      by_contra hge
      rw [place?, Array.getElem?_eq_none (by omega)] at hpos
      simp at hpos
    rw [place?, happ.labels, Array.getElem?_append_left hlt]
    exact hpos

end CodeBuffer

end Recompiler.Emit
