import Recompiler.Proofs.Liveness

/-!
# What a step may change

Executing a word writes some cells of the state block, with values computed from the state before.
The tables of an operation announce which cells these may be. Nothing else changes: no other
register, no other lane, no other bit of the status word and no byte between the fields. An
operation that does not read the carry bit writes the same whatever the carry is, and the summary
overflow bit, once set, stays.
-/

namespace Recompiler.PowerPC

open Arm

/-! ## Announced effects -/

/-- What may change: registers, lanes, condition fields, the bytes of the carry and of the overflow
bits, and bits of the status word. -/
structure Effects where
  gpr : GuestReg → Prop := fun _ => False
  ps0 : GuestReg → Prop := fun _ => False
  ps1 : GuestReg → Prop := fun _ => False
  cr : CrField → Prop := fun _ => False
  xerCa : Prop := False
  xerSoOv : Prop := False
  status : Nat → Prop := fun _ => False

/-- Whether this is a compare. -/
def IntOp.isCompare : IntOp → Bool
  | .compare .. => true
  | _ => false

/-- Whether the result goes to both lanes. -/
def FloatOp.writesBothLanes : FloatOp → Bool
  | .arith form _ => form = .single ∨ form = .paired
  | .move packed _ => packed
  | .frsp | .fres => true
  | .fsel | .fctiwz | .frsqrte | .fcmp _ => false

/-- The effects that the tables announce for an integer word. -/
def IntOp.effects (op : IntOp) (word : Word) : Effects where
  gpr reg := op.target word = some reg
  cr field :=
    (op.isCompare = true ∧ field = word.crfd) ∨ (op.records word.rc = true ∧ field = 0)
  xerCa := op.writesCa = true
  xerSoOv := op.hasOe = true ∧ word.oe = true

/-- The effects that the tables announce for a floating-point word. -/
def FloatOp.effects (op : FloatOp) (word : Word) (fprf : Bool) : Effects where
  ps0 reg := op.isCompare = false ∧ reg = word.rd
  ps1 reg := op.writesBothLanes = true ∧ reg = word.rd
  cr field :=
    (op.isCompare = true ∧ field = word.crfd) ∨
      (op.isCompare = false ∧ word.rc = true ∧ field = 1)
  status i :=
    fprf = true ∧ op.writesFprf = true ∧ 12 ≤ i ∧ i ≤ 16 ∧ (op.isCompare = true → i ≠ 16)

/-- The effects that the tables announce for a word. -/
def Op.effects (word : Word) (fprf : Bool) : Op → Effects
  | .int op => op.effects word
  | .float op => op.effects word fprf

namespace Effects

/-- Nothing but the carry byte may change. -/
def carryOnly : Effects where
  xerCa := True

/-- A cell may go from one value to another. Summary overflow is never cleared. -/
def Allows (effects : Effects) : (cell : Cell) → (old new : BitVec cell.width) → Prop
  | .gpr reg, old, new => ¬effects.gpr reg → new = old
  | .ps reg, old, new =>
    (¬effects.ps0 reg → lane new 0 = lane old 0) ∧ (¬effects.ps1 reg → lane new 1 = lane old 1)
  | .cr field, old, new => ¬effects.cr field → new = old
  | .xerCa, old, new => ¬effects.xerCa → new = old
  | .xerSoOv, old, new =>
    (¬effects.xerSoOv → new = old) ∧ (old.getLsbD 1 = true → new.getLsbD 1 = true)
  | .fpscr, old, new => ∀ i, ¬effects.status i → new.getLsbD i = old.getLsbD i

theorem Allows.refl (effects : Effects) (cell : Cell) (value : BitVec cell.width) :
    effects.Allows cell value value := by
  cases cell <;> simp [Allows]

end Effects

/-- The second state has, but for the effects, what the first has: in every cell, and in every byte
outside the cells. -/
structure Effects.Within (effects : Effects) (layout : Layout) (a b : State) : Prop where
  left : a.On layout
  right : b.On layout
  cells : ∀ cell, effects.Allows cell (a.fetch cell) (b.fetch cell)
  rest : ∀ i, (∀ cell : Cell, ¬cell.Covers layout i) → b.memory.byte i = a.memory.byte i

/-! ## Writes -/

/-- A write to a cell. -/
structure Write where
  cell : Cell
  value : BitVec cell.width

namespace State

/-- Write to cells in order. -/
def putAll (state : State) (writes : List Write) : State :=
  writes.foldl (fun state write => state.put write.cell write.value) state

theorem putAll_append (state : State) (writes writes' : List Write) :
    state.putAll (writes ++ writes') = (state.putAll writes).putAll writes' :=
  List.foldl_append

end State

namespace Effects.Within

variable {effects : Effects} {layout : Layout} {a b : State}

theorem refl (effects : Effects) (h : a.On layout) : effects.Within layout a a :=
  ⟨h, h, fun _ => .refl _ _ _, fun _ _ => rfl⟩

theorem put (hv : layout.Valid) (h : effects.Within layout a b) (cell : Cell)
    {value : BitVec cell.width} (hallows : effects.Allows cell (a.fetch cell) value) :
    effects.Within layout a (b.put cell value) where
  left := h.left
  right := h.right.put hv cell value
  cells other := by
    by_cases hcell : other = cell
    · subst hcell
      rw [h.right.fetch_put_self hv]
      exact hallows
    · rw [h.right.fetch_put_of_ne hv cell value hcell]
      exact h.cells other
  rest i hi := (h.right.byte_put hv (hi cell) value).trans (h.rest i hi)

theorem putAll (hv : layout.Valid) (h : effects.Within layout a b) {writes : List Write}
    (hallows : ∀ write ∈ writes, effects.Allows write.cell (a.fetch write.cell) write.value) :
    effects.Within layout a (b.putAll writes) := by
  induction writes generalizing b with
  | nil => exact h
  | cons write writes ih =>
    apply ih (h.put hv write.cell (hallows write List.mem_cons_self))
    intro other hmem
    exact hallows other (List.mem_cons_of_mem _ hmem)

theorem put_both (hv : layout.Valid) (h : effects.Within layout a b) (cell : Cell)
    (value : BitVec cell.width) : effects.Within layout (a.put cell value) (b.put cell value) where
  left := h.left.put hv cell value
  right := h.right.put hv cell value
  cells other := by
    by_cases hcell : other = cell
    · subst hcell
      rw [h.left.fetch_put_self hv, h.right.fetch_put_self hv]
      exact .refl _ _ _
    · rw [h.left.fetch_put_of_ne hv cell value hcell, h.right.fetch_put_of_ne hv cell value hcell]
      exact h.cells other
  rest i hi := by
    rw [h.left.byte_put hv (hi cell) value, h.right.byte_put hv (hi cell) value]
    exact h.rest i hi

theorem putAll_both (hv : layout.Valid) (h : effects.Within layout a b) (writes : List Write) :
    effects.Within layout (a.putAll writes) (b.putAll writes) := by
  induction writes generalizing a b with
  | nil => exact h
  | cons write writes ih => exact ih (h.put_both hv write.cell write.value)

end Effects.Within

/-! ## The writes of a step -/

namespace State

/-- The overflow bits after an overflow or its absence. -/
def overflowAfter (state : State) (overflow : Bool) : BitVec 8 :=
  (if overflow then 3 else state.xerSoOv &&& 2) &&& 3

/-- The writes of a result, the overflow bits apart. -/
def valueWrites (reg : GuestReg) (result : IntResult) (record : Bool) : List Write :=
  ⟨.gpr reg, result.value⟩ ::
    (result.carry.toList.map fun carry => ⟨.xerCa, (BitVec.ofBool carry).setWidth 8⟩) ++
    if record then [⟨.cr 0, Condition.encode (Condition.ofSign result.value)⟩] else []

def resultWrites (state : State) (reg : GuestReg) (result : IntResult) (oe record : Bool) :
    List Write :=
  (if oe then result.overflow.toList.map fun overflow => ⟨.xerSoOv, state.overflowAfter overflow⟩
    else []) ++ valueWrites reg result record

theorem putAll_valueWrites (state : State) (reg : GuestReg) (result : IntResult) (record : Bool) :
    state.putAll (valueWrites reg result record) =
      if record then
        ((state.setGpr reg result.value).writeCarry result.carry).setCrField 0
          (Condition.ofSign result.value)
      else (state.setGpr reg result.value).writeCarry result.carry := by
  rcases result with ⟨value, _ | carry, overflow⟩ <;> cases record <;> rfl

theorem writeResult_eq (state : State) (reg : GuestReg) (result : IntResult) (oe record : Bool) :
    state.writeResult reg result oe record =
      state.putAll (state.resultWrites reg result oe record) := by
  rw [resultWrites, putAll_append, putAll_valueWrites, writeResult]
  cases oe <;> cases result.overflow <;> rfl

def integerWrites (state : State) (word : Word) (op : IntOp) : List Write :=
  let a := state.gpr word.ra
  let b := state.gpr word.rb
  match op with
  | .compare signed immediate =>
    [⟨.cr word.crfd, Condition.encode (Condition.ofOrdering
      (compareWords signed a (IntOp.compareOperand word signed immediate b)))⟩]
  | _ =>
    match op.target word with
    | some reg =>
      state.resultWrites reg (op.result word a b (state.gpr word.rd) state.xerCa)
        word.oe (op.records word.rc)
    | none => []

theorem integerWrites_of_target (state : State) {word : Word} {op : IntOp} {reg : GuestReg}
    (h : op.target word = some reg) : state.integerWrites word op = state.resultWrites reg
      (op.result word (state.gpr word.ra) (state.gpr word.rb) (state.gpr word.rd) state.xerCa)
      word.oe (op.records word.rc) := by
  cases op with
  | compare signed immediate => cases h
  | _ => simp only [integerWrites, h]

theorem stepInteger_eq (state : State) (word : Word) (op : IntOp) :
    state.stepInteger word op = state.putAll (state.integerWrites word op) := by
  cases htarget : op.target word with
  | some reg =>
    rw [stepInteger_of_target state htarget, writeResult_eq, integerWrites_of_target state htarget]
  | none =>
    cases op with
    | compare signed immediate => rfl
    | _ => simp [IntOp.target] at htarget

end State

/-- What becomes of the status word. -/
def FloatEffect.statusAfter (effect : FloatEffect) (fprf : Bool) (status : BitVec 32) :
    BitVec 32 :=
  match effect.status with
  | some f => if fprf then f status else status
  | none => status

namespace State

variable {layout : Layout} {state : State}

def effectWrites (state : State) (fprf : Bool) (word : Word) (effect : FloatEffect) : List Write :=
  (effect.value.toList.map fun value => ⟨.ps word.rd, value⟩) ++
  (effect.condition.toList.map fun bits => ⟨.cr word.crfd, Condition.encode bits⟩) ++
  if fprf then effect.status.toList.map fun f => ⟨.fpscr, f state.fpscr⟩ else []

/-- The status word is read after the destination and the condition field are written, which leaves
it as it was. -/
theorem On.fpscr_putCondition (hon : state.On layout) (hv : layout.Valid) (word : Word)
    (effect : FloatEffect) :
    Keeps layout .fpscr state
      ((state.putValue word.rd effect.value).putCondition word.crfd effect.condition) := by
  have hvalue : Keeps layout .fpscr state (state.putValue word.rd effect.value) :=
    .putValue hv hon (by simp) effect.value
  cases effect.condition with
  | none => exact hvalue
  | some bits =>
    have hne : Cell.fpscr ≠ .cr word.crfd := by simp
    exact hvalue.put hv hne _

theorem On.writeEffect_eq (hon : state.On layout) (hv : layout.Valid) (fprf : Bool) (word : Word)
    (effect : FloatEffect) :
    state.writeEffect fprf word effect = state.putAll (state.effectWrites fprf word effect) := by
  have hkeeps := hon.fpscr_putCondition hv word effect
  have hfpscr : ((state.putValue word.rd effect.value).putCondition word.crfd
      effect.condition).fpscr = state.fpscr := hkeeps.fetch
  have hputs : (state.putValue word.rd effect.value).putCondition word.crfd effect.condition =
      state.putAll ((effect.value.toList.map fun value => ⟨.ps word.rd, value⟩) ++
        effect.condition.toList.map fun bits => ⟨.cr word.crfd, Condition.encode bits⟩) := by
    cases effect.value <;> cases effect.condition <;> rfl
  rw [writeEffect, effectWrites, putAll_append, ← hputs]
  cases fprf with
  | false => cases effect.status <;> rfl
  | true =>
    cases effect.status with
    | none => rfl
    | some f =>
      rw [putStatus, if_pos rfl, hfpscr]
      rfl

theorem On.fpscr_writeEffect (hon : state.On layout) (hv : layout.Valid) (fprf : Bool) (word : Word)
    (effect : FloatEffect) :
    (state.writeEffect fprf word effect).fpscr = effect.statusAfter fprf state.fpscr := by
  have hkeeps := hon.fpscr_putCondition hv word effect
  have hfpscr : ((state.putValue word.rd effect.value).putCondition word.crfd
      effect.condition).fpscr = state.fpscr := hkeeps.fetch
  rw [writeEffect, FloatEffect.statusAfter]
  cases effect.status with
  | none => exact hfpscr
  | some f =>
    cases fprf with
    | false => exact hfpscr
    | true =>
      rw [putStatus, if_pos rfl, hfpscr]
      exact hkeeps.on.fetch_put_self hv .fpscr _

/-- The effect of a floating-point instruction on the registers of a state. -/
def floatEffect (state : State) (word : Word) (op : FloatOp) : FloatEffect :=
  FloatUnit.guest.effect op (state.ps word.rd) (state.ps word.ra) (state.ps word.rb)
    (state.ps word.frc)

/-- The record bit looks at the new status word. -/
def floatWrites (state : State) (fprf : Bool) (word : Word) (op : FloatOp) : List Write :=
  let effect := state.floatEffect word op
  state.effectWrites fprf word effect ++
    if word.rc && !op.isCompare then
      [⟨.cr 1, Condition.encode ((effect.statusAfter fprf state.fpscr >>> 28).setWidth 4)⟩]
    else []

def writes (state : State) (fprf : Bool) (word : Word) : Op → List Write
  | .int op => state.integerWrites word op
  | .float op => state.floatWrites fprf word op

/-- A step is its writes. -/
theorem On.step_eq (hon : state.On layout) (hv : layout.Valid) (interpreter : Interpreter)
    {word : Word} {op : Op} (hop : Op.decode word = some op) :
    interpreter.step state word =
      .ok (state.putAll (state.writes interpreter.fprf word op)) := by
  rw [interpreter.step_eq, Word.step]
  simp only [hop, Except.ok.injEq]
  cases op with
  | int op => exact stepInteger_eq state word op
  | float op =>
    have hfpscr := hon.fpscr_writeEffect hv interpreter.fprf word (state.floatEffect word op)
    have hputs := hon.writeEffect_eq hv interpreter.fprf word (state.floatEffect word op)
    simp only [Word.stepOp, floatWith, writes, floatWrites, putAll_append, ← hputs]
    split
    · rw [← hfpscr]
      rfl
    · rfl

end State

/-! ## Writes are announced -/

namespace State

variable {state : State}

/-- Overflow sets the summary bit and its absence keeps it. -/
theorem getLsbD_overflowAfter (overflow : Bool) (h : state.xerSoOv.getLsbD 1 = true) :
    (state.overflowAfter overflow).getLsbD 1 = true := by
  cases overflow <;> simp [overflowAfter, h]

theorem allows_resultWrites {effects : Effects} {reg : GuestReg} {result : IntResult}
    {oe record : Bool} (hgpr : effects.gpr reg) (hca : result.carry.isSome = true → effects.xerCa)
    (hsoOv : oe = true → result.overflow.isSome = true → effects.xerSoOv)
    (hcr : record = true → effects.cr 0) :
    ∀ write ∈ state.resultWrites reg result oe record,
      effects.Allows write.cell (state.fetch write.cell) write.value := by
  intro write hmem
  simp only [resultWrites, valueWrites, List.mem_append, List.mem_cons] at hmem
  rcases hmem with hmem | (rfl | hmem) | hmem
  · split at hmem
    · next hoe =>
      obtain ⟨overflow, hoverflow, rfl⟩ := List.mem_map.1 hmem
      have hsome : result.overflow.isSome = true :=
        Option.isSome_iff_exists.2 ⟨overflow, Option.mem_toList.1 hoverflow⟩
      exact ⟨fun h => absurd (hsoOv hoe hsome) h, getLsbD_overflowAfter overflow⟩
    · cases hmem
  · exact fun h => absurd hgpr h
  · obtain ⟨carry, hcarry, rfl⟩ := List.mem_map.1 hmem
    have hsome : result.carry.isSome = true :=
      Option.isSome_iff_exists.2 ⟨carry, Option.mem_toList.1 hcarry⟩
    exact fun h => absurd (hca hsome) h
  · split at hmem
    · next hrecord =>
      rw [List.mem_singleton] at hmem
      subst hmem
      exact fun h => absurd (hcr hrecord) h
    · cases hmem

theorem allows_integerWrites {word : Word} {op : IntOp} (hop : Op.decode word = some (.int op)) :
    ∀ write ∈ state.integerWrites word op,
      (op.effects word).Allows write.cell (state.fetch write.cell) write.value := by
  cases htarget : op.target word with
  | none =>
    cases op with
    | compare signed immediate =>
      intro write hmem
      rw [integerWrites, List.mem_singleton] at hmem
      subst hmem
      exact fun h => absurd (.inl ⟨rfl, rfl⟩) h
    | _ => simp [IntOp.target] at htarget
  | some reg =>
    rw [integerWrites_of_target state htarget]
    apply allows_resultWrites
    · exact htarget
    · intro hcarry
      rw [IntOp.isSome_carry_result] at hcarry
      exact hcarry
    · intro hoe hoverflow
      exact ⟨IntOp.hasOe_of_overflow hop hoe hoverflow, hoe⟩
    · intro hrecord
      exact .inr ⟨hrecord, rfl⟩

end State

/-! ### Floating-point instructions -/

namespace FloatUnit

variable {unit : FloatUnit} {op : FloatOp} {d x y z : BitVec 128}

theorem isSome_value_effect : (unit.effect op d x y z).value.isSome = !op.isCompare := by
  rcases op with ⟨_ | _ | _, op⟩ | ⟨_ | _, op⟩ | _ | _ | _ | _ | _ | _ <;> rfl

theorem isSome_condition_effect : (unit.effect op d x y z).condition.isSome = op.isCompare := by
  rcases op with ⟨_ | _ | _, op⟩ | ⟨_ | _, op⟩ | _ | _ | _ | _ | _ | _ <;> rfl

/-- An instruction for the lower lane keeps the upper one. -/
theorem lane_one_effect {value : BitVec 128} (h : (unit.effect op d x y z).value = some value)
    (hop : op.writesBothLanes = false) : lane value 1 = lane d 1 := by
  cases op with
  | arith form op =>
    cases form with
    | double =>
      cases h
      exact lane_join_one _ _
    | single | paired => cases hop
  | move packed op =>
    cases packed with
    | false =>
      cases h
      exact lane_join_one _ _
    | true => cases hop
  | fsel | fctiwz | frsqrte =>
    cases h
    exact lane_join_one _ _
  | frsp | fres => cases hop
  | fcmp ordered => cases h

end FloatUnit

/-- Words that agree under a mask have the same bits there. -/
theorem getLsbD_of_and_eq {w : Nat} {x y mask : BitVec w} (h : x &&& mask = y &&& mask) {i : Nat}
    (hi : mask.getLsbD i = true) : x.getLsbD i = y.getLsbD i := by
  have hbit := congrArg (BitVec.getLsbD · i) h
  simpa [hi] using hbit

theorem Status.withCompare_outside_compare (status : BitVec 32) (bits : BitVec 4) :
    withCompare status bits &&& ~~~compareMask = status &&& ~~~compareMask := by
  have hfield : ∀ bits : BitVec 4, (bits.setWidth 32 <<< classShift) &&& ~~~compareMask = 0#32 := by
    decide
  rw [withCompare, BitVec.and_or_distrib_right, hfield, BitVec.or_zero, BitVec.and_assoc,
    BitVec.and_self]

/-- A result changes its class, and a compare all of it but the topmost bit. -/
theorem FloatUnit.getLsbD_status_effect {unit : FloatUnit} {op : FloatOp} {d x y z : BitVec 128}
    {f : BitVec 32 → BitVec 32} (h : (unit.effect op d x y z).status = some f) (status : BitVec 32)
    {i : Nat} (hi : ¬(12 ≤ i ∧ i ≤ 16 ∧ (op.isCompare = true → i ≠ 16))) :
    (f status).getLsbD i = status.getLsbD i := by
  by_cases hlt : i < 32
  · have hclass : ∀ i < 32, ¬(12 ≤ i ∧ i ≤ 16) → (~~~Status.classMask).getLsbD i = true := by
      decide
    have hcompare : ∀ i < 32, ¬(12 ≤ i ∧ i ≤ 16 ∧ i ≠ 16) →
        (~~~Status.compareMask).getLsbD i = true := by decide
    cases hop : op.isCompare with
    | true =>
      have hout : ¬(12 ≤ i ∧ i ≤ 16 ∧ i ≠ 16) := fun hin => hi ⟨hin.1, hin.2.1, fun _ => hin.2.2⟩
      -- only the operation itself tells that a compare keeps the topmost bit
      cases op with
      | fcmp ordered =>
        cases h
        exact getLsbD_of_and_eq (Status.withCompare_outside_compare _ _) (hcompare i hlt hout)
      | _ => cases hop
    | false =>
      have hout : ¬(12 ≤ i ∧ i ≤ 16) := fun hin => hi ⟨hin.1, hin.2, by simp [hop]⟩
      rcases State.Agrees.status_effect h with ⟨cls, rfl⟩ | ⟨hcmp, -⟩
      · exact getLsbD_of_and_eq (State.Agrees.withClass_outside _ _) (hclass i hlt hout)
      · rw [hop] at hcmp
        cases hcmp
  · rw [BitVec.getLsbD_of_ge _ _ (by omega), BitVec.getLsbD_of_ge _ _ (by omega)]

namespace State

variable {state : State}

theorem allows_floatWrites (fprf : Bool) (word : Word) (op : FloatOp) :
    ∀ write ∈ state.floatWrites fprf word op,
      (op.effects word fprf).Allows write.cell (state.fetch write.cell) write.value := by
  intro write hmem
  -- the destination, the condition field of a compare, the status word, the record bit
  simp only [floatWrites, effectWrites, List.mem_append] at hmem
  rcases hmem with ((hmem | hmem) | hmem) | hmem
  · obtain ⟨value, hvalue, rfl⟩ := List.mem_map.1 hmem
    rw [Option.mem_toList] at hvalue
    have hop : op.isCompare = false := by
      have hsome := FloatUnit.isSome_value_effect.symm.trans (congrArg Option.isSome hvalue)
      simpa using hsome
    refine ⟨fun h => absurd ⟨hop, rfl⟩ h, fun h => ?_⟩
    apply FloatUnit.lane_one_effect hvalue
    rw [← Bool.not_eq_true]
    exact fun hboth => h ⟨hboth, rfl⟩
  · obtain ⟨bits, hbits, rfl⟩ := List.mem_map.1 hmem
    rw [Option.mem_toList] at hbits
    have hop : op.isCompare = true :=
      FloatUnit.isSome_condition_effect.symm.trans (congrArg Option.isSome hbits)
    exact fun h => absurd (.inl ⟨hop, rfl⟩) h
  · split at hmem
    · next hfprf =>
      obtain ⟨f, hf, rfl⟩ := List.mem_map.1 hmem
      rw [Option.mem_toList] at hf
      have hop : op.writesFprf = true :=
        (Agrees.isSome_status_effect _ op _ _ _ _).symm.trans (congrArg Option.isSome hf)
      intro i hi
      apply FloatUnit.getLsbD_status_effect hf
      exact fun hin => hi ⟨hfprf, hop, hin⟩
    · cases hmem
  · split at hmem
    · next hrecord =>
      rw [List.mem_singleton] at hmem
      subst hmem
      rw [Bool.and_eq_true, Bool.not_eq_true'] at hrecord
      exact fun h => absurd (.inr ⟨hrecord.2, hrecord.1, rfl⟩) h
    · cases hmem

theorem allows_writes (fprf : Bool) {word : Word} {op : Op} (hop : Op.decode word = some op) :
    ∀ write ∈ state.writes fprf word op,
      (op.effects word fprf).Allows write.cell (state.fetch write.cell) write.value := by
  cases op with
  | int op => exact allows_integerWrites hop
  | float op => exact allows_floatWrites fprf word op

/-- A word of a family changes nothing but what its tables announce. -/
theorem On.step_within {layout : Layout} (hon : state.On layout) (hv : layout.Valid)
    (interpreter : Interpreter) {word : Word} {op : Op} (hop : Op.decode word = some op) :
    ∃ after, interpreter.step state word = .ok after ∧
      (op.effects word interpreter.fprf).Within layout state after :=
  ⟨_, hon.step_eq hv interpreter hop,
    (Effects.Within.refl _ hon).putAll hv (allows_writes interpreter.fprf hop)⟩

end State

/-! ## The carry and the summary overflow bit -/

namespace Effects.Within

variable {layout : Layout} {a b : State}

theorem gpr (h : carryOnly.Within layout a b) (reg : GuestReg) : b.gpr reg = a.gpr reg :=
  h.cells (.gpr reg) id

theorem ps (h : carryOnly.Within layout a b) (reg : GuestReg) : b.ps reg = a.ps reg := by
  have hlanes := h.cells (.ps reg)
  calc b.ps reg = join (lane (b.ps reg) 0) (lane (b.ps reg) 1) := (join_lanes _).symm
    _ = join (lane (a.ps reg) 0) (lane (a.ps reg) 1) := congrArg₂ join (hlanes.1 id) (hlanes.2 id)
    _ = a.ps reg := join_lanes _

theorem xerSoOv (h : carryOnly.Within layout a b) : b.xerSoOv = a.xerSoOv :=
  (h.cells .xerSoOv).1 id

theorem fpscr (h : carryOnly.Within layout a b) : b.fpscr = a.fpscr := by
  apply BitVec.eq_of_getLsbD_eq
  intro i _
  exact h.cells .fpscr i id

/-- What does not read the carry bit writes the same whatever it is. -/
theorem writes_eq (h : carryOnly.Within layout a b) (fprf : Bool) (word : Word) {op : Op}
    (hop : op.readsCa = false) : b.writes fprf word op = a.writes fprf word op := by
  cases op with
  | int op =>
    have hresult : ∀ x y z, op.result word x y z b.xerCa = op.result word x y z a.xerCa := by
      apply State.Agrees.result_congr
      intro hread
      rw [show op.readsCa = false from hop] at hread
      cases hread
    cases op with
    | compare signed immediate => simp only [State.writes, State.integerWrites, h.gpr]
    | _ =>
      simp only [State.writes, State.integerWrites, State.resultWrites, State.overflowAfter, h.gpr,
        h.xerSoOv, hresult]
  | float op =>
    simp only [State.writes, State.floatWrites, State.effectWrites, State.floatEffect,
      h.ps, h.fpscr]

/-- States that differ in the carry at most go on to differ in nothing else. -/
theorem step (hv : layout.Valid) (h : carryOnly.Within layout a b) (interpreter : Interpreter)
    {word : Word} {op : Op} (hop : Op.decode word = some op) (hca : op.readsCa = false) :
    ∃ a' b', interpreter.step a word = .ok a' ∧ interpreter.step b word = .ok b' ∧
      carryOnly.Within layout a' b' := by
  refine ⟨_, _, h.left.step_eq hv interpreter hop, h.right.step_eq hv interpreter hop, ?_⟩
  rw [h.writes_eq interpreter.fprf word hca]
  exact h.putAll_both hv _

end Effects.Within

namespace State

variable {layout : Layout} {state after : State}

/-- Summary overflow is set. -/
def SummaryOverflow (state : State) : Prop := state.xerSoOv.getLsbD 1 = true

theorem SummaryOverflow.step (h : state.SummaryOverflow) (hv : layout.Valid)
    (hon : state.On layout) {interpreter : Interpreter} {word : Word}
    (hstep : interpreter.step state word = .ok after) :
    after.On layout ∧ after.SummaryOverflow := by
  cases hop : Op.decode word with
  | some op =>
    obtain ⟨after', hstep', hwithin⟩ := hon.step_within hv interpreter hop
    rw [hstep, Except.ok.injEq] at hstep'
    subst hstep'
    exact ⟨hwithin.right, (hwithin.cells .xerSoOv).2 h⟩
  | none =>
    unfold Interpreter.step at hstep
    rw [hop] at hstep
    have hkeeps : Keeps layout .xerSoOv state after :=
      .stepOther hv hon (by simp) (by simp) (by simp) hstep
    refine ⟨hkeeps.on, ?_⟩
    rw [SummaryOverflow, show after.xerSoOv = state.xerSoOv from hkeeps.fetch]
    exact h

theorem SummaryOverflow.run (h : state.SummaryOverflow) (hv : layout.Valid)
    (hon : state.On layout) {interpreter : Interpreter} {words : List Word}
    (hrun : interpreter.run state words = .ok after) : after.SummaryOverflow := by
  induction words generalizing state with
  | nil =>
    cases hrun
    exact h
  | cons word words ih =>
    rw [Interpreter.run] at hrun
    cases hstep : interpreter.step state word with
    | error fault => simp [hstep] at hrun
    | ok next =>
      obtain ⟨hon', h'⟩ := h.step hv hon hstep
      simp only [hstep] at hrun
      exact ih h' hon' hrun

end State

/-- On a valid layout a word of a family executes, and changes nothing but what its tables announce.
Unless it reads the carry bit, states that differ in the carry at most still do so afterwards. No
run clears summary overflow. -/
theorem Interpreter.step_changes_only_announced {layout : Layout} (hv : layout.Valid)
    (interpreter : Interpreter) :
    (∀ state word op, State.On layout state → Op.decode word = some op →
      ∃ after, interpreter.step state word = .ok after ∧
        (op.effects word interpreter.fprf).Within layout state after) ∧
    (∀ a b word op, Effects.carryOnly.Within layout a b → Op.decode word = some op →
      op.readsCa = false →
      ∃ a' b', interpreter.step a word = .ok a' ∧ interpreter.step b word = .ok b' ∧
        Effects.carryOnly.Within layout a' b') ∧
    (∀ state words after, State.On layout state → interpreter.run state words = .ok after →
      state.SummaryOverflow → after.SummaryOverflow) := by
  refine ⟨?_, ?_, ?_⟩
  · intro state word op hon hop
    exact hon.step_within hv interpreter hop
  · intro a b word op h hop hca
    exact h.step hv interpreter hop hca
  · intro state words after hon hrun h
    exact h.run hv hon hrun

/-- `addco.` writes a register, the carry, the overflow bits and condition field 0, and does not
read the carry. It adds zeros here, which is no overflow, and leaves summary overflow as it is. -/
theorem Interpreter.step_addco_record :
    (∃ after, Interpreter.step ⟨true⟩ (.zeroed .standard) 0x7C642C15 = .ok after ∧
      (Op.effects 0x7C642C15 true (.int .addc)).Within .standard (.zeroed .standard) after) ∧
    (∃ a' b', Interpreter.step ⟨true⟩ (.zeroed .standard) 0x7C642C15 = .ok a' ∧
      Interpreter.step ⟨true⟩ ((State.zeroed .standard).setXerCa true) 0x7C642C15 = .ok b' ∧
      Effects.carryOnly.Within .standard a' b') ∧
    ∃ after, Interpreter.run ⟨true⟩ ((State.zeroed .standard).setXerSoOv 2) [0x7C642C15] =
      .ok after ∧ after.SummaryOverflow := by
  have hv := Layout.valid_standard
  have hon := State.On.zeroed hv
  obtain ⟨hwithin, hcarry, hrun⟩ := step_changes_only_announced hv ⟨true⟩
  have hflip : ∀ state : State, state.On .standard →
      Effects.carryOnly.Within .standard state (state.setXerCa true) :=
    fun state h => (Effects.Within.refl _ h).put hv .xerCa fun hca => absurd trivial hca
  have hset : ∀ state : State, state.On .standard →
      (state.setXerSoOv 2).On .standard ∧ (state.setXerSoOv 2).SummaryOverflow := by
    intro state h
    have hbits : (state.setXerSoOv 2).xerSoOv = 2 &&& 3 := h.fetch_put_self hv .xerSoOv (2 &&& 3)
    refine ⟨h.put hv .xerSoOv (2 &&& 3), ?_⟩
    rw [State.SummaryOverflow, hbits]
    decide
  obtain ⟨hon', hso⟩ := hset _ hon
  obtain ⟨after, hstep, -⟩ := hwithin _ 0x7C642C15 (.int .addc) hon' (by decide)
  have hafter : Interpreter.run ⟨true⟩ ((State.zeroed .standard).setXerSoOv 2) [0x7C642C15] =
      .ok after := by
    simp only [run, hstep]
  exact ⟨hwithin _ _ _ hon (by decide), hcarry _ _ _ (.int .addc) (hflip _ hon) (by decide) rfl,
    after, hafter, hrun _ _ _ hon' hafter hso⟩

end Recompiler.PowerPC
