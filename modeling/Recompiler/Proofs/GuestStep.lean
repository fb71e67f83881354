import Recompiler.Arm.Element
import Recompiler.PowerPC.Interpreter
import Recompiler.Proofs.StateCells

/-!
# Guest instructions and the unit that computes them

Compiled code and the interpreter agree on what a floating-point instruction writes and differ in
who computes it. A `FloatUnit` is what they may differ in; `Word.step` executes a word with a given
unit. The interpreter is the unit `FloatUnit.guest`.
-/

namespace Recompiler.PowerPC

open Arm Ieee

/-- What floating-point instructions leave to the hardware. -/
structure FloatUnit where
  arith : FpArith → (single : Bool) → Double → Double → Double → Double
  condition : Double → Double → BitVec 4
  nonnegative : Double → Bool
  truncate : Double → BitVec 32

def FloatUnit.guest : FloatUnit :=
  ⟨FpArith.apply, floatCondition, isNonnegative, truncateToWord⟩

/-- What a floating-point instruction writes: the destination, the status word as a function of the
old one, and a condition field. -/
structure FloatEffect where
  value : Option (BitVec 128) := none
  status : Option (BitVec 32 → BitVec 32) := none
  condition : Option (BitVec 4) := none

/-- A result whose class is noted. -/
def FloatEffect.classed (value : BitVec 128) (single : Bool) : FloatEffect where
  value := some value
  status := some fun status => Status.withClass status (Double.classifyAs (lane value 0) single)

namespace FloatUnit

/-- The effect of an instruction on the values of its registers, the destination first. -/
def effect (unit : FloatUnit) (op : FloatOp) (d a b c : BitVec 128) : FloatEffect :=
  match op with
  | .arith .double op =>
    .classed (join (unit.arith op false (lane a 0) (lane b 0) (lane c 0)) (lane d 1)) false
  | .arith .single op =>
    let result := Double.roundToSingle (unit.arith op true (lane a 0) (lane b 0) (lane c 0))
    .classed (join result result) true
  | .arith .paired op =>
    let result (i : Nat) :=
      Double.roundToSingle (unit.arith op true (lane a i) (lane b i) (lane c i))
    .classed (join (result 0) (result 1)) true
  | .move true op => { value := some (join (op.apply (lane b 0)) (op.apply (lane b 1))) }
  | .move false op => { value := some (join (op.apply (lane b 0)) (lane d 1)) }
  | .fsel =>
    { value := some (join (if unit.nonnegative (lane a 0) then lane c 0 else lane b 0) (lane d 1)) }
  | .frsp =>
    let result := Double.roundToSingle (lane b 0)
    .classed (join result result) true
  | .fctiwz => { value := some (join (wordInDouble (unit.truncate (lane b 0))) (lane d 1)) }
  | .fres =>
    let result := Double.reciprocal (lane b 0)
    .classed (join result result) true
  | .frsqrte => .classed (join (Double.reciprocalSqrt (lane b 0)) (lane d 1)) false
  | .fcmp _ =>
    let bits := unit.condition (lane a 0) (lane b 0)
    { status := some fun status => Status.withCompare status bits, condition := some bits }

end FloatUnit

/-! ## Overflow -/

namespace IntOp

/-- The high halves of products share their extended opcodes with nothing that enables overflow. -/
theorem eq_low_of_decode {word : Word} {half : MulOp}
    (hop : Op.decode word = some (.int (.mul half))) (hoe : word.oe = true) : half = .low := by
  unfold Op.decode at hop
  split at hop
  case h_2 =>
    simp only [Option.map_eq_some_iff, Op.int.injEq, exists_eq_right] at hop
    rcases Option.or_eq_some_iff.mp hop with h10 | ⟨-, h9⟩
    · unfold ofSubop10? at h10
      split at h10 <;> cases h10
    · rw [hoe] at h9
      unfold ofSubop9? at h9
      split at h9 <;> cases h9
      rfl
  case h_5 =>
    simp only [Option.map_eq_some_iff, Op.int.injEq, exists_eq_right] at hop
    unfold ofOpcode? at hop
    split at hop <;> cases hop
  all_goals simp at hop

/-- A word that enables overflow, and whose operation computes one, is of a form that has the bit.
The operation alone does not tell: the high half of a product computes that there is none. -/
theorem hasOe_of_overflow {word : Word} {op : IntOp} (hop : Op.decode word = some (.int op))
    (hoe : word.oe = true) {x y z : BitVec 32} {ca : Bool}
    (h : (op.result word x y z ca).overflow.isSome = true) : op.hasOe = true := by
  cases op with
  | mul half => rw [eq_low_of_decode hop hoe, hasOe]
  | add | addc | addExtended inverted second | subf | subfc | neg | divw | divwu => rfl
  | _ => cases h

end IntOp

namespace State

def putValue (state : State) (reg : GuestReg) : Option (BitVec 128) → State
  | some value => state.put (.ps reg) value
  | none => state

def putCondition (state : State) (field : CrField) : Option (BitVec 4) → State
  | some bits => state.setCrField field bits
  | none => state

/-- The status word is written only when classes are kept. -/
def putStatus (state : State) (fprf : Bool) : Option (BitVec 32 → BitVec 32) → State
  | some f => if fprf then state.setFpscr (f state.fpscr) else state
  | none => state

def writeEffect (state : State) (fprf : Bool) (word : Word) (effect : FloatEffect) : State :=
  ((state.putValue word.rd effect.value).putCondition word.crfd effect.condition).putStatus fprf
    effect.status

/-- Execute a floating-point instruction with a given unit, its record bit apart. -/
def floatWith (state : State) (unit : FloatUnit) (fprf : Bool) (word : Word) (op : FloatOp) :
    State :=
  state.writeEffect fprf word
    (unit.effect op (state.ps word.rd) (state.ps word.ra) (state.ps word.rb) (state.ps word.frc))

theorem stepFloat_eq (state : State) (fprf : Bool) (word : Word) (op : FloatOp) :
    state.stepFloat fprf word op = state.floatWith .guest fprf word op := by
  have hjoin : ∀ low high : BitVec 64, lane (join low high) 0 = low := lane_join_zero
  rcases op with ⟨_ | _ | _, op⟩ | ⟨_ | _, op⟩ | _ | _ | _ | _ | _ | _ <;>
    simp only [stepFloat, floatWith, FloatUnit.effect, FloatEffect.classed, writeEffect, putValue,
      putCondition, putStatus, hjoin, noteClass] <;>
    rfl

theorem stepInteger_of_target (state : State) {word : Word} {op : IntOp} {reg : GuestReg}
    (h : op.target word = some reg) : state.stepInteger word op = state.writeResult reg
      (op.result word (state.gpr word.ra) (state.gpr word.rb) (state.gpr word.rd) state.xerCa)
      word.oe (op.records word.rc) := by
  unfold stepInteger
  split
  · simp [IntOp.target] at h
  · simp only [h]

/-- Without overflow bits. -/
theorem writeResult_false (state : State) (reg : GuestReg) (result : IntResult) (record : Bool) :
    state.writeResult reg result false record =
      if record then
        ((state.setGpr reg result.value).writeCarry result.carry).setCrField 0
          (Condition.ofSign result.value)
      else (state.setGpr reg result.value).writeCarry result.carry := by
  unfold writeResult
  cases result.overflow <;> rfl

/-- Where nothing is computed for the overflow bits, enabling them does not matter. -/
theorem writeResult_of_overflow (state : State) (reg : GuestReg) {result : IntResult} {oe : Bool}
    (h : oe = true → result.overflow = none) (record : Bool) :
    state.writeResult reg result oe record = state.writeResult reg result false record := by
  cases oe with
  | false => rfl
  | true =>
    unfold writeResult
    rw [h rfl]

/-- A word whose tables announce no overflow writes no overflow bits. -/
theorem stepInteger_of_not_oe (state : State) {word : Word} {op : IntOp} {reg : GuestReg}
    (hop : Op.decode word = some (.int op)) (hoe : (op.hasOe && word.oe) = false)
    (h : op.target word = some reg) : state.stepInteger word op = state.writeResult reg
      (op.result word (state.gpr word.ra) (state.gpr word.rb) (state.gpr word.rd) state.xerCa)
      false (op.records word.rc) := by
  rw [stepInteger_of_target state h]
  apply writeResult_of_overflow
  intro henabled
  rw [← Option.not_isSome_iff_eq_none]
  intro hsome
  rw [IntOp.hasOe_of_overflow hop henabled hsome, henabled] at hoe
  cases hoe

end State

namespace Word

/-- Execute a word of a family with a given unit. -/
def stepOp (word : Word) (unit : FloatUnit) (fprf : Bool) (state : State) : Op → State
  | .int op => state.stepInteger word op
  | .float op =>
    let state := state.floatWith unit fprf word op
    if word.rc && !op.isCompare then state.recordFloat else state

/-- Execute a word with a given unit. -/
def step (word : Word) (unit : FloatUnit) (fprf : Bool) (state : State) : Except Fault State :=
  match Op.decode word with
  | some op => .ok (word.stepOp unit fprf state op)
  | none => Interpreter.stepOther state word

/-- Execute words in order, each with the unit that it is given. -/
def run (units : Word → FloatUnit) (fprf : Bool) (state : State) : List Word → Except Fault State
  | [] => .ok state
  | word :: words =>
    match word.step (units word) fprf state with
    | .ok state => run units fprf state words
    | .error fault => .error fault

end Word

theorem Word.run_append {units : Word → FloatUnit} {fprf : Bool} {state after : State}
    {left right : List Word} (h : Word.run units fprf state (left ++ right) = .ok after) :
    ∃ mid, Word.run units fprf state left = .ok mid ∧
      Word.run units fprf mid right = .ok after := by
  induction left generalizing state with
  | nil => exact ⟨state, rfl, h⟩
  | cons word left ih =>
    rw [List.cons_append, run] at h
    rw [run]
    cases hstep : word.step (units word) fprf state with
    | error fault => simp [hstep] at h
    | ok next =>
      rw [hstep] at h
      exact ih h

namespace Interpreter

theorem step_eq (interpreter : Interpreter) (state : State) (word : Word) :
    interpreter.step state word = word.step .guest interpreter.fprf state := by
  unfold step Word.step
  cases Op.decode word with
  | none => rfl
  | some op =>
    cases op with
    | int op => rfl
    | float op => simp only [stepOp, Word.stepOp, State.stepFloat_eq]

theorem run_eq (interpreter : Interpreter) (state : State) (words : List Word) :
    interpreter.run state words = Word.run (fun _ => .guest) interpreter.fprf state words := by
  induction words generalizing state with
  | nil => rfl
  | cons word words ih =>
    rw [run, Word.run, interpreter.step_eq]
    cases word.step .guest interpreter.fprf state with
    | ok after => exact ih after
    | error fault => rfl

end Interpreter

/-- The instructions that write the carry bit are those that have a carry. -/
theorem IntOp.isSome_carry_result (op : IntOp) (word : Word) (x y z : BitVec 32) (ca : Bool) :
    (op.result word x y z ca).carry.isSome = op.writesCa := by
  cases op <;> rfl

/-! ## What a word leaves alone -/

/-- A state on a layout that has what another has in a cell. -/
structure State.Keeps (layout : Layout) (cell : Cell) (a b : State) : Prop where
  on : b.On layout
  fetch : b.fetch cell = a.fetch cell

/-- A block of zeros. -/
def State.zeros (layout : Layout) : State := ⟨layout, Memory.zeros layout.size.toNat⟩

theorem State.On.zeros (layout : Layout) : (State.zeros layout).On layout :=
  ⟨rfl, by simp [State.zeros, Memory.size, Memory.zeros]⟩

namespace State.Keeps

variable {layout : Layout} {cell : Cell} {a b : State}

theorem refl (h : a.On layout) (cell : Cell) : Keeps layout cell a a := ⟨h, rfl⟩

theorem put (hv : layout.Valid) (h : Keeps layout cell a b) {other : Cell} (hne : cell ≠ other)
    (value : BitVec other.width) : Keeps layout cell a (b.put other value) :=
  ⟨h.on.put hv other value, (h.on.fetch_put_of_ne hv other value hne).trans h.fetch⟩

theorem writeCarry (hv : layout.Valid) (h : Keeps layout cell a b) (carry : Option Bool)
    (hcell : carry.isSome = true → cell ≠ .xerCa) : Keeps layout cell a (b.writeCarry carry) := by
  cases carry with
  | none => exact h
  | some carry => exact h.put hv (hcell rfl) _

theorem writeResult (hv : layout.Valid) (h : a.On layout) (reg : GuestReg) (result : IntResult)
    (oe record : Bool) (hgpr : ∀ reg, cell ≠ .gpr reg) (hcr : ∀ field, cell ≠ .cr field)
    (hsoOv : cell ≠ .xerSoOv) (hca : result.carry.isSome = true → cell ≠ .xerCa) :
    Keeps layout cell a (a.writeResult reg result oe record) := by
  have hwritten : ∀ b, Keeps layout cell a b → Keeps layout cell a
      (if record then
        ((b.setGpr reg result.value).writeCarry result.carry).setCrField 0
          (Condition.ofSign result.value)
      else (b.setGpr reg result.value).writeCarry result.carry) := by
    intro b hb
    have hcarry := (hb.put hv (hgpr reg) result.value).writeCarry hv result.carry hca
    cases record with
    | false => exact hcarry
    | true => exact hcarry.put hv (hcr 0) _
  unfold State.writeResult
  cases result.overflow with
  | none => exact hwritten a (.refl h cell)
  | some overflow =>
    cases oe with
    | false => exact hwritten a (.refl h cell)
    | true => exact hwritten _ ((refl h cell).put hv hsoOv _)

/-- An integer instruction writes general registers, condition fields, the overflow bits and, some
of them, the carry bit. -/
theorem stepInteger (hv : layout.Valid) (h : a.On layout) (word : Word) (op : IntOp)
    (hgpr : ∀ reg, cell ≠ .gpr reg) (hcr : ∀ field, cell ≠ .cr field) (hsoOv : cell ≠ .xerSoOv)
    (hca : op.writesCa = true → cell ≠ .xerCa) : Keeps layout cell a (a.stepInteger word op) := by
  unfold State.stepInteger
  dsimp only
  split
  · exact (refl h cell).put hv (hcr _) _
  · split
    · refine writeResult hv h _ _ _ _ hgpr hcr hsoOv fun hsome => hca ?_
      rwa [IntOp.isSome_carry_result] at hsome
    · exact refl h cell

/-- Conditions and status apart, the effect of an instruction is its value. -/
theorem putConditionStatus (hv : layout.Valid) (h : Keeps layout cell a b)
    (hcr : ∀ field, cell ≠ .cr field) (hfpscr : cell ≠ .fpscr) (fprf : Bool) (field : CrField)
    (condition : Option (BitVec 4)) (status : Option (BitVec 32 → BitVec 32)) :
    Keeps layout cell a ((b.putCondition field condition).putStatus fprf status) := by
  have hcond : Keeps layout cell a (b.putCondition field condition) := by
    cases condition with
    | none => exact h
    | some bits => exact h.put hv (hcr field) _
  cases status with
  | none => exact hcond
  | some f =>
    cases fprf with
    | false => exact hcond
    | true => exact hcond.put hv hfpscr _

theorem putValue (hv : layout.Valid) (h : a.On layout) {reg : GuestReg} (hps : cell ≠ .ps reg)
    (value : Option (BitVec 128)) : Keeps layout cell a (a.putValue reg value) := by
  cases value with
  | none => exact .refl h cell
  | some value => exact (refl h cell).put hv hps value

theorem record (hv : layout.Valid) (h : Keeps layout cell a b) (hcr : ∀ field, cell ≠ .cr field)
    (record : Bool) : Keeps layout cell a (if record then b.recordFloat else b) := by
  cases record with
  | false => exact h
  | true => exact h.put hv (hcr 1) _

/-- A floating-point instruction writes its destination, condition fields and the status word. -/
theorem stepFloat (hv : layout.Valid) (h : a.On layout) (unit : FloatUnit)
    (fprf : Bool) (word : Word) (op : FloatOp) (hps : cell ≠ .ps word.rd)
    (hcr : ∀ field, cell ≠ .cr field) (hfpscr : cell ≠ .fpscr) :
    Keeps layout cell a (word.stepOp unit fprf a (.float op)) :=
  ((putValue hv h hps _).putConditionStatus hv hcr hfpscr fprf _ _ _).record hv hcr _

/-- A word outside every family writes a register and a condition field. -/
theorem stepOther (hv : layout.Valid) (h : a.On layout) {word : Word}
    (hgpr : ∀ reg, cell ≠ .gpr reg) (hps : ∀ reg, cell ≠ .ps reg) (hcr : ∀ field, cell ≠ .cr field)
    (hstep : Interpreter.stepOther a word = .ok b) : Keeps layout cell a b := by
  unfold Interpreter.stepOther at hstep
  split at hstep
  · cases hstep
    exact (refl h cell).put hv (hgpr word.rd) _
  · split at hstep
    · cases hstep
      exact ((refl h cell).put hv (hps word.rd) _).record hv hcr _
    · simp at hstep

/-- A new state is made of zeros and of condition fields. -/
theorem zeroed (hv : layout.Valid) (hcr : ∀ field, cell ≠ .cr field) :
    Keeps layout cell (State.zeros layout) (State.zeroed layout) := by
  have hput : ∀ (fields : List Nat) (b : State), (∀ n ∈ fields, n < 8) →
      Keeps layout cell (State.zeros layout) b →
      Keeps layout cell (State.zeros layout)
        (fields.foldl (fun state field => state.setCrField field 0) b) := by
    intro fields
    induction fields with
    | nil => exact fun _ _ h => h
    | cons n fields ih =>
      intro b hlt h
      have hn : n < 8 := hlt n List.mem_cons_self
      exact ih _ (fun k hk => hlt k (List.mem_cons_of_mem _ hk)) (h.put hv (hcr ⟨n, hn⟩) _)
  exact hput _ _ (fun n hn => List.mem_range.1 hn) (refl (On.zeros layout) cell)

end State.Keeps

theorem State.On.zeroed {layout : Layout} (hv : layout.Valid) :
    (State.zeroed layout).On layout := by
  have h : Keeps layout .fpscr _ (State.zeroed layout) := .zeroed hv (by simp)
  exact h.on

namespace State.On

variable {layout : Layout} {state : State}

/-- What a floating-point instruction leaves in its destination. -/
theorem ps_stepFloat (hv : layout.Valid) (h : state.On layout) (unit : FloatUnit) (fprf : Bool)
    (word : Word) (op : FloatOp) : (word.stepOp unit fprf state (.float op)).ps word.rd =
      (unit.effect op (state.ps word.rd) (state.ps word.ra) (state.ps word.rb)
        (state.ps word.frc)).value.getD (state.ps word.rd) := by
  have hput : ∀ value : Option (BitVec 128), (state.putValue word.rd value).On layout ∧
      (state.putValue word.rd value).ps word.rd = value.getD (state.ps word.rd) := by
    intro value
    cases value with
    | none => exact ⟨h, rfl⟩
    | some value => exact ⟨h.put hv (.ps word.rd) value, h.fetch_put_self hv (.ps word.rd) value⟩
  obtain ⟨hon, hvalue⟩ := hput (unit.effect op (state.ps word.rd) (state.ps word.ra)
    (state.ps word.rb) (state.ps word.frc)).value
  exact (((Keeps.refl hon (.ps word.rd)).putConditionStatus hv (by simp) (by simp)
    fprf _ _ _).record hv (by simp) _).fetch.trans hvalue

theorem ps_stepFloat_of_ne (hv : layout.Valid) (h : state.On layout)
    (unit : FloatUnit) (fprf : Bool) (word : Word) (op : FloatOp) {reg : GuestReg}
    (hne : reg ≠ word.rd) :
    (word.stepOp unit fprf state (.float op)).ps reg = state.ps reg := by
  have hkeeps : Keeps layout (.ps reg) state (word.stepOp unit fprf state (.float op)) :=
    .stepFloat hv h unit fprf word op (by simpa using hne) (by simp) (by simp)
  exact hkeeps.fetch

theorem ps_stepInteger (hv : layout.Valid) (h : state.On layout) (word : Word) (op : IntOp)
    (reg : GuestReg) : (state.stepInteger word op).ps reg = state.ps reg := by
  have hkeeps : Keeps layout (.ps reg) state (state.stepInteger word op) :=
    .stepInteger hv h word op (by simp) (by simp) (by simp) (by simp)
  exact hkeeps.fetch

end State.On

/-! ## The carry byte -/

/-- The carry byte is zero or one. -/
def State.CarryIsBit (state : State) : Prop :=
  state.fetch .xerCa = 0#8 ∨ state.fetch .xerCa = 1#8

namespace State.CarryIsBit

variable {layout : Layout} {a b : State}

theorem of_keeps (h : a.CarryIsBit) (hkeeps : Keeps layout .xerCa a b) : b.CarryIsBit := by
  unfold CarryIsBit at h ⊢
  rw [hkeeps.fetch]
  exact h

theorem zeroed (hv : layout.Valid) : (State.zeroed layout).CarryIsBit := by
  have hzero : (State.zeros layout).fetch .xerCa = 0#8 := by
    rw [(On.zeros layout).fetch_eq hv]
    have hbyte : ∀ size offset : Nat, (Memory.zeros size).byte offset = 0#8 := by
      intro size offset
      simp only [Memory.byte, Memory.zeros, Array.getD_eq_getD_getElem?, Array.getElem?_replicate]
      split <;> rfl
    simp [State.zeros, Memory.load, hbyte, Cell.bytes]
  have h : Keeps layout .xerCa _ (State.zeroed layout) := .zeroed hv (by simp)
  exact .inl (h.fetch.trans hzero)

theorem writeResult (hv : layout.Valid) (hon : a.On layout) (reg : GuestReg) {result : IntResult}
    (hcarry : result.carry.isSome = true) (oe record : Bool) :
    (a.writeResult reg result oe record).CarryIsBit := by
  obtain ⟨carry, hsome⟩ := Option.isSome_iff_exists.1 hcarry
  have hwritten : ∀ b : State, b.On layout →
      (if record then
        ((b.setGpr reg result.value).writeCarry result.carry).setCrField 0
          (Condition.ofSign result.value)
      else (b.setGpr reg result.value).writeCarry result.carry).CarryIsBit := by
    intro b hb
    have hgpr : (b.setGpr reg result.value).On layout := hb.put hv (.gpr reg) _
    have hset : ((b.setGpr reg result.value).setXerCa carry).CarryIsBit := by
      have hbyte := hgpr.fetch_put_self hv .xerCa ((BitVec.ofBool carry).setWidth 8)
      cases carry with
      | false => exact .inl hbyte
      | true => exact .inr hbyte
    rw [hsome]
    cases record with
    | false => exact hset
    | true =>
      have hon' : ((b.setGpr reg result.value).setXerCa carry).On layout := hgpr.put hv .xerCa _
      have hne : Cell.xerCa ≠ .cr 0 := by simp
      exact hset.of_keeps ((Keeps.refl hon' .xerCa).put hv hne _)
  unfold State.writeResult
  cases result.overflow with
  | none => exact hwritten a hon
  | some overflow =>
    cases oe with
    | false => exact hwritten a hon
    | true => exact hwritten _ (hon.put hv .xerSoOv _)

theorem stepInteger (hv : layout.Valid) (hon : a.On layout) (word : Word) {op : IntOp}
    (hw : op.writesCa = true) : (a.stepInteger word op).CarryIsBit := by
  have htarget : ∃ reg, op.target word = some reg := by
    cases op <;> simp [IntOp.target, IntOp.writesCa] at hw ⊢
  obtain ⟨reg, hreg⟩ := htarget
  rw [stepInteger_of_target a hreg]
  exact writeResult hv hon reg (by rw [IntOp.isSome_carry_result, hw]) _ _

/-- A word that writes the carry writes a bit; the others keep the byte. -/
theorem step (hv : layout.Valid) (hon : a.On layout) {word : Word} {unit : FloatUnit} {fprf : Bool}
    (hstep : word.step unit fprf a = .ok b)
    (h : a.CarryIsBit ∨ ∃ op, Op.decode word = some op ∧ op.writesCa = true) : b.CarryIsBit := by
  unfold Word.step at hstep
  cases hop : Op.decode word with
  | none =>
    rw [hop] at hstep
    have hbit : a.CarryIsBit := h.resolve_right (by simp [hop])
    exact hbit.of_keeps (Keeps.stepOther hv hon (by simp) (by simp) (by simp) hstep)
  | some op =>
    rw [hop] at hstep
    cases hstep
    cases hw : op.writesCa with
    | false =>
      have hbit : a.CarryIsBit := h.resolve_right (by simp [hop, hw])
      cases op with
      | int op =>
        have hca : op.writesCa = true → Cell.xerCa ≠ .xerCa := by simpa [Op.writesCa] using hw
        exact hbit.of_keeps (Keeps.stepInteger hv hon word op (by simp) (by simp) (by simp) hca)
      | float op =>
        exact hbit.of_keeps (Keeps.stepFloat hv hon unit fprf word op (by simp) (by simp) (by simp))
    | true =>
      cases op with
      | int op => exact stepInteger hv hon word hw
      | float op => simp [Op.writesCa] at hw

end State.CarryIsBit

end Recompiler.PowerPC
