import Mathlib.Order.CompletePartialOrder
import Mathlib.Order.Interval.Set.Disjoint
import Recompiler.Proofs.ConditionForm

/-!
# Independence of the guest registers

The check of a layout is exact: it accepts a layout if and only if every field lies inside the
block, starts at a multiple of the size of its elements, and shares no byte with another field. On a
layout that passes, a register that is assigned is read back, and nothing else that can be read of
the state changes.
-/

namespace Recompiler.PowerPC

/-! ## What the check says -/

/-- The alignment that is asked for is the size of an element. -/
theorem Cell.alignment_field (cell : Cell) : cell.field.alignment = cell.bytes := by
  cases cell <;> rfl

namespace Layout

/-- The bytes of a field. -/
def range (layout : Layout) (field : StateField) : Set Nat :=
  Set.Ico (layout.first field) (layout.last field)

/-- A layout that gives every field bytes of its own. -/
structure WellFormed (layout : Layout) : Prop where
  noWrap : ∀ field, layout.last field < 2 ^ 32
  inside : ∀ field, layout.last field ≤ layout.size.toNat
  aligned : ∀ cell : Cell, cell.bytes ∣ layout.first cell.field
  apart : ∀ left right, left ≠ right → Disjoint (layout.range left) (layout.range right)

variable {layout : Layout}

theorem fieldFault?_eq_none_iff (field : StateField) : layout.fieldFault? field = none ↔
    layout.last field < 2 ^ 32 ∧ layout.last field ≤ layout.size.toNat ∧
      field.alignment ∣ layout.first field := by
  rw [Nat.dvd_iff_mod_eq_zero]
  unfold fieldFault?
  split
  · exact iff_of_false nofun (by omega)
  · split
    · exact iff_of_false nofun (by omega)
    · split
      · next hmod => exact iff_of_false nofun fun h => hmod h.2.2
      · exact iff_of_true rfl (by omega)

theorem first_lt_last (field : StateField) : layout.first field < layout.last field := by
  have hpos : 0 < field.length := by cases field <;> decide
  unfold last
  omega

/-- Fields have at least one byte, so being disjoint is being one after the other. -/
theorem disjoint_range_iff (left right : StateField) :
    Disjoint (layout.range left) (layout.range right) ↔
      layout.last left ≤ layout.first right ∨ layout.last right ≤ layout.first left := by
  have hleft : layout.first left < layout.last left := first_lt_last left
  have hright : layout.first right < layout.last right := first_lt_last right
  rw [range, range, Set.Ico_disjoint_Ico]
  omega

theorem overlapFault?_eq_none {fields : StateField × StateField}
    (h : Disjoint (layout.range fields.1) (layout.range fields.2)) :
    layout.overlapFault? fields = none := by
  rw [disjoint_range_iff] at h
  apply if_neg
  rw [overlap, Bool.and_eq_true, decide_eq_true_iff, decide_eq_true_iff]
  omega

theorem Valid.wellFormed (h : layout.Valid) : layout.WellFormed where
  noWrap := h.last_lt
  inside := h.last_le
  aligned cell := by
    rw [← cell.alignment_field]
    exact ((fieldFault?_eq_none_iff _).1 (h.fieldFault?_eq_none cell.field)).2.2
  apart left right hne := (disjoint_range_iff left right).2 (h.apart hne)

theorem WellFormed.valid (h : layout.WellFormed) : layout.Valid := by
  have hcell : ∀ field : StateField, ∃ cell : Cell, cell.field = field := by
    intro field
    cases field with
    | gpr => exact ⟨.gpr 0, rfl⟩
    | ps => exact ⟨.ps 0, rfl⟩
    | cr => exact ⟨.cr 0, rfl⟩
    | xerCa => exact ⟨.xerCa, rfl⟩
    | xerSoOv => exact ⟨.xerSoOv, rfl⟩
    | fpscr => exact ⟨.fpscr, rfl⟩
  have hpairs : ∀ fields ∈ laterPairs StateField.all, fields.1 ≠ fields.2 := by decide
  unfold Valid fault?
  rw [Option.or_eq_none_iff, List.findSome?_eq_none_iff, List.findSome?_eq_none_iff]
  constructor
  · intro field _
    obtain ⟨cell, rfl⟩ := hcell field
    refine (fieldFault?_eq_none_iff _).2 ⟨h.noWrap _, h.inside _, ?_⟩
    rw [cell.alignment_field]
    exact h.aligned cell
  · intro fields hmem
    exact overlapFault?_eq_none (h.apart _ _ (hpairs fields hmem))

theorem validate_eq_ok_iff : layout.validate = .ok () ↔ layout.Valid := by
  unfold validate Valid
  cases layout.fault? with
  | none => exact iff_of_true rfl rfl
  | some fault => exact iff_of_false nofun nofun

end Layout

/-! ## Assignments -/

/-- A setter with its operands. -/
inductive Assignment where
  | gpr (reg : GuestReg) (value : BitVec 32)
  | ps (reg : GuestReg) (low high : BitVec 64)
  | ps0 (reg : GuestReg) (value : BitVec 64)
  | cr (field : CrField) (value : BitVec 64)
  /-- Only the low four bits count. -/
  | crField (field : CrField) (bits : BitVec 8)
  | xerCa (ca : Bool)
  | xerSoOv (bits : BitVec 8)
  | fpscr (value : BitVec 32)

/-- A getter. -/
inductive View where
  | gpr (reg : GuestReg)
  | ps0 (reg : GuestReg)
  | ps1 (reg : GuestReg)
  | cr (field : CrField)
  | crField (field : CrField)
  | xerCa
  | xerSoOv
  | fpscr

namespace View

/-- What a getter returns. -/
@[reducible] def Value : View → Type
  | .gpr _ | .fpscr => BitVec 32
  | .ps0 _ | .ps1 _ | .cr _ => BitVec 64
  | .crField _ => BitVec 4
  | .xerCa => Bool
  | .xerSoOv => BitVec 8

/-- The cell that a getter reads. -/
def cell : View → Cell
  | .gpr reg => .gpr reg
  | .ps0 reg | .ps1 reg => .ps reg
  | .cr field | .crField field => .cr field
  | .xerCa => .xerCa
  | .xerSoOv => .xerSoOv
  | .fpscr => .fpscr

/-- What a getter makes of the contents of its cell. -/
def ofContents : (view : View) → BitVec view.cell.width → view.Value
  | .gpr _, bits => bits
  | .ps0 _, bits => Arm.lane bits 0
  | .ps1 _, bits => Arm.lane bits 1
  | .cr _, bits => bits
  | .crField _, bits => Condition.decode bits
  | .xerCa, bits => bits != 0
  | .xerSoOv, bits => bits
  | .fpscr, bits => bits

end View

namespace Assignment

/-- The cell that a setter writes. -/
def cell : Assignment → Cell
  | .gpr reg _ => .gpr reg
  | .ps reg _ _ | .ps0 reg _ => .ps reg
  | .cr field _ | .crField field _ => .cr field
  | .xerCa _ => .xerCa
  | .xerSoOv _ => .xerSoOv
  | .fpscr _ => .fpscr

/-- What a setter makes of the contents of its cell. Only the one for a single lane looks at
them. -/
def contents : (a : Assignment) → BitVec a.cell.width → BitVec a.cell.width
  | .gpr _ value, _ => value
  | .ps _ low high, _ => Arm.join low high
  | .ps0 _ value, old => Arm.join value (Arm.lane old 1)
  | .cr _ value, _ => value
  | .crField _ bits, _ => Condition.encode (bits.setWidth 4)
  | .xerCa ca, _ => (BitVec.ofBool ca).setWidth 8
  | .xerSoOv bits, _ => (bits &&& 3 : BitVec 8)
  | .fpscr value, _ => value

/-- What a getter is to return after an assignment, if the assignment is about it. -/
def given? : Assignment → (view : View) → Option view.Value
  | .gpr reg value, .gpr reg' => if reg' = reg then some value else none
  | .ps reg low _, .ps0 reg' => if reg' = reg then some low else none
  | .ps reg _ high, .ps1 reg' => if reg' = reg then some high else none
  | .ps0 reg value, .ps0 reg' => if reg' = reg then some value else none
  | .cr field value, .cr field' => if field' = field then some value else none
  | .cr field value, .crField field' =>
    if field' = field then some (Condition.decode value) else none
  | .crField field bits, .cr field' =>
    if field' = field then some (Condition.encode (bits.setWidth 4)) else none
  | .crField field bits, .crField field' =>
    if field' = field then some (bits.setWidth 4) else none
  | .xerCa ca, .xerCa => some ca
  | .xerSoOv bits, .xerSoOv => some (bits &&& 3)
  | .fpscr value, .fpscr => some value
  | _, _ => none

/-- An assignment is about getters of its own cell only. -/
theorem given?_eq_none {a : Assignment} {view : View} (h : view.cell ≠ a.cell) :
    a.given? view = none := by
  cases a <;> cases view <;> simp_all [given?, cell, View.cell]

end Assignment

namespace State

def view (state : State) : (view : View) → view.Value
  | .gpr reg => state.gpr reg
  | .ps0 reg => state.ps0 reg
  | .ps1 reg => state.ps1 reg
  | .cr field => state.cr field
  | .crField field => state.crField field
  | .xerCa => state.xerCa
  | .xerSoOv => state.xerSoOv
  | .fpscr => state.fpscr

def assign (state : State) : Assignment → State
  | .gpr reg value => state.setGpr reg value
  | .ps reg low high => state.setPs reg low high
  | .ps0 reg value => state.setPs0 reg value
  | .cr field value => state.setCr field value
  | .crField field bits => state.setCrField field (bits.setWidth 4)
  | .xerCa ca => state.setXerCa ca
  | .xerSoOv bits => state.setXerSoOv bits
  | .fpscr value => state.setFpscr value

theorem view_eq (state : State) (view : View) :
    state.view view = view.ofContents (state.fetch view.cell) := by
  cases view <;> rfl

theorem assign_eq (state : State) (a : Assignment) :
    state.assign a = state.put a.cell (a.contents (state.fetch a.cell)) := by
  cases a <;> rfl

variable {layout : Layout} {state : State}

theorem On.view_assign_of_ne (hon : state.On layout) (hv : layout.Valid) {a : Assignment}
    {view : View} (h : view.cell ≠ a.cell) : (state.assign a).view view = state.view view := by
  rw [view_eq, view_eq, assign_eq, hon.fetch_put_of_ne hv _ _ h]

/-- The new contents of a cell show what was assigned. -/
theorem On.view_assign_of_eq (hon : state.On layout) (hv : layout.Valid) {a : Assignment}
    {view : View} (h : view.cell = a.cell) :
    (state.assign a).view view = (a.given? view).getD (state.view view) := by
  have hself := hon.fetch_put_self hv a.cell (a.contents (state.fetch a.cell))
  rw [← assign_eq] at hself
  cases a <;> cases view <;> cases h <;> rw [view_eq] <;>
    refine (congrArg (View.ofContents _) hself).trans ?_
  case xerCa.xerCa.refl ca => cases ca <;> rfl
  case ps0.ps1.refl reg value => exact Arm.lane_join_one _ _
  all_goals simp [Assignment.given?, Assignment.contents, View.ofContents, Condition.decode_encode]

theorem On.view_assign (hon : state.On layout) (hv : layout.Valid) (a : Assignment) (view : View) :
    (state.assign a).view view = (a.given? view).getD (state.view view) := by
  by_cases h : view.cell = a.cell
  · exact hon.view_assign_of_eq hv h
  · rw [hon.view_assign_of_ne hv h, Assignment.given?_eq_none h, Option.getD_none]

end State

/-- A layout is accepted exactly if it is well-formed. On an accepted layout every setter stores
what its getters return from then on, and changes nothing else. -/
theorem Layout.accepted_keeps_registers_independent (layout : Layout) :
    (layout.validate = .ok () ↔ layout.WellFormed) ∧
    (layout.validate = .ok () → ∀ state : State, state.On layout → ∀ a : Assignment,
      (state.assign a).On layout ∧
        ∀ view, (state.assign a).view view = (a.given? view).getD (state.view view)) := by
  rw [validate_eq_ok_iff]
  refine ⟨⟨Valid.wellFormed, WellFormed.valid⟩, ?_⟩
  intro hv state hon a
  refine ⟨?_, hon.view_assign hv a⟩
  rw [State.assign_eq]
  exact hon.put hv _ _

/-- The same fields in another order, with gaps. -/
def Layout.scattered : Layout where
  gpr := 532
  ps := 16
  cr := 664
  xerCa := 4
  xerSoOv := 9
  fpscr := 0
  size := 730

/-- Setting a lane and a condition field of a new state on that layout. -/
theorem Layout.scattered_keeps_registers_independent :
    Layout.scattered.validate = .ok () ∧ Layout.scattered.WellFormed ∧
    ∃ state : State, state.On .scattered ∧
      (state.assign (.ps0 31 5)).view (.ps0 31) = 5#64 ∧
      (state.assign (.ps0 31 5)).view (.ps1 31) = state.view (.ps1 31) ∧
      (state.assign (.ps0 31 5)).view (.gpr 0) = state.view (.gpr 0) ∧
      (state.assign (.crField 0 0xF4)).view (.crField 0) = 4#4 ∧
      (state.assign (.crField 0 0xF4)).view (.gpr 31) = state.view (.gpr 31) := by
  have hok : Layout.scattered.validate = .ok () := by decide +kernel
  obtain ⟨hiff, hassign⟩ := accepted_keeps_registers_independent .scattered
  have hon := State.On.zeroed (validate_eq_ok_iff.1 hok)
  refine ⟨hok, hiff.1 hok, _, hon, ?_⟩
  obtain ⟨-, hlane⟩ := hassign hok _ hon (.ps0 31 5)
  obtain ⟨-, hfield⟩ := hassign hok _ hon (.crField 0 0xF4)
  refine ⟨(hlane (.ps0 31)).trans rfl, (hlane (.ps1 31)).trans rfl, (hlane (.gpr 0)).trans ?_,
    (hfield (.crField 0)).trans rfl, (hfield (.gpr 31)).trans ?_⟩
  · rw [Assignment.given?_eq_none (by decide), Option.getD_none]
  · rw [Assignment.given?_eq_none (by decide), Option.getD_none]

end Recompiler.PowerPC
