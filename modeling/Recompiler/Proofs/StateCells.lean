import Mathlib.Algebra.Group.Nat.Defs
import Mathlib.Order.Fin.Basic
import Mathlib.Tactic.Common
import Recompiler.PowerPC.State

/-!
# Cells of the state block

Every guest register is a cell of the state block. On a valid layout a cell lies inside the block
and no two cells share a byte, so a write to one cell is read back exactly and leaves all others
alone.
-/

namespace Recompiler

namespace Memory

/-! ## Loading what was stored -/

theorem getLsbD_load (memory : Memory) (w offset count i : Nat) :
    (memory.load w offset count).getLsbD i =
      (decide (i < w) && decide (i < 8 * count) &&
        (memory.byte (offset + i / 8)).getLsbD (i % 8)) := by
  induction count with
  | zero => simp [load]
  | succ count ih =>
    rw [load, BitVec.getLsbD_or, ih, BitVec.getLsbD_shiftLeft, BitVec.getLsbD_setWidth]
    by_cases hw : i < w
    · by_cases hlow : i < 8 * count
      · have hlow' : i < 8 * (count + 1) := by omega
        simp [hw, hlow, hlow']
      · by_cases hhigh : i < 8 * (count + 1)
        · have hdiv : i / 8 = count := by omega
          have hmod : i % 8 = i - 8 * count := by omega
          have hsub : i - 8 * count < w := by omega
          simp [hw, hlow, hhigh, hdiv, hmod, hsub]
        · have hbig : 8 ≤ i - 8 * count := by omega
          rw [BitVec.getLsbD_of_ge _ _ hbig]
          simp [hlow, hhigh]
    · simp [hw]

theorem load_store_self {w : Nat} (memory : Memory) (offset : Nat) (value : BitVec w) (count : Nat)
    (hw : w = 8 * count) (h : offset + count ≤ memory.size) :
    (memory.store offset value count).load w offset count = value := by
  apply BitVec.eq_of_getLsbD_eq
  intro i hi
  have hin : offset ≤ offset + i / 8 ∧ offset + i / 8 < offset + count := by omega
  have hdiv : offset + i / 8 - offset = i / 8 := by omega
  have hsplit : 8 * (i / 8) + i % 8 = i := by omega
  rw [getLsbD_load, byte_store _ _ _ _ _ h, if_pos hin, hdiv, BitVec.getLsbD_extractLsb', hsplit]
  have hmod : i % 8 < 8 := by omega
  have hc : i < 8 * count := by omega
  simp [hi, hc, hmod]

theorem load_store_of_disjoint {w v : Nat} (memory : Memory) (offset other : Nat)
    (value : BitVec v) (count n : Nat) (h : offset + count ≤ memory.size)
    (hd : other + n ≤ offset ∨ offset + count ≤ other) :
    (memory.store offset value count).load w other n = memory.load w other n := by
  apply BitVec.eq_of_getLsbD_eq
  intro i hi
  rw [getLsbD_load, getLsbD_load]
  by_cases hn : i < 8 * n
  · have hout : ¬(offset ≤ other + i / 8 ∧ other + i / 8 < offset + count) := by omega
    rw [byte_store _ _ _ _ _ h, if_neg hout]
  · simp [hn]

end Memory

namespace PowerPC

/-- A register of the guest, as a piece of the state block. -/
inductive Cell where
  | gpr (reg : GuestReg)
  | ps (reg : GuestReg)
  | cr (field : CrField)
  | xerCa
  | xerSoOv
  | fpscr
  deriving DecidableEq

namespace Cell

/-- The field that a cell belongs to. -/
def field : Cell → StateField
  | .gpr _ => .gpr
  | .ps _ => .ps
  | .cr _ => .cr
  | .xerCa => .xerCa
  | .xerSoOv => .xerSoOv
  | .fpscr => .fpscr

/-- The length of a cell in bytes. -/
def bytes : Cell → Nat
  | .gpr _ => 4
  | .ps _ => 16
  | .cr _ => 8
  | .xerCa => 1
  | .xerSoOv => 1
  | .fpscr => 4

/-- The length of a cell in bits. -/
@[reducible] def width : Cell → Nat
  | .gpr _ => 32
  | .ps _ => 128
  | .cr _ => 64
  | .xerCa => 8
  | .xerSoOv => 8
  | .fpscr => 32

/-- The number of a cell in its field. -/
def index : Cell → Nat
  | .gpr reg => reg.val
  | .ps reg => reg.val
  | .cr field => field.val
  | .xerCa => 0
  | .xerSoOv => 0
  | .fpscr => 0

/-- Where a cell starts. -/
def offset (layout : Layout) : Cell → BitVec 32
  | .gpr reg => layout.gprOffset reg
  | .ps reg => layout.psOffset reg
  | .cr field => layout.crOffset field
  | .xerCa => layout.xerCa
  | .xerSoOv => layout.xerSoOv
  | .fpscr => layout.fpscr

theorem width_eq (cell : Cell) : cell.width = 8 * cell.bytes := by
  cases cell <;> rfl

theorem width_div (cell : Cell) : cell.width / 8 = cell.bytes := by
  rw [cell.width_eq]
  omega

theorem index_lt (cell : Cell) : cell.bytes * cell.index + cell.bytes ≤ cell.field.length := by
  cases cell with
  | gpr reg => have := reg.isLt; simp only [bytes, index, field, StateField.length]; omega
  | ps reg => have := reg.isLt; simp only [bytes, index, field, StateField.length]; omega
  | cr field => have := field.isLt; simp only [bytes, index, Cell.field, StateField.length]; omega
  | xerCa | xerSoOv | fpscr => decide

/-- Two cells of the same field have the same length and different numbers. -/
theorem eq_of_index_eq {cell other : Cell} (hf : cell.field = other.field)
    (hi : cell.index = other.index) : cell = other := by
  cases cell <;> cases other <;> simp_all [field, index, Fin.ext_iff]

theorem bytes_eq_of_field_eq {cell other : Cell} (hf : cell.field = other.field) :
    cell.bytes = other.bytes := by
  cases cell <;> cases other <;> simp_all [field, bytes]

end Cell

/-! ## Valid layouts -/

/-- A layout without faults. -/
def Layout.Valid (layout : Layout) : Prop := layout.fault? = none

theorem Layout.valid_standard : Layout.standard.Valid := by
  unfold Valid
  decide +kernel

namespace Layout.Valid

variable {layout : Layout}

theorem fieldFault?_eq_none (h : layout.Valid) (field : StateField) :
    layout.fieldFault? field = none := by
  have hall := h
  unfold Layout.Valid Layout.fault? at hall
  rw [Option.or_eq_none_iff, List.findSome?_eq_none_iff] at hall
  exact hall.1 field (by cases field <;> decide)

theorem last_lt (h : layout.Valid) (field : StateField) : layout.last field < 2 ^ 32 := by
  have hf := h.fieldFault?_eq_none field
  unfold Layout.fieldFault? at hf
  by_contra hlt
  rw [if_pos (by omega)] at hf
  simp at hf

theorem last_le (h : layout.Valid) (field : StateField) :
    layout.last field ≤ layout.size.toNat := by
  have hf := h.fieldFault?_eq_none field
  have hlt := h.last_lt field
  unfold Layout.fieldFault? at hf
  rw [if_neg (by omega)] at hf
  by_contra hle
  rw [if_pos (by omega)] at hf
  simp at hf

theorem apart (h : layout.Valid) {left right : StateField} (hne : left ≠ right) :
    layout.last left ≤ layout.first right ∨ layout.last right ≤ layout.first left := by
  have hall := h
  unfold Layout.Valid Layout.fault? at hall
  rw [Option.or_eq_none_iff, List.findSome?_eq_none_iff, List.findSome?_eq_none_iff] at hall
  have hpair : (left, right) ∈ Layout.laterPairs StateField.all ∨
      (right, left) ∈ Layout.laterPairs StateField.all := by
    cases left <;> cases right <;> first | exact absurd rfl hne | decide
  have hsep : ∀ l r, (l, r) ∈ Layout.laterPairs StateField.all →
      layout.last r ≤ layout.first l ∨ layout.last l ≤ layout.first r := by
    intro l r hmem
    have hnone := hall.2 (l, r) hmem
    unfold Layout.overlapFault? Layout.overlap at hnone
    by_contra hcon
    rw [not_or] at hcon
    rw [if_pos (by simp; omega)] at hnone
    simp at hnone
  rcases hpair with hp | hp
  · have := hsep left right hp
    omega
  · exact hsep right left hp

end Layout.Valid

namespace Cell

variable {layout : Layout}

theorem toNat_offset (h : layout.Valid) (cell : Cell) :
    (cell.offset layout).toNat = layout.first cell.field + cell.bytes * cell.index := by
  have hlast := h.last_lt cell.field
  have hlt := cell.index_lt
  unfold Layout.last at hlast
  cases cell <;>
    simp only [offset, field, bytes, index, Layout.gprOffset, Layout.psOffset, Layout.crOffset,
      Layout.first, Layout.start, BitVec.toNat_add, BitVec.toNat_ofNat] at * <;>
    omega

/-- A cell ends inside the block. -/
theorem offset_add_le (h : layout.Valid) (cell : Cell) :
    (cell.offset layout).toNat + cell.bytes ≤ layout.size.toNat := by
  have hle := h.last_le cell.field
  have hlt := cell.index_lt
  unfold Layout.last at hle
  rw [cell.toNat_offset h]
  omega

/-- Different cells share no byte. -/
theorem disjoint (h : layout.Valid) {cell other : Cell} (hne : cell ≠ other) :
    (cell.offset layout).toNat + cell.bytes ≤ (other.offset layout).toNat ∨
      (other.offset layout).toNat + other.bytes ≤ (cell.offset layout).toNat := by
  have hc := cell.index_lt
  have ho := other.index_lt
  rw [cell.toNat_offset h, other.toNat_offset h]
  by_cases hf : cell.field = other.field
  · have hb := bytes_eq_of_field_eq hf
    have hi : cell.index ≠ other.index := fun he => hne (eq_of_index_eq hf he)
    rw [hf, hb] at *
    rcases Nat.lt_or_gt_of_ne hi with hlt | hlt
    · left
      have := Nat.mul_le_mul_left other.bytes (Nat.succ_le_of_lt hlt)
      rw [Nat.mul_succ] at this
      omega
    · right
      have := Nat.mul_le_mul_left other.bytes (Nat.succ_le_of_lt hlt)
      rw [Nat.mul_succ] at this
      omega
  · have hapart := h.apart hf
    unfold Layout.last at hapart
    omega

/-- The cell holds the byte at an offset. -/
def Covers (layout : Layout) (cell : Cell) (k : Nat) : Prop :=
  (cell.offset layout).toNat ≤ k ∧ k < (cell.offset layout).toNat + cell.bytes

end Cell

/-! ## States on a layout -/

/-- A state block of the size that its layout says. -/
structure State.On (layout : Layout) (state : State) : Prop where
  layout_eq : state.layout = layout
  size_eq : state.memory.size = layout.size.toNat

namespace State

variable {layout : Layout} {state : State}

/-- The contents of a cell. -/
def fetch (state : State) (cell : Cell) : BitVec cell.width :=
  state.peek cell.width (cell.offset state.layout)

/-- Replace the contents of a cell. -/
def put (state : State) (cell : Cell) (value : BitVec cell.width) : State :=
  state.poke (cell.offset state.layout) value

theorem On.checkBounds (h : state.On layout) (hv : layout.Valid) (cell : Cell) :
    state.checkBounds (cell.offset state.layout) (cell.width / 8) = .ok () := by
  have hle := cell.offset_add_le hv
  unfold State.checkBounds
  rw [h.layout_eq, h.size_eq, cell.width_div, if_neg (by omega)]

theorem On.read_cell (h : state.On layout) (hv : layout.Valid) (cell : Cell) :
    state.read cell.width (cell.offset state.layout) = .ok (state.fetch cell) := by
  simp only [fetch, peek, read, h.checkBounds hv cell]

theorem On.write_cell (h : state.On layout) (hv : layout.Valid) (cell : Cell)
    (value : BitVec cell.width) :
    state.write (cell.offset state.layout) value = .ok (state.put cell value) := by
  simp only [put, poke, write, h.checkBounds hv cell]

theorem On.put_eq (h : state.On layout) (hv : layout.Valid) (cell : Cell)
    (value : BitVec cell.width) :
    state.put cell value = { state with
      memory := state.memory.store (cell.offset state.layout).toNat value cell.bytes } := by
  have hb := h.checkBounds hv cell
  rw [cell.width_div] at hb
  simp only [State.put, poke, write, cell.width_div, hb]

theorem On.fetch_eq (h : state.On layout) (hv : layout.Valid) (cell : Cell) :
    state.fetch cell =
      state.memory.load cell.width (cell.offset state.layout).toNat cell.bytes := by
  have hb := h.checkBounds hv cell
  rw [cell.width_div] at hb
  simp only [fetch, peek, read, cell.width_div, hb]

theorem On.put (h : state.On layout) (hv : layout.Valid) (cell : Cell)
    (value : BitVec cell.width) : (state.put cell value).On layout := by
  rw [h.put_eq hv]
  exact ⟨h.layout_eq, by rw [Memory.size_store, h.size_eq]⟩

theorem On.fetch_put_self (h : state.On layout) (hv : layout.Valid) (cell : Cell)
    (value : BitVec cell.width) : (state.put cell value).fetch cell = value := by
  have hle := cell.offset_add_le hv
  rw [(h.put hv cell value).fetch_eq hv, h.put_eq hv]
  apply Memory.load_store_self _ _ _ _ cell.width_eq
  rw [h.layout_eq, h.size_eq]
  exact hle

theorem On.fetch_put_of_ne (h : state.On layout) (hv : layout.Valid) (cell : Cell)
    (value : BitVec cell.width) {other : Cell} (hne : other ≠ cell) :
    (state.put cell value).fetch other = state.fetch other := by
  have hle := cell.offset_add_le hv
  have hd := Cell.disjoint hv hne
  rw [(h.put hv cell value).fetch_eq hv, h.put_eq hv, h.fetch_eq hv]
  apply Memory.load_store_of_disjoint
  · rw [h.layout_eq, h.size_eq]
    exact hle
  · rw [h.layout_eq]
    exact hd

theorem On.byte_put (h : state.On layout) (hv : layout.Valid) {cell : Cell} {k : Nat}
    (hk : ¬cell.Covers layout k) (value : BitVec cell.width) :
    (state.put cell value).memory.byte k = state.memory.byte k := by
  have hle := cell.offset_add_le hv
  rw [h.put_eq hv, h.layout_eq]
  exact (Memory.byte_store _ _ _ _ _ (h.size_eq ▸ hle)).trans (if_neg hk)

end State

end PowerPC

end Recompiler
