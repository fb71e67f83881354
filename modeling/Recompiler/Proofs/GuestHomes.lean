import Recompiler.Alloc.Vectors
import Recompiler.Block.Compiler
import Recompiler.Proofs.SlotCache

/-!
# Where guest registers live

The two classes of slots as caches see them: general registers and condition fields in the general
registers of the host, floating-point registers in its vector registers.
-/

namespace Recompiler

open Arm PowerPC Block

/-! ## Pools of valid settings -/

namespace Block

theorem allowed_of_poolFaultAfter {cls : RegClass} {regs before : List HostReg}
    (h : poolFaultAfter cls before regs = none) :
    (∀ r ∈ regs, allowedInPool cls r = true) ∧ regs.Nodup ∧ ∀ r ∈ regs, r ∉ before := by
  induction regs generalizing before with
  | nil => simp
  | cons r regs ih =>
    rw [poolFaultAfter] at h
    split at h
    · simp at h
    · next hallowed =>
      split at h
      · simp at h
      · next hbefore =>
        obtain ⟨h₁, h₂, h₃⟩ := ih h
        refine ⟨?_, ?_, ?_⟩
        · intro q hq
          rcases List.mem_cons.1 hq with rfl | hq
          · simpa using hallowed
          · exact h₁ q hq
        · rw [List.nodup_cons]
          exact ⟨fun hr => h₃ r hr (by simp), h₂⟩
        · intro q hq
          rcases List.mem_cons.1 hq with rfl | hq
          · exact hbefore
          · intro hb
            exact h₃ q hq (List.mem_cons_of_mem _ hb)

/-- The registers that settings hand out for a class. -/
def Config.order (config : Config) : RegClass → List HostReg
  | .general => config.generalPool.getD generalOrder
  | .vector => config.vectorPool.getD vectorOrder

/-- What a pool without faults is like. -/
structure GoodPool (cls : RegClass) (order : List HostReg) : Prop where
  allowed : ∀ r ∈ order, allowedInPool cls r = true
  nodup : order.Nodup
  size : leastPool ≤ order.length

theorem goodPool_of_poolFault? {cls : RegClass} {pool : Option (List HostReg)}
    {standard : List HostReg} (hs : GoodPool cls standard) (h : poolFault? cls pool = none) :
    GoodPool cls (pool.getD standard) := by
  cases pool with
  | none => exact hs
  | some regs =>
    rw [poolFault?] at h
    split at h
    · simp at h
    · next hlen =>
      obtain ⟨h₁, h₂, -⟩ := allowed_of_poolFaultAfter h
      exact ⟨h₁, h₂, by simpa using hlen⟩

theorem goodPool_generalOrder : GoodPool .general generalOrder :=
  ⟨by decide +kernel, by decide +kernel, by decide⟩

theorem goodPool_vectorOrder : GoodPool .vector vectorOrder :=
  ⟨by decide +kernel, by decide +kernel, by decide⟩

/-- Settings and a layout that a compiler accepts. -/
def Accepted (config : Config) (layout : Layout) : Prop := Compiler.fault? config layout = none

theorem Accepted.layout_valid {config : Config} {layout : Layout} (h : Accepted config layout) :
    layout.Valid := by
  unfold Accepted Compiler.fault? at h
  rw [Option.or_eq_none_iff, Option.or_eq_none_iff] at h
  exact h.1.1

theorem Accepted.goodPool {config : Config} {layout : Layout} (h : Accepted config layout)
    (cls : RegClass) : GoodPool cls (config.order cls) := by
  unfold Accepted Compiler.fault? at h
  rw [Option.or_eq_none_iff, Option.or_eq_none_iff] at h
  cases cls with
  | general => exact goodPool_of_poolFault? goodPool_generalOrder h.1.2
  | vector => exact goodPool_of_poolFault? goodPool_vectorOrder h.2

end Block

/-! ## Integer slots -/

namespace Alloc.IntSlot

theorem field_lt (slot : IntSlot) (h : ¬slot.val < 32) : slot.val - 32 < 8 := by omega

/-- The cell of a slot. -/
def cell (slot : IntSlot) : PowerPC.Cell :=
  if h : slot.val < 32 then .gpr ⟨slot.val, h⟩ else .cr ⟨slot.val - 32, slot.field_lt h⟩

theorem eq_gpr_or_cr (slot : IntSlot) :
    (∃ reg, slot = .gpr reg) ∨ ∃ field, slot = .cr field := by
  by_cases h : slot.val < 32
  · exact .inl ⟨⟨slot.val, h⟩, rfl⟩
  · refine .inr ⟨⟨slot.val - 32, by omega⟩, Fin.ext ?_⟩
    simp only [cr]
    omega

@[simp] theorem cell_gpr (reg : GuestReg) : (gpr reg).cell = .gpr reg := by
  simp [cell, gpr]

@[simp] theorem cell_cr (field : CrField) : (cr field).cell = .cr field := by
  simp [cell, cr]

theorem gpr_inj {reg reg' : GuestReg} : gpr reg = gpr reg' ↔ reg = reg' := by
  simp [gpr, Fin.ext_iff]

theorem cr_inj {field field' : CrField} : cr field = cr field' ↔ field = field' := by
  simp [cr, Fin.ext_iff]

theorem gpr_ne_cr (reg : GuestReg) (field : CrField) : gpr reg ≠ cr field := by
  intro h
  have hv := congrArg Fin.val h
  have := reg.isLt
  simp only [gpr, cr] at hv
  omega

@[simp] theorem isWide_gpr (reg : GuestReg) : (gpr reg).isWide = false := by
  have := reg.isLt
  exact decide_eq_false (by simp only [gpr]; omega)

@[simp] theorem isWide_cr (field : CrField) : (cr field).isWide = true := by
  simp [isWide, cr]

theorem cell_inj {slot slot' : IntSlot} (h : slot.cell = slot'.cell) : slot = slot' := by
  rcases slot.eq_gpr_or_cr with ⟨r, rfl⟩ | ⟨f, rfl⟩ <;>
    rcases slot'.eq_gpr_or_cr with ⟨r', rfl⟩ | ⟨f', rfl⟩ <;> simp_all

theorem cls_cell (slot : IntSlot) : slot.cell.cls = some .general := by
  rcases slot.eq_gpr_or_cr with ⟨r, rfl⟩ | ⟨f, rfl⟩ <;> simp [PowerPC.Cell.cls]

theorem offset_eq (layout : Layout) (slot : IntSlot) :
    IntSlot.offset layout slot = slot.cell.offset layout := by
  rcases slot.eq_gpr_or_cr with ⟨r, rfl⟩ | ⟨f, rfl⟩
  · have hr : (gpr r).val < 32 := r.isLt
    rw [cell_gpr, offset, if_pos hr]
    rfl
  · rw [cell_cr, offset, if_neg (by simp [cr])]
    simp [cr, PowerPC.Cell.offset]

/-- A value that the cell of the slot can hold. -/
def Fits (slot : IntSlot) (v : BitVec 64) : Prop :=
  (v.setWidth slot.cell.width).setWidth 64 = v

theorem fits_gpr (reg : GuestReg) (w : BitVec 32) : Fits (.gpr reg) (ofWord w) := by
  unfold Fits
  rw [cell_gpr]
  simp [ofWord, PowerPC.Cell.width]

theorem fits_cr (field : CrField) (v : BitVec 64) : Fits (.cr field) v := by
  unfold Fits
  rw [cell_cr]
  simp [PowerPC.Cell.width]

theorem truncate_eq (slot : IntSlot) (v : BitVec 64) :
    slot.truncate v = (v.setWidth slot.cell.width).setWidth 64 := by
  rcases slot.eq_gpr_or_cr with ⟨r, rfl⟩ | ⟨f, rfl⟩
  · rw [truncate, isWide_gpr, cell_gpr]
    rfl
  · rw [truncate, isWide_cr, cell_cr]
    simp [PowerPC.Cell.width]

end Alloc.IntSlot

/-! ## Loads and stores of cells -/

namespace Arm.Machine

variable {layout : Layout} {m : Machine}

theorem readState_cell (hv : layout.Valid) (h : m.state.On layout) (cell : Cell) :
    m.readState cell.width stateReg (cell.offset layout) = .ok (m.state.fetch cell) := by
  rw [readState, if_pos rfl, ← h.layout_eq]
  exact h.read_cell hv cell

theorem writeState_cell (hv : layout.Valid) (h : m.state.On layout) (cell : Cell)
    (value : BitVec cell.width) : m.writeState stateReg (cell.offset layout) value =
      .ok { m with state := m.state.put cell value } := by
  rw [writeState, if_pos rfl, ← h.layout_eq, h.write_cell hv cell]
  rfl

theorem step_load_slot (hv : layout.Valid) (h : m.state.On layout) (slot : Alloc.IntSlot)
    (r : HostReg) : m.step ((Alloc.Access.integer layout).load slot r) =
      .next (m.setX r ((m.state.fetch slot.cell).setWidth 64)) := by
  simp only [Alloc.Access.integer, Alloc.IntSlot.offset_eq, Alloc.IntSlot.size]
  rcases slot.eq_gpr_or_cr with ⟨g, rfl⟩ | ⟨f, rfl⟩
  · rw [Alloc.IntSlot.cell_gpr, Alloc.IntSlot.isWide_gpr]
    exact congrArg (fun read => m.proceed (read.map fun v => m.setW r v))
      (readState_cell hv h (.gpr g))
  · have hid : (m.state.fetch (.cr f)).setWidth 64 = m.state.fetch (.cr f) := BitVec.setWidth_eq _
    rw [Alloc.IntSlot.cell_cr, Alloc.IntSlot.isWide_cr, hid]
    exact congrArg (fun read => m.proceed (read.map fun v => m.setX r v))
      (readState_cell hv h (.cr f))

theorem step_store_slot (hv : layout.Valid) (h : m.state.On layout) (slot : Alloc.IntSlot)
    (r : HostReg) : m.step ((Alloc.Access.integer layout).store slot r) =
      .next { m with state := m.state.put slot.cell ((m.getX r).setWidth slot.cell.width) } := by
  simp only [Alloc.Access.integer, Alloc.IntSlot.offset_eq, Alloc.IntSlot.size]
  rcases slot.eq_gpr_or_cr with ⟨g, rfl⟩ | ⟨f, rfl⟩
  · rw [Alloc.IntSlot.cell_gpr, Alloc.IntSlot.isWide_gpr]
    exact congrArg m.proceed (writeState_cell hv h (.gpr g) (m.getW r))
  · have hid : (m.getX r).setWidth (Cell.cr f).width = m.getX r := BitVec.setWidth_eq _
    rw [Alloc.IntSlot.cell_cr, Alloc.IntSlot.isWide_cr, hid]
    exact congrArg m.proceed (writeState_cell hv h (.cr f) (m.getX r))

theorem step_constant_slot (slot : Alloc.IntSlot) (r : HostReg) (v : BitVec 64)
    (ht : slot.truncate v = v) : m.step (slot.constant r v) = .next (m.setX r v) := by
  rcases slot.eq_gpr_or_cr with ⟨g, rfl⟩ | ⟨f, rfl⟩
  · rw [Alloc.IntSlot.truncate, Alloc.IntSlot.isWide_gpr] at ht
    simp only [Bool.false_eq_true, if_false] at ht
    simp only [Alloc.IntSlot.constant, Alloc.IntSlot.isWide_gpr, Bool.false_eq_true, if_false,
      step, setW, ofWord, ht]
  · simp only [Alloc.IntSlot.constant, Alloc.IntSlot.isWide_cr, if_true, step]

theorem step_load_vector (hv : layout.Valid) (h : m.state.On layout) (slot : GuestReg)
    (r : HostReg) : m.step ((Alloc.Access.vector layout).load slot r) =
      .next (m.setV r (m.state.fetch (.ps slot))) :=
  congrArg (fun read : Except Fault (BitVec 128) => m.proceed (read.map fun v => m.setV r v))
    (readState_cell hv h (.ps slot))

theorem step_store_vector (hv : layout.Valid) (h : m.state.On layout) (slot : GuestReg)
    (r : HostReg) : m.step ((Alloc.Access.vector layout).store slot r) =
      .next { m with state := m.state.put (.ps slot) (m.getV r) } :=
  congrArg m.proceed (writeState_cell hv h (.ps slot) (m.getV r))

/-! ## Registers after a write -/

@[simp] theorem getX_zeroReg (m : Machine) : m.getX zeroReg = 0 := by simp [getX]

theorem getX_setX_self (m : Machine) {r : HostReg} (h : r ≠ zeroReg) (v : BitVec 64) :
    (m.setX r v).getX r = v := by
  rw [getX_setX m r r v h, if_pos rfl]

theorem getX_setX_of_ne (m : Machine) {r q : HostReg} (h : q ≠ r) (v : BitVec 64) :
    (m.setX r v).getX q = m.getX q := by
  by_cases hz : r = zeroReg
  · rw [setX, if_pos hz]
  · rw [getX_setX m r q v hz, if_neg h]

theorem getV_setV (m : Machine) (r q : HostReg) (v : BitVec 128) :
    (m.setV r v).getV q = if q = r then v else m.getV q := by
  simp only [getV, setV, Bank.get_set]

@[simp] theorem getV_setX (m : Machine) (r q : HostReg) (v : BitVec 64) :
    (m.setX r v).getV q = m.getV q := by
  unfold setX
  split <;> rfl

@[simp] theorem getX_setV (m : Machine) (r q : HostReg) (v : BitVec 128) :
    (m.setV r v).getX q = m.getX q := rfl

@[simp] theorem state_setX (m : Machine) (r : HostReg) (v : BitVec 64) :
    (m.setX r v).state = m.state := by
  unfold setX
  split <;> rfl

theorem frame_setX (m : Machine) (r : HostReg) (v : BitVec 64) :
    Alloc.Frame .general m (m.setX r v) := by
  unfold setX
  split
  · exact .refl _ _
  · exact ⟨by simp, fun _ => rfl, rfl, rfl, rfl, rfl, fun _ h => h, fun _ _ => rfl⟩

theorem frame_setV (m : Machine) (r : HostReg) (v : BitVec 128) :
    Alloc.Frame .vector m (m.setV r v) :=
  ⟨fun _ => rfl, by simp, rfl, rfl, rfl, rfl, fun _ h => h, fun _ _ => rfl⟩

theorem frame_put (hv : layout.Valid) (h : m.state.On layout) {cls : RegClass} {cell : Cell}
    (hc : cell.cls = some cls) (v : BitVec cell.width) :
    Alloc.Frame cls m { m with state := m.state.put cell v } where
  x _ := rfl
  v _ := rfl
  flags := rfl
  stack := rfl
  flush := rfl
  interpreter := rfl
  on other hon := by
    have he : other = layout := hon.layout_eq.symm.trans h.layout_eq
    subst he
    exact h.put hv cell v
  cell other ho := by
    apply h.fetch_put_of_ne hv cell v
    rintro rfl
    exact ho hc

end Arm.Machine

/-! ## The two homes -/

namespace Block.GoodPool

variable {order : List HostReg}

theorem not_reserved (h : GoodPool .general order) {r : HostReg} (hr : r ∈ order) :
    reserved.contains r = false := by
  have := h.allowed r hr
  simp only [allowedInPool, Bool.and_eq_true, Bool.not_eq_true'] at this
  exact this.2

theorem ne_zeroReg (h : GoodPool .general order) {r : HostReg} (hr : r ∈ order) : r ≠ zeroReg := by
  rintro rfl
  have := h.not_reserved hr
  revert this
  decide +kernel

theorem ne_flushReg (h : GoodPool .general order) {r : HostReg} (hr : r ∈ order) :
    r ≠ flushReg := by
  rintro rfl
  have := h.not_reserved hr
  revert this
  decide +kernel

theorem ne_vectorScratch (h : GoodPool .vector order) {r : HostReg} (hr : r ∈ order) :
    r ≠ vectorScratch := by
  have := h.allowed r hr
  simp only [allowedInPool, Bool.and_eq_true, decide_eq_true_eq] at this
  exact this.2

end Block.GoodPool

namespace Alloc.Home

variable {config : Config} {layout : Layout}

/-- General registers and condition fields, in the general registers of the host. -/
def integer (h : Accepted config layout) : Home 40 (BitVec 64) where
  cls := .general
  layout
  order := config.order .general
  access := .integer layout
  reg := Machine.getX
  mem s slot := (s.fetch (IntSlot.cell slot)).setWidth 64
  fits := IntSlot.Fits
  imm := id
  constants := True
  nodup := (h.goodPool .general).nodup
  ne_flush _ hr _ := (h.goodPool .general).ne_flushReg hr
  mem_fits s slot _ := by
    have hw : (IntSlot.cell slot).width ≤ 64 := by
      rcases IntSlot.eq_gpr_or_cr slot with ⟨r, rfl⟩ | ⟨f, rfl⟩ <;> simp [PowerPC.Cell.width]
    unfold IntSlot.Fits
    rw [BitVec.setWidth_setWidth_of_le _ hw, BitVec.setWidth_eq]
  imm_fits slot v hv := by
    have hv' : IntSlot.truncate slot v = v := hv
    rw [IntSlot.truncate_eq] at hv'
    exact hv'
  truncate_truncate slot v := by
    have htr : ∀ w, IntSlot.truncate slot (IntSlot.truncate slot w) = IntSlot.truncate slot w := by
      intro w
      unfold IntSlot.truncate
      split <;> simp
    exact htr v
  imm_zero _ m := m.getX_zeroReg
  store m slot r hon := by
    refine ⟨_, m.step_store_slot h.layout_valid hon slot r,
      m.frame_put h.layout_valid hon (IntSlot.cls_cell slot) _, fun _ => rfl, ?_, ?_⟩
    · intro s hs
      dsimp only
      rw [hon.fetch_put_of_ne h.layout_valid]
      exact fun he => hs (IntSlot.cell_inj he)
    · intro hf
      dsimp only
      rw [hon.fetch_put_self h.layout_valid]
      exact hf
  load m slot r hr hon := by
    have hz := (h.goodPool .general).ne_zeroReg hr
    refine ⟨_, m.step_load_slot h.layout_valid hon slot r, m.frame_setX r _,
      m.getX_setX_self hz _, fun q hq => m.getX_setX_of_ne hq _, ?_⟩
    intro s
    rw [Machine.state_setX]
  constant _ m slot r v hr ht _ := by
    have hz : r ≠ zeroReg := by
      rcases hr with hr | rfl
      · exact (h.goodPool .general).ne_zeroReg hr
      · decide
    refine ⟨_, m.step_constant_slot slot r v ht, m.frame_setX r _, m.getX_setX_self hz _,
      fun q hq => m.getX_setX_of_ne hq _, ?_⟩
    intro s
    rw [Machine.state_setX]

/-- Floating-point registers, in the vector registers of the host. They are never constant. -/
def vector (h : Accepted config layout) : Home 32 (BitVec 128) where
  cls := .vector
  layout
  order := config.order .vector
  access := .vector layout
  reg := Machine.getV
  mem s slot := s.fetch (.ps slot)
  fits _ _ := True
  imm v := join v v
  constants := False
  nodup := (h.goodPool .vector).nodup
  ne_flush _ _ hc := hc.elim
  mem_fits _ _ _ := trivial
  imm_fits _ _ _ := trivial
  truncate_truncate _ _ := rfl
  imm_zero hc := hc.elim
  store m slot r hon := by
    refine ⟨_, m.step_store_vector h.layout_valid hon slot r,
      m.frame_put h.layout_valid hon rfl _, fun _ => rfl, ?_, ?_⟩
    · intro s hs
      apply hon.fetch_put_of_ne h.layout_valid
      simpa using hs
    · intro _
      exact hon.fetch_put_self h.layout_valid _ _
  load m slot r _ hon := by
    refine ⟨_, m.step_load_vector h.layout_valid hon slot r, m.frame_setV r _, ?_, ?_,
      fun _ => rfl⟩
    · rw [Machine.getV_setV, if_pos rfl]
    · intro q hq
      rw [Machine.getV_setV, if_neg hq]
  constant hc := hc.elim

end Alloc.Home

end Recompiler
