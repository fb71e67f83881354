import Recompiler.Proofs.CacheSteps
import Recompiler.Proofs.EmitLogic
import Recompiler.Proofs.GuestHomes

/-!
# Emitter and machine together

While a block is compiled, the emitter knows where each guest register is on the machine that runs
the code so far. `Sim s u c e m` says that emitter `e` and machine `m` together stand for the guest
contents `c`, in setting `s` and at stage `u` of the current instruction.
-/

namespace Recompiler.Emit

open Alloc Arm Block PowerPC

/-! ## Guest contents -/

/-- What the guest registers hold. The carry bit is `none` where nobody may look at it any more. -/
structure Contents where
  gpr : GuestReg → BitVec 32
  cr : CrField → BitVec 64
  ps : GuestReg → BitVec 128
  ca : Option Bool
  soOv : BitVec 8
  fpscr : BitVec 32

namespace Contents

/-- The value of an integer slot. -/
def slot (c : Contents) (slot : IntSlot) : BitVec 64 :=
  if h : slot.val < 32 then ofWord (c.gpr ⟨slot.val, h⟩) else c.cr ⟨slot.val - 32, slot.field_lt h⟩

def setGpr (c : Contents) (reg : GuestReg) (w : BitVec 32) : Contents :=
  { c with gpr := Function.update c.gpr reg w }

def setCr (c : Contents) (field : CrField) (v : BitVec 64) : Contents :=
  { c with cr := Function.update c.cr field v }

def setPs (c : Contents) (reg : GuestReg) (v : BitVec 128) : Contents :=
  { c with ps := Function.update c.ps reg v }

def setCa (c : Contents) (ca : Option Bool) : Contents := { c with ca }

@[simp] theorem slot_gpr (c : Contents) (reg : GuestReg) :
    c.slot (.gpr reg) = ofWord (c.gpr reg) := by
  have h : (IntSlot.gpr reg).val < 32 := reg.isLt
  rw [slot, dif_pos h]
  rfl

@[simp] theorem slot_cr (c : Contents) (field : CrField) : c.slot (.cr field) = c.cr field := by
  have h : ¬(IntSlot.cr field).val < 32 := by simp [IntSlot.cr]
  have hf : (⟨(IntSlot.cr field).val - 32, by omega⟩ : CrField) = field := by
    apply Fin.ext
    simp [IntSlot.cr]
  rw [slot, dif_neg h, hf]

theorem slot_setGpr (c : Contents) (reg : GuestReg) (w : BitVec 32) :
    (c.setGpr reg w).slot = Function.update c.slot (.gpr reg) (ofWord w) := by
  funext s
  rcases s.eq_gpr_or_cr with ⟨r, rfl⟩ | ⟨f, rfl⟩
  · by_cases hr : r = reg
    · subst hr
      simp [setGpr]
    · have hs : IntSlot.gpr r ≠ IntSlot.gpr reg := fun he => hr (IntSlot.gpr_inj.1 he)
      rw [Function.update_of_ne hs, slot_gpr, slot_gpr]
      simp [setGpr, hr]
  · have hs : IntSlot.cr f ≠ IntSlot.gpr reg := (IntSlot.gpr_ne_cr reg f).symm
    rw [Function.update_of_ne hs, slot_cr, slot_cr, setGpr]

theorem slot_setCr (c : Contents) (field : CrField) (v : BitVec 64) :
    (c.setCr field v).slot = Function.update c.slot (.cr field) v := by
  funext s
  rcases s.eq_gpr_or_cr with ⟨r, rfl⟩ | ⟨f, rfl⟩
  · have hs : IntSlot.gpr r ≠ IntSlot.cr field := IntSlot.gpr_ne_cr r field
    rw [Function.update_of_ne hs, slot_gpr, slot_gpr, setCr]
  · by_cases hf : f = field
    · subst hf
      simp [setCr]
    · have hs : IntSlot.cr f ≠ IntSlot.cr field := fun he => hf (IntSlot.cr_inj.1 he)
      rw [Function.update_of_ne hs, slot_cr, slot_cr]
      simp [setCr, hf]

theorem setGpr_self (c : Contents) (reg : GuestReg) : c.setGpr reg (c.gpr reg) = c := by
  simp [setGpr]

@[simp] theorem slot_setCa (c : Contents) (ca : Option Bool) : (c.setCa ca).slot = c.slot := rfl

end Contents

/-! ## Settings and stages -/

/-- What does not change during an instruction. -/
structure Setting where
  config : Config
  layout : Layout
  accepted : Accepted config layout
  word : Word
  hints : Hints
  next : Option NextInstruction
  flush : Bool
  interpreter : Interpreter

/-- What the current instruction has of the floating-point registers. -/
structure FloatStage where
  usage : Usage 32
  precision : Bank 32 Precision
  pending : Bank 32 (Option Precision)

/-- What changes during an instruction, apart from the contents. -/
structure Stage where
  ints : Usage 40
  carry : Carry
  floats : FloatStage

namespace Setting

/-- Integer slots on the machine. -/
def ints (s : Setting) : Home 40 (BitVec 64) := .integer s.accepted

/-- Floating-point slots on the machine. -/
def vecs (s : Setting) : Home 32 (BitVec 128) := .vector s.accepted

theorem valid (s : Setting) : s.layout.Valid := s.accepted.layout_valid

theorem ne_zeroReg (s : Setting) {r : HostReg} (h : r ∈ s.ints.order) : r ≠ zeroReg :=
  (s.accepted.goodPool .general).ne_zeroReg h

end Setting

/-- The carry bit is where the emitter says. -/
def CarryIs (carry : Carry) (m : Machine) (b : Bool) : Prop :=
  match carry with
  | .inGuestState => m.state.fetch .xerCa = (BitVec.ofBool b).setWidth 8
  | .inHostCarry => m.flags.c = b
  | .constantTrue => b = true
  | .constantFalse => b = false

/-- The fields of an emitter that the current instruction and its stage fix. -/
structure Fixed (s : Setting) (u : Stage) (e : Emitter) : Prop where
  config : e.config = s.config
  layout : e.layout = s.layout
  word : e.word = s.word
  hints : e.hints = s.hints
  next : e.next = s.next
  precision : e.vectors.precision = u.floats.precision
  pending : e.vectors.pending = u.floats.pending
  carry : e.carry = u.carry
  code : e.code.Ok

/-- What the machine holds apart from slots. -/
structure Around (s : Setting) (c : Contents) (m : Machine) : Prop where
  stack : m.stack = []
  flush : m.flush = s.flush
  interpreter : m.interpreter = s.interpreter
  soOv : m.state.fetch .xerSoOv = c.soOv
  fpscr : m.state.fetch .fpscr = c.fpscr

/-- Emitter and machine stand for the contents. -/
structure Sim (s : Setting) (u : Stage) (c : Contents) (e : Emitter) (m : Machine) : Prop where
  fixed : Fixed s u e
  around : Around s c m
  ints : Cache.At s.ints e.integers m c.slot u.ints
  vecs : Cache.At s.vecs e.vectors.cache m c.ps u.floats.usage
  ca : ∀ b, c.ca = some b → CarryIs u.carry m b

/-- The instruction may rely on the value of a general register. -/
structure Emitter.Has (e : Emitter) (m : Machine) (r : HostReg) (v : BitVec 64) : Prop where
  owns : e.integers.Owns r
  val : m.getX r = v

/-- The instruction may rely on the value of a vector register. -/
structure Emitter.HasV (e : Emitter) (m : Machine) (r : HostReg) (v : BitVec 128) : Prop where
  owns : e.vectors.cache.Owns r
  val : m.getV r = v

/-- The instruction loses nothing that it relies on. -/
structure Keeps (e : Emitter) (m : Machine) (e' : Emitter) (m' : Machine) : Prop where
  bound : ∀ slot r, e.integers.Bound slot r → e'.integers.Bound slot r
  has : ∀ {r v}, e.Has m r v → e'.Has m' r v
  boundV : ∀ slot r, e.vectors.cache.Bound slot r → e'.vectors.cache.Bound slot r
  hasV : ∀ {r v}, e.HasV m r v → e'.HasV m' r v

/-- The instruction loses nothing that it relies on, except one general register. -/
structure KeepsBut (dst : HostReg) (e : Emitter) (m : Machine) (e' : Emitter) (m' : Machine) :
    Prop where
  bound : ∀ slot r, e.integers.Bound slot r → e'.integers.Bound slot r
  has : ∀ {r v}, r ≠ dst → e.Has m r v → e'.Has m' r v
  boundV : ∀ slot r, e.vectors.cache.Bound slot r → e'.vectors.cache.Bound slot r
  hasV : ∀ {r v}, e.HasV m r v → e'.HasV m' r v

variable {s : Setting} {u : Stage} {c : Contents} {e e' : Emitter} {m m' : Machine}

theorem Keeps.refl (e : Emitter) (m : Machine) : Keeps e m e m :=
  ⟨fun _ _ h => h, fun h => h, fun _ _ h => h, fun h => h⟩

theorem Keeps.trans {e₁ e₂ e₃ : Emitter} {m₁ m₂ m₃ : Machine} (h : Keeps e₁ m₁ e₂ m₂)
    (h' : Keeps e₂ m₂ e₃ m₃) : Keeps e₁ m₁ e₃ m₃ where
  bound slot r hb := h'.bound slot r (h.bound slot r hb)
  has hv := h'.has (h.has hv)
  boundV slot r hb := h'.boundV slot r (h.boundV slot r hb)
  hasV hv := h'.hasV (h.hasV hv)

/-- A register that the instruction did not rely on may be lost. -/
theorem Keeps.but {e₁ e₂ e₃ : Emitter} {m₁ m₂ m₃ : Machine} {r : HostReg} (h : Keeps e₁ m₁ e₂ m₂)
    (h' : KeepsBut r e₂ m₂ e₃ m₃) (hne : ∀ q, e₁.integers.Owns q → q ≠ r) : Keeps e₁ m₁ e₃ m₃ where
  bound slot r hb := h'.bound slot r (h.bound slot r hb)
  has hv := h'.has (hne _ hv.owns) (h.has hv)
  boundV slot r hb := h'.boundV slot r (h.boundV slot r hb)
  hasV hv := h'.hasV (h.hasV hv)

/-! ## Moving slots -/

theorem CarryIs.of_frame {cls : RegClass} {carry : Carry} {b : Bool} (h : CarryIs carry m b)
    (hf : Frame cls m m') : CarryIs carry m' b := by
  cases carry with
  | inGuestState => exact (hf.cell .xerCa (by simp [Cell.cls])).trans h
  | inHostCarry => exact (congrArg Flags.c hf.flags).trans h
  | constantTrue | constantFalse => exact h

theorem Around.of_frame {cls : RegClass} (h : Around s c m) (hf : Frame cls m m') :
    Around s c m' where
  stack := hf.stack.trans h.stack
  flush := hf.flush.trans h.flush
  interpreter := hf.interpreter.trans h.interpreter
  soOv := (hf.cell .xerSoOv (by simp [Cell.cls])).trans h.soOv
  fpscr := (hf.cell .fpscr (by simp [Cell.cls])).trans h.fpscr

/-- Floating-point slots do not notice what happens to integer slots. -/
theorem Sim.vecs_of_frame (h : Sim s u c e m) (hf : Frame .general m m') :
    Cache.At s.vecs e.vectors.cache m' c.ps u.floats.usage := by
  apply h.vecs.of_frame (hf.on _ h.vecs.holds.on)
  · intro r _
    exact congrArg (fun bank => Bank.get bank r) (hf.v rfl)
  · intro slot
    exact hf.cell (.ps slot) (by simp [Cell.cls])

/-- Integer slots do not notice what happens to floating-point slots. -/
theorem Sim.ints_of_frame (h : Sim s u c e m) (hf : Frame .vector m m') :
    Cache.At s.ints e.integers m' c.slot u.ints := by
  apply h.ints.of_frame (hf.on _ h.ints.holds.on)
  · intro r _
    have hx := hf.x rfl
    simp only [Setting.ints, Home.integer, Machine.getX, hx]
  · intro slot
    have hc : (IntSlot.cell slot).cls ≠ some .vector := by
      rw [IntSlot.cls_cell]
      simp
    exact congrArg (BitVec.setWidth 64) (hf.cell _ hc)

theorem Frame.hasV_of_general (hf : Frame .general m m') {r : HostReg} {v : BitVec 128}
    (h : m.getV r = v) : m'.getV r = v :=
  (congrArg (fun bank => Bank.get bank r) (hf.v rfl)).trans h

theorem run_requestInteger {request : Access 40 → Cache 40 → Except (Refusal 40) (Grant 40)}
    {grant : Grant 40} (hok : request (.integer e.layout) e.integers = .ok grant) :
    (requestInteger request).run.run e =
      (.ok grant.reg, { e with integers := grant.cache, code := e.code.emitAll grant.code }) := by
  unfold requestInteger
  rw [run_get_bind, hok]
  rfl

/-- What a request for a general register leads to. -/
theorem Sim.requestInteger_spec {iu : Usage 40} (h : Sim s u c e m)
    {request : Access 40 → Cache 40 → Except (Refusal 40) (Grant 40)} {grant : Grant 40}
    (hok : request s.ints.access e.integers = .ok grant)
    (hstep : Cache.Step s.ints e.integers m grant.code grant.cache m')
    (hat : Cache.At s.ints grant.cache m' c.slot iu) {Q : HostReg → Emitter → Machine → Prop}
    (hq : ∀ e', Sim s { u with ints := iu } c e' m' → Keeps e m e' m' →
      e'.integers = grant.cache → Q grant.reg e' m') :
    wp (requestInteger request) Q e m := by
  have hok' : request (.integer e.layout) e.integers = .ok grant := by
    rw [h.fixed.layout]
    exact hok
  refine ⟨_, _, m', run_requestInteger hok', .emitAll h.fixed.code hstep.exec, hq _ ?_ ?_ rfl⟩
  · exact
      { fixed := { h.fixed with code := h.fixed.code.emitAll _ }
        around := h.around.of_frame hstep.frame
        ints := hat
        vecs := h.vecs_of_frame hstep.frame
        ca := fun b hb => (h.ca b hb).of_frame hstep.frame }
  · refine ⟨hstep.keeps.bound, ?_, fun _ _ hb => hb, ?_⟩
    · intro r v hv
      have := hstep.keeps.has r v ⟨hv.owns, hv.val⟩
      exact ⟨this.1, this.2⟩
    · intro r v hv
      exact ⟨hv.owns, Frame.hasV_of_general hstep.frame hv.val⟩

section Slots

variable {k : Nat} {held locked : RegSet} {hole : Option IntSlot} {carry : Carry} {f : FloatStage}

/-- A read gives a register with the value of the slot. -/
theorem Sim.readSlot_spec (h : Sim s ⟨⟨k + 1, held, locked, none⟩, carry, f⟩ c e m)
    (slot : IntSlot) : wp (readSlot slot) (fun r e' m' =>
      Sim s ⟨⟨k, held, locked, none⟩, carry, f⟩ c e' m' ∧ Keeps e m e' m' ∧
        e'.Has m' r (c.slot slot) ∧ e'.integers.Bound slot r) e m := by
  obtain ⟨grant, m', hok, hstep, hat, hb, -⟩ := h.ints.read slot
  refine h.requestInteger_spec hok hstep hat ?_
  intro e' h' hk he
  refine ⟨h', hk, ?_, he ▸ hb⟩
  have := hat.has hb (by simp)
  exact ⟨he ▸ this.1, this.2⟩

theorem Sim.readGpr_spec (h : Sim s ⟨⟨k + 1, held, locked, none⟩, carry, f⟩ c e m)
    (reg : GuestReg) : wp (readGpr reg) (fun r e' m' =>
      Sim s ⟨⟨k, held, locked, none⟩, carry, f⟩ c e' m' ∧ Keeps e m e' m' ∧
        e'.Has m' r (ofWord (c.gpr reg)) ∧ e'.integers.Bound (IntSlot.gpr reg) r) e m := by
  have := h.readSlot_spec (.gpr reg)
  rwa [Contents.slot_gpr] at this

/-- A write gives a register for the slot, with the old value if that is kept. The slot has no value
until the register is written. The flags stay. -/
theorem Sim.writeSlot_flags (h : Sim s ⟨⟨k + 1, held, locked, none⟩, carry, f⟩ c e m)
    (slot : IntSlot) (keep : Bool) : wp (writeSlot slot keep) (fun r e' m' =>
      (Sim s ⟨⟨k, held, locked, some slot⟩, carry, f⟩ c e' m' ∧ Keeps e m e' m' ∧
        e'.integers.Bound slot r ∧ (keep = true → m'.getX r = c.slot slot)) ∧
      m'.flags = m.flags) e m := by
  obtain ⟨grant, m', hok, hstep, hat, hb, hkeep⟩ := h.ints.write slot keep
  refine h.requestInteger_spec hok hstep hat ?_
  intro e' h' hk he
  exact ⟨⟨h', hk, he ▸ hb, hkeep⟩, hstep.frame.flags⟩

theorem Sim.writeSlot_spec (h : Sim s ⟨⟨k + 1, held, locked, none⟩, carry, f⟩ c e m)
    (slot : IntSlot) (keep : Bool) : wp (writeSlot slot keep) (fun r e' m' =>
      Sim s ⟨⟨k, held, locked, some slot⟩, carry, f⟩ c e' m' ∧ Keeps e m e' m' ∧
        e'.integers.Bound slot r ∧ (keep = true → m'.getX r = c.slot slot)) e m :=
  wp_mono (h.writeSlot_flags slot keep) fun _ _ _ hq => hq.1

/-- A scratch register is none of those that the instruction relies on. -/
theorem Sim.scratch_spec (h : Sim s ⟨⟨k + 1, held, locked, hole⟩, carry, f⟩ c e m) :
    wp scratch (fun r e' m' =>
      Sim s ⟨⟨k, held.insert r, locked, hole⟩, carry, f⟩ c e' m' ∧ Keeps e m e' m' ∧
        held.contains r = false ∧ e'.integers.Owns r ∧ ∀ q, e.integers.Owns q → q ≠ r) e m := by
  obtain ⟨grant, m', hok, hstep, hat, hheld, hown, hne⟩ := h.ints.scratch
  refine h.requestInteger_spec hok hstep hat ?_
  intro e' h' hk he
  exact ⟨h', hk, hheld, he ▸ hown, hne⟩

theorem Sim.release_spec {r : HostReg}
    (h : Sim s ⟨⟨k, held.insert r, locked, hole⟩, carry, f⟩ c e m)
    (hr : held.contains r = false) : wp (release r) (fun _ e' m' =>
      Sim s ⟨⟨k + 1, held, locked, hole⟩, carry, f⟩ c e' m' ∧
        KeepsBut r e m e' m' ∧ m' = m) e m := by
  obtain ⟨hat, hhas⟩ := h.ints.release hr
  refine wp_modify rfl ⟨⟨{ h.fixed with }, h.around, hat, h.vecs, h.ca⟩, ⟨fun _ _ hb => hb, ?_,
    fun _ _ hb => hb, fun hv => ⟨hv.owns, hv.val⟩⟩, rfl⟩
  intro q v hq hv
  have := hhas q v hq ⟨hv.owns, hv.val⟩
  exact ⟨this.1, this.2⟩

end Slots

end Recompiler.Emit
