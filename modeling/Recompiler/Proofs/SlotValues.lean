import Recompiler.Proofs.Boundary
import Recompiler.Proofs.Tracking

/-!
# What slots stand for

An emitter says where each guest register is on the machine that runs the code so far, so together
they give it a value. `Emitter.Settled e m` says that the caches of `e` are in order on `m` and that
no instruction is under way. Each guest register then has the value of its slot, whatever the slot
is bound to.
-/

namespace Recompiler

open Alloc Arm Block Emit Lower PowerPC

/-! ## Values of bound slots -/

namespace Alloc.Cache

variable {n : Nat} {V : Type} {home : Home n V} {cache : Cache n} {m : Machine} {val : Fin n → V}
  {k : Nat} {held locked : RegSet}

/-- The value of a slot, by what it is bound to. -/
def value (home : Home n V) (cache : Cache n) (m : Machine) (slot : Fin n) : V :=
  match cache.binding slot with
  | .host reg => home.reg m reg
  | .constant value => home.imm value
  | .memory => home.mem m.state slot

theorem At.value_eq (h : At home cache m val ⟨k, held, locked, none⟩) (slot : Fin n) :
    cache.value home m slot = val slot := by
  have hopen : (none : Option (Fin n)) ≠ some slot := nofun
  unfold value
  cases hb : cache.binding slot with
  | host reg => exact h.holds.host slot reg hb hopen
  | constant value => exact (h.holds.constant slot value hb).symm
  | memory => exact h.holds.memory slot (h.ready.clean slot hb)

end Alloc.Cache

namespace Emit

/-- The value of a general register or condition field. -/
def Emitter.slotValue (e : Emitter) (m : Machine) (slot : IntSlot) : BitVec 64 :=
  match e.integers.binding slot with
  | .host reg => m.getX reg
  | .constant value => value
  | .memory => (m.state.fetch slot.cell).setWidth 64

def Emitter.gprValue (e : Emitter) (m : Machine) (reg : GuestReg) : BitVec 32 :=
  low (e.slotValue m (.gpr reg))

/-- The value of a condition field, decoded. -/
def Emitter.crValue (e : Emitter) (m : Machine) (field : CrField) : BitVec 4 :=
  Condition.decode (e.slotValue m (.cr field))

/-- The two lanes of a floating-point register. -/
def Emitter.fprValue (e : Emitter) (m : Machine) (reg : GuestReg) : BitVec 128 :=
  match e.vectors.cache.binding reg with
  | .host host => m.getV host
  | .constant value => join value value
  | .memory => m.state.fetch (.ps reg)

variable {s : Setting} {c : Contents} {e e' : Emitter} {m m' : Machine} {k kv : Nat} {carry : Carry}
  {f : FloatStage} {iu : Usage 40} {held locked : RegSet} {p : Bank 32 Precision}
  {pd : Bank 32 (Option Precision)}

theorem Sim.slotValue_eq (h : Sim s ⟨⟨k, held, locked, none⟩, carry, f⟩ c e m) :
    e.slotValue m = c.slot :=
  funext h.ints.value_eq

theorem Sim.gprValue_eq (h : Sim s ⟨⟨k, held, locked, none⟩, carry, f⟩ c e m) :
    e.gprValue m = c.gpr := by
  funext reg
  unfold Emitter.gprValue
  rw [h.slotValue_eq, Contents.slot_gpr, low_ofWord]

theorem Sim.crValue_eq (h : Sim s ⟨⟨k, held, locked, none⟩, carry, f⟩ c e m) (field : CrField) :
    e.crValue m field = Condition.decode (c.cr field) := by
  unfold Emitter.crValue
  rw [h.slotValue_eq, Contents.slot_cr]

theorem Sim.fprValue_eq (h : Sim s ⟨iu, carry, ⟨⟨kv, held, locked, none⟩, p, pd⟩⟩ c e m) :
    e.fprValue m = c.ps :=
  funext h.vecs.value_eq

/-! ## Emitters between instructions -/

/-- Nothing of a class is in use. -/
def idleUsage {n : Nat} {V : Type} (home : Home n V) : Usage n :=
  ⟨home.order.length, .empty, .empty, none⟩

/-- The caches of the emitter are in order on the machine and agree with its memory where they
should, and no instruction is under way: nothing is pinned, held, locked or pending. -/
structure Emitter.Settled (e : Emitter) (m : Machine) : Prop where
  accepted : Accepted e.config e.layout
  code : e.code.Ok
  pending : e.vectors.pending = .replicate 32 none
  stack : m.stack = []
  ints : Cache.At (.integer accepted) e.integers m (e.slotValue m) (idleUsage (.integer accepted))
  vecs : Cache.At (.vector accepted) e.vectors.cache m (e.fprValue m) (idleUsage (.vector accepted))

/-- The contents that emitter and machine stand for. -/
def Emitter.contents (e : Emitter) (m : Machine) (ca : Option Bool) : Contents where
  gpr := e.gprValue m
  cr field := e.slotValue m (.cr field)
  ps := e.fprValue m
  ca
  soOv := m.state.fetch .xerSoOv
  fpscr := m.state.fetch .fpscr

namespace Emitter.Settled

/-- The setting of a settled emitter. -/
def setting (h : e.Settled m) : Setting :=
  ⟨e.config, e.layout, h.accepted, e.word, e.hints, e.next, m.flush, m.interpreter⟩

theorem slot_contents (h : e.Settled m) (ca : Option Bool) :
    (e.contents m ca).slot = e.slotValue m := by
  funext slot
  rcases slot.eq_gpr_or_cr with ⟨reg, rfl⟩ | ⟨field, rfl⟩
  · have hfits : IntSlot.Fits (.gpr reg) (e.slotValue m (.gpr reg)) :=
      h.ints.holds.fits (IntSlot.gpr reg) nofun
    unfold IntSlot.Fits at hfits
    rw [IntSlot.cell_gpr] at hfits
    rw [Contents.slot_gpr]
    exact hfits
  · exact Contents.slot_cr _ _

/-- A settled emitter stands for the values of its slots. -/
theorem boundary (h : e.Settled m) {ca : Option Bool}
    (hca : ∀ b, ca = some b → CarryIs e.carry m b) :
    Boundary h.setting e.carry e.vectors.precision (e.contents m ca) e m where
  fixed := ⟨rfl, rfl, rfl, rfl, rfl, rfl, h.pending, rfl, h.code⟩
  around := ⟨h.stack, rfl, rfl, rfl, rfl⟩
  ints := by
    have hidle :
        (h.setting.rest e.carry e.vectors.precision).ints = idleUsage (.integer h.accepted) := by
      unfold Setting.rest Setting.idle
      rw [Home.beside_empty]
      rfl
    rw [h.slot_contents, hidle]
    exact h.ints
  vecs := h.vecs
  ca := hca

/-- Between instructions an emitter is settled. -/
theorem of_boundary (h : Boundary s carry p c e m) : e.Settled m := by
  obtain ⟨config, layout, accepted, word, hints, next, flush, interpreter⟩ := s
  obtain rfl : e.config = config := h.fixed.config
  obtain rfl : e.layout = layout := h.fixed.layout
  have hslots : e.slotValue m = c.slot := Sim.slotValue_eq h
  have hfloats : e.fprValue m = c.ps := Sim.fprValue_eq h
  refine ⟨accepted, h.fixed.code, h.fixed.pending, h.around.stack, ?_, ?_⟩
  · rw [hslots]
    have hints := h.ints
    unfold Setting.rest Setting.idle at hints
    rw [Home.beside_empty] at hints
    exact hints
  · rw [hfloats]
    exact h.vecs

/-- A new emitter has everything in memory. -/
theorem new {config : Config} {layout : Layout} (haccepted : Accepted config layout)
    (hon : m.state.On layout) (hstack : m.stack = []) : (Emitter.new config layout).Settled m :=
  let s : Setting := ⟨config, layout, haccepted, 0, {}, none, m.flush, m.interpreter⟩
  of_boundary (Boundary.start (s := s) ⟨hon, hstack, rfl, rfl⟩)

/-- Another word or carry makes no difference. -/
theorem reading (h : e.Settled m) (word : Word) (carry : Carry) :
    Emitter.Settled { e with word, carry } m :=
  ⟨h.accepted, h.code, h.pending, h.stack, h.ints, h.vecs⟩

end Emitter.Settled

/-! ## Results -/

/-- The code between `e` and `e'` leaves a value in a general register, and its sign in condition
field 0 if it is recorded. No other register changes. -/
structure Emitter.Writes (e : Emitter) (m : Machine) (dst : GuestReg) (value : BitVec 32)
    (e' : Emitter) (m' : Machine) : Prop where
  runs : e.code.Runs e'.code m m'
  result : e'.gprValue m' dst = value
  recorded : e.word.rc = true → e'.crValue m' 0 = Condition.ofSign value
  slots : ∀ slot, slot ≠ .gpr dst → (e.word.rc = true → slot ≠ .cr 0) →
    e'.slotValue m' slot = e.slotValue m slot
  floats : e'.fprValue m' = e.fprValue m

theorem Contents.slot_written (c : Contents) {dst : GuestReg} {value : BitVec 32} {rc : Bool}
    {ca : Option Bool} {slot : IntSlot} (hdst : slot ≠ .gpr dst) (hrc : rc = true → slot ≠ .cr 0) :
    (((c.setGpr dst value).recorded rc value).setCa ca).slot slot = c.slot slot := by
  rw [Contents.slot_setCa]
  cases rc with
  | false => rw [recorded, if_neg Bool.false_ne_true, slot_setGpr, Function.update_of_ne hdst]
  | true =>
    rw [recorded, if_pos rfl, slot_setCr, Function.update_of_ne (hrc rfl), slot_setGpr,
      Function.update_of_ne hdst]

/-- An instruction that ends with a result written it and nothing else. -/
theorem Emitter.Settled.writes (h : e.Settled m) {dst : GuestReg} {value : BitVec 32}
    {ca ca' : Option Bool} (hruns : e.code.Runs e'.code m m')
    (hends : Sim h.setting ⟨⟨k, .empty, .empty, none⟩, carry, ⟨⟨kv, .empty, .empty, none⟩, p, pd⟩⟩
      ((((e.contents m ca).setGpr dst value).recorded e.word.rc value).setCa ca') e' m') :
    e.Writes m dst value e' m' where
  runs := hruns
  result := by
    have hself : Function.update (e.gprValue m) dst value dst = value := Function.update_self ..
    rw [hends.gprValue_eq]
    cases e.word.rc <;> exact hself
  recorded hrc := by
    rw [hends.crValue_eq, hrc]
    exact Condition.decode_ofResult value
  slots slot hdst hrc := by
    rw [hends.slotValue_eq, Contents.slot_written _ hdst hrc, h.slot_contents]
  floats := by
    rw [hends.fprValue_eq]
    cases e.word.rc <;> rfl

end Emit

end Recompiler
