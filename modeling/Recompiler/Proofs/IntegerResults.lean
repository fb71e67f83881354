import Recompiler.Proofs.BlockCode
import Recompiler.Proofs.LoweringCode
import Recompiler.Proofs.SlotValues

/-!
# Exact results of sums with carry, rotations and arithmetic shifts

Three families whose code depends on where their operands are: sums that take the carry in,
rotations under a mask, and arithmetic right shifts. From any settled emitter their code can be
emitted, and what it leaves in the destination, and in the carry where that is written, is given by
a formula in the values of the operands.
-/

namespace Recompiler.Emit

open Alloc Arm Block Lower PowerPC

variable {e e' : Emitter} {m m' : Machine}

/-- No floating-point register is in use. -/
def Emitter.floatsAtRest (e : Emitter) : FloatStage :=
  ⟨⟨(e.config.order .vector).length, .empty, .empty, none⟩, e.vectors.precision, .replicate 32 none⟩

/-- A settled emitter has the registers that an integer instruction needs. -/
theorem Emitter.Settled.sim (h : e.Settled m) {ca : Option Bool}
    (hca : ∀ b, ca = some b → CarryIs e.carry m b) :
    Sim h.setting ⟨⟨5, .empty, .empty, none⟩, e.carry, e.floatsAtRest⟩ (e.contents m ca) e m :=
  Sim.weaken (h.boundary hca) h.setting.five_le_idle

/-! ## Sums with carry -/

/-- `adde`, `addze`, `subfe` and `subfze` add up exactly, wherever operands and carry are. -/
theorem carried_sum_is_exact (h : e.Settled m) {b : Bool} (hb : CarryIs e.carry m b)
    (inverted second : Bool) :
    let x := if inverted then ~~~e.gprValue m e.word.ra else e.gprValue m e.word.ra
    let y := if second then e.gprValue m e.word.rb else 0
    ∃ e' m', (addExtended inverted second).run.run e = (.ok (), e') ∧
      e.Writes m e.word.rd (.ofNat 32 (x.toNat + y.toNat + b.toNat)) e' m' ∧
      (e.hints.wantsCa = true →
        CarryIs e'.carry m' (decide (2 ^ 32 ≤ x.toNat + y.toNat + b.toNat))) := by
  intro x y
  have hca : ∀ b', some b = some b' → CarryIs e.carry m b' := by
    rintro _ ⟨⟩
    exact hb
  obtain ⟨⟨⟩, e', m', hrun, hruns, sum, ca, ⟨k, carry, hends⟩, hsum⟩ :=
    (h.sim hca).addExtended_spec inverted second
  obtain ⟨rfl, rfl⟩ := hsum b rfl
  refine ⟨e', m', hrun, h.writes hruns hends, ?_⟩
  intro hwants
  have hcarry : e'.carry = carry := hends.fixed.carry
  rw [hcarry]
  exact hends.ca _ (if_pos hwants)

/-- The complement of zero and a carry in: the sum is zero, with a carry out. -/
theorem complement_and_carry_wrap :
    let m : Machine := { state := .zeros .standard }
    let e := { Emitter.new {} .standard with word := 0x7C642910, carry := .constantTrue }
    e.Settled m ∧ CarryIs e.carry m true ∧
    ∃ e' m', (addExtended true true).run.run e = (.ok (), e') ∧ e'.gprValue m' 3 = 0 ∧
      CarryIs e'.carry m' true := by
  intro m e
  have haccepted : Accepted {} .standard := rfl
  have h : e.Settled m :=
    (Emitter.Settled.new haccepted (State.On.zeros .standard) rfl).reading 0x7C642910 .constantTrue
  have hb : CarryIs e.carry m true := rfl
  obtain ⟨e', m', hrun, hwrites, hcarry⟩ := carried_sum_is_exact h hb true true
  have hx : e.gprValue m e.word.ra = 0 := by decide +kernel
  have hy : e.gprValue m e.word.rb = 0 := by decide +kernel
  have hd : e.word.rd = 3 := by decide
  have hresult := hwrites.result
  rw [hx, hy, hd] at hresult
  rw [hx, hy] at hcarry
  exact ⟨h, hb, e', m', hrun, hresult, hcarry rfl⟩

/-! ## Rotations under a mask -/

/-- What a rotation under a mask gives: the rotated source where the mask is set, elsewhere zeros or
the old destination. -/
def rotated (word : Word) (s b a : BitVec 32) : IntOp → Option (BitVec 32)
  | .rlwinm => some (s.rotateLeft word.sh &&& rotationMask word.mb word.me)
  | .rlwnm => some (s.rotateLeft (b.toNat % 32) &&& rotationMask word.mb word.me)
  | .rlwimi =>
    some ((s.rotateLeft word.sh &&& rotationMask word.mb word.me) |||
      (a &&& ~~~rotationMask word.mb word.me))
  | _ => none

/-- A bitfield move that is appended stays within a word. -/
theorem bitfield_fits {layout : Layout} {field : FieldOp} {dst src : HostReg} {lsb width : Nat}
    (h : Appendable Plain layout (.bitfield field dst src lsb width)) :
    lsb + width ≤ 32 ∧ 1 ≤ width := by
  rcases h with hplain | hbranch | ⟨-, routine, hcall⟩
  · obtain ⟨hfits, hwidth⟩ := Bool.and_eq_true_iff.1 hplain
    exact ⟨of_decide_eq_true hfits, of_decide_eq_true hwidth⟩
  · cases hbranch
  · cases hcall

/-- `rlwinm`, `rlwnm` and `rlwimi` compute their formulas whatever code is chosen for them, and no
bitfield move of that code reaches beyond a word. -/
theorem rotation_is_exact (h : e.Settled m) {op : IntOp} {value : BitVec 32}
    (hop : rotated e.word (e.gprValue m e.word.rd) (e.gprValue m e.word.rb)
      (e.gprValue m e.word.ra) op = some value) :
    ∃ e' m', (lowerInteger op).run.run e = (.ok (), e') ∧ e.Writes m e.word.ra value e' m' ∧
      ∀ region, ∃ added, (e'.code.code region).toList = (e.code.code region).toList ++ added ∧
        ∀ field dst src lsb width, .bitfield field dst src lsb width ∈ added →
          lsb + width ≤ 32 ∧ 1 ≤ width := by
  have hca : ∀ b, (none : Option Bool) = some b → CarryIs e.carry m b := nofun
  have hsim := h.sim hca
  have hspec : wp (lowerInteger op) (fun _ => Ends h.setting e.floatsAtRest
      (((e.contents m none).setGpr e.word.ra value).recorded e.word.rc value)) e m := by
    cases op with
    | rlwinm =>
      cases hop
      exact hsim.rlwinm_spec
    | rlwnm =>
      cases hop
      exact hsim.rlwnm_spec
    | rlwimi =>
      cases hop
      exact hsim.rlwimi_spec
    | _ => cases hop
  obtain ⟨⟨⟩, e', m', hrun, hruns, k, carry, hends⟩ := hspec
  have hkeeps : ((e.contents m none).setGpr e.word.ra value).recorded e.word.rc value =
      (((e.contents m none).setGpr e.word.ra value).recorded e.word.rc value).setCa none := by
    cases e.word.rc <;> rfl
  rw [hkeeps] at hends
  refine ⟨e', m', hrun, h.writes hruns hends, ?_⟩
  intro region
  obtain ⟨added, hcode, hin⟩ := (Emits.lowerInteger.moves hrun).added region
  exact ⟨added, hcode, fun _ _ _ _ _ hmem => bitfield_fits (hin _ hmem)⟩

/-- A rotated register inserted under a mask that wraps around, and recorded. -/
theorem insertion_under_wrapping_mask :
    let m : Machine := { state := (State.zeros .standard).put (.gpr 4) 0x12345678#32 }
    let e := { Emitter.new {} .standard with word := 0x50832707, carry := .inGuestState }
    e.Settled m ∧ rotated e.word (e.gprValue m e.word.rd) (e.gprValue m e.word.rb)
      (e.gprValue m e.word.ra) .rlwimi = some 0x20000001 ∧
    ∃ e' m', (lowerInteger .rlwimi).run.run e = (.ok (), e') ∧ e'.gprValue m' 3 = 0x20000001 ∧
      e'.crValue m' 0 = Condition.gt := by
  intro m e
  have haccepted : Accepted {} .standard := rfl
  have hput : ∀ state : State, state.On .standard → ({ state } : Machine).state.On .standard :=
    fun _ hon => hon
  have hon := hput _ ((State.On.zeros .standard).put Layout.valid_standard (.gpr 4) 0x12345678#32)
  have h : e.Settled m := (Emitter.Settled.new haccepted hon rfl).reading 0x50832707 .inGuestState
  have hvalue : rotated e.word (e.gprValue m e.word.rd) (e.gprValue m e.word.rb)
      (e.gprValue m e.word.ra) .rlwimi = some 0x20000001 := by decide +kernel
  obtain ⟨e', m', hrun, hwrites, -⟩ := rotation_is_exact h hvalue
  have hrecorded : e'.crValue m' 0 = Condition.gt :=
    (hwrites.recorded (by decide)).trans (by decide)
  have hdst : e.word.ra = 3 := by decide
  have hresult := hwrites.result
  rw [hdst] at hresult
  exact ⟨h, hvalue, e', m', hrun, hresult, hrecorded⟩

/-! ## Arithmetic shifts -/

/-- How far an arithmetic shift goes: by the low six bits of a register, or by a constant. -/
def shiftAmount (word : Word) (b : BitVec 32) : IntOp → Option Nat
  | .sraw => some (b.toNat % 64)
  | .srawi => some word.sh
  | _ => none

/-- `sraw` and `srawi` fill with the sign, also from 32 on, and their carry says whether a negative
operand lost a one, whichever code is chosen for them. -/
theorem arithmetic_shift_is_exact (h : e.Settled m) {op : IntOp} {n : Nat}
    (hop : shiftAmount e.word (e.gprValue m e.word.rb) op = some n) :
    let s := e.gprValue m e.word.rd
    ∃ e' m', (lowerInteger op).run.run e = (.ok (), e') ∧
      e.Writes m e.word.ra (s.sshiftRight n) e' m' ∧
      (e.hints.wantsCa = true →
        CarryIs e'.carry m' (s.msb && decide (s.toNat % 2 ^ min n 32 ≠ 0))) := by
  intro s
  have hca : ∀ b, (none : Option Bool) = some b → CarryIs e.carry m b := nofun
  have hsim := h.sim hca
  have hspec : wp (lowerInteger op) (fun _ => Ends h.setting e.floatsAtRest
      ((e.contents m none).shifted h.setting e.word.ra (shiftAlgebraic s n))) e m := by
    cases op with
    | sraw =>
      cases hop
      exact hsim.sraw_spec
    | srawi =>
      cases hop
      exact hsim.srawi_spec
    | _ => cases hop
  obtain ⟨⟨⟩, e', m', hrun, hruns, k, carry, hends⟩ := hspec
  refine ⟨e', m', hrun, h.writes hruns hends, ?_⟩
  intro hwants
  have hcarry : e'.carry = carry := hends.fixed.carry
  have hlost : (shiftAlgebraic s n).2 = (s.msb && decide (s.toNat % 2 ^ min n 32 ≠ 0)) := by
    rw [← Nat.one_shiftLeft]
    rfl
  rw [hcarry, ← hlost]
  exact hends.ca _ (if_pos hwants)

/-- A negative word shifted by a register that asks for 33: the sign is left, and the carry is set
because the top bit went out too. -/
theorem shift_beyond_word :
    let m : Machine := { state :=
      ((State.zeros .standard).put (.gpr 4) 0x80000000#32).put (.gpr 5) 0xFFFFFFE1#32 }
    let e := { Emitter.new {} .standard with word := 0x7C832E31, carry := .inGuestState }
    e.Settled m ∧ shiftAmount e.word (e.gprValue m e.word.rb) .sraw = some 33 ∧
    ∃ e' m', (lowerInteger .sraw).run.run e = (.ok (), e') ∧ e'.gprValue m' 3 = 0xFFFFFFFF ∧
      e'.crValue m' 0 = Condition.lt ∧ CarryIs e'.carry m' true := by
  intro m e
  have haccepted : Accepted {} .standard := rfl
  have hput : ∀ state : State, state.On .standard → ({ state } : Machine).state.On .standard :=
    fun _ hon => hon
  have hon := hput _ (((State.On.zeros .standard).put Layout.valid_standard (.gpr 4)
    0x80000000#32).put Layout.valid_standard (.gpr 5) 0xFFFFFFE1#32)
  have h : e.Settled m := (Emitter.Settled.new haccepted hon rfl).reading 0x7C832E31 .inGuestState
  have hn : shiftAmount e.word (e.gprValue m e.word.rb) .sraw = some 33 := by decide +kernel
  have hs : e.gprValue m e.word.rd = 0x80000000 := by decide +kernel
  have hdst : e.word.ra = 3 := by decide
  obtain ⟨e', m', hrun, hwrites, hcarry⟩ := arithmetic_shift_is_exact h hn
  have hresult := hwrites.result
  have hrecorded := hwrites.recorded (by decide)
  rw [hs, hdst] at hresult
  rw [hs] at hrecorded hcarry
  exact ⟨h, hn, e', m', hrun, hresult, hrecorded, hcarry rfl⟩

end Recompiler.Emit
