import Recompiler.Lower.Op
import Recompiler.Proofs.EmittedCode
import Recompiler.Proofs.Lower.Rotate

/-!
# What lowering adds to the code

Code of a lowered word never leaves the block nor asks for the interpreter, all its calls are
counted, and its bitfield moves stay within a word. `Emits.lower` says so for every family.
-/

namespace Recompiler

open Alloc Arm Block Emit Lower PowerPC

/-- Instructions other than calls and exits; a bitfield move takes some bits within a word. -/
def Arm.Inst.plain : Inst → Bool
  | .call _ | .interpret _ | .exit => false
  | .bitfield _ _ _ lsb width => lsb + width ≤ 32 && 1 ≤ width
  | _ => true

namespace Emit

/-- Plain instructions, whatever the layout, calls and moves of the carry. -/
def Plain : Permits := ⟨fun _ i => i.plain = true, True, True⟩

instance : Allows Plain where
  computes {layout i} h := by
    cases i <;> first | rfl | exact h
  integer {layout i} h := by
    cases h with
    | load | store => rfl
    | constant slot reg value =>
      unfold Plain Access.integer IntSlot.constant
      dsimp only
      split <;> rfl
  vector {layout i} h := by
    cases h <;> rfl
  status := rfl
  calls := trivial

/-- The carry has been stored. -/
theorem Emitter.moves_stored {e : Emitter} : e.Moves Plain { e with
    carry := .inGuestState
    stats := { e.stats with carryFlushes := e.stats.carryFlushes + 1 } } :=
  .tail (.single (.aside e.integers e.vectors e.stats.constantFolds (e.stats.carryFlushes + 1)))
    (.carry .inGuestState trivial)

namespace Emits

/-! ## Words that leave the carry alone

Their code touches neither the carry nor the flags. -/

section Silent

variable {P : Permits}

theorem rightConstant? {word : Word} {signed : Bool} :
    ∀ {immediate : Bool}, Emits P (rightConstant? word signed immediate)
  | true => .pure _
  | false => gprConstant?

variable [AllowsSilent P]

/-! ### Sums -/

theorem addImm {shifted : Bool} : Emits P (addImm shifted) :=
  .bind currentWord fun _ => ite (fun _ => foldGpr) fun _ => .bind gprConstant? fun
    | some _ => foldGpr
    | none => ite (fun _ => .pure ()) fun _ =>
        .bind readGpr fun _ => .bind writeGpr fun _ => emitAddConstant

theorem add : Emits P add := by
  refine .bind currentWord fun _ => .bind source fun _ => .bind source fun _ => ?_
  split
  · exact fold
  · exact .bind writeGpr fun _ => .bind emitAddConstant fun _ => record
  · exact .bind writeGpr fun _ => .bind emitAddConstant fun _ => record
  · exact .bind writeGpr fun _ => .bind (silent rfl) fun _ => record

theorem subf : Emits P subf := by
  refine .bind currentWord fun _ => ite (fun _ => fold) fun _ =>
    .bind gprConstant? fun _ => .bind gprConstant? fun _ => ?_
  split
  · exact fold
  · exact .bind readGpr fun _ => .bind writeGpr fun _ => .bind emitAddConstant fun _ => record
  · exact ite
      (fun _ => .bind readGpr fun _ => .bind writeGpr fun _ => .bind (silent rfl) fun _ => record)
      fun _ => .bind readGpr fun _ => .bind readGpr fun _ => .bind writeGpr fun _ =>
        .bind (silent rfl) fun _ => record

theorem neg : Emits P neg :=
  .bind currentWord fun _ => .bind gprConstant? fun
    | some _ => fold
    | none => .bind readGpr fun _ => .bind writeGpr fun _ => .bind (silent rfl) fun _ => record

/-! ### Logic and compares -/

theorem startCompare {signed : Bool} {field ra : HostReg} :
    Emits P (startCompare signed field ra) := silent rfl

theorem compareConstant {signed : Bool} {crf : CrField} {a : GuestReg} {b : BitVec 32} :
    Emits P (compareConstant signed crf a b) :=
  .bind readGpr fun _ => .bind writeCr fun _ => .bind startCompare fun _ =>
    ite (fun _ => silent rfl) fun _ => .pure ()

theorem compareRegs {signed : Bool} {crf : CrField} {a b : GuestReg} :
    Emits P (compareRegs signed crf a b) :=
  .bind readGpr fun _ => .bind readGpr fun _ => .bind writeCr fun _ => .bind startCompare fun _ =>
    ite (fun _ => .bind scratch fun _ => .bind (silent rfl) fun _ =>
      .bind (silent rfl) fun _ => release)
      fun _ => silent rfl

theorem integerCompare {signed immediate : Bool} : Emits P (integerCompare signed immediate) := by
  refine .bind currentWord fun _ => .bind gprConstant? fun _ => .bind rightConstant? fun _ => ?_
  split
  · exact setSlotConstant
  · exact compareConstant
  · exact compareRegs

theorem logicImm {op : ImmLogic} {shifted : Bool} : Emits P (logicImm op shifted) := by
  refine .bind currentWord fun _ => .bind gprConstant? fun _ => ?_
  dsimp only
  split
  · exact .bind foldGpr fun _ => ite (fun _ => recordConstant) fun _ => .pure ()
  · exact ite
      (fun _ => ite (fun _ => .pure ()) fun _ => .bind readGpr fun _ => .bind writeGpr fun _ =>
        silent rfl)
      fun _ => .bind readGpr fun _ => .bind writeGpr fun _ => .bind (silent rfl) fun _ =>
        ite (fun _ => recordReg) fun _ => .pure ()

theorem finishBool {op : BoolOp} {dst : HostReg} : Emits P (finishBool op dst) :=
  ite (fun _ => .bind (silent rfl) fun _ => record) fun _ => record

theorem boolSame {dst src : GuestReg} : ∀ {op : BoolOp}, Emits P (boolSame op dst src)
  | .and | .or => moveGpr
  | .nand | .nor =>
    .bind readGpr fun _ => .bind writeGpr fun _ => .bind (silent rfl) fun _ => record
  | .orc | .eqv | .andc | .xor => fold

theorem boolConstant {op : BoolOp} {dst src : GuestReg} {imm : BitVec 32} :
    Emits P (boolConstant op dst src imm) :=
  .bind readGpr fun _ => .bind writeGpr fun _ => .bind (silent rfl) fun _ => finishBool

theorem boolRegs {op : BoolOp} {dst s b : GuestReg} : Emits P (boolRegs op dst s b) :=
  .bind readGpr fun _ => .bind readGpr fun _ => .bind writeGpr fun _ => .bind (silent rfl) fun _ =>
    finishBool

theorem bool {op : BoolOp} : Emits P (Lower.bool op) := by
  refine .bind currentWord fun _ => .bind gprConstant? fun _ => .bind gprConstant? fun _ => ?_
  split
  · exact fold
  · refine ite (fun _ => boolSame) fun _ => ?_
    split
    · exact boolConstant
    · exact ite (fun _ => boolConstant) fun _ => boolRegs
    · exact boolRegs

theorem unary {op : PowerPC.UnaryOp} : Emits P (unary op) :=
  .bind currentWord fun _ => .bind gprConstant? fun
    | some _ => fold
    | none => .bind readGpr fun _ => .bind writeGpr fun _ => .bind (silent rfl) fun _ => record

/-! ### Products and quotients -/

theorem mulli : Emits P mulli :=
  .bind currentWord fun _ => .bind gprConstant? fun
    | some _ => foldGpr
    | none => ite (fun _ => foldGpr) fun _ => .bind readGpr fun _ => ite
        (fun _ => ite (fun _ => .pure ()) fun _ => .bind writeGpr fun _ => silent rfl)
        fun _ => .bind scratchConstant fun _ => .bind writeGpr fun _ => .bind (silent rfl) fun _ =>
          release

theorem mulRegs {op : MulOp} {dst a b : GuestReg} : Emits P (mulRegs op dst a b) := by
  refine .bind readGpr fun _ => .bind readGpr fun _ => .bind writeGpr fun _ => ?_
  cases op with
  | low => exact .bind (silent rfl) fun _ => record
  | highSigned => exact .bind (silentAll rfl) fun _ => record
  | highUnsigned => exact .bind (silentAll rfl) fun _ => record

theorem mul {op : MulOp} : Emits P (mul op) := by
  refine .bind currentWord fun _ => .bind gprConstant? fun _ => .bind gprConstant? fun _ => ?_
  split
  · exact fold
  · exact mulRegs

theorem divideByPower {dst a : GuestReg} {n : Nat} : Emits P (divideByPower dst a n) :=
  .bind readGpr fun _ => .bind writeGpr fun _ => ite (fun _ => .bind emitMove fun _ => record)
    fun _ => .bind (silent rfl) fun _ => record

theorem divideUnsigned {dst a b : GuestReg} : Emits P (divideUnsigned dst a b) :=
  .bind readGpr fun _ => .bind readGpr fun _ => .bind writeGpr fun _ => .bind (silent rfl) fun _ =>
    record

theorem divwu : Emits P divwu := by
  refine .bind currentWord fun _ => .bind gprConstant? fun _ => .bind gprConstant? fun _ => ?_
  split
  · exact fold
  · refine ite (fun _ => fold) fun _ => ?_
    split
    · exact divideByPower
    · exact divideUnsigned
  · exact divideUnsigned

/-! ### Shifts -/

theorem shiftBy {left : Bool} {dst src : GuestReg} {n : Nat} :
    Emits P (shiftBy left dst src n) :=
  .bind readGpr fun _ => .bind writeGpr fun _ => .bind (silent rfl) fun _ => record

theorem shiftByReg {left : Bool} {dst s b : GuestReg} : Emits P (shiftByReg left dst s b) :=
  .bind readGpr fun _ => .bind readGpr fun _ => .bind writeGpr fun _ => ite
    (fun _ => .bind (silentAll rfl) fun _ => record) fun _ => .bind (silent rfl) fun _ => record

theorem shift {left : Bool} : Emits P (shift left) := by
  refine .bind currentWord fun _ => .bind gprConstant? fun _ => .bind gprConstant? fun _ => ?_
  split
  · exact fold
  · exact ite (fun _ => fold) fun _ => ite (fun _ => moveGpr) fun _ => shiftBy
  · exact shiftByReg

/-! ### Rotations under a mask -/

theorem bitfield {op : FieldOp} {dst src : HostReg} {lsb width : Nat} (h : lsb + width ≤ 32)
    (hwidth : 1 ≤ width) : Emits P (Emit.emit (.bitfield op dst src lsb width)) := by
  have hfits : (lsb + width ≤ 32 && 1 ≤ width) = true :=
    Bool.and_eq_true_iff.2 ⟨decide_eq_true h, decide_eq_true hwidth⟩
  exact silent (Bool.and_eq_true_iff.2 ⟨hfits, rfl⟩)

theorem rotateMask {dst src : GuestReg} {sh : Nat} {mask : BitVec 32} :
    Emits P (rotateMask dst src sh mask) := by
  refine .bind gprConstant? fun constant => ?_
  split
  · exact fold
  · refine ite (fun _ => moveGpr) fun _ => .bind readGpr fun _ => ite
      (fun _ => .bind writeGpr fun _ => .bind (silent rfl) fun _ => record)
      fun _ => ite (fun _ => .bind writeGpr fun _ => .bind (silent rfl) fun _ => record)
      fun _ => ?_
    split
    · next hfield =>
      obtain ⟨hfits, hwidth⟩ := fieldMove_within hfield
      exact .bind writeGpr fun _ => .bind (bitfield hfits hwidth) fun _ => record
    · exact .bind scratchConstant fun _ => .bind writeGpr fun _ => .bind (silent rfl) fun _ =>
        .bind release fun _ => record

theorem rotateByReg {dst s b : GuestReg} {mask : BitVec 32} :
    Emits P (rotateByReg dst s b mask) := by
  refine .bind readGpr fun _ => .bind readGpr fun _ => .bind scratch fun _ =>
    .bind (silent rfl) fun _ => .bind (silent rfl) fun _ => .bind writeGpr fun _ =>
      .bind ?_ fun _ => .bind release fun _ => record
  split <;> exact silent rfl

theorem rlwinm : Emits P rlwinm := .bind currentWord fun _ => rotateMask

theorem rlwnm : Emits P rlwnm :=
  .bind currentWord fun _ => .bind gprConstant? fun
    | some _ => rotateMask
    | none => rotateByReg

theorem insertConstant {dst : GuestReg} {mask bits : BitVec 32} :
    Emits P (insertConstant dst mask bits) :=
  .bind writeGpr fun _ => .bind (silent rfl) fun _ => ite
    (fun _ => .bind (silent rfl) fun _ => record) fun _ => record

theorem insertField {dst : GuestReg} {rs : HostReg} {sh mb me : Nat} (hle : mb ≤ me)
    (hme : me < 32) : Emits P (insertField dst rs sh mb me) := by
  have hfield : ∀ temp : Option HostReg, Emits P (do
      let ra ← Emit.writeGpr dst true
      Emit.emit (.bitfield .bfi ra (temp.getD rs) (31 - me) (me - mb + 1))
      Lower.releaseHeld temp
      Lower.record ra) := fun _ => .bind writeGpr fun _ =>
    .bind (bitfield (by omega) (by omega)) fun _ => .bind releaseHeld fun _ => record
  exact ite (fun _ => .bind (.pure _) hfield)
    fun _ => .bind scratch fun _ => .bind (silent rfl) fun _ => .bind (.pure _) hfield

theorem insertWrapping {dst : GuestReg} {rs : HostReg} {sh : Nat} {mask : BitVec 32} :
    Emits P (insertWrapping dst rs sh mask) :=
  .bind writeGpr fun _ => .bind scratch fun _ => .bind scratch fun _ => .bind (silent rfl) fun _ =>
    .bind (silent rfl) fun _ => .bind (silent rfl) fun _ => .bind (silent rfl) fun _ =>
      .bind release fun _ => .bind release fun _ => record

theorem insertRotated {dst src : GuestReg} {sh mb me : Nat} (hmb : mb < 32) (hme : me < 32) :
    Emits P (insertRotated dst src sh mb me) :=
  .bind readGpr fun _ => ite
    (fun h => .bind writeGpr fun _ =>
      .bind (bitfield (by unfold rightRotation; omega) (by omega)) fun _ => record)
    fun _ => ite (fun h => insertField h hme) fun _ => insertWrapping

theorem rlwimi : Emits P rlwimi := by
  refine .bind currentWord fun word => .bind gprConstant? fun _ => .bind gprConstant? fun _ => ?_
  split
  · exact fold
  · refine ite (fun _ => .bind readGpr fun _ => record) fun _ =>
      ite (fun _ => rotateMask) fun _ => ?_
    split
    · exact insertConstant
    · exact insertRotated (mb_lt word) (me_lt word)

end Silent

/-! ## The carry -/

theorem storeCarry {reg : HostReg} : Emits Plain (storeCarry reg) :=
  .bind get fun _ => emitOf fun _ => rfl

theorem flushCarry : Emits Plain flushCarry :=
  .bind get fun _ => by
    split
    · exact .pure ()
    · exact .bind (emit rfl) fun _ => .bind storeCarry fun _ => modify fun _ => Emitter.moves_stored
    · exact .bind (emit rfl) fun _ => .bind storeCarry fun _ => modify fun _ => Emitter.moves_stored
    · exact .bind storeCarry fun _ => modify fun _ => Emitter.moves_stored

theorem dropCarry : Emits Plain dropCarry := setCarry trivial

theorem carryFromFlags : Emits Plain carryFromFlags :=
  .bind get fun _ => ite
    (fun _ => .bind (setCarry trivial) fun _ => ite (fun _ => .pure ()) fun _ => flushCarry)
    fun _ => dropCarry

theorem carryFromReg {reg : HostReg} : Emits Plain (carryFromReg reg) :=
  .bind get fun _ => ite
    (fun _ => ite (fun _ => .bind (emit rfl) fun _ => setCarry trivial)
      fun _ => .bind storeCarry fun _ => setCarry trivial)
    fun _ => dropCarry

theorem loadCarryIntoFlags : Emits Plain loadCarryIntoFlags :=
  .bind scratch fun _ => .bind get fun _ => .bind (emit rfl) fun _ => .bind (emit rfl) fun _ =>
    .bind release fun _ => setCarry trivial

theorem flushAll : Emits Plain flushAll :=
  .bind flushCarry fun _ => .bind flushIntegers fun _ => flushVectors

theorem emitSub {dst a b : HostReg} : Emits Plain (emitSub dst a b) :=
  .bind wantsCa fun
    | true => emit rfl
    | false => emit rfl

theorem emitAdc {dst a b : HostReg} : Emits Plain (emitAdc dst a b) :=
  .bind wantsCa fun
    | true => emit rfl
    | false => emit rfl

theorem addConstantCarrying {dst src : HostReg} {value : BitVec 32} :
    Emits Plain (addConstantCarrying dst src value) :=
  .bind wantsCa fun
    | true => .bind (emit rfl) fun _ => carryFromFlags
    | false => .bind (emit rfl) fun _ => carryFromFlags

/-! ### Carrying sums -/

theorem addc : Emits Plain addc := by
  refine .bind currentWord fun _ => .bind source fun _ => .bind source fun _ => ?_
  split
  · exact .bind fold fun _ => carryConstant trivial
  · exact .bind writeGpr fun _ => .bind addConstantCarrying fun _ => record
  · exact .bind writeGpr fun _ => .bind addConstantCarrying fun _ => record
  · exact .bind writeGpr fun _ => .bind emitAdd fun _ => .bind carryFromFlags fun _ => record

theorem addCarryingImm {recording : Bool} : Emits Plain (addCarryingImm recording) :=
  .bind currentWord fun _ => .bind gprConstant? fun
    | some _ => .bind foldGpr fun _ => .bind (carryConstant trivial) fun _ =>
        ite (fun _ => recordConstant) fun _ => .pure ()
    | none => .bind readGpr fun _ => .bind writeGpr fun _ => .bind addConstantCarrying fun _ =>
        ite (fun _ => recordReg) fun _ => .pure ()

theorem subfc : Emits Plain subfc := by
  refine .bind currentWord fun _ => .bind gprConstant? fun _ => .bind gprConstant? fun _ => ?_
  split
  · exact .bind fold fun _ => carryConstant trivial
  · exact .bind readGpr fun _ => .bind readGpr fun _ => .bind writeGpr fun _ =>
      .bind emitSub fun _ => .bind carryFromFlags fun _ => record

theorem subfic : Emits Plain subfic :=
  .bind currentWord fun _ => .bind gprConstant? fun
    | some _ => .bind foldGpr fun _ => carryConstant trivial
    | none => .bind readGpr fun _ => ite
        (fun _ => .bind writeGpr fun _ => .bind (emit rfl) fun _ => carryConstant trivial)
        fun _ => ite
          (fun _ => .bind writeGpr fun _ => .bind wantsCa fun
            | true => .bind (emit rfl) fun _ => carryFromFlags
            | false => .bind (emit rfl) fun _ => carryFromFlags)
          fun _ => .bind scratchConstant fun _ => .bind writeGpr fun _ => .bind emitSub fun _ =>
            .bind release fun _ => carryFromFlags

theorem scratchCarry : Emits Plain scratchCarry :=
  .bind scratch fun _ => .bind get fun _ => .bind (emit rfl) fun _ => .pure _

theorem carryOfConstantSum {sum : BitVec 64} : Emits Plain (carryOfConstantSum sum) :=
  ite (fun _ => carryConstant trivial) fun _ => ite (fun _ => carryConstant trivial) fun _ =>
    .bind get fun _ => ite (fun _ => carryFromFlags) fun _ => .pure ()

theorem addCarryToConstants {dst : GuestReg} {x y : BitVec 32} :
    Emits Plain (addCarryToConstants dst x y) := by
  refine .bind get fun _ => ?_
  dsimp only
  split
  · exact .bind foldGpr fun _ => .bind (carryConstant trivial) fun _ => .pure _
  · exact ite
      (fun _ => .bind writeGpr fun _ => .bind (emit rfl) fun _ => .bind (emit rfl) fun _ =>
        .bind carryOfConstantSum fun _ => .pure _)
      fun _ => .bind scratchCarry fun _ => .bind writeGpr fun _ => .bind emitAddConstant fun _ =>
        .bind release fun _ => .bind carryOfConstantSum fun _ => .pure _

theorem addFlagToRegConstant {dst : GuestReg} {r : HostReg} {imm : BitVec 32} :
    Emits Plain (addFlagToRegConstant dst r imm) :=
  join (fun _ => .bind writeGpr fun _ => .bind emitAdc fun _ => .bind releaseHeld fun _ =>
      .bind carryFromFlags fun _ => .pure _)
    fun _ hrest => ite (fun _ => .bind (.pure _) hrest) fun _ => .bind (scratchConstant.map _) hrest

theorem addCarryToRegConstant {dst : GuestReg} {r : HostReg} {imm : BitVec 32} :
    Emits Plain (addCarryToRegConstant dst r imm) := by
  refine .bind get fun _ => ?_
  split
  · exact .bind writeGpr fun _ => ite
      (fun _ => .bind emitMove fun _ => .bind (carryConstant trivial) fun _ => .pure _)
      fun _ => .bind addConstantCarrying fun _ => .pure _
  · exact .bind writeGpr fun _ => ite
      (fun _ => .bind emitMove fun _ => .bind (carryConstant trivial) fun _ => .pure _)
      fun _ => .bind addConstantCarrying fun _ => .pure _
  · exact ite
      (fun _ => .bind scratchCarry fun _ => .bind writeGpr fun _ => .bind emitAdd fun _ =>
        .bind release fun _ => .bind carryFromFlags fun _ => .pure _)
      fun _ => .bind loadCarryIntoFlags fun _ => addFlagToRegConstant
  · exact addFlagToRegConstant

theorem carryIntoFlags : Emits Plain carryIntoFlags := by
  refine .bind get fun _ => ?_
  split
  · exact emit rfl
  · exact loadCarryIntoFlags
  · exact .pure ()
  · exact .pure ()

theorem addCarryToRegs {dst : GuestReg} {x y : HostReg} : Emits Plain (addCarryToRegs dst x y) :=
  .bind get fun _ => ite
    (fun _ => .bind writeGpr fun _ => .bind emitAdd fun _ => .bind carryFromFlags fun _ => .pure _)
    fun _ => .bind carryIntoFlags fun _ => .bind writeGpr fun _ => .bind emitAdc fun _ =>
      .bind carryFromFlags fun _ => .pure _

theorem complement : ∀ {operand : Source}, Emits Plain (complement operand)
  | .constant _ => .pure _
  | .reg _ => .bind scratch fun _ => .bind (emit rfl) fun _ => .pure _

/-- A sum that is folded or in a register. -/
theorem onSource {sum : EmitM Source} {finish : Source → EmitM Unit} (hsum : Emits Plain sum)
    (hconstant : ∀ value, Emits Plain (finish (.constant value)))
    (hreg : ∀ reg, Emits Plain (finish (.reg reg))) : Emits Plain (sum >>= finish) := by
  refine .bind hsum fun result => ?_
  cases result with
  | constant value => exact hconstant value
  | reg reg => exact hreg reg

theorem addExtended {inverted second : Bool} : Emits Plain (addExtended inverted second) := by
  have hfolded : ∀ {temp : Option HostReg} (value : BitVec 32), Emits Plain (do
      Lower.releaseHeld temp
      Lower.recordFolded value) := fun _ => .bind releaseHeld fun _ => recordFolded
  have hrecord : ∀ {temp : Option HostReg} (reg : HostReg), Emits Plain (do
      Lower.releaseHeld temp
      Lower.record reg) := fun _ => .bind releaseHeld fun _ => record
  refine .bind currentWord fun _ => .bind source fun _ => join ?_
    fun _ hrest => ite (fun _ => .bind complement hrest) fun _ => .bind (.pure _) hrest
  rintro ⟨x, temp⟩
  refine join (fun y => ?_)
    fun _ hrest => ite (fun _ => .bind source hrest) fun _ => .bind (.pure _) hrest
  dsimp only
  split
  · exact onSource addCarryToConstants hfolded hrecord
  · exact onSource addCarryToRegConstant hfolded hrecord
  · exact onSource addCarryToRegConstant hfolded hrecord
  · exact onSource addCarryToRegs hfolded hrecord

/-! ### Checked quotients -/

theorem divideChecked {dst a b : GuestReg} : Emits Plain (divideChecked dst a b) :=
  .bind flushCarry fun _ => .bind readGpr fun _ => .bind readGpr fun _ => .bind scratch fun _ =>
  .bind writeGpr fun _ => .bind newLabel fun _ => .bind newLabel fun _ => .bind newLabel fun _ =>
  .bind (branchTo rfl) fun _ => .bind (emit rfl) fun _ => .bind (emit rfl) fun _ =>
  .bind (branchTo rfl) fun _ => .bind (emit rfl) fun _ => .bind (branchTo rfl) fun _ =>
  .bind placeLabel fun _ => .bind (emit rfl) fun _ => .bind (branchTo rfl) fun _ =>
  .bind placeLabel fun _ => .bind (emit rfl) fun _ => .bind placeLabel fun _ =>
  .bind release fun _ => record

theorem divideByConstant {dst a b : GuestReg} {divisor : BitVec 32} :
    Emits Plain (divideByConstant dst a b divisor) :=
  ite (fun _ => .bind readGpr fun _ => .bind writeGpr fun _ => .bind (emit rfl) fun _ => record)
    fun _ => ite (fun _ => divideChecked) fun _ => .bind readGpr fun _ =>
      .bind scratchConstant fun _ => .bind writeGpr fun _ => .bind (emit rfl) fun _ =>
        .bind release fun _ => record

theorem divw : Emits Plain divw := by
  refine .bind currentWord fun _ => .bind gprConstant? fun _ => .bind gprConstant? fun _ => ?_
  split
  · exact fold
  · exact divideByConstant
  · exact divideChecked

/-! ### Algebraic shifts -/

theorem carryFromCommonBits {temp a b : HostReg} : Emits Plain (carryFromCommonBits temp a b) :=
  .bind (emit rfl) fun _ => .bind (emit rfl) fun _ => .bind carryFromReg fun _ => release

theorem shiftAlgebraicBy {dst src : GuestReg} {n : Nat} :
    Emits Plain (shiftAlgebraicBy dst src n) :=
  .bind gprConstant? fun
    | some _ => .bind fold fun _ => carryConstant trivial
    | none => ite (fun _ => .bind moveGpr fun _ => carryConstant trivial) fun _ =>
        .bind readGpr fun _ => .bind wantsCa fun _ => ite
          (fun _ => .bind scratch fun _ => .bind (emit rfl) fun _ => .bind writeGpr fun _ =>
            .bind (emit rfl) fun _ => .bind carryFromCommonBits fun _ => record)
          fun _ => .bind writeGpr fun _ => .bind (emit rfl) fun _ => .bind dropCarry fun _ => record

theorem shiftAlgebraicOut {dst src : GuestReg} : Emits Plain (shiftAlgebraicOut dst src) :=
  .bind readGpr fun _ => .bind wantsCa fun _ => ite
    (fun _ => .bind scratch fun _ => .bind (emit rfl) fun _ => .bind writeGpr fun _ =>
      .bind (emit rfl) fun _ => .bind carryFromReg fun _ => .bind release fun _ => record)
    fun _ => .bind writeGpr fun _ => .bind (emit rfl) fun _ => .bind dropCarry fun _ => record

theorem shiftAlgebraicByReg {dst s b : GuestReg} : Emits Plain (shiftAlgebraicByReg dst s b) :=
  .bind readGpr fun _ => .bind readGpr fun _ => .bind scratch fun _ => .bind (emit rfl) fun _ =>
    .bind (emit rfl) fun _ => .bind writeGpr fun _ => .bind (emit rfl) fun _ =>
      .bind wantsCa fun _ =>
      ite (fun _ => .bind carryFromCommonBits fun _ => record)
        fun _ => .bind dropCarry fun _ => .bind release fun _ => record

theorem srawi : Emits Plain srawi := .bind currentWord fun _ => shiftAlgebraicBy

theorem sraw : Emits Plain sraw := by
  refine .bind currentWord fun _ => .bind gprConstant? fun _ => .bind gprConstant? fun _ => ?_
  split
  · exact .bind fold fun _ => carryConstant trivial
  · exact ite (fun _ => shiftAlgebraicOut) fun _ => shiftAlgebraicBy
  · exact shiftAlgebraicByReg

theorem lowerInteger : ∀ {op : IntOp}, Emits Plain (lowerInteger op)
  | .addImm _ => addImm
  | .addCarryingImm _ => addCarryingImm
  | .subfic => subfic
  | .mulli => mulli
  | .logicImm _ _ => logicImm
  | .compare _ _ => integerCompare
  | .rlwimi => rlwimi
  | .rlwinm => rlwinm
  | .rlwnm => rlwnm
  | .shift _ => shift
  | .sraw => sraw
  | .srawi => srawi
  | .bool _ => bool
  | .unary _ => unary
  | .add => add
  | .addc => addc
  | .addExtended _ _ => addExtended
  | .subf => subf
  | .subfc => subfc
  | .neg => neg
  | .mul _ => mul
  | .divw => divw
  | .divwu => divwu

/-! ## Floating point -/

/-- A program that brings the carry to memory first, and what it does then. -/
def Flushes (P : Permits) (prog : EmitM Unit) : Prop :=
  ∃ rest, prog = (Emit.flushCarry >>= fun _ => rest) ∧ Emits P rest

theorem of_flushes {prog : EmitM Unit} (h : Flushes Plain prog) : Emits Plain prog := by
  obtain ⟨rest, rfl, hrest⟩ := h
  exact .bind flushCarry fun _ => hrest

section Float

variable {P : Permits}

theorem releaseHeldVector : ∀ {temp : Option HostReg}, Emits P (releaseHeldVector temp)
  | some _ => releaseVector
  | none => .pure ()

theorem branchToOutcomes : ∀ {outcomes : List (Cond × BitVec 4)},
    Emits P (branchToOutcomes outcomes)
  | [] => .pure _
  | _ :: _ => .bind newLabel fun _ => .bind (branchTo rfl) fun _ => .bind branchToOutcomes fun _ =>
      .pure _

variable [Allows P]

theorem roundTo25 {dst src : HostReg} {lanes : Lanes} : Emits P (roundTo25 dst src lanes) :=
  ite (fun _ => .bind throw fun _ => emitAll rfl) fun _ => emitAll rfl

theorem roundedIf {rounding : Bool} {src : HostReg} {lanes : Lanes} :
    Emits P (roundedIf rounding src lanes) :=
  ite (fun _ => Emits.map (.bind scratchVector fun _ => .bind roundTo25 fun _ => .pure _) _)
    fun _ => .pure _

theorem readFprIf {used : Bool} {reg : GuestReg} {other : HostReg} :
    Emits P (readFprIf used reg other) := ite (fun _ => readFpr) fun _ => .pure _

theorem floatArith {form : FpForm} {op : FpArith} : Flushes P (floatArith form op) := by
  refine ⟨_, rfl, .bind get fun _ => .bind readFpr fun _ => .bind readFprIf fun _ =>
    .bind readFprIf fun _ => .bind roundedIf fun _ => .bind writeFpr fun _ => .bind ?_ fun _ =>
      .bind releaseHeldVector fun _ => .bind ?_ fun _ => .bind checkSingle fun _ => updateClass⟩
  · cases op <;> exact emit rfl
  · cases form <;> exact emitAll rfl

theorem floatMove {packed : Bool} {op : FpMove} : Flushes P (floatMove packed op) :=
  ⟨_, rfl, .bind get fun _ => ite (fun _ => .pure ()) fun _ =>
    .bind readFpr fun _ => .bind writeFpr fun _ => by
      cases packed <;> cases op <;> exact emitAll rfl⟩

theorem fsel : Flushes P fsel :=
  ⟨_, rfl, .bind get fun _ => .bind readFpr fun _ => .bind readFpr fun _ =>
    .bind readFpr fun _ => .bind writeFpr fun _ => .bind (emit rfl) fun _ => emit rfl⟩

theorem frsp : Flushes P frsp := by
  refine ⟨_, rfl, .bind get fun _ => .bind readFpr fun _ => .bind writeFpr fun _ =>
    .bind ?_ fun _ => updateClass⟩
  split <;> exact emitAll rfl

theorem fctiwz : Flushes P fctiwz :=
  ⟨_, rfl, .bind currentWord fun _ => .bind readFpr fun _ => .bind scratch fun _ =>
    .bind scratch fun _ => .bind writeFpr fun _ => .bind (emitAll rfl) fun _ =>
      .bind release fun _ => release⟩

theorem callOnLane {routine : Routine} {keep : Bool} {take : HostReg → HostReg → Inst}
    (h : ∀ dst result, (take dst result).computes = true) :
    Emits P (callOnLane routine keep take) := by
  refine .bind currentWord fun _ => .bind prepareCall fun _ => .bind readFpr fun _ =>
    .bind writeFpr fun _ => .bind (emitCall rfl ?_) fun _ => .bind finishCall fun _ => .pure _
  rw [List.all_cons, h]
  rfl

theorem fres : Flushes P fres :=
  ⟨_, rfl, .bind (callOnLane fun _ _ => rfl) fun _ => .bind (emit rfl) fun _ => updateClass⟩

theorem frsqrte : Flushes P frsqrte :=
  ⟨_, rfl, .bind (callOnLane fun _ _ => rfl) fun _ => updateClass⟩

theorem outcomeCode {field : HostReg} {bits : BitVec 4} :
    ∀ {status : Option HostReg}, Emits P (Emit.emitAll (outcomeCode field status bits))
  | some _ => emitAll rfl
  | none => emitAll rfl

theorem scratchStatus {keep : Bool} : Emits P (scratchStatus keep) :=
  ite (fun _ => .bind scratch fun _ => .bind get fun _ => .bind (emit rfl) fun _ =>
    .bind (emit rfl) fun _ => .pure _) fun _ => .pure _

theorem placeOutcomes {field : HostReg} {status : Option HostReg} {done : Nat} :
    ∀ {targets : List (Nat × BitVec 4)}, Emits P (placeOutcomes field status done targets)
  | [] => .pure _
  | _ :: _ => .bind placeLabel fun _ => .bind outcomeCode fun _ => .bind (branchTo rfl) fun _ =>
      placeOutcomes

theorem storeStatus {layout : Layout} {reg : HostReg} :
    Emits (ForLayout P layout) (Emit.emit (.store .word reg stateReg layout.fpscr)) := by
  apply emitOf
  rintro _ rfl
  exact Allows.status

theorem floatCompare : Flushes P floatCompare := by
  refine ⟨_, rfl, get_bind fun e => ?_⟩
  have hfar : ∀ {field : HostReg} {status : Option HostReg} {done : Nat}
      {targets : List (Nat × BitVec 4)}, Emits (ForLayout P e.layout) (do
        Emit.switchTo .far
        Lower.placeOutcomes field status done targets
        Emit.switchTo .near
        Lower.releaseHeld status) :=
    .bind switchTo fun _ => .bind placeOutcomes fun _ => .bind switchTo fun _ => releaseHeld
  refine .bind readFpr fun _ => .bind readFpr fun _ =>
    .bind writeCr fun _ => .bind scratchStatus fun status => .bind (emit rfl) fun _ =>
      .bind newLabel fun _ => .bind branchToOutcomes fun _ => .bind outcomeCode fun _ =>
        .bind placeLabel fun _ => ?_
  cases status with
  | some reg => exact .bind storeStatus fun _ => hfar
  | none => exact hfar

theorem lowerFloat : ∀ {op : FloatOp}, Flushes P (lowerFloat op)
  | .arith _ _ => floatArith
  | .move _ _ => floatMove
  | .fsel => fsel
  | .frsp => frsp
  | .fctiwz => fctiwz
  | .fres => fres
  | .frsqrte => frsqrte
  | .fcmp _ => floatCompare

end Float

/-- Lowering a word appends plain instructions, branches and counted calls. -/
theorem lower : ∀ {op : Op}, Emits Plain (lower op)
  | .int _ => lowerInteger
  | .float _ => of_flushes lowerFloat

end Emits

end Emit

end Recompiler
