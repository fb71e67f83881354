import Recompiler.Alloc.Cache
import Recompiler.PowerPC.Layout

/-!
# Integer and vector slots

There is a slot for each of the 32 general registers and the 8 condition fields, and one for each of
the 32 floating-point registers. General registers are words; condition fields are kept in their
64-bit form, and floating-point registers as both lanes.
-/

namespace Recompiler.Alloc

open Arm PowerPC

abbrev IntSlot := Fin 40

namespace IntSlot

def gpr (reg : GuestReg) : IntSlot := ⟨reg.val, by omega⟩

def cr (field : CrField) : IntSlot := ⟨32 + field.val, by omega⟩

def offset (layout : Layout) (slot : IntSlot) : BitVec 32 :=
  if slot.val < 32 then layout.gprOffset slot.val else layout.crOffset (slot.val - 32)

def isWide (slot : IntSlot) : Bool := 32 ≤ slot.val

def size (slot : IntSlot) : MemSize := if slot.isWide then .double else .word

def constant (slot : IntSlot) (reg : HostReg) (value : BitVec 64) : Inst :=
  if slot.isWide then .movImm64 reg value else .movImm32 reg (value.setWidth 32)

def truncate (slot : IntSlot) (value : BitVec 64) : BitVec 64 :=
  if slot.isWide then value else (value.setWidth 32).setWidth 64

end IntSlot

def Access.integer (layout : Layout) : Access 40 where
  load slot reg := .load (IntSlot.size slot) reg stateReg (IntSlot.offset layout slot)
  store slot reg := .store (IntSlot.size slot) reg stateReg (IntSlot.offset layout slot)
  constant := IntSlot.constant
  truncate := IntSlot.truncate

/-- Integer slots, one of them taken for a general register. The condition fields come after the
registers, so the register numbers from 32 to 39 reach their slots: such a slot is filled as the
register of that number would be, and goes back to memory as the field that it is. -/
def Access.integerAs (layout : Layout) (word : IntSlot) : Access 40 where
  load slot reg :=
    if slot = word then .load .word reg stateReg (layout.gprOffset slot.val)
    else (Access.integer layout).load slot reg
  store := (Access.integer layout).store
  constant slot reg value :=
    if slot = word then .movImm32 reg (value.setWidth 32)
    else (Access.integer layout).constant slot reg value
  truncate := IntSlot.truncate

/-- Floating-point slots in the state block. They are never constant. -/
def Access.vector (layout : Layout) : Access 32 where
  load slot reg := .loadVector reg stateReg (layout.psOffset slot)
  store slot reg := .storeVector reg stateReg (layout.psOffset slot)
  constant _ reg value := .vmovImm reg value
  truncate _ value := value

end Recompiler.Alloc
