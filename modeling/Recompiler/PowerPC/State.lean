import Recompiler.Memory
import Recompiler.PowerPC.Condition
import Recompiler.PowerPC.Layout

/-!
# Guest state

The state block with its layout. Raw reads and writes are checked against the size of the block;
the registers are read and written at the offsets that the layout gives them, which on a valid
layout cannot fail. A number past the last register stands for what lies at its offset, if that is
in the block.
-/

namespace Recompiler.PowerPC

structure State where
  layout : Layout
  memory : Memory
  deriving DecidableEq

namespace State

/-! ## Raw access -/

def checkBounds (state : State) (offset : BitVec 32) (count : Nat) : Except Fault Unit :=
  if state.memory.size < offset.toNat + count then
    .error (.outOfBounds offset.toNat (offset.toNat + count) state.memory.size)
  else .ok ()

def read (state : State) (w : Nat) (offset : BitVec 32) : Except Fault (BitVec w) :=
  match state.checkBounds offset (w / 8) with
  | .ok () => .ok (state.memory.load w offset.toNat (w / 8))
  | .error fault => .error fault

def write {w : Nat} (state : State) (offset : BitVec 32) (value : BitVec w) :
    Except Fault State :=
  match state.checkBounds offset (w / 8) with
  | .ok () => .ok { state with memory := state.memory.store offset.toNat value (w / 8) }
  | .error fault => .error fault

/-- Read a word, zero outside the block. -/
def peek (state : State) (w : Nat) (offset : BitVec 32) : BitVec w :=
  match state.read w offset with
  | .ok value => value
  | .error _ => 0

def poke {w : Nat} (state : State) (offset : BitVec 32) (value : BitVec w) : State :=
  match state.write offset value with
  | .ok state => state
  | .error _ => state

/-! ## Registers -/

def gpr (state : State) (reg : Nat) : BitVec 32 :=
  state.peek 32 (state.layout.gprOffset reg)

def setGpr (state : State) (reg : Nat) (value : BitVec 32) : State :=
  state.poke (state.layout.gprOffset reg) value

def ps (state : State) (reg : Nat) : BitVec 128 :=
  state.peek 128 (state.layout.psOffset reg)

def ps0 (state : State) (reg : Nat) : BitVec 64 := (state.ps reg).extractLsb' 0 64

def ps1 (state : State) (reg : Nat) : BitVec 64 := (state.ps reg).extractLsb' 64 64

def setPs (state : State) (reg : Nat) (ps0 ps1 : BitVec 64) : State :=
  state.poke (state.layout.psOffset reg) (ps1 ++ ps0)

def setPs0 (state : State) (reg : Nat) (value : BitVec 64) : State :=
  state.setPs reg value (state.ps1 reg)

def cr (state : State) (field : Nat) : BitVec 64 :=
  state.peek 64 (state.layout.crOffset field)

def setCr (state : State) (field : Nat) (value : BitVec 64) : State :=
  state.poke (state.layout.crOffset field) value

def crField (state : State) (field : Nat) : BitVec 4 := Condition.decode (state.cr field)

def setCrField (state : State) (field : Nat) (bits : BitVec 4) : State :=
  state.setCr field (Condition.encode bits)

def xerCa (state : State) : Bool := state.peek 8 state.layout.xerCa != 0

def setXerCa (state : State) (ca : Bool) : State :=
  state.poke state.layout.xerCa ((BitVec.ofBool ca).setWidth 8)

/-- Summary overflow in bit 1, overflow in bit 0. -/
def xerSoOv (state : State) : BitVec 8 := state.peek 8 state.layout.xerSoOv

def setXerSoOv (state : State) (bits : BitVec 8) : State :=
  state.poke state.layout.xerSoOv (bits &&& 3)

def fpscr (state : State) : BitVec 32 := state.peek 32 state.layout.fpscr

def setFpscr (state : State) (value : BitVec 32) : State :=
  state.poke state.layout.fpscr value

/-! ## New states -/

/-- All registers zero and no condition holding. -/
def zeroed (layout : Layout) : State :=
  (List.range 8).foldl (fun state field => state.setCrField field 0)
    ⟨layout, Memory.zeros layout.size.toNat⟩

def new (layout : Layout) : Except Fault State :=
  match layout.validate with
  | .ok () => .ok (zeroed layout)
  | .error fault => .error fault

end State

end Recompiler.PowerPC
