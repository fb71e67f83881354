import Recompiler.Alloc.Vectors
import Recompiler.Block.Config
import Recompiler.Block.Hints
import Recompiler.Block.Stats
import Recompiler.Emit.CodeBuffer

/-!
# The emitter

The state of compiling a block: the code so far, where each guest register is, where the carry bit
is, and the current instruction with what is known about it. Steps are programs over this state. A
step that fails keeps what it did before it failed.
-/

namespace Recompiler.Emit

open Alloc Arm Block PowerPC

inductive Carry where
  | inGuestState
  | inHostCarry
  | constantTrue
  | constantFalse
  deriving DecidableEq

def Carry.constant? : Carry → Option Bool
  | .constantTrue => some true
  | .constantFalse => some false
  | .inGuestState | .inHostCarry => none

def Carry.ofBool (b : Bool) : Carry := if b then .constantTrue else .constantFalse

structure NextInstruction where
  opClass : OpClass
  wantsCaInFlags : Bool
  deriving DecidableEq

/-- The state of compiling a block. -/
structure Emitter where
  config : Config
  layout : Layout
  code : CodeBuffer := {}
  integers : Cache 40
  vectors : Vectors
  carry : Carry := .inGuestState
  stats : Stats := {}
  word : Word := 0
  hints : Hints := {}
  next : Option NextInstruction := none

abbrev EmitM := ExceptT Fault (StateM Emitter)

def Emitter.new (config : Config) (layout : Layout) : Emitter where
  config
  layout
  integers := .new .general (config.generalPool.getD generalOrder)
  vectors := .new (config.vectorPool.getD vectorOrder)

def emit (inst : Inst) : EmitM Unit := modify fun e => { e with code := e.code.emit inst }

def emitAll (insts : List Inst) : EmitM Unit :=
  modify fun e => { e with code := e.code.emitAll insts }

/-! ## Labels and regions -/

def newLabel : EmitM Nat :=
  modifyGet fun e => (e.code.freshLabel, { e with code := e.code.addLabel })

def placeLabel (label : Nat) : EmitM Unit :=
  modify fun e => { e with code := e.code.placeLabel label }

def branchTo (inst : Inst) (label : Nat) : EmitM Unit :=
  modify fun e => { e with code := e.code.branchTo inst label }

def switchTo (region : Region) : EmitM Unit :=
  modify fun e => { e with code := e.code.switchTo region }

/-! ## Integer slots -/

/-- Ask the integer cache for a register and emit what that takes. -/
def requestInteger (request : Access 40 → Cache 40 → Except (Refusal 40) (Grant 40)) :
    EmitM HostReg := do
  let e ← get
  match request (.integer e.layout) e.integers with
  | .error refusal =>
    set { e with integers := refusal.cache, code := e.code.emitAll refusal.code }
    throw refusal.fault
  | .ok grant =>
    set { e with integers := grant.cache, code := e.code.emitAll grant.code }
    return grant.reg

def readSlot (slot : IntSlot) : EmitM HostReg :=
  requestInteger fun access cache => Cache.read access cache slot

def writeSlot (slot : IntSlot) (keep : Bool) : EmitM HostReg :=
  requestInteger fun access cache => Cache.write access cache slot keep

/-- A register that holds the value of a slot taken for a general register. -/
def readWord (slot : IntSlot) : EmitM HostReg := do
  let layout := (← get).layout
  requestInteger fun _ cache => Cache.read (.integerAs layout slot) cache slot

def writeWord (slot : IntSlot) (keep : Bool) : EmitM HostReg := do
  let layout := (← get).layout
  requestInteger fun _ cache => Cache.write (.integerAs layout slot) cache slot keep

def readGpr (reg : GuestReg) : EmitM HostReg := readSlot (.gpr reg)

def writeGpr (reg : GuestReg) (keep : Bool) : EmitM HostReg := writeSlot (.gpr reg) keep

def writeCr (field : CrField) : EmitM HostReg := writeSlot (.cr field) false

def scratch : EmitM HostReg := requestInteger Cache.scratch

def release (reg : HostReg) : EmitM Unit :=
  modify fun e => { e with integers := e.integers.release reg }

def Emitter.slotConstant? (e : Emitter) (slot : IntSlot) : Option (BitVec 64) :=
  e.integers.constant? slot

def Emitter.wordConstant? (e : Emitter) (slot : IntSlot) : Option (BitVec 32) :=
  (e.slotConstant? slot).map (·.setWidth 32)

def Emitter.gprConstant? (e : Emitter) (reg : GuestReg) : Option (BitVec 32) :=
  e.wordConstant? (.gpr reg)

def gprConstant? (reg : GuestReg) : EmitM (Option (BitVec 32)) := do
  return (← get).gprConstant? reg

def setSlotConstant (slot : IntSlot) (value : BitVec 64) : EmitM Unit :=
  modify fun e =>
    { e with integers := Cache.setConstant (.integer e.layout) e.integers slot value }

def setWord (slot : IntSlot) (value : BitVec 32) : EmitM Unit :=
  setSlotConstant slot (value.setWidth 64)

def countFold : EmitM Unit :=
  modify fun e => { e with stats := { e.stats with constantFolds := e.stats.constantFolds + 1 } }

def foldWord (slot : IntSlot) (value : BitVec 32) : EmitM Unit := do
  setWord slot value
  countFold

def foldGpr (reg : GuestReg) (value : BitVec 32) : EmitM Unit := foldWord (.gpr reg) value

def setCrConstant (field : CrField) (value : BitVec 64) : EmitM Unit :=
  setSlotConstant (.cr field) value

def recordReg (src : HostReg) : EmitM Unit := do
  let cr0 ← writeCr 0
  emit (.unary .sxtw64 cr0 src)

def recordConstant (value : BitVec 32) : EmitM Unit := setCrConstant 0 (Condition.ofResult value)

def flushIntSlot (slot : IntSlot) : EmitM Unit :=
  modify fun e =>
    let (code, integers) := Cache.flushSlot (.integer e.layout) e.integers slot
    { e with integers, code := e.code.emitAll code }

def flushIntegers : EmitM Unit :=
  modify fun e =>
    let (code, integers) := Cache.flush (.integer e.layout) e.integers
    { e with integers, code := e.code.emitAll code }

def lockRegs (regs : RegSet) : EmitM Unit := do
  let e ← get
  let locking := Cache.lock (.integer e.layout) e.integers regs.toList
  set { e with integers := locking.cache, code := e.code.emitAll locking.code }
  match locking.fault with
  | some fault => throw fault
  | none => return ()

def unlockRegs (regs : RegSet) : EmitM Unit :=
  modify fun e => { e with integers := e.integers.unlock regs }

/-! ## Floating-point slots -/

def requestVector (request : Access 32 → Cache 32 → Except (Refusal 32) (Grant 32)) :
    EmitM HostReg := do
  let e ← get
  match request (.vector e.layout) e.vectors.cache with
  | .error refusal =>
    set { e with
      vectors := { e.vectors with cache := refusal.cache }
      code := e.code.emitAll refusal.code }
    throw refusal.fault
  | .ok grant =>
    set { e with
      vectors := { e.vectors with cache := grant.cache }
      code := e.code.emitAll grant.code }
    return grant.reg

def readFpr (reg : GuestReg) : EmitM HostReg :=
  requestVector fun access cache => Cache.read access cache reg

def writeFpr (reg : GuestReg) (keep : Bool) (precision : Precision) : EmitM HostReg := do
  let host ← requestVector fun access cache => Cache.write access cache reg keep
  modify fun e => { e with vectors := e.vectors.setPending reg precision }
  return host

def scratchVector : EmitM HostReg := requestVector Cache.scratch

def releaseVector (reg : HostReg) : EmitM Unit :=
  modify fun e => { e with vectors := { e.vectors with cache := e.vectors.cache.release reg } }

def Emitter.isStoreSafe (e : Emitter) (reg : GuestReg) : Bool := e.hints.storeSafe.getLsbD reg.val

def checkSingle (numbers : List Nat) (lowerOnly expected : Bool) : EmitM Unit := do
  match (← get).vectors.checkSingle numbers lowerOnly expected with
  | .error fault => throw fault
  | .ok () => return ()

def flushFprSlot (reg : GuestReg) : EmitM Unit :=
  modify fun e =>
    let (code, cache) := Cache.flushSlot (.vector e.layout) e.vectors.cache reg
    { e with vectors := { e.vectors with cache }, code := e.code.emitAll code }

def flushVectors : EmitM Unit :=
  modify fun e =>
    let (code, cache) := Cache.flush (.vector e.layout) e.vectors.cache
    { e with vectors := { e.vectors with cache }, code := e.code.emitAll code }

/-! ## Instructions -/

def beginInstruction (word : Word) (hints : Hints) (next : Option NextInstruction) : EmitM Unit :=
  modify fun e =>
    { e with
      word, hints, next
      stats := { e.stats with guestCount := e.stats.guestCount + 1 }
      vectors := e.vectors.seedSingles hints.singles }

def endIntegers : EmitM Unit := do
  let e ← get
  match e.integers.endInstruction with
  | .error fault => throw fault
  | .ok integers => set { e with integers }

def endVectors : EmitM Unit := do
  let e ← get
  match e.vectors.endInstruction with
  | .error fault => throw fault
  | .ok vectors => set { e with vectors }

def endInstruction : EmitM Unit := do
  endIntegers
  endVectors

end Recompiler.Emit
