import Recompiler.Emit.Emitter

/-!
# The carry bit

The carry that an instruction produces stays where it is cheapest: in the host carry flag, or as a
constant. It goes to guest memory when something else could look at it there.
-/

namespace Recompiler.Emit

open Arm Block PowerPC

def setCarry (carry : Carry) : EmitM Unit := modify fun e => { e with carry }

def Emitter.nextIsInteger (e : Emitter) : Bool :=
  match e.next with
  | some next => next.opClass = .integer
  | none => false

def Emitter.nextWantsFlags (e : Emitter) : Bool :=
  match e.next with
  | some next => next.wantsCaInFlags
  | none => false

def storeCarry (reg : HostReg) : EmitM Unit := do
  emit (.store .byte reg stateReg (← get).layout.xerCa)

def flushCarry : EmitM Unit := do
  match (← get).carry with
  | .inGuestState => return ()
  | .inHostCarry =>
    emit (.cset32 flushReg .cs)
    storeCarry flushReg
  | .constantTrue =>
    emit (.movImm32 flushReg 1)
    storeCarry flushReg
  | .constantFalse => storeCarry zeroReg
  modify fun e =>
    { e with
      carry := .inGuestState
      stats := { e.stats with carryFlushes := e.stats.carryFlushes + 1 } }

def dropCarry : EmitM Unit := setCarry .inGuestState

/-- The host carry flag is the new carry. It stays there only in front of an integer instruction. -/
def carryFromFlags : EmitM Unit := do
  let e ← get
  if e.hints.wantsCa then
    setCarry .inHostCarry
    unless e.config.lazyCarry && e.nextIsInteger do flushCarry
  else dropCarry

def carryFromReg (reg : HostReg) : EmitM Unit := do
  let e ← get
  if e.hints.wantsCa then
    if e.config.lazyCarry && e.nextWantsFlags then
      emit (.testImm .cmp reg 1)
      setCarry .inHostCarry
    else
      storeCarry reg
      setCarry .inGuestState
  else dropCarry

def carryConstant (value : Bool) : EmitM Unit := do
  if (← get).hints.wantsCa then setCarry (.ofBool value) else dropCarry

def loadCarryIntoFlags : EmitM Unit := do
  let temp ← scratch
  emit (.load .byte temp stateReg (← get).layout.xerCa)
  emit (.testImm .cmp temp 1)
  release temp
  setCarry .inHostCarry

def flushAll : EmitM Unit := do
  flushCarry
  flushIntegers
  flushVectors

def deferWord : EmitM Unit := do
  flushAll
  emit (.interpret (← get).word)
  modify fun e =>
    { e with
      vectors := e.vectors.resetPrecision
      stats := { e.stats with deferred := e.stats.deferred + 1 } }

end Recompiler.Emit
