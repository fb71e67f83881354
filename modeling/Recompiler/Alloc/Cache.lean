import Recompiler.Alloc.Pool
import Recompiler.Arm.Inst
import Recompiler.Fault

/-!
# Slot caches

A slot stands for a guest register. Its current value is in exactly one place: in guest memory, in a
host register, or known as a constant. A slot is dirty when memory does not have its value yet.

Every operation gives back the host code that it needs, in order, together with the new cache, also
when it fails.
-/

namespace Recompiler.Alloc

open Arm

inductive Binding where
  | memory
  | constant (value : BitVec 64)
  | host (reg : HostReg)
  deriving DecidableEq

structure Cell where
  binding : Binding := .memory
  dirty : Bool := false
  deriving DecidableEq

/-- How slots are moved between registers and memory. -/
structure Access (n : Nat) where
  load : Fin n → HostReg → Inst
  store : Fin n → HostReg → Inst
  constant : Fin n → HostReg → BitVec 64 → Inst
  truncate : Fin n → BitVec 64 → BitVec 64

structure Cache (n : Nat) where
  cls : RegClass
  pool : Pool n
  cells : Bank n Cell := .replicate n {}
  spills : Nat := 0

structure Grant (n : Nat) where
  reg : HostReg
  code : List Inst
  cache : Cache n

/-- A register not handed out, and what was done until then. -/
structure Refusal (n : Nat) where
  fault : Fault
  code : List Inst
  cache : Cache n

namespace Cache

variable {n : Nat}

def new (cls : RegClass) (order : List HostReg) : Cache n := { cls, pool := { order } }

def binding (cache : Cache n) (slot : Fin n) : Binding := (cache.cells.get slot).binding

def isDirty (cache : Cache n) (slot : Fin n) : Bool := (cache.cells.get slot).dirty

def constant? (cache : Cache n) (slot : Fin n) : Option (BitVec 64) :=
  match cache.binding slot with
  | .constant value => some value
  | _ => none

def host? (cache : Cache n) (slot : Fin n) : Option HostReg :=
  match cache.binding slot with
  | .host reg => some reg
  | _ => none

def setCell (cache : Cache n) (slot : Fin n) (cell : Cell) : Cache n :=
  { cache with cells := cache.cells.set slot cell }

/-! ## Writing back -/

/-- The code that brings memory up to date for one slot. Zero has a register of its own; any other
constant goes through the register that is kept for this. -/
def writeBack (access : Access n) (slot : Fin n) (cell : Cell) : List Inst :=
  if cell.dirty then
    match cell.binding with
    | .memory => []
    | .host reg => [access.store slot reg]
    | .constant value =>
      if value = 0 then [access.store slot zeroReg]
      else [access.constant slot flushReg value, access.store slot flushReg]
  else []

def flushSlot (access : Access n) (cache : Cache n) (slot : Fin n) : List Inst × Cache n :=
  let cell := cache.cells.get slot
  let pool :=
    match cell.binding with
    | .host reg => cache.pool.vacate reg
    | _ => cache.pool
  (writeBack access slot cell, { cache with pool }.setCell slot {})

def flushSlots (access : Access n) (cache : Cache n) : List (Fin n) → List Inst × Cache n
  | [] => ([], cache)
  | slot :: slots =>
    let (code, cache) := flushSlot access cache slot
    let (rest, cache) := flushSlots access cache slots
    (code ++ rest, cache)

def flush (access : Access n) (cache : Cache n) : List Inst × Cache n :=
  flushSlots access cache (List.finRange n)

/-! ## Handing out registers -/

def allocate (access : Access n) (cache : Cache n) : Except (Refusal n) (Grant n) :=
  match cache.pool.free? with
  | some reg => .ok ⟨reg, [], cache⟩
  | none =>
    match cache.pool.victim? with
    | some (reg, slot) =>
      let (code, cache) := flushSlot access { cache with spills := cache.spills + 1 } slot
      .ok ⟨reg, code, cache⟩
    | none =>
      .error ⟨.poolExhausted cache.cls cache.pool.pinned.size cache.pool.order.length, [], cache⟩

def bind (cache : Cache n) (slot : Fin n) (reg : HostReg) (dirty : Bool) : Cache n :=
  { cache with pool := cache.pool.assign reg slot }.setCell slot ⟨.host reg, dirty⟩

def read (access : Access n) (cache : Cache n) (slot : Fin n) : Except (Refusal n) (Grant n) :=
  match cache.cells.get slot with
  | ⟨.host reg, _⟩ => .ok ⟨reg, [], { cache with pool := cache.pool.touch reg }⟩
  | ⟨.constant value, dirty⟩ =>
    match allocate access cache with
    | .error refusal => .error refusal
    | .ok grant =>
      .ok ⟨grant.reg, grant.code ++ [access.constant slot grant.reg value],
        grant.cache.bind slot grant.reg dirty⟩
  | ⟨.memory, _⟩ =>
    match allocate access cache with
    | .error refusal => .error refusal
    | .ok grant =>
      .ok ⟨grant.reg, grant.code ++ [access.load slot grant.reg],
        grant.cache.bind slot grant.reg false⟩

def setDirty (cache : Cache n) (slot : Fin n) : Cache n :=
  cache.setCell slot { cache.cells.get slot with dirty := true }

/-- A register for the new value of a slot. A slot that is bound to a register keeps it; otherwise
the old value is put into the register only if `keep` is set. -/
def write (access : Access n) (cache : Cache n) (slot : Fin n) (keep : Bool) :
    Except (Refusal n) (Grant n) :=
  match cache.host? slot with
  | some reg => .ok ⟨reg, [], { cache with pool := cache.pool.touch reg }.setDirty slot⟩
  | none =>
    if keep then
      match read access cache slot with
      | .error refusal => .error refusal
      | .ok grant => .ok { grant with cache := grant.cache.setDirty slot }
    else
      match allocate access cache with
      | .error refusal => .error refusal
      | .ok grant => .ok { grant with cache := grant.cache.bind slot grant.reg true }

def scratch (access : Access n) (cache : Cache n) : Except (Refusal n) (Grant n) :=
  match allocate access cache with
  | .error refusal => .error refusal
  | .ok grant =>
    .ok { grant with cache := { grant.cache with pool := grant.cache.pool.hold grant.reg } }

def release (cache : Cache n) (reg : HostReg) : Cache n :=
  { cache with pool := cache.pool.release reg }

def setConstant (access : Access n) (cache : Cache n) (slot : Fin n) (value : BitVec 64) :
    Cache n :=
  let pool :=
    match cache.binding slot with
    | .host reg => cache.pool.vacate reg
    | _ => cache.pool
  { cache with pool }.setCell slot ⟨.constant (access.truncate slot value), true⟩

/-! ## Calls -/

def inUseNow (cache : Cache n) (reg : HostReg) : Bool :=
  cache.pool.scratch.contains reg ||
    ((cache.pool.owner.get reg).isSome && cache.pool.pinned.contains reg)

structure Locking (n : Nat) where
  code : List Inst
  cache : Cache n
  fault : Option Fault

/-- Evict registers and keep them from being handed out. Registers outside the pool need no lock. A
register that the current instruction uses ends this with the registers before it locked. -/
def lock (access : Access n) (cache : Cache n) : List HostReg → Locking n
  | [] => ⟨[], cache, none⟩
  | reg :: regs =>
    if reg ∈ cache.pool.order then
      if cache.inUseNow reg then ⟨[], cache, some (.lockInUse reg)⟩
      else
        let (code, cache) :=
          match cache.pool.owner.get reg with
          | some slot => flushSlot access cache slot
          | none => ([], cache)
        let rest := lock access { cache with pool := cache.pool.lock reg } regs
        { rest with code := code ++ rest.code }
    else lock access cache regs

def unlock (cache : Cache n) (regs : RegSet) : Cache n :=
  { cache with pool := cache.pool.unlock regs }

def callerSavedInUse (cache : Cache n) : RegSet := cache.pool.inUse.inter callerSaved

def endInstruction (cache : Cache n) : Except Fault (Cache n) :=
  match cache.pool.heldScratch? with
  | some reg => .error (.scratchLeaked cache.cls reg)
  | none => .ok { cache with pool := cache.pool.unpin }

end Cache

end Recompiler.Alloc
