import Recompiler.Arm.RegSet
import Recompiler.Bank

/-!
# Register pools

Which host registers may be handed out, who owns them, and which of them must stay where they are.
A register is free when nobody owns it, it is not held as scratch and it is not locked. Registers
touched by the current instruction are pinned: they are never taken from their owners. Among the
others the one used least recently goes first.
-/

namespace Recompiler.Alloc

open Arm

/-- The host registers of one class, shared by `n` slots. -/
structure Pool (n : Nat) where
  order : List HostReg
  owner : Bank 256 (Option (Fin n)) := .replicate 256 none
  scratch : RegSet := .empty
  locked : RegSet := .empty
  pinned : RegSet := .empty
  lastUse : Bank 256 Nat := .replicate 256 0
  clock : Nat := 0

namespace Pool

variable {n : Nat}

def isFree (pool : Pool n) (reg : HostReg) : Bool :=
  (pool.owner.get reg).isNone && !pool.scratch.contains reg && !pool.locked.contains reg

def free? (pool : Pool n) : Option HostReg := pool.order.find? pool.isFree

def isEvictable (pool : Pool n) (reg : HostReg) : Bool :=
  !pool.pinned.contains reg && !pool.locked.contains reg && (pool.owner.get reg).isSome

/-- The register that was used longest ago, the first of several. -/
def oldest (pool : Pool n) : List HostReg → Option HostReg
  | [] => none
  | reg :: regs =>
    match pool.oldest regs with
    | none => some reg
    | some other => some (if pool.lastUse.get reg ≤ pool.lastUse.get other then reg else other)

def victim? (pool : Pool n) : Option (HostReg × Fin n) :=
  match pool.oldest (pool.order.filter pool.isEvictable) with
  | none => none
  | some reg => (pool.owner.get reg).map fun slot => (reg, slot)

def touch (pool : Pool n) (reg : HostReg) : Pool n :=
  { pool with
    clock := pool.clock + 1
    lastUse := pool.lastUse.set reg (pool.clock + 1)
    pinned := pool.pinned.insert reg }

def assign (pool : Pool n) (reg : HostReg) (slot : Fin n) : Pool n :=
  { pool with owner := pool.owner.set reg (some slot) }.touch reg

def hold (pool : Pool n) (reg : HostReg) : Pool n :=
  { pool with scratch := pool.scratch.insert reg }.touch reg

def release (pool : Pool n) (reg : HostReg) : Pool n :=
  { pool with scratch := pool.scratch.erase reg }

def vacate (pool : Pool n) (reg : HostReg) : Pool n :=
  { pool with owner := pool.owner.set reg none, scratch := pool.scratch.erase reg }

def lock (pool : Pool n) (reg : HostReg) : Pool n :=
  { pool with locked := pool.locked.insert reg }

def unlock (pool : Pool n) (regs : RegSet) : Pool n :=
  { pool with locked := pool.locked.sdiff regs }

def inUse (pool : Pool n) : RegSet :=
  .ofList (pool.order.filter fun reg =>
    (pool.owner.get reg).isSome || pool.scratch.contains reg)

def heldScratch? (pool : Pool n) : Option HostReg :=
  pool.order.find? fun reg => pool.scratch.contains reg

def unpin (pool : Pool n) : Pool n := { pool with pinned := .empty }

end Pool

end Recompiler.Alloc
