import Recompiler.Arm.RegSet

/-!
# Register roles

Which host registers have a fixed meaning, which may be handed out and in what order, and which a
call may destroy.
-/

namespace Recompiler.Arm

/-- Reads as zero and ignores writes. -/
def zeroReg : HostReg := 31

def stateReg : HostReg := 29

def linkReg : HostReg := 30

/-- Carries a constant on its way to memory. It is never handed out, so a constant can be written
back while registers are being evicted. -/
def flushReg : HostReg := 16

/-- The vector register for short-lived constants, never handed out. -/
def vectorScratch : HostReg := 0

/-- General registers in the order in which they are handed out: those that survive calls first,
argument registers last. -/
def generalOrder : List HostReg :=
  [19, 20, 21, 22, 23, 24, 25, 26, 27, 28, 5, 6, 7, 8, 9, 10, 11, 12, 13, 14, 15, 17, 18, 0, 1, 2,
    3, 4]

def vectorOrder : List HostReg :=
  [8, 9, 10, 11, 12, 13, 14, 15, 16, 17, 18, 19, 20, 21, 22, 23, 24, 25, 26, 27, 28, 29, 30, 31, 1,
    2, 3, 4, 5, 6, 7]

def callerSaved : RegSet := ⟨0x4007FFFF⟩

def callerSavedVectors : RegSet := ⟨0xFFFF00FF⟩

def reserved : RegSet := RegSet.ofList [flushReg, stateReg, linkReg, zeroReg]

end Recompiler.Arm
