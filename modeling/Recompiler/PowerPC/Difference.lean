import Recompiler.PowerPC.State
import Recompiler.Text.Number

/-!
# Differences between states

What a guest program could tell two states apart by. Condition fields are compared as four bits, not
in their 64-bit form.
-/

namespace Recompiler.PowerPC

open Text

/-- One register that differs, with the expected and the actual value. -/
inductive Difference where
  | gpr (reg : GuestReg) (expected actual : BitVec 32)
  | ps (reg : GuestReg) (expected actual : BitVec 64 × BitVec 64)
  | cr (field : CrField) (expected actual : BitVec 4)
  | xerCa (expected actual : Bool)
  | xerSoOv (expected actual : BitVec 8)
  | fpscr (expected actual : BitVec 32)
  deriving DecidableEq

namespace Difference

def lanesText (lanes : BitVec 64 × BitVec 64) : String :=
  s!"({hexWord lanes.1}, {hexWord lanes.2})"

def text : Difference → String
  | .gpr reg expected actual =>
    s!"r{reg.val}: expected {hexWord expected}, got {hexWord actual}"
  | .ps reg expected actual =>
    s!"f{reg.val}: expected {lanesText expected}, got {lanesText actual}"
  | .cr field expected actual =>
    s!"cr{field.val}: expected {binaryPadded 4 expected.toNat}, got " ++
      binaryPadded 4 actual.toNat
  | .xerCa expected actual => s!"xer.ca: expected {flag expected}, got {flag actual}"
  | .xerSoOv expected actual =>
    s!"xer.so/ov: expected {binaryPadded 2 expected.toNat}, got " ++
      binaryPadded 2 actual.toNat
  | .fpscr expected actual => s!"fpscr: expected {hexWord expected}, got {hexWord actual}"

def between {α : Type} [DecidableEq α] (make : α → α → Difference) (expected actual : α) :
    Option Difference :=
  if expected = actual then none else some (make expected actual)

end Difference

def State.lanes (state : State) (reg : Nat) : BitVec 64 × BitVec 64 :=
  (state.ps0 reg, state.ps1 reg)

def State.differences (expected actual : State) : List Difference :=
  (List.finRange 32).filterMap
      (fun reg => Difference.between (.gpr reg) (expected.gpr reg) (actual.gpr reg))
    ++ (List.finRange 32).filterMap
      (fun reg => Difference.between (.ps reg) (expected.lanes reg) (actual.lanes reg))
    ++ (List.finRange 8).filterMap
      (fun field => Difference.between (.cr field) (expected.crField field) (actual.crField field))
    ++ (Difference.between .xerCa expected.xerCa actual.xerCa).toList
    ++ (Difference.between .xerSoOv expected.xerSoOv actual.xerSoOv).toList
    ++ (Difference.between .fpscr expected.fpscr actual.fpscr).toList

end Recompiler.PowerPC
