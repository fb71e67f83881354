import Recompiler.Fault

/-!
# Layout of the state block

Byte offsets of the six fields. A valid layout keeps the fields inside the block, aligned and apart.
Offsets are 32-bit words, so the offset of a register wraps when the layout is not valid.
-/

namespace Recompiler.PowerPC

/-- Where the fields of the state block start, and how long the block is. -/
structure Layout where
  gpr : BitVec 32
  ps : BitVec 32
  cr : BitVec 32
  xerCa : BitVec 32
  xerSoOv : BitVec 32
  fpscr : BitVec 32
  size : BitVec 32
  deriving DecidableEq

namespace Layout

def standard : Layout where
  gpr := 0
  ps := 128
  cr := 640
  xerCa := 704
  xerSoOv := 705
  fpscr := 708
  size := 712

def start (layout : Layout) : StateField → BitVec 32
  | .gpr => layout.gpr
  | .ps => layout.ps
  | .cr => layout.cr
  | .xerCa => layout.xerCa
  | .xerSoOv => layout.xerSoOv
  | .fpscr => layout.fpscr

/-- Offset of a general register. Numbers past the last register go on behind the field, and the
same holds of the other two kinds. -/
def gprOffset (layout : Layout) (reg : Nat) : BitVec 32 :=
  layout.gpr + BitVec.ofNat 32 (4 * reg)

def psOffset (layout : Layout) (reg : Nat) : BitVec 32 :=
  layout.ps + BitVec.ofNat 32 (16 * reg)

def crOffset (layout : Layout) (field : Nat) : BitVec 32 :=
  layout.cr + BitVec.ofNat 32 (8 * field)

def first (layout : Layout) (field : StateField) : Nat := (layout.start field).toNat

def last (layout : Layout) (field : StateField) : Nat := layout.first field + field.length

def fieldFault? (layout : Layout) (field : StateField) : Option Fault :=
  if 1 <<< 32 ≤ layout.last field then some (.fieldOverflow field)
  else if layout.size.toNat < layout.last field then
    some (.fieldOutside field (layout.first field) (layout.last field) layout.size.toNat)
  else if layout.first field % field.alignment ≠ 0 then
    some (.fieldMisaligned field (layout.first field))
  else none

def overlap (layout : Layout) (left right : StateField) : Bool :=
  layout.first left < layout.last right && layout.first right < layout.last left

def overlapFault? (layout : Layout) (fields : StateField × StateField) : Option Fault :=
  if layout.overlap fields.1 fields.2 then some (.fieldsOverlap fields.1 fields.2) else none

def laterPairs {α : Type} : List α → List (α × α)
  | [] => []
  | a :: rest => rest.map (fun b => (a, b)) ++ laterPairs rest

/-- The first thing wrong with the layout: each field on its own, then the fields two by two. -/
def fault? (layout : Layout) : Option Fault :=
  (StateField.all.findSome? layout.fieldFault?).or
    ((laterPairs StateField.all).findSome? layout.overlapFault?)

def validate (layout : Layout) : Except Fault Unit :=
  match layout.fault? with
  | some fault => .error fault
  | none => .ok ()

end Layout

end Recompiler.PowerPC
