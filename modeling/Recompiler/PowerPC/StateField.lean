/-!
# Fields of the state block

The guest registers live in one block of memory, grouped into six fields. A field has a name, a
length in bytes and the alignment its elements need.
-/

namespace Recompiler.PowerPC

inductive StateField where
  | gpr
  | ps
  | cr
  | xerCa
  | xerSoOv
  | fpscr
  deriving DecidableEq

namespace StateField

/-- All fields, in the order in which they are checked. -/
def all : List StateField := [.gpr, .ps, .cr, .xerCa, .xerSoOv, .fpscr]

def name : StateField → String
  | .gpr => "gpr"
  | .ps => "ps"
  | .cr => "cr"
  | .xerCa => "xer_ca"
  | .xerSoOv => "xer_so_ov"
  | .fpscr => "fpscr"

def length : StateField → Nat
  | .gpr => 4 * 32
  | .ps => 16 * 32
  | .cr => 8 * 8
  | .xerCa => 1
  | .xerSoOv => 1
  | .fpscr => 4

def alignment : StateField → Nat
  | .gpr => 4
  | .ps => 16
  | .cr => 8
  | .xerCa => 1
  | .xerSoOv => 1
  | .fpscr => 4

end StateField

end Recompiler.PowerPC
