/-!
# Register numbers

Both machines have 32 general and 32 floating-point registers; the guest has eight condition
fields besides. The host's registers come in two classes, which messages call by different names.
Host code writes a register number as a byte, so code that nobody will run may name more.
-/

namespace Recompiler

/-- The number of a host register, general or vector. Numbers from 32 on name no register of the
host and are never handed out. -/
abbrev HostReg := Fin 256

abbrev GuestReg := Fin 32

abbrev CrField := Fin 8

instance HostReg.neZero : @NeZero Nat Zero.ofOfNat0 256 := ⟨by decide⟩

instance GuestReg.neZero : @NeZero Nat Zero.ofOfNat0 32 := ⟨by decide⟩

instance CrField.neZero : @NeZero Nat Zero.ofOfNat0 8 := ⟨by decide⟩

instance HostReg.lawfulBEq : LawfulBEq HostReg := inferInstance

inductive RegClass where
  | general
  | vector
  deriving DecidableEq

def RegClass.name : RegClass → String
  | .general => "GPR"
  | .vector => "vector"

def RegClass.letter : RegClass → String
  | .general => "x"
  | .vector => "v"

end Recompiler
