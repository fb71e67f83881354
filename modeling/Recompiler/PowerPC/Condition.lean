/-!
# Condition fields

A condition field has four bits, LT GT EQ SO from high to low. In the state block it is held as one
64-bit value from which all four can be read:

* LT is bit 62,
* GT says that the value is positive as a signed number,
* EQ says that the low 32 bits are zero,
* SO says that bits 61 to 59 are `001`.

The difference of two extended words, and the sign-extended result of an instruction, are already
in this form.
-/

namespace Recompiler.PowerPC.Condition

def ofFlags (lt gt eq so : Bool) : BitVec 4 :=
  BitVec.ofBool lt ++ BitVec.ofBool gt ++ BitVec.ofBool eq ++ BitVec.ofBool so

def lt : BitVec 4 := 8
def gt : BitVec 4 := 4
def eq : BitVec 4 := 2
def so : BitVec 4 := 1

def ofOrdering : Ordering → BitVec 4
  | .lt => lt
  | .gt => gt
  | .eq => eq

def bitIf (b : Bool) (i : Nat) : BitVec 64 := if b then 1#64 <<< i else 0

def encode (field : BitVec 4) : BitVec 64 :=
  bitIf true 32 ||| bitIf (field.getLsbD 0) 59 ||| bitIf (!field.getLsbD 1) 0
    ||| bitIf (!field.getLsbD 2) 63 ||| bitIf (field.getLsbD 3) 62

/-- The field that a 64-bit value stands for. -/
def decode (value : BitVec 64) : BitVec 4 :=
  ofFlags (value.getLsbD 62) (0 < value.toInt) (value.setWidth 32 == 0#32)
    ((value >>> 59) &&& 7 == 1)

def ofResult (result : BitVec 32) : BitVec 64 := result.signExtend 64

def ofSign (result : BitVec 32) : BitVec 4 := ofOrdering (compare result.toInt 0)

end Recompiler.PowerPC.Condition
