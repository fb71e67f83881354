import Recompiler.Register

/-!
# Instruction words

The fields of a 32-bit guest instruction. Several fields share bits, as the instruction forms do:
`rd` is also the source register of logical forms and the floating-point target, `rb` is also the
shift amount. Bits are counted from the low end here, mask bounds from the high end.
-/

namespace Recompiler.PowerPC

abbrev Word := BitVec 32

namespace Word

def registerAt (word : Word) (low : Nat) : GuestReg := Fin.ofNat 32 (word >>> low).toNat

def opcode (word : Word) : Nat := (word >>> 26).toNat

/-- Target register; source register of logical, shift and rotate forms. -/
def rd (word : Word) : GuestReg := word.registerAt 21

def ra (word : Word) : GuestReg := word.registerAt 16

def rb (word : Word) : GuestReg := word.registerAt 11

def frc (word : Word) : GuestReg := word.registerAt 6

def crfd (word : Word) : CrField := Fin.ofNat 8 (word >>> 23).toNat

def sh (word : Word) : Nat := (word >>> 11).toNat % 32

/-- First bit of a rotate mask, counted from the high end. -/
def mb (word : Word) : Nat := (word >>> 6).toNat % 32

def me (word : Word) : Nat := (word >>> 1).toNat % 32

def simm (word : Word) : BitVec 32 := (word.setWidth 16).signExtend 32

def uimm (word : Word) : BitVec 32 := word &&& 0xFFFF

def rc (word : Word) : Bool := word.getLsbD 0

def oe (word : Word) : Bool := word.getLsbD 10

def subop10 (word : Word) : Nat := (word >>> 1).toNat % 1024

def subop9 (word : Word) : Nat := (word >>> 1).toNat % 512

def subop5 (word : Word) : Nat := (word >>> 1).toNat % 32

end Word

/-- The mask of the bits from `mb` to `me`, counted from the high end. When `me` lies before `mb`
the mask wraps around. -/
def rotationMask (mb me : Nat) : BitVec 32 :=
  let upTo := BitVec.allOnes 32 >>> (mb % 32)
  let past := if me < 31 then BitVec.allOnes 32 >>> (me + 1) else 0
  let mask := upTo ^^^ past
  if me < mb then ~~~mask else mask

end Recompiler.PowerPC
