import Recompiler.Ieee.Double
import Recompiler.PowerPC.State

/-!
# Scrambled states

States on the standard layout, filled from a seed. Integer registers, condition fields and the carry
bit are arbitrary; floating-point lanes hold small multiples of one eighth, so all of them are exact
singles.
-/

namespace Recompiler.PowerPC

open Ieee

structure Scramble where
  random : BitVec 64
  state : State

namespace Scramble

def next (r : BitVec 64) : BitVec 64 :=
  let r := r ^^^ (r <<< 13)
  let r := r ^^^ (r >>> 7)
  r ^^^ (r <<< 17)

/-- A double between -125 and 125 in steps of one eighth. -/
def small (r : BitVec 64) : Double := Double.ofInt ((r.toNat % 2001 : Nat) - 1000 : Int) (-3)

def start (seed : BitVec 64) : Scramble :=
  ⟨seed * 0x9E3779B97F4A7C15 ||| 1, .zeroed .standard⟩

def fillPs (s : Scramble) (reg : GuestReg) : Scramble :=
  let first := next s.random
  let second := next first
  ⟨second, s.state.setPs reg (small first) (small second)⟩

def fillGpr (s : Scramble) (reg : GuestReg) : Scramble :=
  let r := next s.random
  ⟨r, s.state.setGpr reg (r.setWidth 32)⟩

def fillCr (s : Scramble) (field : CrField) : Scramble :=
  let r := next s.random
  ⟨r, s.state.setCrField field (r.setWidth 4)⟩

end Scramble

def State.scrambled (seed : BitVec 64) : State :=
  let s := (List.finRange 32).foldl Scramble.fillPs (Scramble.start seed)
  let s := (List.finRange 32).foldl Scramble.fillGpr s
  let s := (List.finRange 8).foldl Scramble.fillCr s
  s.state.setXerCa ((Scramble.next s.random).getLsbD 0)

end Recompiler.PowerPC
