import Recompiler.Arm.Alu
import Recompiler.Bank
import Recompiler.PowerPC.Interpreter

/-!
# The host machine

Runs code against a guest state, whose address is in the state register. Calls leave noise in every
register that they may destroy and in the flags, so that code that relies on such a register goes
wrong. A fault leaves the machine as it was when the fault arose.
-/

namespace Recompiler.Arm

open Ieee PowerPC

structure Machine where
  state : State
  x : Bank 256 (BitVec 64) := .replicate 256 0
  v : Bank 256 (BitVec 128) := .replicate 256 0
  flags : Flags := {}
  /-- The top of the stack first. -/
  stack : List (BitVec 64) := []
  /-- Whether denormal numbers count as zeros. -/
  flush : Bool := false
  interpreter : Interpreter := {}
  noise : BitVec 64 := 0x5EED

inductive Outcome where
  | next (machine : Machine)
  | jump (offset : Int) (machine : Machine)
  | exit (machine : Machine)
  | fault (fault : Fault) (machine : Machine)

namespace Machine

/-! ## Registers -/

def getX (m : Machine) (reg : HostReg) : BitVec 64 := if reg = zeroReg then 0 else m.x.get reg

def getW (m : Machine) (reg : HostReg) : BitVec 32 := low (m.getX reg)

def setX (m : Machine) (reg : HostReg) (value : BitVec 64) : Machine :=
  if reg = zeroReg then m else { m with x := m.x.set reg value }

def setW (m : Machine) (reg : HostReg) (value : BitVec 32) : Machine := m.setX reg (ofWord value)

def getV (m : Machine) (reg : HostReg) : BitVec 128 := m.v.get reg

def setV (m : Machine) (reg : HostReg) (value : BitVec 128) : Machine :=
  { m with v := m.v.set reg value }

def getLane (m : Machine) (reg : HostReg) (index : Nat) : BitVec 64 := lane (m.getV reg) index

def setLanes (m : Machine) (reg : HostReg) (lanes : Lanes) (f : Nat → BitVec 64) : Machine :=
  m.setV reg (onLanes lanes (m.getV reg) f)

theorem getX_setX (m : Machine) (reg other : HostReg) (value : BitVec 64) (h : reg ≠ zeroReg) :
    (m.setX reg value).getX other = if other = reg then value else m.getX other := by
  by_cases ho : other = reg
  · subst ho
    simp [setX, getX, h]
  · by_cases hz : other = zeroReg
    · simp [getX, hz, Ne.symm h]
    · simp [setX, getX, h, hz, ho, Bank.get_set]

/-! ## Noise -/

def drawNoise (m : Machine) : BitVec 64 × Machine :=
  let noise := m.noise * 0x9E3779B97F4A7C15 + 1
  (noise ||| 0xDEAD000000000000, { m with noise })

def scrambleX (m : Machine) (reg : HostReg) : Machine :=
  let (value, m) := m.drawNoise
  m.setX reg value

def scrambleV (m : Machine) (reg : HostReg) : Machine :=
  let (lower, m) := m.drawNoise
  let (upper, m) := m.drawNoise
  m.setV reg (join lower upper)

def scrambleFlags (m : Machine) : Machine :=
  let (value, m) := m.drawNoise
  { m with flags := .ofNat value.toNat }

/-! ## Instructions with more than one effect -/

/-- Call a routine: its effect on the guest state, noise in the registers it destroys, its result,
and noise in the flags. -/
def callRoutine (m : Machine) (routine : Routine) : Machine :=
  let convention := routine.convention
  let arg := m.getX convention.arg
  let m := { m with state := routine.effect arg m.state }
  let m := convention.clobbers.toList.foldl scrambleX m
  let m :=
    match convention.result, routine.value arg with
    | some reg, some value => m.setX reg value
    | _, _ => m
  m.scrambleFlags

def scrambleCallerSaved (m : Machine) : Machine :=
  let m := callerSaved.toList.foldl scrambleX m
  let m := callerSavedVectors.toList.foldl scrambleV m
  m.scrambleFlags

def popRegs (m : Machine) : List HostReg → Outcome
  | [] => .next m
  | reg :: regs =>
    match m.stack with
    | [] => .fault (.emptyStack reg) m
    | value :: stack => popRegs ({ m with stack }.setX reg value) regs

def readState (m : Machine) (w : Nat) (base : HostReg) (offset : BitVec 32) :
    Except Fault (BitVec w) :=
  if base = stateReg then m.state.read w offset else .error (.foreignBase base)

def writeState {w : Nat} (m : Machine) (base : HostReg) (offset : BitVec 32) (value : BitVec w) :
    Except Fault Machine :=
  if base = stateReg then (m.state.write offset value).map fun state => { m with state }
  else .error (.foreignBase base)

def readElement (m : Machine) (size : ElemSize) (reg : HostReg) (index : Nat) :
    Except Fault (BitVec 64) :=
  if size.holds index then .ok (element (m.getV reg) size index)
  else .error (.noElement size index)

def writeElement (m : Machine) (size : ElemSize) (reg : HostReg) (index : Nat)
    (value : BitVec 64) : Except Fault Machine :=
  if size.holds index then .ok (m.setV reg (withElement (m.getV reg) size index value))
  else .error (.noElement size index)

def proceed (m : Machine) : Except Fault Machine → Outcome
  | .ok after => .next after
  | .error fault => .fault fault m

/-! ## Execution -/

def step (m : Machine) : Inst → Outcome
  | .movImm32 dst value => .next (m.setW dst value)
  | .movImm64 dst value => .next (m.setX dst value)
  | .unary op dst src => .next (m.setX dst (op.eval (m.getX src)))
  | .binary op dst a b => .next (m.setX dst (op.eval (m.getX a) (m.getX b)))
  | .setFlags op dst a b =>
    let (value, flags) := op.eval (m.getW a) (m.getW b)
    .next { m.setW dst value with flags }
  | .adc32 dst a b => .next (m.setW dst (addWithCarry (m.getW a) (m.getW b) m.flags.c).value)
  | .adcs32 dst a b =>
    let sum := addWithCarry (m.getW a) (m.getW b) m.flags.c
    .next { m.setW dst sum.value with flags := .ofSum sum }
  | .imm32 op dst src value => .next (m.setW dst (op.eval (m.getW src) value))
  | .addsImm32 dst src value =>
    let sum := addWithCarry (m.getW src) value false
    .next { m.setW dst sum.value with flags := .ofSum sum }
  | .addImm64 dst src value => .next (m.setX dst (m.getX src + value))
  | .negs32 dst src =>
    let sum := subtract 0 (m.getW src)
    .next { m.setW dst sum.value with flags := .ofSum sum }
  | .andRor32 dst a b rotate => .next (m.setW dst (m.getW a &&& (m.getW b).rotateRight rotate))
  | .shift op dst src amount => .next (m.setX dst (op.eval (m.getX src) amount))
  | .bitfield op dst src lsb width =>
    .next (m.setW dst (op.eval (m.getW dst) (m.getW src) lsb width))
  | .test op a b => .next { m with flags := op.eval (m.getW a) (m.getW b) }
  | .testImm op src value => .next { m with flags := op.eval (m.getW src) value }
  | .cset32 dst cond => .next (m.setX dst ((BitVec.ofBool (cond.holds m.flags)).setWidth 64))
  | .csel32 dst a b cond => .next (m.setW dst (m.getW (if cond.holds m.flags then a else b)))
  | .load .byte dst base offset =>
    m.proceed ((m.readState 8 base offset).map fun value => m.setX dst (value.setWidth 64))
  | .load .word dst base offset =>
    m.proceed ((m.readState 32 base offset).map fun value => m.setW dst value)
  | .load .double dst base offset =>
    m.proceed ((m.readState 64 base offset).map fun value => m.setX dst value)
  | .store .byte src base offset =>
    m.proceed (m.writeState base offset ((m.getX src).setWidth 8))
  | .store .word src base offset => m.proceed (m.writeState base offset (m.getW src))
  | .store .double src base offset => m.proceed (m.writeState base offset (m.getX src))
  | .loadVector dst base offset =>
    m.proceed ((m.readState 128 base offset).map fun value => m.setV dst value)
  | .storeVector src base offset => m.proceed (m.writeState base offset (m.getV src))
  | .branch offset => .jump offset m
  | .branchIf cond offset => if cond.holds m.flags then .jump offset m else .next m
  | .branchIfZero reg offset => if m.getW reg = 0 then .jump offset m else .next m
  | .call routine => .next (m.callRoutine routine)
  | .push regs =>
    .next { m with stack := regs.toList.foldl (fun stack reg => m.getX reg :: stack) m.stack }
  | .pop regs => m.popRegs regs.toList.reverse
  | .interpret word =>
    m.proceed ((m.interpreter.step m.state word).map fun state =>
      { m with state }.scrambleCallerSaved)
  | .exit => .exit m
  | .farith op lanes dst a b =>
    .next (m.setLanes dst lanes fun i => op.eval (m.getLane a i) (m.getLane b i))
  | .ffused op lanes dst n m' a =>
    .next (m.setLanes dst lanes fun i => op.eval (m.getLane n i) (m.getLane m' i) (m.getLane a i))
  | .funary op lanes dst src => .next (m.setLanes dst lanes fun i => op.eval (m.getLane src i))
  | .fcmp a b =>
    let second := match b with
      | some reg => m.getLane reg 0
      | none => 0
    .next { m with
      flags := .ofComparison (Double.compare? (flushDouble m.flush (m.getLane a 0))
        (flushDouble m.flush second)) }
  | .fcmpSingle src =>
    .next { m with
      flags := .ofComparison
        (Single.compare? (flushSingle m.flush ((m.getV src).extractLsb' 0 32)) 0) }
  | .fabsSingle dst src =>
    .next (m.setV dst (((m.getV src).extractLsb' 0 32 &&& ~~~Single.signMask).setWidth 128))
  | .fcsel dst a b cond =>
    .next (m.setLanes dst .lower fun _ => m.getLane (if cond.holds m.flags then a else b) 0)
  | .fcvt op dst src => .next (m.setV dst (op.eval m.flush (m.getV src)))
  | .fcvtzs dst src => .next (m.setW dst (Double.toWord (flushDouble m.flush (m.getLane src 0))))
  | .fmovToGeneral size dst src =>
    m.proceed ((m.readElement size src 0).map fun value => m.setX dst value)
  | .fmovFromGeneral size dst src => .next (m.setV dst (withElement 0 size 0 (m.getX src)))
  | .umov size dst src index =>
    m.proceed ((m.readElement size src index).map fun value => m.setX dst value)
  | .insGeneral size dst index src => m.proceed (m.writeElement size dst index (m.getX src))
  | .insElement size dst dstIndex src srcIndex =>
    m.proceed ((m.readElement size src srcIndex).bind fun value =>
      m.writeElement size dst dstIndex value)
  | .dup dst src => .next (m.setV dst (join (m.getLane src 0) (m.getLane src 0)))
  | .vmov dst src => .next (m.setV dst (m.getV src))
  | .vmovImm dst value => .next (m.setV dst (join value value))
  | .vand dst a b => .next (m.setV dst (m.getV a &&& m.getV b))
  | .vadd64 lanes dst a b =>
    .next (m.setLanes dst lanes fun i => m.getLane a i + m.getLane b i)
  | .facgtSingle dst a b =>
    let element (i : Nat) : Single := greaterMagnitude m.flush
      ((m.getV a).extractLsb' (32 * i) 32) ((m.getV b).extractLsb' (32 * i) 32)
    .next (m.setV dst (join (element 1 ++ element 0) 0))

def stepLimit : Nat := 100000

/-- Execute at most `fuel` instructions from position `pc`. The stack has to be empty at the
exit. -/
def runFrom (code : Array Inst) : Nat → Nat → Machine → Machine × Option Fault
  | 0, _, m => (m, some (.noExit stepLimit))
  | fuel + 1, pc, m =>
    match code[pc]? with
    | none => (m, some (.ranOffEnd pc))
    | some inst =>
      match m.step inst with
      | .next m => runFrom code fuel (pc + 1) m
      | .jump offset m =>
        let target := (pc : Int) + offset
        if target < 0 then (m, some (.branchOutside pc offset))
        else runFrom code fuel target.toNat m
      | .exit m =>
        (m, if m.stack.isEmpty then none else some (.stackNotEmpty m.stack.length))
      | .fault fault m => (m, some fault)

def run (m : Machine) (code : Array Inst) : Machine × Option Fault := runFrom code stepLimit 0 m

end Machine

end Recompiler.Arm
