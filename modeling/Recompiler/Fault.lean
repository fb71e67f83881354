import Recompiler.Arm.Element
import Recompiler.PowerPC.StateField
import Recompiler.Register
import Recompiler.Text.Number

/-!
# Faults

Everything that can go wrong, by cause. Each cause belongs to one of four kinds, and `message` is
the only place where wording is chosen.
-/

namespace Recompiler

open PowerPC (StateField)

inductive FaultKind where
  | internal
  | invalidInput
  | unsupported
  | poolExhausted
  deriving DecidableEq

namespace FaultKind

def name : FaultKind → String
  | .internal => "Internal"
  | .invalidInput => "InvalidInput"
  | .unsupported => "Unsupported"
  | .poolExhausted => "PoolExhausted"

def heading : FaultKind → String
  | .internal => "Internal error: "
  | .invalidInput => "Invalid input: "
  | .unsupported => "Unsupported: "
  | .poolExhausted => "Host register pool exhausted: "

end FaultKind

inductive Fault where
  | fieldOverflow (field : StateField)
  | fieldOutside (field : StateField) (first last size : Nat)
  | fieldMisaligned (field : StateField) (first : Nat)
  | fieldsOverlap (left right : StateField)
  | outOfBounds (first last size : Nat)
  | poolTooSmall (cls : RegClass) (least size : Nat)
  | poolForbids (cls : RegClass) (reg : HostReg)
  | poolRepeats (cls : RegClass) (reg : HostReg)
  | hintCount (hints words : Nat)
  | conversionRegisters (src dst : Nat)
  | noInterpreter (word : BitVec 32)
  | poolExhausted (cls : RegClass) (pinned size : Nat)
  | lockInUse (reg : HostReg)
  | scratchLeaked (cls : RegClass) (reg : HostReg)
  | precisionChanged (inputs : List Nat) (expected actual : Bool)
  | roundingInPlace (reg : HostReg)
  | unresolvedLabel (label : Nat)
  | notABranch (position : Nat)
  | ranOffEnd (pc : Nat)
  | branchOutside (pc : Nat) (offset : Int)
  | stackNotEmpty (depth : Nat)
  | noExit (steps : Nat)
  | foreignBase (base : HostReg)
  | emptyStack (reg : HostReg)
  | noElement (size : Arm.ElemSize) (index : Nat)
  deriving DecidableEq

namespace Fault

def kind : Fault → FaultKind
  | .fieldOverflow _ | .fieldOutside .. | .fieldMisaligned .. | .fieldsOverlap ..
  | .outOfBounds .. | .poolTooSmall .. | .poolForbids .. | .poolRepeats .. | .hintCount ..
  | .conversionRegisters .. => .invalidInput
  | .noInterpreter _ => .unsupported
  | .poolExhausted .. => .poolExhausted
  | .lockInUse _ | .scratchLeaked .. | .precisionChanged .. | .roundingInPlace _
  | .unresolvedLabel _ | .notABranch _ | .ranOffEnd _ | .branchOutside .. | .stackNotEmpty _
  | .noExit _ | .foreignBase _ | .emptyStack _ | .noElement .. => .internal

def detail : Fault → String
  | .fieldOverflow field => s!"{field.name} offset overflows"
  | .fieldOutside field first last size =>
    s!"{field.name} field [{first}, {last}) exceeds state size {size}"
  | .fieldMisaligned field first =>
    s!"{field.name} offset {first} is not {field.alignment}-byte aligned"
  | .fieldsOverlap left right => s!"{left.name} and {right.name} fields overlap"
  | .outOfBounds first last size =>
    s!"guest state access [{first}, {last}) out of bounds ({size} bytes)"
  | .poolTooSmall cls least size =>
    s!"{cls.name} pool needs at least {least} registers, got {size}"
  | .poolForbids cls reg => s!"register {reg.val} cannot be used in the {cls.name} pool"
  | .poolRepeats cls reg => s!"register {reg.val} appears twice in the {cls.name} pool"
  | .hintCount hints words => s!"{hints} hints for {words} instructions"
  | .conversionRegisters src dst => s!"conversion registers f{src}, f{dst} out of range"
  | .noInterpreter word =>
    s!"no interpreter for {Text.hexWord word} (opcode {(word >>> 26).toNat})"
  | .poolExhausted cls pinned size =>
    s!"all {pinned} {cls.name} registers pinned or locked ({size} in pool)"
  | .lockInUse reg => s!"cannot lock x{reg.val} for a call: in use by the current instruction"
  | .scratchLeaked cls reg => s!"scratch {cls.letter}{reg.val} leaked past its instruction"
  | .precisionChanged inputs expected actual =>
    let list := String.intercalate ", " (inputs.map Nat.repr)
    s!"single-precision state of f[{list}] changed from {Text.flag expected} to {Text.flag actual}"
  | .roundingInPlace reg => s!"25-bit rounding needs distinct registers, got v{reg.val} twice"
  | .unresolvedLabel label => s!"unresolved label {label}"
  | .notABranch position => s!"fixup at {position} does not point at a branch"
  | .ranOffEnd pc => s!"pc {pc} ran off the end of the block"
  | .branchOutside pc offset => s!"branch to {pc} + {Text.decimal offset}"
  | .stackNotEmpty depth => s!"{depth} pushed values left at block exit"
  | .noExit steps => s!"no block exit after {steps} steps"
  | .foreignBase base => s!"memory access through x{base.val} instead of the state register"
  | .emptyStack reg => s!"pop of x{reg.val} from empty stack"
  | .noElement size index => s!"element {index} out of range for {size.capital}"

def message (fault : Fault) : String := fault.kind.heading ++ fault.detail

end Fault

end Recompiler
