import Recompiler.Arm.Inst
import Recompiler.Text.Number

/-!
# Listings

The text of host instructions.
-/

namespace Recompiler.Arm

open Text

def wordName (reg : HostReg) : String := if reg = zeroReg then "wzr" else "w" ++ reg.val.repr

def longName (reg : HostReg) : String := if reg = zeroReg then "xzr" else "x" ++ reg.val.repr

def lanesName (lanes : Lanes) (reg : HostReg) : String :=
  match lanes with
  | .lower => s!"d{reg.val}"
  | .both => s!"v{reg.val}.2d"

def elementGeneral (size : ElemSize) (reg : HostReg) : String :=
  match size with
  | .double => longName reg
  | .single | .byte => wordName reg

def elementVector (size : ElemSize) (reg : HostReg) : String := size.letter ++ reg.val.repr

def elementName (size : ElemSize) (reg : HostReg) (index : Nat) : String :=
  s!"v{reg.val}.{size.letter}[{index}]"

def addressText (base : HostReg) (offset : BitVec 32) : String :=
  s!"[{longName base}, #{offset.toNat}]"

def immText {w : Nat} (value : BitVec w) : String := "#" ++ hex value.toNat

namespace UnaryOp

/-- Mnemonic, and the names of the destination and the source. -/
def form : UnaryOp → String × (HostReg → String) × (HostReg → String)
  | .mov32 => ("mov", wordName, wordName)
  | .mov64 => ("mov", longName, longName)
  | .mvn32 => ("mvn", wordName, wordName)
  | .neg32 => ("neg", wordName, wordName)
  | .sxtb32 => ("sxtb", wordName, wordName)
  | .sxth32 => ("sxth", wordName, wordName)
  | .sxtw64 => ("sxtw", longName, wordName)
  | .clz32 => ("clz", wordName, wordName)

end UnaryOp

namespace BinaryOp

def form : BinaryOp → String × (HostReg → String) × (HostReg → String)
  | .add32 => ("add", wordName, wordName)
  | .sub32 => ("sub", wordName, wordName)
  | .sub64 => ("sub", longName, longName)
  | .mul32 => ("mul", wordName, wordName)
  | .smull => ("smull", longName, wordName)
  | .umull => ("umull", longName, wordName)
  | .sdiv32 => ("sdiv", wordName, wordName)
  | .udiv32 => ("udiv", wordName, wordName)
  | .and32 => ("and", wordName, wordName)
  | .orr32 => ("orr", wordName, wordName)
  | .orr64 => ("orr", longName, longName)
  | .eor32 => ("eor", wordName, wordName)
  | .bic32 => ("bic", wordName, wordName)
  | .orn32 => ("orn", wordName, wordName)
  | .eon32 => ("eon", wordName, wordName)
  | .lslv64 => ("lslv", longName, longName)
  | .lsrv64 => ("lsrv", longName, longName)
  | .asrv64 => ("asrv", longName, longName)
  | .rorv32 => ("rorv", wordName, wordName)

end BinaryOp

def FlagOp.mnemonic : FlagOp → String
  | .adds => "adds"
  | .subs => "subs"
  | .ands => "ands"

def ImmOp.mnemonic : ImmOp → String
  | .add => "add"
  | .and => "and"
  | .orr => "orr"
  | .eor => "eor"

def ShiftOp.form : ShiftOp → String × (HostReg → String)
  | .lsl32 => ("lsl", wordName)
  | .lsr32 => ("lsr", wordName)
  | .asr32 => ("asr", wordName)
  | .ror32 => ("ror", wordName)
  | .lsl64 => ("lsl", longName)
  | .lsr64 => ("lsr", longName)

def FieldOp.mnemonic : FieldOp → String
  | .ubfx => "ubfx"
  | .ubfiz => "ubfiz"
  | .bfi => "bfi"
  | .bfxil => "bfxil"

def TestOp.mnemonic : TestOp → String
  | .cmp => "cmp"
  | .cmn => "cmn"
  | .tst => "tst"

def TestImmOp.mnemonic : TestImmOp → String
  | .cmp => "cmp"
  | .cmn => "cmn"

def MemSize.form : MemSize → String × (HostReg → String)
  | .byte => ("b", wordName)
  | .word => ("", wordName)
  | .double => ("", longName)

def FpOp.mnemonic : FpOp → String
  | .add => "fadd"
  | .sub => "fsub"
  | .mul => "fmul"
  | .div => "fdiv"

def FusedOp.mnemonic : FusedOp → String
  | .fmadd => "fmadd"
  | .fmsub => "fmsub"
  | .fnmadd => "fnmadd"
  | .fnmsub => "fnmsub"

def FpUnary.mnemonic : FpUnary → String
  | .neg => "fneg"
  | .abs => "fabs"
  | .roundSingle => "frnds"

namespace Inst

def text : Inst → String
  | .movImm32 dst value => s!"mov {wordName dst}, {immText value}"
  | .movImm64 dst value => s!"mov {longName dst}, {immText value}"
  | .unary op dst src =>
    let (mnemonic, target, source) := op.form
    s!"{mnemonic} {target dst}, {source src}"
  | .binary op dst a b =>
    let (mnemonic, target, source) := op.form
    s!"{mnemonic} {target dst}, {source a}, {source b}"
  | .setFlags op dst a b => s!"{op.mnemonic} {wordName dst}, {wordName a}, {wordName b}"
  | .adc32 dst a b => s!"adc {wordName dst}, {wordName a}, {wordName b}"
  | .adcs32 dst a b => s!"adcs {wordName dst}, {wordName a}, {wordName b}"
  | .imm32 op dst src value => s!"{op.mnemonic} {wordName dst}, {wordName src}, {immText value}"
  | .addsImm32 dst src value => s!"adds {wordName dst}, {wordName src}, {immText value}"
  | .addImm64 dst src value => s!"add {longName dst}, {longName src}, {immText value}"
  | .negs32 dst src => s!"negs {wordName dst}, {wordName src}"
  | .andRor32 dst a b rotate =>
    s!"and {wordName dst}, {wordName a}, {wordName b}, ror #{rotate}"
  | .shift op dst src amount =>
    let (mnemonic, reg) := op.form
    s!"{mnemonic} {reg dst}, {reg src}, #{amount}"
  | .bitfield op dst src lsb width =>
    s!"{op.mnemonic} {wordName dst}, {wordName src}, #{lsb}, #{width}"
  | .test op a b => s!"{op.mnemonic} {wordName a}, {wordName b}"
  | .testImm op src value => s!"{op.mnemonic} {wordName src}, {immText value}"
  | .cset32 dst cond => s!"cset {wordName dst}, {cond.text}"
  | .csel32 dst a b cond =>
    s!"csel {wordName dst}, {wordName a}, {wordName b}, {cond.text}"
  | .load size dst base offset =>
    let (ending, reg) := size.form
    s!"ldr{ending} {reg dst}, {addressText base offset}"
  | .store size src base offset =>
    let (ending, reg) := size.form
    s!"str{ending} {reg src}, {addressText base offset}"
  | .loadVector dst base offset => s!"ldr q{dst.val}, {addressText base offset}"
  | .storeVector src base offset => s!"str q{src.val}, {addressText base offset}"
  | .branch offset => s!"b {signedDecimal offset}"
  | .branchIf cond offset => s!"b.{cond.text} {signedDecimal offset}"
  | .branchIfZero reg offset => s!"cbz {wordName reg}, {signedDecimal offset}"
  | .call routine => s!"bl <{routine.name}>"
  | .push regs => s!"push {regs.text}"
  | .pop regs => s!"pop {regs.text}"
  | .interpret word => s!"interpret {hexWord word}"
  | .exit => "exit"
  | .farith op lanes dst a b =>
    s!"{op.mnemonic} {lanesName lanes dst}, {lanesName lanes a}, {lanesName lanes b}"
  | .ffused op lanes dst n m a =>
    s!"{op.mnemonic} {lanesName lanes dst}, {lanesName lanes n}, {lanesName lanes m}, " ++
      lanesName lanes a
  | .funary op lanes dst src => s!"{op.mnemonic} {lanesName lanes dst}, {lanesName lanes src}"
  | .fcmp a (some b) => s!"fcmp d{a.val}, d{b.val}"
  | .fcmp a none => s!"fcmp d{a.val}, #0.0"
  | .fcmpSingle src => s!"fcmp s{src.val}, #0.0"
  | .fabsSingle dst src => s!"fabs s{dst.val}, s{src.val}"
  | .fcsel dst a b cond => s!"fcsel d{dst.val}, d{a.val}, d{b.val}, {cond.text}"
  | .fcvt .widen dst src => s!"fcvt d{dst.val}, s{src.val}"
  | .fcvt .narrow dst src => s!"fcvt s{dst.val}, d{src.val}"
  | .fcvt .widenPair dst src => s!"fcvtl v{dst.val}.2d, v{src.val}.2s"
  | .fcvt .narrowPair dst src => s!"fcvtn v{dst.val}.2s, v{src.val}.2d"
  | .fcvtzs dst src => s!"fcvtzs {wordName dst}, d{src.val}"
  | .fmovToGeneral size dst src => s!"fmov {elementGeneral size dst}, {elementVector size src}"
  | .fmovFromGeneral size dst src => s!"fmov {elementVector size dst}, {elementGeneral size src}"
  | .umov size dst src index => s!"umov {elementGeneral size dst}, {elementName size src index}"
  | .insGeneral size dst index src =>
    s!"ins {elementName size dst index}, {elementGeneral size src}"
  | .insElement size dst dstIndex src srcIndex =>
    s!"ins {elementName size dst dstIndex}, {elementName size src srcIndex}"
  | .dup dst src => s!"dup v{dst.val}.2d, v{src.val}.d[0]"
  | .vmov dst src => s!"mov v{dst.val}.16b, v{src.val}.16b"
  | .vmovImm dst value => s!"movi v{dst.val}.2d, {immText value}"
  | .vand dst a b => s!"and v{dst.val}.16b, v{a.val}.16b, v{b.val}.16b"
  | .vadd64 lanes dst a b =>
    s!"add {lanesName lanes dst}, {lanesName lanes a}, {lanesName lanes b}"
  | .facgtSingle dst a b => s!"facgt v{dst.val}.2s, v{a.val}.2s, v{b.val}.2s"

end Inst

def listing (code : List Inst) : String :=
  String.intercalate "\n"
    (code.zipIdx.map fun (inst, i) => s!"  {rightAligned 3 i.repr}: {inst.text}")

end Recompiler.Arm
