import Recompiler.Lower.Operand

/-!
# Floating-point moves, selection and rounding
-/

namespace Recompiler.Lower

open Alloc Arm Emit PowerPC

def mergedPrecision (e : Emitter) (sources : List GuestReg) (dst : GuestReg) : Precision :=
  if e.vectors.allSingle sources true then
    if e.vectors.precision.get dst = .bothSingle then .bothSingle else .lowerSingle
  else .double

def moveCode (op : FpMove) (lanes : Lanes) (dst src : HostReg) : List Inst :=
  match op, lanes with
  | .mr, .both => [.vmov dst src]
  | .mr, .lower => [.insElement .double dst 0 src 0]
  | .neg, _ => [.funary .neg lanes dst src]
  | .abs, _ => [.funary .abs lanes dst src]
  | .nabs, _ => [.funary .abs lanes dst src, .funary .neg lanes dst dst]

/-- A move of both lanes takes the precision with it; a move of the lower lane keeps the upper
one. -/
def floatMove (packed : Bool) (op : FpMove) : EmitM Unit := do
  flushCarry
  let e ← get
  let word := e.word
  unless op = .mr ∧ word.rd = word.rb do
    let precision :=
      if packed then e.vectors.precision.get word.rb else mergedPrecision e [word.rb] word.rd
    let src ← readFpr word.rb
    let dst ← writeFpr word.rd (!packed) precision
    emitAll (moveCode op (if packed then .both else .lower) dst src)

def fsel : EmitM Unit := do
  flushCarry
  let e ← get
  let word := e.word
  let precision := mergedPrecision e [word.rb, word.frc] word.rd
  let a ← readFpr word.ra
  let b ← readFpr word.rb
  let c ← readFpr word.frc
  let dst ← writeFpr word.rd true precision
  emit (.fcmp a none)
  emit (.fcsel dst c b .ge)

/-- `frsp`. What rounding to single wrote is not changed by rounding it again. -/
def frsp : EmitM Unit := do
  flushCarry
  let e ← get
  let word := e.word
  let exact := e.vectors.isSingle word.rb true && e.isStoreSafe word.rb
  let src ← readFpr word.rb
  let dst ← writeFpr word.rd false .bothSingle
  emitAll
    (if exact then [.dup dst src]
    else [.funary .roundSingle .lower dst src, .dup dst dst])
  updateClass dst true

/-- `fctiwz`. The host converts a NaN to zero, the guest to the smallest word. -/
def fctiwz : EmitM Unit := do
  flushCarry
  let word ← currentWord
  let src ← readFpr word.rb
  let result ← scratch
  let other ← scratch
  let dst ← writeFpr word.rd true .double
  emitAll
    [.fcvtzs result src,
      .fcmp src (some src),
      .movImm32 other 0x80000000,
      .csel32 result other result .vs,
      .movImm64 other 0xFFF8000000000000,
      .binary .orr64 result result other,
      .insGeneral .double dst 0 result]
  release other
  release result

end Recompiler.Lower
