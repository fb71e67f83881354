import Recompiler.Lower.Operand

/-!
# Conversions between singles and doubles

A conversion between raw singles and doubles as loads and stores see them. The host's own
conversion agrees with it except on zeros, NaNs and numbers that the host may flush, so it is used
behind a check, with the routine as the far path. Doubles are narrowed by the host only if they are
known to be singles already.
-/

namespace Recompiler.Lower

open Alloc Arm Emit PowerPC

inductive Conversion where
  | singleToDouble
  | singleToDoublePair
  | doubleToSingle
  | doubleToSinglePair
  deriving DecidableEq

namespace Conversion

def all : List Conversion :=
  [.singleToDouble, .singleToDoublePair, .doubleToSingle, .doubleToSinglePair]

def name : Conversion → String
  | .singleToDouble => "s2d"
  | .singleToDoublePair => "s2d-pair"
  | .doubleToSingle => "d2s"
  | .doubleToSinglePair => "d2s-pair"

def ofName? (name : String) : Option Conversion := all.find? fun kind => kind.name = name

def isLower : Conversion → Bool
  | .singleToDouble | .doubleToSingle => true
  | .singleToDoublePair | .doubleToSinglePair => false

def toDouble : Conversion → Bool
  | .singleToDouble | .singleToDoublePair => true
  | .doubleToSingle | .doubleToSinglePair => false

def routine (kind : Conversion) : Routine :=
  if kind.toDouble then .singleToDouble else .doubleToSingle

def native : Conversion → CvtOp
  | .singleToDouble => .widen
  | .singleToDoublePair => .widenPair
  | .doubleToSingle => .narrow
  | .doubleToSinglePair => .narrowPair

end Conversion

/-- Convert by routine. In a pair, the half whose result cannot overwrite the other operand comes
first, since the registers may be the same. -/
def convertByRoutine (kind : Conversion) (call : PreparedCall) (dst src : HostReg) :
    EmitM Unit := do
  match kind with
  | .singleToDouble =>
    emitCall call [.fmovToGeneral .single 0 src] [.fmovFromGeneral .double dst 1]
  | .singleToDoublePair =>
    emitCall call [.umov .single 0 src 1] [.insGeneral .double dst 1 1]
    emitCall call [.fmovToGeneral .single 0 src] [.insGeneral .double dst 0 1]
  | .doubleToSingle =>
    emitCall call [.fmovToGeneral .double 0 src] [.fmovFromGeneral .single dst 1]
  | .doubleToSinglePair =>
    emitCall call [.fmovToGeneral .double 0 src] [.insGeneral .single dst 0 1]
    emitCall call [.umov .double 0 src 1] [.insGeneral .single dst 1 1]
    emit (.insGeneral .double dst 1 zeroReg)

/-- Compare the two low singles of `src` with zero and fold the outcome into one number that is a
NaN exactly when both magnitudes are greater. -/
def bothNonzeroCode (mask src : HostReg) : List Inst :=
  [.vmovImm vectorScratch 0,
    .facgtSingle mask src vectorScratch,
    .insElement .byte mask 7 mask 0,
    .fcmp mask (some mask)]

def withFarPath (kind : Conversion) (call : PreparedCall) (dst src : HostReg) (cond : Cond)
    (near : EmitM Unit) : EmitM Unit := do
  let slow ← newLabel
  let done ← newLabel
  branchTo (.branchIf cond 0) slow
  near
  placeLabel done
  switchTo .far
  placeLabel slow
  convertByRoutine kind call dst src
  branchTo (.branch 0) done
  switchTo .near
  finishCall call

def widenChecked (kind : Conversion) (call : PreparedCall) (dst src : HostReg) : EmitM Unit := do
  let temp ← scratchVector
  if kind.isLower then emitAll [.fabsSingle temp src, .fcmpSingle temp]
  else emitAll (bothNonzeroCode temp src)
  releaseVector temp
  withFarPath kind call dst src (if kind.isLower then .le else .vc)
    (emit (.fcvt kind.native dst src))

/-- Narrow by the host's conversion into a scratch register, and keep the results if they are
neither zero nor NaN. -/
def narrowChecked (kind : Conversion) (call : PreparedCall) (dst src : HostReg) : EmitM Unit := do
  let temp ← scratchVector
  if kind.isLower then
    emitAll [.fcvt kind.native temp src, .fabsSingle vectorScratch temp,
      .fcmpSingle vectorScratch]
  else
    let mask ← scratchVector
    emitAll (.fcvt kind.native temp src :: bothNonzeroCode mask temp)
    releaseVector mask
  withFarPath kind call dst src (if kind.isLower then .le else .vc) do
    emit (.vmov dst temp)
    releaseVector temp

def convertRegs (kind : Conversion) (dst src : HostReg) (fast : Bool) : EmitM Unit := do
  let call ← prepareCall kind.routine
  let exact := (← get).config.exactConversions
  let native := if kind.toDouble then !exact else fast
  if native then
    if kind.toDouble then widenChecked kind call dst src else narrowChecked kind call dst src
  else
    convertByRoutine kind call dst src
    finishCall call

/-- Convert between guest registers. Whether narrowing may be fast is decided before the destination
is bound, since it may be the operand. -/
def convert (kind : Conversion) (src dst : GuestReg) : EmitM Unit := do
  flushCarry
  let old ← readFpr src
  let e ← get
  let fast := !kind.toDouble && !e.config.exactConversions &&
    e.vectors.isSingle src kind.isLower && e.isStoreSafe src
  let new ← writeFpr dst false (if kind.toDouble then .bothSingle else .double)
  convertRegs kind new old fast

end Recompiler.Lower
