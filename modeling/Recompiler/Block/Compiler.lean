import Recompiler.Block.Deferral
import Recompiler.Lower.Op

/-!
# The block compiler

Compiles a list of guest words to host code. Each word is either lowered or left to the interpreter;
at the end guest memory is brought up to date.
-/

namespace Recompiler.Block

open Arm Emit Lower PowerPC

structure CompiledBlock where
  code : Array Inst
  stats : Stats
  deriving DecidableEq

def leastPool : Nat := 5

def allowedInPool (cls : RegClass) (reg : HostReg) : Bool :=
  match cls with
  | .general => reg < 32 && !reserved.contains reg
  | .vector => reg < 32 && reg ≠ vectorScratch

def poolFaultAfter (cls : RegClass) (before : List HostReg) : List HostReg → Option Fault
  | [] => none
  | reg :: regs =>
    if !allowedInPool cls reg then some (.poolForbids cls reg)
    else if reg ∈ before then some (.poolRepeats cls reg)
    else poolFaultAfter cls (reg :: before) regs

def poolFault? (cls : RegClass) : Option (List HostReg) → Option Fault
  | none => none
  | some regs =>
    if regs.length < leastPool then some (.poolTooSmall cls leastPool regs.length)
    else poolFaultAfter cls [] regs

/-- A compiler for fixed settings and a fixed layout, both valid. -/
structure Compiler where
  config : Config
  layout : Layout
  deriving DecidableEq

namespace Compiler

def fault? (config : Config) (layout : Layout) : Option Fault :=
  (layout.fault?.or (poolFault? .general config.generalPool)).or
    (poolFault? .vector config.vectorPool)

def new (config : Config) (layout : Layout) : Except Fault Compiler :=
  match fault? config layout with
  | some fault => .error fault
  | none => .ok ⟨config, layout⟩

def compileWord (word : Word) : EmitM Unit := do
  match Op.decode word, (← get).config.deferral? word with
  | some op, none =>
    lower op
    modify fun e => { e with stats := { e.stats with lowered := e.stats.lowered + 1 } }
  | _, _ => deferWord

def lookahead : List (Word × Hints) → Option NextInstruction
  | [] => none
  | (word, hints) :: _ =>
    (Op.decode word).map fun op => ⟨op.opClass, hints.wantsCaInFlags⟩

def compileWords : List (Word × Hints) → EmitM Unit
  | [] => return ()
  | (word, hints) :: rest => do
    beginInstruction word hints (lookahead rest)
    compileWord word
    endInstruction
    compileWords rest

def closeBlock : EmitM Unit := do
  flushAll
  emit .exit

def collected (e : Emitter) : Except Fault CompiledBlock :=
  match e.code.finish with
  | .error fault => .error fault
  | .ok code =>
    .ok ⟨code, { e.stats with
      spills := e.integers.spills + e.vectors.cache.spills
      hostInstructions := code.size }⟩

def finish (e : Emitter) : Except Fault CompiledBlock :=
  match closeBlock.run.run e with
  | (.error fault, _) => .error fault
  | (.ok (), e) => collected e

def assemble (compiler : Compiler) (program : EmitM Unit) : Except Fault CompiledBlock :=
  match program.run.run (.new compiler.config compiler.layout) with
  | (.error fault, _) => .error fault
  | (.ok (), e) => finish e

/-- Compile a block with given hints, or with those of its analysis. -/
def compile (compiler : Compiler) (words : List Word) (hints : Option (List Hints)) :
    Except Fault CompiledBlock :=
  let hints := hints.getD (analyze words)
  if hints.length ≠ words.length then .error (.hintCount hints.length words.length)
  else compiler.assemble (compileWords (words.zip hints))

def compileConversion (compiler : Compiler) (kind : Conversion) (src dst : Nat) (hints : Hints) :
    Except Fault CompiledBlock :=
  if h : src < 32 ∧ dst < 32 then
    compiler.assemble do
      beginInstruction 0 hints none
      convert kind ⟨src, h.1⟩ ⟨dst, h.2⟩
      endInstruction
  else .error (.conversionRegisters src dst)

end Compiler

end Recompiler.Block
