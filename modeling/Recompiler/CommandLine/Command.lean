import Recompiler.Arm.Roles
import Recompiler.Block.Config
import Recompiler.CommandLine.Arguments

/-!
# Commands

The three commands and how they are written on the command line.
-/

namespace Recompiler.CommandLine

open Block Text

inductive Command where
  /-- Compile the word list in a file, or from the standard input when the path is a dash. The
  settings are those of the options; `poolSize` limits the general pool. -/
  | compile (path : String) (json : Bool) (config : Config) (poolSize : Option Nat)
  | decode (words : List String)
  | convert (kind : String) (src dst : Nat) (single exact : Bool)
  deriving DecidableEq

inductive Source where
  | standardInput
  | file (path : String)
  deriving DecidableEq

namespace Command

def source? : Command → Option Source
  | .compile path _ _ _ => some (if path = "-" then .standardInput else .file path)
  | .decode _ | .convert .. => none

def compileGrammar : Grammar where
  flags := ["json", "no-int", "no-fp", "fprf", "eager-carry", "exact-conversions"]
  counts := ["gpr-pool"]
  operands := [.path]

def decodeGrammar : Grammar where
  operands := [.text]
  repeats := true

def convertGrammar : Grammar where
  flags := ["single", "exact-conversions"]
  operands := [.text, .byte, .byte]

def configOf (arguments : Arguments) : Config where
  integerDisabled := arguments.has "no-int"
  floatingPointDisabled := arguments.has "no-fp"
  fprf := arguments.has "fprf"
  lazyCarry := !arguments.has "eager-carry"
  exactConversions := arguments.has "exact-conversions"

def readCompile (list : List String) : Except Refusal Command := do
  let arguments ← Arguments.ofList compileGrammar list
  match arguments.operands with
  | [path] =>
    return .compile path (arguments.has "json") (configOf arguments) (arguments.count? "gpr-pool")
  | _ => throw .misuse

def readDecode (list : List String) : Except Refusal Command := do
  let arguments ← Arguments.ofList decodeGrammar list
  return .decode arguments.operands

def readConvert (list : List String) : Except Refusal Command := do
  let arguments ← Arguments.ofList convertGrammar list
  match arguments.operands with
  | [kind, src, dst] =>
    match readByte? src.toList, readByte? dst.toList with
    | some src, some dst =>
      return .convert kind src dst (arguments.has "single") (arguments.has "exact-conversions")
    | _, _ => throw .misuse
  | _ => throw .misuse

def names : List String := ["compile", "decode", "cvt", "help"]

def ofArguments : List String → Except Refusal Command
  | [] => .error .misuse
  | "compile" :: rest => readCompile rest
  | "decode" :: rest => readDecode rest
  | "cvt" :: rest => readConvert rest
  | ["help"] => .error .help
  | ["help", name] => .error (if names.contains name then .help else .misuse)
  | argument :: _ =>
    match Arguments.formOf argument with
    | .long "help" none => .error .help
    | .short ('h' :: _) => .error .help
    | _ => .error .misuse

end Command

end Recompiler.CommandLine
