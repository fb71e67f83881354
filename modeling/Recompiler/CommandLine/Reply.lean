import Recompiler.Block.Report
import Recompiler.CommandLine.Command
import Recompiler.PowerPC.WordList

/-!
# Replies

What the program prints and the status with which it ends. A command line that is not understood
ends with status 2, a command that fails with status 1. What was printed before a failure stays.
-/

namespace Recompiler.CommandLine

open Arm Block Lower PowerPC

inductive ReadFault where
  | notText
  | system (text : String) (code : Nat)
  deriving DecidableEq

namespace ReadFault

def message : ReadFault → String
  | .notText => "stream did not contain valid UTF-8"
  | .system text code => s!"{text} (os error {code})"

def code? : ReadFault → Option Nat
  | .notText => none
  | .system _ code => some code

def absent : ReadFault := .system "No such file or directory" 2

def permissionDenied : ReadFault := .system "Permission denied" 13

def notADirectory : ReadFault := .system "Not a directory" 20

def isADirectory : ReadFault := .system "Is a directory" 21

def nameTooLong : ReadFault := .system "File name too long" 36

end ReadFault

inductive Failure where
  | unreadable (source : Source) (cause : ReadFault)
  | badInput (path : String) (line : BadLine)
  | badWord (word : BadWord)
  | poolLimit (size : Nat)
  | badSettings (fault : Fault)
  | compilation (fault : Fault)
  | unknownConversion (name : String)
  | conversion (kind : Conversion) (src dst : Nat) (fault : Fault)
  deriving DecidableEq

namespace Failure

def wordMessages (word : BadWord) : List String :=
  [s!"invalid hex word '{word.text}'", word.cause.message]

/-- The message of a failure and the messages of its causes, from the outside in. -/
def messages : Failure → List String
  | .unreadable .standardInput cause => ["Failed to read stdin", cause.message]
  | .unreadable (.file path) cause => [s!"Failed to read {path}", cause.message]
  | .badInput path line =>
    [s!"Invalid input {path}", s!"line {line.number}"] ++ wordMessages line.word
  | .badWord word => wordMessages word
  | .poolLimit size =>
    [s!"--gpr-pool {size} exceeds the {generalOrder.length} allocatable registers"]
  | .badSettings fault => ["Invalid compiler configuration", fault.message]
  | .compilation fault => ["Compilation failed", fault.message]
  | .unknownConversion name =>
    [s!"unknown conversion '{name}', expected s2d, s2d-pair, d2s or d2s-pair"]
  | .conversion kind src dst fault =>
    [s!"Failed to compile {kind.name} f{src} -> f{dst}", fault.message]

def causeLines : List String → List String
  | [] => []
  | [cause] => ["", "Caused by:", "    " ++ cause]
  | causes =>
    ["", "Caused by:"] ++ causes.zipIdx.map fun (cause, i) => s!"    {i}: {cause}"

def report (failure : Failure) : List String :=
  match failure.messages with
  | [] => []
  | message :: causes => ("Error: " ++ message) :: causeLines causes

end Failure

structure Performance where
  lines : List String
  failure : Option Failure := none
  deriving DecidableEq

def Performance.ofExcept : Except Failure (List String) → Performance
  | .ok lines => ⟨lines, none⟩
  | .error failure => ⟨[], some failure⟩

namespace Command

def limitPool (config : Config) : Option Nat → Except Failure Config
  | none => .ok config
  | some size =>
    if size ≤ generalOrder.length then
      .ok { config with generalPool := some (generalOrder.take size) }
    else .error (.poolLimit size)

def inputWords (path : String) (source : Source) (contents : Except ReadFault ByteArray) :
    Except Failure (List Word) := do
  let bytes ← contents.mapError (.unreadable source)
  match String.fromUTF8? bytes with
  | none => throw (.unreadable source .notText)
  | some text => (readWords text).mapError (.badInput path)

def compileWords (config : Config) (words : List Word) : Except Failure CompiledBlock := do
  let compiler ← (Compiler.new config .standard).mapError .badSettings
  (compiler.compile words none).mapError .compilation

def describeAll : List String → Performance
  | [] => ⟨[], none⟩
  | text :: rest =>
    match readWord text.toList with
    | .error word => ⟨[], some (.badWord word)⟩
    | .ok word =>
      let others := describeAll rest
      { others with lines := ({} : Config).describe word :: others.lines }

def conversionHints (src : Nat) (single : Bool) : Hints :=
  if single && src < 32 then
    { singles := BitVec.twoPow 32 src, storeSafe := BitVec.twoPow 32 src }
  else {}

def convertNamed (name : String) (src dst : Nat) (single exact : Bool) :
    Except Failure CompiledBlock :=
  match Conversion.ofName? name with
  | none => .error (.unknownConversion name)
  | some kind =>
    let compiler : Compiler := ⟨{ exactConversions := exact }, .standard⟩
    (compiler.compileConversion kind src dst (conversionHints src single)).mapError
      (.conversion kind src dst)

def perform (command : Command) (contents : Except ReadFault ByteArray) : Performance :=
  match command with
  | .compile path json config poolSize =>
    .ofExcept do
      let source := if path = "-" then .standardInput else .file path
      let words ← inputWords path source contents
      let config ← limitPool config poolSize
      let block ← compileWords config words
      return if json then block.json else block.report
  | .decode words => describeAll words
  | .convert name src dst single exact =>
    .ofExcept ((convertNamed name src dst single exact).map (·.report))

end Command

structure Reply where
  status : Nat
  output : String := ""
  errors : String := ""
  deriving DecidableEq

def textOfLines (lines : List String) : String :=
  String.join (lines.map fun line => line ++ "\n")

def usage : List String :=
  ["Compiles blocks of PowerPC words to code for a symbolic 64-bit host.",
    "",
    "  compile [--json] [--no-int] [--no-fp] [--fprf] [--eager-carry] [--exact-conversions]",
    "          [--gpr-pool N] FILE     compile the words of a file, or of the input when it is -",
    "  decode WORD...                  print the family and the fields of words",
    "  cvt [--single] [--exact-conversions] KIND SRC DST",
    "                                  compile a conversion: s2d, s2d-pair, d2s or d2s-pair"]

def Performance.reply (performance : Performance) : Reply :=
  { status := if performance.failure.isSome then 1 else 0
    output := textOfLines performance.lines
    errors := textOfLines ((performance.failure.map Failure.report).getD []) }

def Refusal.reply : Refusal → Reply
  | .help => { status := 0, output := textOfLines usage }
  | .misuse => { status := 2, errors := textOfLines usage }

/-- The reply to a command line, without the program's name. `read` gives what a source holds. -/
def replyReading {m : Type → Type} [Monad m] (read : Source → m (Except ReadFault ByteArray))
    (list : List String) : m Reply := do
  match Command.ofArguments list with
  | .error refusal => return refusal.reply
  | .ok command =>
    let contents ← match command.source? with
      | some source => read source
      | none => pure (.ok .empty)
    return (command.perform contents).reply

end Recompiler.CommandLine
