import Recompiler.CommandLine.Reply

/-!
# The program

Reads what a command asks for, prints its reply and ends with its status.
-/

namespace Recompiler.CommandLine

/-- A failure of the system by its number, which may come negated. -/
def ReadFault.ofCode (code : UInt32) (details : String) : ReadFault :=
  let number := min code.toNat (-code).toNat
  let known : List ReadFault :=
    [.absent, .permissionDenied, .notADirectory, .isADirectory, .nameTooLong]
  (known.find? (·.code? = some number)).getD (.system details number)

def ReadFault.ofError : IO.Error → ReadFault
  | .noFileOrDirectory _ code details | .permissionDenied _ code details
  | .inappropriateType _ code details | .invalidArgument _ code details
  | .resourceExhausted _ code details => .ofCode code details
  | error => .system error.toString 0

def Source.read (source : Source) : IO (Except ReadFault ByteArray) := do
  try
    match source with
    | .standardInput => return .ok (← (← IO.getStdin).readBinToEnd)
    | .file path => return .ok (← IO.FS.readBinFile path)
  catch error => return .error (.ofError error)

end Recompiler.CommandLine

def main (args : List String) : IO UInt32 := do
  let reply ← Recompiler.CommandLine.replyReading Recompiler.CommandLine.Source.read args
  IO.print reply.output
  IO.eprint reply.errors
  return UInt32.ofNat reply.status
