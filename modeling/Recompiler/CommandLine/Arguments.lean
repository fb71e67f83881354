import Recompiler.Text.Numeral

/-!
# Arguments

How the arguments after a command's name are sorted. An argument in two dashes is an option, one in
a single dash is an unknown short option unless it is the dash alone, and `--` makes everything
after it positional. Each option may be given once. Positional arguments are matched from the left
with what the command expects.
-/

namespace Recompiler.CommandLine

open Text

inductive Operand where
  | path
  | text
  | byte
  deriving DecidableEq

def Operand.accepts (operand : Operand) (argument : String) : Bool :=
  match operand with
  | .path => argument ≠ ""
  | .text => true
  | .byte => (readByte? argument.toList).isSome

/-- What a command accepts. -/
structure Grammar where
  flags : List String := []
  counts : List String := []
  operands : List Operand
  repeats : Bool := false

structure Arguments where
  flags : List String := []
  counts : List (String × Nat) := []
  operands : List String := []
  deriving DecidableEq

inductive Refusal where
  | help
  | misuse
  deriving DecidableEq

namespace Arguments

def has (arguments : Arguments) (flag : String) : Bool := arguments.flags.contains flag

def count? (arguments : Arguments) (name : String) : Option Nat := arguments.counts.lookup name

def takeOperand (arguments : Arguments) (grammar : Grammar) (argument : String) :
    Except Refusal Arguments :=
  let expected :=
    match grammar.operands[arguments.operands.length]? with
    | some operand => some operand
    | none => if grammar.repeats then grammar.operands.getLast? else none
  if expected.any (·.accepts argument) then
    .ok { arguments with operands := arguments.operands ++ [argument] }
  else .error .misuse

def takeFlag (arguments : Arguments) (grammar : Grammar) (name : String) :
    Except Refusal Arguments :=
  if name = "help" then .error .help
  else if grammar.flags.contains name && !arguments.has name then
    .ok { arguments with flags := arguments.flags ++ [name] }
  else .error .misuse

def takeCount (arguments : Arguments) (grammar : Grammar) (name value : String) :
    Except Refusal Arguments :=
  match readNumeral 10 (1 <<< 64) value.toList with
  | .ok n =>
    if grammar.counts.contains name && (arguments.count? name).isNone then
      .ok { arguments with counts := arguments.counts ++ [(name, n)] }
    else .error .misuse
  | .error _ => .error .misuse

def takeOperands (arguments : Arguments) (grammar : Grammar) :
    List String → Except Refusal Arguments
  | [] => .ok arguments
  | argument :: rest => do
    let arguments ← arguments.takeOperand grammar argument
    arguments.takeOperands grammar rest

inductive Form where
  | dashes
  | long (name : String) (value : Option String)
  | short (letters : List Char)
  | plain

/-- The form of an argument. The value of a long option follows its first equals sign. -/
def formOf (argument : String) : Form :=
  match argument.toList with
  | ['-', '-'] => .dashes
  | '-' :: '-' :: body =>
    let value := match body.dropWhile (· ≠ '=') with
      | [] => none
      | _ :: value => some (String.ofList value)
    .long (String.ofList (body.takeWhile (· ≠ '='))) value
  | '-' :: c :: letters => .short (c :: letters)
  | _ => .plain

def sortAfter (arguments : Arguments) (grammar : Grammar) : List String → Except Refusal Arguments
  | [] => .ok arguments
  | argument :: rest =>
    match formOf argument with
    | .dashes => arguments.takeOperands grammar rest
    | .plain => do
      let arguments ← arguments.takeOperand grammar argument
      arguments.sortAfter grammar rest
    | .short letters => .error (if letters.head? = some 'h' then .help else .misuse)
    | .long name (some value) => do
      let arguments ← arguments.takeCount grammar name value
      arguments.sortAfter grammar rest
    | .long name none =>
      if grammar.counts.contains name then
        match rest with
        | [] => .error .misuse
        | value :: others =>
          match formOf value with
          | .plain => do
            let arguments ← arguments.takeCount grammar name value
            arguments.sortAfter grammar others
          | _ => .error .misuse
      else do
        let arguments ← arguments.takeFlag grammar name
        arguments.sortAfter grammar rest

/-- Sort the arguments of a command. None of the expected operands may be missing. -/
def ofList (grammar : Grammar) (list : List String) : Except Refusal Arguments := do
  let arguments ← sortAfter {} grammar list
  if grammar.operands.length ≤ arguments.operands.length then return arguments
  else throw .misuse

end Arguments

end Recompiler.CommandLine
