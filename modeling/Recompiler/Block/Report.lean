import Recompiler.Arm.Listing
import Recompiler.Block.Compiler
import Recompiler.PowerPC.Mnemonic

/-!
# Reports

What is shown to a reader: a compiled block as an indented listing or as a JSON document, and the
fields of a guest word on one line. A report is a list of lines.
-/

namespace Recompiler.Block

open Arm PowerPC Text

def Stats.fields (stats : Stats) : List (String × Nat) :=
  [("carry_flushes", stats.carryFlushes), ("constant_folds", stats.constantFolds),
    ("fallbacks", stats.deferred), ("guest_count", stats.guestCount),
    ("helper_calls", stats.helperCalls), ("host_instructions", stats.hostInstructions),
    ("spills", stats.spills), ("translated", stats.lowered)]

def Stats.summary (stats : Stats) : String :=
  s!"; {stats.guestCount} guest -> {stats.hostInstructions} host ({stats.lowered} translated, "
    ++ s!"{stats.deferred} deferred, {stats.constantFolds} folds, {stats.spills} spills, "
    ++ s!"{stats.helperCalls} helper calls, {stats.carryFlushes} carry stores)"

def CompiledBlock.report (block : CompiledBlock) : List String :=
  block.code.toList.map (fun inst => "    " ++ inst.text) ++ [block.stats.summary]

def jsonMembers : List String → List String
  | [] => []
  | [last] => ["    " ++ last]
  | first :: rest => ("    " ++ first ++ ",") :: jsonMembers rest

/-- A text in quotes. Instructions and names hold no character that JSON escapes. -/
def jsonString (text : String) : String := "\"" ++ text ++ "\""

def CompiledBlock.json (block : CompiledBlock) : List String :=
  ["\x7b", "  \"instructions\": ["]
    ++ jsonMembers (block.code.toList.map fun inst => jsonString inst.text)
    ++ ["  ],", "  \"stats\": \x7b"]
    ++ jsonMembers (block.stats.fields.map fun (name, count) => s!"{jsonString name}: {count}")
    ++ ["  \x7d", "\x7d"]

def fieldsText (word : Word) (op : Op) : String :=
  s!"{blankPadded 10 op.mnemonic} rd={word.rd.val} ra={word.ra.val} rb={word.rb.val} "
    ++ s!"frc={word.frc.val} simm={decimal word.simm.toInt} uimm={hexPadded 4 word.uimm.toNat} "
    ++ s!"sh={word.sh} mb={word.mb} me={word.me} crfd={word.crfd.val} "
    ++ s!"rc={word.rc.toNat} oe={word.oe.toNat}"

def Config.describe (config : Config) (word : Word) : String :=
  let fields := match Op.decode word with
    | some op => fieldsText word op
    | none => s!"<unknown> opcd={word.opcode}"
  let remark := match config.deferral? word with
    | some reason => s!"  [interpreter: {reason.text}]"
    | none => ""
  s!"{hexWord word}  {fields}{remark}"

end Recompiler.Block
