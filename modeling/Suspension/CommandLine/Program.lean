import Suspension.CommandLine.Arguments
import Suspension.CommandLine.Interaction
import Suspension.Machine
import Suspension.Text.BoxTable
import Suspension.Tree.Dump
import Suspension.Tree.Reader
import Suspension.Tree.Writer

/-!
# The command line program

Two commands: `lower` prints a lowered body, with tables of its states and of its storage if asked
to, and `run` lowers a body and drives it to completion. Errors are reported on one line of the
error stream, and the exit code tells whether there was one.
-/

namespace Suspension.CommandLine

/-! ### The commands -/

/-- The option that switches on logging, before and behind the name of a command. -/
def verbose : OptionSpec := ⟨"verbose", some 'v', .flag⟩

/-- The option that asks for help. -/
def help : OptionSpec := ⟨"help", some 'h', .help⟩

/-- The options before the name of a command. -/
def topOptions : List OptionSpec :=
  [verbose, help, ⟨"version", some 'V', .version⟩]

/-- The options that both commands have. -/
def commonOptions : List OptionSpec :=
  [verbose, help, ⟨"no-spill", none, .flag⟩, ⟨"strict-handlers", none, .flag⟩]

/-- An option that chooses one of some formats. -/
def formatOption (formats : List String) : OptionSpec :=
  ⟨"format", some 'f', .value formats.contains⟩

/-- A number of resumptions: decimal digits, behind a plus sign or not, for a 64-bit word. -/
def count? (s : String) : Option Nat :=
  let digits := match s.toList with
    | '+' :: ds => ds
    | ds => ds
  if digits.isEmpty || !digits.all Char.isDigit then none
  else
    let n := Json.digitsValue digits
    if n < UInt64.size then some n else none

/-- The command that prints a lowered body. -/
def lowerSpec : CommandSpec where
  options := commonOptions ++ [formatOption ["tree", "json"], ⟨"table", none, .flag⟩,
    ⟨"output", some 'o', .value fun path ↦ !path.isEmpty⟩]
  operands := 1

/-- The command that drives a body to completion. -/
def runSpec : CommandSpec where
  options := commonOptions ++ [formatOption ["text", "json"],
    ⟨"max-resumptions", none, .value fun s ↦ (count? s).isSome⟩]
  operands := 1

/-! ### Output -/

/-- A line. -/
def line (text : String) : String :=
  text ++ "\n"

/-- An error, after what was printed before it. -/
def failed (message printed : String) : Output :=
  { stdout := printed, stderr := line message, code := 1 }

/-- What is printed for arguments that are not understood. -/
def usageOutput : Output :=
  { stderr := line "error: the arguments are not understood", code := 2 }

/-- What is printed where help is asked for. -/
def helpOutput : Output :=
  { stdout := line "Usage: resumable [-v] lower|run [OPTIONS] <file>" }

/-- What is printed where the version is asked for. -/
def versionOutput : Output :=
  { stdout := line "resumable 0.1.0" }

/-- What is printed where no command is named. -/
def noCommand : Output :=
  { stderr := line "No valid subcommand was used. Use --help for more information.", code := 2 }

/-- The label that a case leads to: the last jump in it. -/
def jumpTarget? : Node → Option String :=
  Node.fold fun _ layer ↦
    match layer with
    | .goto target => some target.name
    | .block _ statements => (statements.reverse.filterMap id).head?
    | _ => none

/-- The table of states: which of them lead where, and whether that is a suspend point or the entry
of a region. -/
def resumptionTable (l : Lowered) : String :=
  let row (c : Case Node) : List String :=
    let target := (jumpTarget? c.body).getD "?"
    [", ".intercalate (c.tests.map fun n ↦ toString n.toInt), target,
      if target.startsWith "__enterTry" then "region entry" else "suspend point"]
  Text.BoxTable.render ["States", "Resumes at", "Kind"] (l.resume.map row)

/-- The table of all variables that outlive a run. -/
def storageTable (l : Lowered) : String :=
  let row (origin : String) (v : Variable) : List String := [v.text, v.ty.name, origin]
  Text.BoxTable.render ["Variable", "Type", "Origin"]
    (row "state" l.contract.state :: l.hoisted.map (row "hoisted") ++ l.fields.map (row "field"))

/-- Both tables under their titles. -/
def tables (l : Lowered) : String :=
  String.join
    (["Resumption table", resumptionTable l, "Persisted storage", storageTable l].map line)

/-- The summary of a run that completed, as a value of the format. -/
def summaryJson (value : Value) (s : Session) : Json :=
  .obj [("result", .str (value.text s.host.futures)),
    ("trace", .arr (s.host.trace.toList.map .str)),
    ("resumptions", .int s.machine.resumptions), ("callbacks", .int s.machine.callbacks)]

/-- The summary of a run that completed, line by line. -/
def summaryText (value : Value) (s : Session) : String :=
  String.join ([
    "completed",
    "result: " ++ value.text s.host.futures,
    "resumptions: " ++ toString s.machine.resumptions,
    "callbacks: " ++ toString s.machine.callbacks].map line)

/-- Why a run was stopped. -/
def stopText : Stop → String
  | .fault f => f.report.text
  | .negationOverflow => "attempt to negate with overflow"
  | .outOfFuel => "the run was cut off"

/-- What is printed for a run that was stopped. An overflow is no fault of the body, and has an exit
code of its own. -/
def stopped (reason : Stop) (printed : String) : Output :=
  { failed (stopText reason) printed with
    code := match reason with
      | .negationOverflow => 101
      | _ => 1 }

/-! ### What the commands do -/

/-- The report for a file that cannot be read. -/
def unreadable (file reason : String) : Report :=
  ⟨.error, "resumable.ast.load_json_file", none, "Cannot read " ++ file ++ ": " ++ reason⟩

/-- The report for a text that holds no tree. -/
def malformed : Report :=
  ⟨.error, "resumable.ast.from_json", none, "Invalid body JSON: the text is not a tree"⟩

/-- The options that say how to lower a body. -/
def loweringOptions (a : Arguments) : LoweringOptions :=
  ⟨!a.has "no-spill", !a.has "strict-handlers"⟩

/-- Reads and lowers the body in a file. -/
def lowerFile (a : Arguments) (file : String) (next : Lowered → Interaction) : Interaction :=
  .read file fun r ↦
    let fail (r : Report) : Interaction := .done (failed r.text "")
    match r with
    | .error e => fail (unreadable file e.text)
    | .ok bytes =>
      match String.fromUTF8? bytes with
      | none => fail (unreadable file "stream did not contain valid UTF-8")
      | some text =>
        match Node.read text {} with
        | none => fail malformed
        | some (body, supply) =>
          let (c, supply) := Contract.fresh onCompleted supply
          match body.lower (loweringOptions a) c supply with
          | .error rejection => fail rejection.report
          | .ok (l, _) => next l

/-- Prints a lowered body, or writes it to a file. -/
def lower (a : Arguments) (file : String) : Interaction :=
  lowerFile a file fun l ↦
    let body := if a.value? "format" == some "json" then l.body.write else l.body.dump
    let rest := if a.has "table" then tables l else ""
    match a.value? "output" with
    | none => .done { stdout := line body ++ rest }
    | some path =>
      .write path body fun
        | .ok () => .done { stdout := rest }
        | .error e => .done (failed ("Failed to write " ++ path ++ ": " ++ e.text) "")

/-- Drives a body to completion. -/
def run (fuel : Nat) (a : Arguments) (file : String) : Interaction :=
  lowerFile a file fun l ↦
    let limit := ((a.value? "max-resumptions").bind count?).getD defaultLimit
    let (r, s) := ({ machine := Machine.start l } : Session).drive fuel limit
    let trace := String.join (s.host.trace.toList.map fun t ↦ line ("  trace " ++ t))
    let asJson := a.value? "format" == some "json"
    .done (match r with
      | .error reason => stopped reason (if asJson then "" else trace)
      | .ok value =>
        if asJson then { stdout := line (summaryJson value s).print }
        else { stdout := trace ++ summaryText value s })

/-- How an ending of the arguments shows. -/
def Ending.output : Ending → Output
  | .usage => usageOutput
  | .help => helpOutput
  | .version => versionOutput

/-- A command on the arguments behind its name. -/
def command (spec : CommandSpec) (act : Arguments → String → Interaction) (args : List String) :
    Interaction :=
  match readArguments spec ({}, none) args with
  | .error e => .done e.output
  | .ok a =>
    match a.operands with
    | file :: _ => act a file
    | [] => .done usageOutput

/-- What the help command prints: help for the program, or for a command that there is. -/
def helpCommand : List String → Output
  | [] => helpOutput
  | ["lower"] => helpOutput
  | ["run"] => helpOutput
  | ["help"] => helpOutput
  | _ => usageOutput

/-- The program. -/
def program (fuel : Nat) (args : List String) : Interaction :=
  match readCommand topOptions {} args with
  | .error e => .done e.output
  | .ok none => .done noCommand
  | .ok (some ("lower", args)) => command lowerSpec lower args
  | .ok (some ("run", args)) => command runSpec (run fuel) args
  | .ok (some ("help", args)) => .done (helpCommand args)
  | .ok (some _) => .done usageOutput

end Suspension.CommandLine
