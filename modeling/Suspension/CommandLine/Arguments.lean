/-!
# Command line arguments

The usual conventions: long options behind two hyphens, with a value behind an equals sign or in the
next argument; short options behind one hyphen, several of them together, a value right behind its
letter, behind an equals sign or in the next argument. Two hyphens alone end the options. A hyphen
alone is an ordinary argument, and nothing else that starts with one may be a value.

Each option is given once at most. Asking for help or for the version ends the reading where it
stands, so that nothing behind it can be wrong.
-/

namespace Suspension.CommandLine

/-- What an option does. -/
inductive OptionKind
  /-- It is there or not. -/
  | flag
  /-- It takes a value, which has to be accepted. -/
  | value (accepts : String → Bool)
  /-- It asks for help. -/
  | help
  /-- It asks for the version. -/
  | version

/-- An option of a command. -/
structure OptionSpec where
  /-- The name behind two hyphens, which also identifies the option. -/
  long : String
  short : Option Char := none
  kind : OptionKind := .flag

/-- What a command understands. -/
structure CommandSpec where
  options : List OptionSpec
  /-- How many other arguments it takes at most. -/
  operands : Nat

/-- Why the reading of arguments ends early. -/
inductive Ending
  /-- They are not understood. -/
  | usage
  | help
  | version
  deriving DecidableEq, Repr

/-- The arguments read so far. -/
structure Arguments where
  /-- The options that were given, with their values. -/
  given : List (String × String) := []
  /-- The other arguments, in order. -/
  operands : List String := []
  deriving Repr

namespace Arguments

/-- Whether an option was given. -/
def has (a : Arguments) (long : String) : Bool :=
  a.given.any (·.1 == long)

/-- The value of an option, if it was given. -/
def value? (a : Arguments) (long : String) : Option String :=
  a.given.lookup long

/-- Adds an option with its value, if it has a value that is accepted, and was not given before. -/
def give (a : Arguments) (o : OptionSpec) (value : String) : Except Ending Arguments :=
  let accepted := match o.kind with
    | .value accepts => accepts value
    | _ => true
  if accepted && !a.has o.long then .ok { a with given := a.given ++ [(o.long, value)] }
  else .error .usage

/-- Adds another argument, if there is room for it. -/
def addOperand (c : CommandSpec) (a : Arguments) (arg : String) : Except Ending Arguments :=
  if a.operands.length < c.operands then .ok { a with operands := a.operands ++ [arg] }
  else .error .usage

/-- Adds an option without a value. -/
def giveFlag (a : Arguments) (o : OptionSpec) : Except Ending Arguments :=
  match o.kind with
  | .help => .error .help
  | .version => .error .version
  | _ => a.give o ""

end Arguments

/-- The arguments read so far, and the option that waits for its value. -/
abbrev Reading := Arguments × Option OptionSpec

/-- Reads a long option: its name, and the value behind an equals sign if there is one. -/
def readLong (specs : List OptionSpec) (a : Arguments) (name : String) (value : Option String) :
    Except Ending Reading := do
  match specs.find? (·.long == name) with
  | none => throw .usage
  | some o =>
    match o.kind, value with
    | .value _, some value => return (← a.give o value, none)
    | .value _, none => return (a, some o)
    | _, some _ => throw .usage
    | _, none => return (← a.giveFlag o, none)

/-- Reads the letters of short options that stand together. -/
def readShort (specs : List OptionSpec) (a : Arguments) : List Char → Except Ending Reading
  | [] => .ok (a, none)
  | c :: cs =>
    match specs.find? (·.short == some c) with
    | none => .error .usage
    | some o =>
      match o.kind, cs with
      | .value _, [] => .ok (a, some o)
      | .value _, '=' :: cs => (a.give o (String.ofList cs)).map (·, none)
      | .value _, cs => (a.give o (String.ofList cs)).map (·, none)
      | _, cs =>
        match a.giveFlag o with
        | .ok a => readShort specs a cs
        | .error e => .error e

/-- The parts of an argument before and behind its first equals sign. -/
def splitValue (arg : List Char) : String × Option String :=
  match arg.span (· != '=') with
  | (name, _ :: value) => (String.ofList name, some (String.ofList value))
  | (name, []) => (String.ofList name, none)

/-- Reads the options in an argument, if it holds any. -/
def readOptions? (specs : List OptionSpec) (a : Arguments) (arg : String) :
    Option (Except Ending Reading) :=
  match arg.toList with
  | '-' :: '-' :: long =>
    let (name, value) := splitValue long
    some (readLong specs a name value)
  | '-' :: c :: cs => some (readShort specs a (c :: cs))
  | _ => none

/-- Reads the arguments of a command. An option that waits for its value is in error when anything
but a value follows. -/
def readArguments (c : CommandSpec) : Reading → List String → Except Ending Arguments
  | (a, none), [] => .ok a
  | (_, some _), [] => .error .usage
  | (a, some o), arg :: args =>
    if arg == "--" || (readOptions? c.options a arg).isSome then .error .usage
    else
      match a.give o arg with
      | .ok a => readArguments c (a, none) args
      | .error e => .error e
  | (a, none), arg :: args =>
    if arg == "--" then args.foldlM (Arguments.addOperand c) a
    else
      match readOptions? c.options a arg with
      | some (.error e) => .error e
      | some (.ok r) => readArguments c r args
      | none =>
        match a.addOperand c arg with
        | .ok a => readArguments c (a, none) args
        | .error e => .error e

/-- Reads the options before the name of a subcommand, none of which takes a value. Answers the name
and the arguments behind it, or nothing if no name is given. -/
def readCommand (specs : List OptionSpec) :
    Arguments → List String → Except Ending (Option (String × List String))
  | _, [] => .ok none
  | a, arg :: args =>
    if arg == "--" then if args.isEmpty then .ok none else .error .usage
    else
      match readOptions? specs a arg with
      | none => .ok (some (arg, args))
      | some (.ok (a, none)) => readCommand specs a args
      | some (.ok (_, some _)) => .error .usage
      | some (.error e) => .error e

end Suspension.CommandLine
