/-! The command's arguments. They are read from left to right and the first
fault ends the reading; a request for the version or for help is met where it
stands, whatever is still missing. -/
namespace LiteralRecovery.CommandLine

/-- What a run is asked to do. -/
structure Settings where
  input : String
  output : String
  /-- Where the report goes; `-` is the standard output. -/
  report : Option String
  /-- Number of workers. Entries are independent, so it changes no result. -/
  jobs : Option Nat
  legacyLongFold : Bool
  verbose : Bool
  quiet : Bool
  timing : Bool
deriving DecidableEq

inductive Request where
  | version
  | help
  | run (settings : Settings)
deriving DecidableEq

/-- Why arguments are refused. -/
inductive ArgumentError where
  | unknown (argument : String)
  | repeated (option : String)
  | missingValue (option : String)
  | unexpectedValue (option : String)
  | invalidValue (option value : String)
  | conflict (option other : String)
  | missing (option : String)
deriving DecidableEq

namespace ArgumentError

def message : ArgumentError → String
  | .unknown argument => "unexpected argument '" ++ argument ++ "'"
  | .repeated option => "the argument '" ++ option ++ "' cannot be used multiple times"
  | .missingValue option => "a value is required for '" ++ option ++ "'"
  | .unexpectedValue option => "no value is expected for '" ++ option ++ "'"
  | .invalidValue option value => "invalid value '" ++ value ++ "' for '" ++ option ++ "'"
  | .conflict option other =>
    "the argument '" ++ option ++ "' cannot be used with '" ++ other ++ "'"
  | .missing option => "the argument '" ++ option ++ "' is required"

end ArgumentError

/-- The options seen so far. -/
structure Seen where
  input : Option String
  output : Option String
  report : Option String
  jobs : Option Nat
  legacyLongFold : Bool
  verbose : Bool
  quiet : Bool
  timing : Bool
deriving DecidableEq

namespace Seen

def none : Seen := ⟨.none, .none, .none, .none, false, false, false, false⟩

/-- Requirements and conflicts, once all arguments are read. -/
def finish (seen : Seen) : Except ArgumentError Request := do
  if seen.verbose && seen.quiet then throw (.conflict "--verbose" "--quiet")
  let some input := seen.input | throw (.missing "--input")
  let some output := seen.output | throw (.missing "--output")
  return .run
    { input, output, report := seen.report, jobs := seen.jobs
      legacyLongFold := seen.legacyLongFold, verbose := seen.verbose, quiet := seen.quiet
      timing := seen.timing }

end Seen

/-- A path; there is no empty one. -/
def readPath (option : String) (old : Option String) (value : String) :
    Except ArgumentError (Option String) := do
  if old.isSome then throw (.repeated option)
  if value.isEmpty then throw (.invalidValue option value)
  return some value

/-- A number of at most 64 bits: digits, with or without a plus sign. -/
def number? (text : String) : Option Nat :=
  let digits := match text.toList with
    | '+' :: rest => rest
    | other => other
  if digits.isEmpty || digits.any (!·.isDigit) then Option.none
  else
    let value := digits.foldl (fun value digit => 10 * value + (digit.toNat - '0'.toNat)) 0
    if value < 0x10000000000000000 then some value else Option.none

/-- An option that takes a value. -/
def setValue (seen : Seen) (option value : String) : Except ArgumentError Seen := do
  match option with
  | "--input" => return { seen with input := ← readPath option seen.input value }
  | "--output" => return { seen with output := ← readPath option seen.output value }
  | "--report" => return { seen with report := ← readPath option seen.report value }
  | _ =>
    if seen.jobs.isSome then throw (.repeated option)
    match number? value with
    | some jobs => return { seen with jobs := some jobs }
    | Option.none => throw (.invalidValue option value)

def takesValue (option : String) : Bool :=
  option = "--input" || option = "--output" || option = "--report" || option = "--jobs"

/-- An option without a value. -/
def setFlag (seen : Seen) (option : String) : Except ArgumentError Seen :=
  let once (known : Bool) (next : Seen) : Except ArgumentError Seen :=
    if known then .error (.repeated option) else .ok next
  match option with
  | "--legacy-long-fold" => once seen.legacyLongFold { seen with legacyLongFold := true }
  | "--verbose" => once seen.verbose { seen with verbose := true }
  | "--quiet" => once seen.quiet { seen with quiet := true }
  | "--timing" => once seen.timing { seen with timing := true }
  | _ => .error (.unknown option)

def isFlag (option : String) : Bool :=
  option = "--legacy-long-fold" || option = "--verbose" || option = "--quiet" ||
    option = "--timing" || option = "--version" || option = "--help"

/-- Whether an argument can be the value of the option before it. A lone dash
can, anything else that begins with one cannot. -/
def isValue (argument : String) : Bool :=
  argument = "-" || !argument.startsWith "-"

/-- An option and the value behind its equals sign. -/
def splitOption (argument : String) : String × Option String :=
  let name := argument.toList.takeWhile (· ≠ '=')
  match argument.toList.dropWhile (· ≠ '=') with
  | '=' :: value => (String.ofList name, some (String.ofList value))
  | _ => (argument, Option.none)

/-- A request that is met where it stands. Of letters behind a single dash only
the first counts. -/
def immediate? (argument : String) : Option Request :=
  if argument = "--version" then some .version
  else if argument = "--help" then some .help
  else
    match argument.toList with
    | '-' :: 'V' :: _ => some .version
    | '-' :: 'h' :: _ => some .help
    | _ => Option.none

/-- Reads the remaining arguments. -/
def parseFrom (seen : Seen) : List String → Except ArgumentError Request
  | [] => seen.finish
  | ["--"] => seen.finish
  | "--" :: argument :: _ => .error (.unknown argument)
  | argument :: rest =>
    match immediate? argument, splitOption argument with
    | some request, _ => .ok request
    | Option.none, (option, some value) =>
      if takesValue option then do parseFrom (← setValue seen option value) rest
      else if isFlag option then .error (.unexpectedValue option)
      else .error (.unknown argument)
    | Option.none, (option, Option.none) =>
      if takesValue option then
        match rest with
        | value :: rest =>
          if isValue value then do parseFrom (← setValue seen option value) rest
          else .error (.missingValue option)
        | [] => .error (.missingValue option)
      else do parseFrom (← setFlag seen option) rest

def parse (arguments : List String) : Except ArgumentError Request := parseFrom .none arguments

end LiteralRecovery.CommandLine
