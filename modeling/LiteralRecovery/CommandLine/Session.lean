import LiteralRecovery.Archive.Zip
import LiteralRecovery.CommandLine.Log
import LiteralRecovery.Run.ArchiveRun
import LiteralRecovery.Run.Report

/-! A run of the command against a host that has files and two output streams.
The host is a record of actions in any monad, so the same run serves the real
file system and files held in memory. -/
namespace LiteralRecovery.CommandLine

/-- Why a file could not be read. -/
inductive ReadFault where
  | cannotOpen
  | cannotRead
deriving DecidableEq

/-- What a run needs from the outside. -/
structure Host (m : Type → Type) where
  pathExists : String → m Bool
  readFile : String → m (Except ReadFault Bytes)
  /-- Whether the file could be written. -/
  writeFile : String → Bytes → m Bool
  /-- Text on the standard output. -/
  print : String → m Unit
  /-- Text on the error stream. -/
  complain : String → m Unit
  /-- Milliseconds since the run began. -/
  elapsed : m String
  /-- What the host's libraries unpack. -/
  unpacker : Zip.Unpacker

/-- Why a run ended early. -/
inductive RunError where
  | inputNotFound (path : String)
  | unsupportedInput (path : String)
  | cannotOpen (path : String)
  | cannotRead (path : String)
  | cannotReadEntry (path entry : String)
  | cannotCreate (path : String)
  | cannotWrite (path : String)
deriving DecidableEq

namespace RunError

def message : RunError → String
  | .inputNotFound path => "input not found: " ++ path
  | .unsupportedInput path => "unsupported input file: " ++ path
  | .cannotOpen path => "failed to open " ++ path
  | .cannotRead path => "failed to read " ++ path
  | .cannotReadEntry path entry => "failed to read " ++ path ++ ":" ++ entry
  | .cannotCreate path => "failed to create " ++ path
  | .cannotWrite path => "failed to write " ++ path

/-- What lies behind the error, where the command has not found it itself. -/
def cause? : RunError → Option String
  | .inputNotFound _ | .unsupportedInput _ => none
  | .cannotOpen _ | .cannotCreate _ | .cannotWrite _ => some "the system refuses the path"
  | .cannotRead _ | .cannotReadEntry _ _ => some "the contents cannot be read"

/-- The error as it is shown, with its cause set off by an empty line. -/
def report (error : RunError) : String :=
  "Error: " ++ error.message ++ "\n" ++ match error.cause? with
    | some cause => "\nCaused by:\n    " ++ cause ++ "\n"
    | none => ""

end RunError

/-- What kind of input a path names. -/
inductive InputKind where
  | archive
  | classFile
deriving DecidableEq

/-- The part of a file name behind its last dot. A name that only begins with a
dot has none. -/
def extension? (name : String) : Option String :=
  let reversed := name.toList.reverse
  match reversed.dropWhile (· ≠ '.') with
  | '.' :: _ :: _ => some (String.ofList (reversed.takeWhile (· ≠ '.')).reverse)
  | _ => none

/-- The parts of a path that say something. -/
def components (path : String) : List String :=
  (path.splitOn "/").filter fun part => part ≠ "" && part ≠ "."

/-- The last part of a path, unless it leads upwards. -/
def fileName? (path : String) : Option String :=
  (components path).getLast?.filter (· ≠ "..")

/-- The kind of input, told by the extension in upper or lower case. -/
def inputKind (path : String) : Except RunError InputKind :=
  match (((fileName? path).bind extension?).getD "").toLower with
  | "jar" | "zip" => .ok .archive
  | "class" => .ok .classFile
  | _ => .error (.unsupportedInput path)

variable {m : Type → Type} [Monad m]

/-- A run that may end early. -/
abbrev SessionM (m : Type → Type) := ExceptT RunError m

/-- Shows the events that the filter admits. -/
def logEvents (host : Host m) (filter : LogFilter) (events : List Event) : SessionM m Unit :=
  (events.filter filter.admits).forM fun event => ExceptT.lift (host.complain (logText event))

/-- Reads an archive, processes it and writes the result. -/
def runArchive (host : Host m) (filter : LogFilter) (options : Options) (input output : String) :
    SessionM m Summary := do
  let data ← match ← host.readFile input with
    | .ok data => pure data
    | .error .cannotOpen => throw (.cannotOpen input)
    | .error .cannotRead => throw (.cannotRead input)
  let entries ← match Zip.read data host.unpacker with
    | .ok entries => pure entries
    | .error .unreadable => throw (.cannotRead input)
    | .error (.damagedEntry entry) => throw (.cannotReadEntry input entry)
  let run := processArchive options entries
  logEvents host filter run.events
  unless ← host.writeFile output (Zip.write run.entries) do throw (.cannotCreate output)
  return run.summary

/-- Reads a class file, processes it and writes the result. -/
def runClassFile (host : Host m) (filter : LogFilter) (options : Options)
    (input output : String) : SessionM m Summary := do
  let .ok data ← host.readFile input | throw (.cannotRead input)
  let run := processFile options input data
  logEvents host filter run.events
  unless ← host.writeFile output run.data do throw (.cannotWrite output)
  return run.summary

/-- Whether a path is the dash that stands for the standard output. -/
def isStandardOutput (path : String) : Bool := path.startsWith "-" && components path = ["-"]

/-- Writes the report to a file, or to the standard output. -/
def writeReport (host : Host m) (path : String) (summary : Summary) : SessionM m Unit := do
  let text := Report.render summary
  if isStandardOutput path then host.print text
  else unless ← host.writeFile path text.toUTF8.toList do throw (.cannotOpen path)

def timingText (elapsed : String) (totals : Totals) : String :=
  "timing: total_ms=" ++ elapsed ++ " entries=" ++ toString totals.entries ++ " classes=" ++
    toString totals.classes ++ "\n"

/-- One run with the given settings. -/
def runSettings (host : Host m) (filter : LogFilter) (settings : Settings) :
    SessionM m Unit := do
  unless ← host.pathExists settings.input do throw (.inputNotFound settings.input)
  let kind ← liftM (inputKind settings.input)
  let options : Options := ⟨if settings.legacyLongFold then .legacy else .combine⟩
  let summary ← match kind with
    | .archive => runArchive host filter options settings.input settings.output
    | .classFile => runClassFile host filter options settings.input settings.output
  let totals := summary.totals
  logEvents host filter [.wrote settings.output totals.transformed totals.classes]
  if let some path := settings.report then writeReport host path summary
  if settings.timing && !settings.quiet then host.complain (timingText (← host.elapsed) totals)

/-- A summary of the options. -/
def usage : String :=
  "Usage: " ++ programName ++ " [OPTIONS] --input <PATH> --output <PATH>\n\n" ++
  "Options:\n" ++
  "      --input <PATH>      Archive (.jar, .zip) or single .class file\n" ++
  "      --output <PATH>     Where the result goes\n" ++
  "      --report <PATH>     Write a JSON run report; - for the standard output\n" ++
  "      --jobs <N>          Number of workers\n" ++
  "      --legacy-long-fold  Fold long expressions with the first operand twice\n" ++
  "      --verbose           Show debug messages\n" ++
  "      --quiet             Show warnings only\n" ++
  "      --timing            Show how long the run took\n" ++
  "  -h, --help              Print help\n" ++
  "  -V, --version           Print version\n"

/-- The filter of a run. The text is read once before the options are looked at
and once after, and each time its faults are shown. -/
def readFilter (host : Host m) (settings : Settings) (text : Option String) : m LogFilter := do
  let (filter, faults) := match text with
    | some text => LogFilter.parse text
    | none => (⟨[], none⟩, [])
  (faults ++ faults).forM fun fault =>
    host.complain ("warning: " ++ fault.message ++ ", ignoring it\n")
  return filter.withDefault (.ofSettings settings)

/-- The command: exit code 2 for refused arguments and 1 for a run that ended
early. -/
def command (host : Host m) (arguments : List String) (filter : Option String) : m UInt32 := do
  match parse arguments with
  | .error error =>
    host.complain ("error: " ++ error.message ++ "\n")
    return 2
  | .ok .version =>
    host.print (programName ++ " " ++ programVersion ++ "\n")
    return 0
  | .ok .help =>
    host.print usage
    return 0
  | .ok (.run settings) =>
    let filter ← readFilter host settings filter
    match ← (runSettings host filter settings).run with
    | .ok () => return 0
    | .error error =>
      host.complain error.report
      return 1

end LiteralRecovery.CommandLine
