import LiteralRecovery.CommandLine.Arguments
import LiteralRecovery.Recovery.Event
import LiteralRecovery.Text.PatternReader

/-! Which events reach the log. The options choose a level, and a filter text, if
one is given, may choose others for parts of the program and ask for messages
that contain a pattern. -/
namespace LiteralRecovery

/-- The command's name, in its output and in filters. -/
def programName : String := "destash"

/-- The part of the program that an event comes from, as filters name it. -/
def Event.origin (event : Event) : String :=
  programName ++ match event with
    | .noInitializer _ | .passStarted _ _ | .passScanned _ _ _ _ => "::passes"
    | .readResolved _ _ _ _ _ => "::passes::tables"
    | .fieldKept _ _ _ | .fieldRemoved _ _ | .helperKept _ _ _ | .helperRemoved _ _ =>
      "::passes::cleanup"
    | .attributesDropped _ => "::classfile"
    | .skipped _ _ | .leftUnchanged _ _ | .encodingFailed _ _ | .nothingFound _
    | .recovered _ _ | .notAClass _ | .wrote _ _ _ => "::archive"

namespace CommandLine

def programVersion : String := "0.1.0"

/-- The least severe level that is shown. -/
inductive Threshold where
  | off | error | warn | info | debug | trace
deriving DecidableEq

namespace Threshold

def all : List (String × Threshold) :=
  [("off", .off), ("error", .error), ("warn", .warn), ("info", .info), ("debug", .debug),
   ("trace", .trace)]

/-- A level by name, in upper or lower case. -/
def ofName? (name : String) : Option Threshold := all.lookup name.toLower

def admits (threshold : Threshold) (level : Level) : Bool :=
  match threshold, level with
  | .off, _ | .error, _ => false
  | .warn, .warn => true
  | .warn, _ => false
  | .info, .debug => false
  | .info, _ | .debug, _ | .trace, _ => true

/-- The level that the options ask for. -/
def ofSettings (settings : Settings) : Threshold :=
  if settings.quiet then .warn else if settings.verbose then .debug else .info

end Threshold

/-- A level for the parts of the program whose name begins with `scope`, or for
all of them. -/
structure Directive where
  scope : Option String
  threshold : Threshold
deriving DecidableEq

/-- What is wrong with a filter text. -/
inductive FilterFault where
  | tooManySlashes (text : String)
  | invalidEntry (text : String)
  | invalidPattern (text : String) (cause : PatternError)
deriving DecidableEq

namespace FilterFault

def message : FilterFault → String
  | .tooManySlashes text => "invalid logging spec '" ++ text ++ "' (too many '/'s)"
  | .invalidEntry text => "invalid logging spec '" ++ text ++ "'"
  | .invalidPattern text cause => "invalid regex filter - " ++ cause.message text

end FilterFault

namespace Directive

/-- A level, a scope, or both with an equals sign between them. A scope alone
stands for all levels. -/
def parse (entry : String) : Except FilterFault Directive :=
  match entry.splitOn "=" with
  | [word] =>
    match Threshold.ofName? word with
    | some threshold => .ok ⟨none, threshold⟩
    | none => .ok ⟨some word, .trace⟩
  | [scope, level] =>
    let level := CharSet.blanks.trim level
    if level.isEmpty then .ok ⟨some scope, .trace⟩
    else match Threshold.ofName? level with
      | some threshold => .ok ⟨some scope, threshold⟩
      | none => .error (.invalidEntry level)
  | _ => .error (.invalidEntry entry)

def covers (directive : Directive) (origin : String) : Bool :=
  directive.scope.all fun scope => scope.isPrefixOf origin

/-- How much of a name the scope spells out. -/
def reach (directive : Directive) : Nat := (directive.scope.map (·.length)).getD 0

end Directive

/-- A filter: levels by scope, in the order they were first given in, and a
pattern for messages. -/
structure LogFilter where
  directives : List Directive
  pattern : Option Pattern

namespace LogFilter

/-- Adds a directive; one for the same scope keeps its place and takes the new
level. -/
def insert (directives : List Directive) (directive : Directive) : List Directive :=
  if directives.any (·.scope = directive.scope) then
    directives.map fun known => if known.scope = directive.scope then directive else known
  else directives ++ [directive]

/-- The entries of a filter text, which stand between commas. Faulty ones are
left out. -/
def parseEntries (text : String) : List Directive × List FilterFault :=
  let entries := ((text.splitOn ",").map CharSet.blanks.trim).filter (!·.isEmpty)
  entries.foldr (fun entry (directives, faults) =>
    match Directive.parse entry with
    | .ok directive => (directive :: directives, faults)
    | .error fault => (directives, fault :: faults)) ([], [])

/-- A filter text: entries, and a pattern behind a slash. -/
def parse (text : String) : LogFilter × List FilterFault :=
  match text.splitOn "/" with
  | [entries] =>
    let (directives, faults) := parseEntries entries
    (⟨directives, none⟩, faults)
  | [entries, pattern] =>
    let (directives, faults) := parseEntries entries
    match Pattern.parse pattern with
    | .ok pattern => (⟨directives, some pattern⟩, faults)
    | .error cause => (⟨directives, none⟩, faults ++ [.invalidPattern pattern cause])
  | _ => (⟨[], none⟩, [.tooManySlashes text])

/-- The filter in force. The level of the options is one more entry, which comes
behind those of the text and yields to them. -/
def withDefault (filter : LogFilter) (threshold : Threshold) : LogFilter :=
  let known := filter.directives.foldl insert []
  { filter with directives := filter.directives.foldl insert (insert known ⟨none, threshold⟩) }

/-- The level for events from a part of the program: that of the longest scope,
and of two as long that of the later one. -/
def threshold (filter : LogFilter) (origin : String) : Threshold :=
  let choose (best : Directive) (next : Directive) : Directive :=
    if next.covers origin && best.reach ≤ next.reach then next else best
  (filter.directives.foldl choose ⟨none, .off⟩).threshold

/-- Whether an event is shown. -/
def admits (filter : LogFilter) (event : Event) : Bool :=
  (filter.threshold event.origin).admits event.level &&
    filter.pattern.all (·.occursIn event.message)

end LogFilter

/-- A message with its later lines set in. -/
def indentLines (message : String) : String :=
  String.ofList (message.toList.flatMap fun c =>
    if c = '\n' then ['\n', ' ', ' ', ' ', ' '] else [c])

/-- An event in the log; the level takes five columns. -/
def logText (event : Event) : String :=
  let name := event.level.name
  "[" ++ name ++ String.ofList (List.replicate (5 - name.length) ' ') ++ "] " ++
    indentLines event.message ++ "\n"

end CommandLine

end LiteralRecovery
