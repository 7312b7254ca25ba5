import LiteralRecovery.Run.Summary

/-! The written report of a run: one JSON object, indented by two blanks. A
value is a list of lines, so that an enclosing value can indent it. -/
namespace LiteralRecovery.Report

def hexDigit (value : Nat) : Char := (Nat.digitChar value)

/-- A character inside a quoted text. -/
def escape (c : Char) : List Char :=
  match c with
  | '"' => ['\\', '"']
  | '\\' => ['\\', '\\']
  | '\n' => ['\\', 'n']
  | '\r' => ['\\', 'r']
  | '\t' => ['\\', 't']
  | '\x08' => ['\\', 'b']
  | '\x0C' => ['\\', 'f']
  | c =>
    if c.toNat < 0x20 then
      ['\\', 'u', '0', '0', hexDigit (c.toNat / 16), hexDigit (c.toNat % 16)]
    else [c]

def quote (text : String) : String :=
  "\"" ++ String.ofList (text.toList.flatMap escape) ++ "\""

def indent (lines : List String) : List String := lines.map ("  " ++ ·)

/-- Adds a comma to the last line. -/
def withComma : List String → List String
  | [] => []
  | [line] => [line ++ ","]
  | line :: rest => line :: withComma rest

/-- The lines of several values, with commas between them. -/
def separated : List (List String) → List String
  | [] => []
  | [value] => value
  | value :: rest => withComma value ++ separated rest

def list (values : List (List String)) : List String :=
  if values.isEmpty then ["[]"] else "[" :: indent (separated values) ++ ["]"]

/-- A value behind its name. -/
def labelled (name : String) : List String → List String
  | [] => []
  | line :: rest => (quote name ++ ": " ++ line) :: rest

def record (fields : List (String × List String)) : List String :=
  "\x7b" :: indent (separated (fields.map fun (name, value) => labelled name value)) ++ ["\x7d"]

def text (value : String) : List String := [quote value]

def numbers (values : List (String × Nat)) : List (String × List String) :=
  values.map fun (name, value) => (name, [toString value])

/-- An outcome's name and what else there is to say about it. -/
def outcome : Outcome → List (String × List String)
  | .transformed stats =>
    [("outcome", text "transformed"), ("stats", record (numbers stats.entries))]
  | .unchanged => [("outcome", text "unchanged")]
  | .copied => [("outcome", text "copied")]
  | .skipped reason => [("outcome", text "skipped"), ("reason", text reason)]
  | .failed reason => [("outcome", text "failed"), ("reason", text reason)]

def entry (report : EntryReport) : List String :=
  record (("name", text report.name) :: outcome report.outcome)

def totals (totals : Totals) : List String :=
  record (numbers totals.entriesByName ++ [("stats", record (numbers totals.stats.entries))])

/-- The report of a run, with a line end after every line. -/
def render (summary : Summary) : String :=
  let lines := record
    [("entries", list (summary.reports.map entry)), ("totals", totals summary.totals)]
  String.join (lines.map (· ++ "\n"))

end LiteralRecovery.Report
