import LiteralRecovery.Text.Pattern

/-! The written form of patterns: characters stand for themselves, and marks for
sets, places, repetition, alternatives and groups. A text is read from left to
right, with the groups that are still open on a stack. -/
namespace LiteralRecovery

/-- What is wrong with the text of a pattern. -/
inductive PatternFault where
  | unclosedGroup | unopenedGroup | unclosedName | lookAround | missingFlag | unknownFlag
  | nothingToRepeat | unclosedCount | missingCount | countOrder
  | unclosedSet | rangeBound | rangeOrder | placeInSet
  | unfinishedEscape | unknownEscape | backreference | invalidDigit | invalidCode
deriving DecidableEq

namespace PatternFault

def message : PatternFault → String
  | .unclosedGroup => "unclosed group"
  | .unopenedGroup => "unopened group"
  | .unclosedName => "unclosed capture group name"
  | .lookAround => "look-around, including look-ahead and look-behind, is not supported"
  | .missingFlag => "expected flag but got end of regex"
  | .unknownFlag => "unrecognized flag"
  | .nothingToRepeat => "repetition operator missing expression"
  | .unclosedCount => "unclosed counted repetition"
  | .missingCount => "repetition quantifier expects a valid decimal"
  | .countOrder => "invalid repetition count range, the start must be <= the end"
  | .unclosedSet => "unclosed character class"
  | .rangeBound => "invalid range boundary, must be a literal"
  | .rangeOrder => "invalid character class range, the start must be <= the end"
  | .placeInSet => "invalid escape sequence found in character class"
  | .unfinishedEscape => "incomplete escape sequence, reached end of pattern prematurely"
  | .unknownEscape => "unrecognized escape sequence"
  | .backreference => "backreferences are not supported"
  | .invalidDigit => "invalid hexadecimal digit"
  | .invalidCode => "hexadecimal literal is not a Unicode scalar value"

end PatternFault

/-- A fault with the columns it takes. -/
structure PatternError where
  fault : PatternFault
  start : Nat
  stop : Nat
deriving DecidableEq

namespace PatternError

/-- The fault, marked in the text of the pattern. -/
def message (error : PatternError) (text : String) : String :=
  let marks := List.replicate error.start ' ' ++
    List.replicate (max 1 (error.stop - error.start)) '^'
  "regex parse error:\n    " ++ text ++ "\n    " ++ String.ofList marks ++ "\nerror: " ++
    error.fault.message

end PatternError

/-- What is left of a text, and the column it begins at. -/
structure Cursor where
  rest : List Char
  column : Nat

/-- A step of reading a pattern. -/
abbrev Scan := StateT Cursor (Except PatternError)

namespace Scan

def column : Scan Nat := return (← get).column

def peek? : Scan (Option Char) := return (← get).rest.head?

/-- The character behind the next one. -/
def peekBehind? : Scan (Option Char) := return (← get).rest.tail.head?

def next? : Scan (Option Char) := do
  match (← get).rest with
  | [] => return none
  | c :: rest =>
    modify fun cursor => ⟨rest, cursor.column + 1⟩
    return some c

/-- Takes the next character if it is `c`. -/
def accept (c : Char) : Scan Bool := do
  if (← peek?) = some c then
    let _ ← next?
    return true
  else return false

/-- Takes the characters up to the first that does not fit. -/
def takeWhile (fits : Char → Bool) : Scan (List Char) := do
  let taken := (← get).rest.takeWhile fits
  modify fun cursor => ⟨cursor.rest.drop taken.length, cursor.column + taken.length⟩
  return taken

/-- A fault that reaches from `start` to here. -/
def fail (fault : PatternFault) (start : Nat) : Scan α := do throw ⟨fault, start, ← column⟩

end Scan

/-- What an escape stands for. -/
inductive Escaped where
  | char (c : Char)
  | set (set : CharSet)
  | place (place : Edge)

namespace PatternReader

def hexValue? (c : Char) : Option Nat :=
  if c.isDigit then some (c.toNat - '0'.toNat)
  else if 'a' ≤ c ∧ c ≤ 'f' then some (c.toNat - 'a'.toNat + 10)
  else if 'A' ≤ c ∧ c ≤ 'F' then some (c.toNat - 'A'.toNat + 10)
  else none

/-- The character with a code in hexadecimal digits. -/
def charOfCode (start : Nat) (digits : List Char) : Scan Escaped := do
  let some values := digits.mapM hexValue? | Scan.fail .invalidDigit start
  let code := values.foldl (fun code value => 16 * code + value) 0
  if code.isValidChar then return .char (Char.ofNat code) else Scan.fail .invalidCode start

/-- A code of `count` digits, or of any number of them in braces. -/
def codeEscape (start count : Nat) : Scan Escaped := do
  if ← Scan.accept '\x7b' then
    let digits ← Scan.takeWhile (· ≠ '\x7d')
    if ← Scan.accept '\x7d' then charOfCode start digits else Scan.fail .unfinishedEscape start
  else
    let digits := (← get).rest.take count
    modify fun cursor => ⟨cursor.rest.drop count, cursor.column + digits.length⟩
    if digits.length = count then charOfCode start digits else Scan.fail .unfinishedEscape start

/-- A character that stands for itself behind a backslash: any mark, angle
brackets apart. -/
def isMark (c : Char) : Bool :=
  c.toNat < 0x80 && !c.isAlphanum && c ≠ '<' && c ≠ '>'

/-- What follows a backslash at column `start`. -/
def escape (start : Nat) : Scan Escaped := do
  match ← Scan.next? with
  | none => Scan.fail .unfinishedEscape start
  | some c =>
    match c with
    | 'd' => return .set .digits
    | 'D' => return .set (.complement .digits)
    | 's' => return .set .blanks
    | 'S' => return .set (.complement .blanks)
    | 'w' => return .set .wordChars
    | 'W' => return .set (.complement .wordChars)
    | 'A' => return .place .textStart
    | 'z' => return .place .textStop
    | 'b' => return .place .wordEdge
    | 'B' => return .place .noWordEdge
    | 'a' => return .char '\x07'
    | 'f' => return .char '\x0C'
    | 'n' => return .char '\n'
    | 'r' => return .char '\r'
    | 't' => return .char '\t'
    | 'v' => return .char '\x0B'
    | 'x' => codeEscape start 2
    | 'u' => codeEscape start 4
    | 'U' => codeEscape start 8
    | c =>
      if c.isDigit then Scan.fail .backreference start
      else if isMark c then return .char c
      else Scan.fail .unknownEscape start

/-- The sets that have names. -/
def namedSets : List (String × CharSet) :=
  [("alnum", .ofRanges [('0', '9'), ('A', 'Z'), ('a', 'z')]),
   ("alpha", .ofRanges [('A', 'Z'), ('a', 'z')]), ("ascii", .range '\x00' '\x7F'),
   ("blank", .ofRanges [('\t', '\t'), (' ', ' ')]),
   ("cntrl", .ofRanges [('\x00', '\x1F'), ('\x7F', '\x7F')]), ("digit", .digits),
   ("graph", .range '!' '~'), ("lower", .range 'a' 'z'), ("print", .range ' ' '~'),
   ("punct", .ofRanges [('!', '/'), (':', '@'), ('[', '\x60'), ('\x7b', '~')]),
   ("space", .ofRanges [('\t', '\r'), (' ', ' ')]), ("upper", .range 'A' 'Z'),
   ("word", .wordChars), ("xdigit", .ofRanges [('0', '9'), ('A', 'F'), ('a', 'f')])]

/-- A named set, if one follows an opening bracket. -/
def namedSet? : Scan (Option CharSet) := do
  let rest := (← get).rest
  match rest with
  | ':' :: inner =>
    let isNegated := inner.head? = some '^'
    let inner := if isNegated then inner.tail else inner
    let name := inner.takeWhile (· ≠ ':')
    match inner.drop name.length, namedSets.lookup (String.ofList name) with
    | ':' :: ']' :: behind, some set =>
      modify fun cursor => ⟨behind, cursor.column + (rest.length - behind.length)⟩
      return some (if isNegated then .complement set else set)
    | _, _ => return none
  | _ => return none

/-- A member of a set: a character or a set. The set was opened between the two
columns of `opening`. -/
def setMember (opening : Nat × Nat) : Scan (Char ⊕ CharSet) := do
  let start ← Scan.column
  match ← Scan.next? with
  | none => throw ⟨.unclosedSet, opening.1, opening.2⟩
  | some '\\' =>
    match ← escape start with
    | .char c => return .inl c
    | .set set => return .inr set
    | .place _ => Scan.fail .placeInSet start
  | some c => return .inl c

/-- A member, or the range that it begins. -/
def setRange (opening : Nat × Nat) : Scan CharSet := do
  let start ← Scan.column
  let low ← setMember opening
  let behind ← Scan.peekBehind?
  if (← Scan.peek?) = some '-' && behind ≠ some ']' && behind ≠ some '-' then
    let _ ← Scan.next?
    match low, ← setMember opening with
    | .inl low, .inl high =>
      if low ≤ high then return .range low high else Scan.fail .rangeOrder start
    | _, _ => Scan.fail .rangeBound start
  else
    match low with
    | .inl c => return .single c
    | .inr set => return set

mutual

/-- The members of a set up to its end. -/
def setMembers (anyCase : Bool) (opening : Nat × Nat) :
    (steps : Nat) → List CharSet → Scan (List CharSet)
  | 0, _ => throw ⟨.unclosedSet, opening.1, opening.2⟩
  | steps + 1, members => do
    if ← Scan.accept ']' then return members
    let start ← Scan.column
    if ← Scan.accept '[' then
      let inner ← match ← namedSet? with
        | some set => pure set
        | none => bracketed anyCase steps start
      setMembers anyCase opening steps (inner :: members)
    else setMembers anyCase opening steps ((← setRange opening) :: members)

/-- A set in brackets, behind the one at column `start`. Dashes that come first
stand for themselves, and so does a closing bracket. -/
def bracketed (anyCase : Bool) : (steps : Nat) → (start : Nat) → Scan CharSet
  | 0, start => Scan.fail .unclosedSet start
  | steps + 1, start => do
    let isNegated ← Scan.accept '^'
    let dashes ← Scan.takeWhile (· = '-')
    let first := if dashes.isEmpty && (← Scan.accept ']') then [']'] else dashes
    let opening := (start, ← Scan.column)
    let members ← setMembers anyCase opening steps (first.map .single)
    let set := (CharSet.ofList members).inCase anyCase
    return if isNegated then .complement set else set

end

/-- How characters are read: in either case, and with line ends as places. -/
structure Flags where
  anyCase : Bool
  byLine : Bool
  dotTakesLineEnd : Bool

/-- A group as far as it is read. -/
structure Draft where
  flags : Flags
  /-- The alternatives that are complete. -/
  alternatives : Pattern
  /-- The parts of the current one, the last first. -/
  parts : List Pattern

namespace Draft

def start (flags : Flags) : Draft := ⟨flags, .never, []⟩

def add (draft : Draft) (part : Pattern) : Draft := { draft with parts := part :: draft.parts }

def pattern (draft : Draft) : Pattern :=
  draft.alternatives.orElse (draft.parts.foldl (fun rest part => part.andThen rest) .empty)

/-- A set as the flags take it. -/
def addSet (draft : Draft) (set : CharSet) : Draft :=
  draft.add (.one (set.inCase draft.flags.anyCase))

/-- The draft with its last part repeated. -/
def repeatLast (draft : Draft) (start least : Nat) (most : Option Nat) : Scan Draft := do
  match draft.parts with
  | [] => throw ⟨.nothingToRepeat, start, start + 1⟩
  | part :: parts =>
    let _ ← Scan.accept '?'
    return { draft with parts := part.repeated least most :: parts }

end Draft

/-- A decimal number with blanks around it. -/
def decimal? : Scan (Option Nat) := do
  let _ ← Scan.takeWhile CharSet.blanks.contains
  let digits ← Scan.takeWhile Char.isDigit
  let _ ← Scan.takeWhile CharSet.blanks.contains
  if digits.isEmpty then return none
  else return some (digits.foldl (fun n digit => 10 * n + (digit.toNat - '0'.toNat)) 0)

/-- The limits of a repetition, behind the brace at column `start`. -/
def counts (start : Nat) : Scan (Nat × Option Nat) := do
  if (← Scan.peek?).isNone then Scan.fail .unclosedCount start
  let some least ← decimal? | Scan.fail .missingCount start
  let most ← do
    if !(← Scan.accept ',') then pure (some least)
    else if (← Scan.peek?) = some '\x7d' then pure none
    else
      let some most ← decimal? | Scan.fail .missingCount start
      pure (some most)
  if !(← Scan.accept '\x7d') then Scan.fail .unclosedCount start
  if most.any (· < least) then Scan.fail .countOrder start
  return (least, most)

/-- Flags up to a colon or a closing bracket, and whether it was a colon. A dash
turns those behind it off. -/
def readFlags : (steps : Nat) → (on : Bool) → Flags → Scan (Flags × Bool)
  | 0, _, _ => do Scan.fail .missingFlag (← Scan.column)
  | steps + 1, on, flags => do
    let start ← Scan.column
    match ← Scan.next? with
    | none => Scan.fail .missingFlag start
    | some ':' => return (flags, true)
    | some ')' => return (flags, false)
    | some '-' => readFlags steps false flags
    | some 'i' => readFlags steps on { flags with anyCase := on }
    | some 'm' => readFlags steps on { flags with byLine := on }
    | some 's' => readFlags steps on { flags with dotTakesLineEnd := on }
    | some 'U' | some 'u' => readFlags steps on flags
    | some _ => Scan.fail .unknownFlag start

/-- The pattern being read, with the columns and drafts of the open groups. -/
structure Reading where
  draft : Draft
  outer : List (Nat × Draft)

namespace Reading

def onDraft (reading : Reading) (change : Draft → Draft) : Reading :=
  { reading with draft := change reading.draft }

def openWith (reading : Reading) (start : Nat) (flags : Flags) : Reading :=
  ⟨.start flags, (start, reading.draft) :: reading.outer⟩

/-- What follows an opening parenthesis at column `start`. -/
def openGroup (reading : Reading) (start : Nat) : Scan Reading := do
  let flags := reading.draft.flags
  if !(← Scan.accept '?') then return reading.openWith start flags
  let named : Scan Reading := do
    let _ ← Scan.takeWhile (· ≠ '>')
    if ← Scan.accept '>' then return reading.openWith start flags
    else Scan.fail .unclosedName start
  match (← get).rest with
  | '=' :: _ | '!' :: _ | '<' :: '=' :: _ | '<' :: '!' :: _ =>
    let _ ← Scan.accept '<'
    let _ ← Scan.next?
    Scan.fail .lookAround start
  | 'P' :: '<' :: _ | '<' :: _ => named
  | rest =>
    let (flags, isGroup) ← readFlags (rest.length + 1) true flags
    if isGroup then return reading.openWith start flags
    else return reading.onDraft fun draft => { draft with flags }

/-- Ends the innermost group. -/
def closeGroup (reading : Reading) (start : Nat) : Scan Reading := do
  match reading.outer with
  | [] => Scan.fail .unopenedGroup start
  | (_, draft) :: outer => return ⟨draft.add reading.draft.pattern, outer⟩

/-- The set that a dot stands for. -/
def dot (flags : Flags) : CharSet :=
  if flags.dotTakesLineEnd then .complement .none else .complement (.single '\n')

/-- Takes the mark or character `c` that stands at column `start`. -/
def step (reading : Reading) (start : Nat) (c : Char) : Scan Reading := do
  let draft := reading.draft
  let withDraft (draft : Draft) : Reading := { reading with draft }
  match c with
  | '(' => reading.openGroup start
  | ')' => reading.closeGroup start
  | '|' => return withDraft { draft with alternatives := draft.pattern, parts := [] }
  | '[' =>
    let set ← bracketed draft.flags.anyCase ((← get).rest.length + 2) start
    return withDraft (draft.add (.one set))
  | '*' => return withDraft (← draft.repeatLast start 0 none)
  | '+' => return withDraft (← draft.repeatLast start 1 none)
  | '?' => return withDraft (← draft.repeatLast start 0 (some 1))
  | '\x7b' =>
    if draft.parts.isEmpty then Scan.fail .nothingToRepeat start
    let (least, most) ← counts start
    return withDraft (← draft.repeatLast start least most)
  | '\\' =>
    match ← escape start with
    | .char c => return withDraft (draft.addSet (.single c))
    | .set set => return withDraft (draft.addSet set)
    | .place place => return withDraft (draft.add (.edge place))
  | '.' => return withDraft (draft.add (.one (dot draft.flags)))
  | '^' =>
    return withDraft (draft.add (.edge (if draft.flags.byLine then .lineStart else .textStart)))
  | '$' =>
    return withDraft (draft.add (.edge (if draft.flags.byLine then .lineStop else .textStop)))
  | c => return withDraft (draft.addSet (.single c))

/-- The whole pattern, once the text is used up. -/
def finish (reading : Reading) : Scan Pattern :=
  match reading.outer with
  | [] => return reading.draft.pattern
  | (start, _) :: _ => throw ⟨.unclosedGroup, start, start + 1⟩

end Reading

/-- Reads on to the end of the text. Every step takes a character. -/
def readFrom : (steps : Nat) → Reading → Scan Pattern
  | 0, reading => reading.finish
  | steps + 1, reading => do
    let start ← Scan.column
    match ← Scan.next? with
    | none => reading.finish
    | some c => readFrom steps (← reading.step start c)

end PatternReader

namespace Pattern

/-- The pattern with a written form. -/
def parse (text : String) : Except PatternError Pattern :=
  let reading : PatternReader.Reading := ⟨.start ⟨false, false, false⟩, []⟩
  (PatternReader.readFrom text.length reading).run' ⟨text.toList, 0⟩

end Pattern

end LiteralRecovery
