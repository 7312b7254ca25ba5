import LiteralRecovery.Text.CharSet

/-! Patterns that a text may contain. Matching goes through the text once and
keeps, for every place where a match may have begun, what is still to come. -/
namespace LiteralRecovery

/-- A condition on a place between two characters. -/
inductive Edge where
  | textStart | textStop | lineStart | lineStop | wordEdge | noWordEdge
deriving DecidableEq

namespace Edge

def isWordChar (c : Option Char) : Bool := c.any CharSet.wordChars.contains

/-- Whether the condition holds between two characters. -/
def holds (edge : Edge) (before after : Option Char) : Bool :=
  match edge with
  | .textStart => before.isNone
  | .textStop => after.isNone
  | .lineStart => before.all (· = '\n')
  | .lineStop => after.all (· = '\n')
  | .wordEdge => isWordChar before != isWordChar after
  | .noWordEdge => isWordChar before == isWordChar after

end Edge

inductive Pattern where
  | never
  | empty
  | one (set : CharSet)
  | edge (place : Edge)
  | sequence (first second : Pattern)
  | either (left right : Pattern)
  | many (pattern : Pattern)
deriving DecidableEq

namespace Pattern

/-- A sequence, shortened where one part decides. -/
def andThen (first second : Pattern) : Pattern :=
  match first with
  | .never => .never
  | .empty => second
  | _ => .sequence first second

/-- Alternatives, without those that never match. -/
def orElse (left right : Pattern) : Pattern :=
  match left, right with
  | .never, _ => right
  | _, .never => left
  | _, _ => if left = right then left else .either left right

/-- Whether nothing at all matches between two characters. -/
def matchesNothing (before after : Option Char) : Pattern → Bool
  | .never | .one _ => false
  | .empty | .many _ => true
  | .edge place => place.holds before after
  | .sequence first second =>
    first.matchesNothing before after && second.matchesNothing before after
  | .either left right => left.matchesNothing before after || right.matchesNothing before after

/-- What is still to come once the pattern has taken `c`, which stands behind
`before`. -/
def following (before : Option Char) (c : Char) : Pattern → Pattern
  | .never | .empty | .edge _ => .never
  | .one set => if set.contains c then .empty else .never
  | .sequence first second =>
    let taken := (first.following before c).andThen second
    if first.matchesNothing before (some c) then taken.orElse (second.following before c)
    else taken
  | .either left right => (left.following before c).orElse (right.following before c)
  | .many pattern => (pattern.following before c).andThen (.many pattern)

/-- Whether one of the `pending` patterns goes on to match here, or `pattern`
does from here on. -/
def occursFrom (pattern : Pattern) (before : Option Char) (pending : List Pattern) :
    List Char → Bool
  | [] => (pattern :: pending).any (·.matchesNothing before none)
  | c :: rest =>
    let active := pattern :: pending
    let next := (active.map (·.following before c)).filter (· ≠ .never)
    active.any (·.matchesNothing before (some c)) ||
      occursFrom pattern (some c) next.eraseDups rest

/-- Whether the pattern matches some part of a text. -/
def occursIn (pattern : Pattern) (text : String) : Bool :=
  occursFrom pattern none [] text.toList

/-- Up to `count` times. -/
def upTo (pattern : Pattern) : (count : Nat) → Pattern
  | 0 => .empty
  | count + 1 => .either .empty (pattern.andThen (pattern.upTo count))

/-- Exactly `count` times. -/
def times (pattern : Pattern) : (count : Nat) → Pattern
  | 0 => .empty
  | count + 1 => pattern.andThen (pattern.times count)

/-- At least `least` times, and at most `most` times if there is a limit. -/
def repeated (pattern : Pattern) (least : Nat) (most : Option Nat) : Pattern :=
  (pattern.times least).andThen (match most with
    | some most => pattern.upTo (most - least)
    | none => .many pattern)

end Pattern

end LiteralRecovery
