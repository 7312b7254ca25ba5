/-! Sets of characters. -/
namespace LiteralRecovery

/-- A set of characters. -/
inductive CharSet where
  | range (low high : Char)
  | union (left right : CharSet)
  | complement (set : CharSet)
  /-- The characters of a set in either case. -/
  | anyCase (set : CharSet)
deriving DecidableEq

namespace CharSet

def contains : CharSet → Char → Bool
  | .range low high, c => low ≤ c && c ≤ high
  | .union left right, c => left.contains c || right.contains c
  | .complement set, c => !set.contains c
  | .anyCase set, c => set.contains c || set.contains c.toLower || set.contains c.toUpper

def single (c : Char) : CharSet := .range c c

/-- No character at all. -/
def none : CharSet := .range '\x01' '\x00'

def ofList (sets : List CharSet) : CharSet := sets.foldr union none

def ofRanges (ranges : List (Char × Char)) : CharSet :=
  ofList (ranges.map fun (low, high) => range low high)

/-- The set itself, or its characters in either case. -/
def inCase (set : CharSet) (either : Bool) : CharSet := if either then .anyCase set else set

def digits : CharSet := .range '0' '9'

/-- The characters that words are made of. -/
def wordChars : CharSet := ofRanges [('0', '9'), ('A', 'Z'), ('_', '_'), ('a', 'z')]

/-- The white space of all scripts. -/
def blanks : CharSet :=
  ofRanges [('\t', '\r'), (' ', ' '), ('\u0085', '\u0085'), ('\u00A0', '\u00A0'),
    ('\u1680', '\u1680'), ('\u2000', '\u200A'), ('\u2028', '\u2029'), ('\u202F', '\u202F'),
    ('\u205F', '\u205F'), ('\u3000', '\u3000')]

/-- A text without the characters of the set at its ends. -/
def trim (set : CharSet) (text : String) : String :=
  String.ofList ((text.toList.dropWhile set.contains).reverse.dropWhile set.contains).reverse

end CharSet

end LiteralRecovery
