/-! Names of fields and methods: a key inside one class, and a reference that
also names the owner. -/
namespace LiteralRecovery

/-- The static initializer's method name. -/
def initializerName : String := "<clinit>"

/-- What tells the fields, or the methods, of one class apart. -/
structure MemberKey where
  name : String
  descriptor : String
deriving DecidableEq

namespace MemberKey

/-- Keys are ordered by name, then by descriptor, each by code point. -/
def before (left right : MemberKey) : Bool :=
  left.name < right.name || (left.name = right.name && left.descriptor < right.descriptor)

/-- `name:descriptor`. -/
def render (key : MemberKey) : String := key.name ++ ":" ++ key.descriptor

end MemberKey

/-- A field or method named from any class. -/
structure MemberRef where
  owner : String
  name : String
  descriptor : String
deriving DecidableEq

namespace MemberRef

/-- The key the reference has inside its owner. -/
def key (member : MemberRef) : MemberKey := ⟨member.name, member.descriptor⟩

/-- `owner.name:descriptor`. -/
def render (member : MemberRef) : String :=
  member.owner ++ "." ++ member.name ++ ":" ++ member.descriptor

end MemberRef

/-- A set of keys, kept in key order without repetition. -/
structure KeySet where
  keys : List MemberKey
deriving DecidableEq

namespace KeySet

def empty : KeySet := ⟨[]⟩

def contains (set : KeySet) (key : MemberKey) : Bool := set.keys.contains key

/-- Puts `key` in front of the first key that does not come before it. -/
def insertInto (key : MemberKey) : List MemberKey → List MemberKey
  | [] => [key]
  | head :: rest =>
    if head = key then head :: rest
    else if key.before head then key :: head :: rest
    else head :: insertInto key rest

def insert (set : KeySet) (key : MemberKey) : KeySet := ⟨insertInto key set.keys⟩

def ofList (keys : List MemberKey) : KeySet := keys.foldl insert empty

end KeySet

end LiteralRecovery
