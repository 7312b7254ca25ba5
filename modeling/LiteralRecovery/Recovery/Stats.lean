/-! What a recovery run did to one class, in numbers. -/
namespace LiteralRecovery

structure Stats where
  folded : Nat
  resolvedInts : Nat
  resolvedLongs : Nat
  resolvedStrings : Nat
  /-- Reads of slots that nothing was stored into. -/
  defaulted : Nat
  strippedStores : Nat
  removedFields : Nat
  removedMethods : Nat
  removedAllocations : Nat
deriving DecidableEq

namespace Stats

def zero : Stats := ⟨0, 0, 0, 0, 0, 0, 0, 0, 0⟩

def isZero (stats : Stats) : Bool := stats = zero

def add (left right : Stats) : Stats where
  folded := left.folded + right.folded
  resolvedInts := left.resolvedInts + right.resolvedInts
  resolvedLongs := left.resolvedLongs + right.resolvedLongs
  resolvedStrings := left.resolvedStrings + right.resolvedStrings
  defaulted := left.defaulted + right.defaulted
  strippedStores := left.strippedStores + right.strippedStores
  removedFields := left.removedFields + right.removedFields
  removedMethods := left.removedMethods + right.removedMethods
  removedAllocations := left.removedAllocations + right.removedAllocations

/-- The counters by the names reports give them, in report order. -/
def entries (stats : Stats) : List (String × Nat) :=
  [("folded", stats.folded), ("resolved_ints", stats.resolvedInts),
   ("resolved_longs", stats.resolvedLongs), ("resolved_strings", stats.resolvedStrings),
   ("defaulted", stats.defaulted), ("stripped_stores", stats.strippedStores),
   ("removed_fields", stats.removedFields), ("removed_methods", stats.removedMethods),
   ("removed_allocations", stats.removedAllocations)]

end Stats

end LiteralRecovery
