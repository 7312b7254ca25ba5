import LiteralRecovery.Run.ClassRun

/-! What a run did, entry by entry and in total. -/
namespace LiteralRecovery

structure EntryReport where
  name : String
  outcome : Outcome
deriving DecidableEq

structure Totals where
  entries : Nat
  classes : Nat
  transformed : Nat
  unchanged : Nat
  copied : Nat
  skipped : Nat
  failed : Nat
  /-- Sum over the transformed classes. -/
  stats : Stats
deriving DecidableEq

namespace Totals

def zero : Totals := ⟨0, 0, 0, 0, 0, 0, 0, .zero⟩

/-- Counts one more outcome. Whatever is not copied is a class. -/
def add (totals : Totals) (outcome : Outcome) : Totals :=
  let totals := { totals with entries := totals.entries + 1 }
  match outcome with
  | .copied => { totals with copied := totals.copied + 1 }
  | .transformed stats =>
    { totals with
      classes := totals.classes + 1
      transformed := totals.transformed + 1
      stats := totals.stats.add stats }
  | .unchanged =>
    { totals with classes := totals.classes + 1, unchanged := totals.unchanged + 1 }
  | .skipped _ => { totals with classes := totals.classes + 1, skipped := totals.skipped + 1 }
  | .failed _ => { totals with classes := totals.classes + 1, failed := totals.failed + 1 }

def ofOutcomes (outcomes : List Outcome) : Totals := outcomes.foldl add zero

/-- The counters by the names reports give them, in report order. -/
def entriesByName (totals : Totals) : List (String × Nat) :=
  [("entries", totals.entries), ("classes", totals.classes), ("transformed", totals.transformed),
   ("unchanged", totals.unchanged), ("copied", totals.copied), ("skipped", totals.skipped),
   ("failed", totals.failed)]

end Totals

/-- The reports of a run, in input order. -/
structure Summary where
  reports : List EntryReport
deriving DecidableEq

namespace Summary

def totals (summary : Summary) : Totals := .ofOutcomes (summary.reports.map (·.outcome))

end Summary

end LiteralRecovery
