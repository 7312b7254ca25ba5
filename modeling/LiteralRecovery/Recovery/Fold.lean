import LiteralRecovery.Recovery.State

/-! Folding of `constant; constant; operation` in the static initializer. -/
namespace LiteralRecovery.Fold

/-- The value of a bitwise operation on two constants of its width. -/
def value? (width : Width) (mode : LongFold) (op : BitwiseOp) (first second : Instruction) :
    Option Instruction :=
  match width with
  | .int =>
    match first, second with
    | .intConst left, .intConst right => some (.intConst (op.onInt left right))
    | _, _ => none
  | .long =>
    match first, second with
    | .longConst left, .longConst right =>
      some (.longConst (op.onLong left (if mode = .legacy then left else right)))
    | _, _ => none

/-- The constant that the expression starting at `id` folds to, and the two
nodes behind `id` that it makes superfluous. -/
def match? (width : Width) (mode : LongFold) (code : Listing Instruction) (id : NodeId) :
    Option (Instruction × List NodeId) :=
  match code.window 3 id with
  | some [(_, first), (secondId, second), (opId, .bitwise opWidth op)] =>
    if opWidth = width then
      (value? width mode op first second).map fun value => (value, [secondId, opId])
    else none
  | _ => none

/-- Folds the expression starting at `id`, if there is one. -/
def step (width : Width) (mode : LongFold) (code : Listing Instruction) (id : NodeId) :
    Step (Listing Instruction) RecoveryError :=
  match match? width mode code id with
  | some (value, operands) => .change ((code.removeAll operands).replace id value)
  | none => .skip

/-- One walk over a listing. -/
def scanCode (width : Width) (mode : LongFold) (code : Listing Instruction) :
    Swept (Listing Instruction) RecoveryError :=
  sweep (step width mode) code.ids code 0

/-- One walk over the static initializer. -/
def scan (width : Width) (options : Options) (state : RecoveryState) :
    Swept RecoveryState RecoveryError :=
  let swept := scanCode width options.longFold state.initializerCode
  let folded := state.stats.folded + swept.changes
  let state := state.editInitializer fun _ => swept.state
  { state := { state with stats := { state.stats with folded } }
    changes := swept.changes
    error := none }

end LiteralRecovery.Fold
