import LiteralRecovery.Recovery.Cleanup
import LiteralRecovery.Recovery.Fold

/-! The whole recovery of one class: every pass is repeated until a walk finds
nothing, and what the passes made superfluous is removed. -/
namespace LiteralRecovery

namespace Pass

/-- One walk of a pass. -/
def scan (pass : Pass) (options : Options) (state : RecoveryState) :
    Swept RecoveryState RecoveryError :=
  match pass with
  | .fold width => Fold.scan width options state
  | .table kind => StaticTable.scan kind state
  | .allocations => Cleanup.scan state

/-- Repeats a pass until a walk changes nothing or fails, `bound` times at
most. -/
def repeatScan (pass : Pass) (options : Options) :
    (bound : Nat) → (iteration : Nat) → RecoveryState → RecoveryState × Option RecoveryError
  | 0, _, state => (state, none)
  | bound + 1, iteration, state =>
    let swept := pass.scan options state
    match swept.error with
    | some error => (swept.state, some error)
    | none =>
      let state := swept.state.log
        (.passScanned swept.state.cls.name pass iteration swept.changes)
      if swept.changes = 0 then (state, none)
      else pass.repeatScan options bound (iteration + 1) state

/-- Repeats a pass until a walk changes nothing. Every change takes out at
least two instructions, which bounds the number of walks. -/
def run (pass : Pass) (options : Options) (state : RecoveryState) :
    RecoveryState × Option RecoveryError :=
  let state := state.log (.passStarted state.cls.name pass)
  pass.repeatScan options (state.cls.weight / 2 + 1) 1 state

/-- Runs passes one after the other until one fails. -/
def runAll (options : Options) : List Pass → RecoveryState → RecoveryState × Option RecoveryError
  | [], state => (state, none)
  | pass :: rest, state =>
    match pass.run options state with
    | (state, some error) => (state, some error)
    | (state, none) => runAll options rest state

end Pass

/-- The passes that bring constants back, in the order they run. -/
def recoveryPasses : List Pass :=
  [.fold .long, .fold .int, .table .int, .table .long, .table .reference]

/-- A class after recovery, with what was counted and logged. -/
structure Recovered where
  cls : Class
  result : Except RecoveryError Stats
  events : Array Event

/-- Recovers the constants of a class from the position of its initializer. -/
def recoverFrom (options : Options) (cls : Class) (initializer : Nat) : Recovered :=
  match Pass.runAll options recoveryPasses (RecoveryState.start cls initializer) with
  | (state, some error) => { cls := state.cls, result := .error error, events := state.events }
  | (state, none) =>
    match Pass.allocations.run options (Cleanup.removeMarked state) with
    | (state, some error) => { cls := state.cls, result := .error error, events := state.events }
    | (state, none) =>
      { cls := Cleanup.clearLocals state.cls, result := .ok state.stats, events := state.events }

/-- Recovers the constants of a class. One without a static initializer has no
tables and is left as it is. -/
def recover (options : Options) (cls : Class) : Recovered :=
  match cls.initializer? with
  | some initializer => recoverFrom options cls initializer
  | none => { cls, result := .ok .zero, events := #[.noInitializer cls.name] }

end LiteralRecovery
