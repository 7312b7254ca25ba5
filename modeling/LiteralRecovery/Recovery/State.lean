import LiteralRecovery.Class.Basic
import LiteralRecovery.Recovery.Event

/-! The state that the passes over one class share, and the walk that all of
them take over its code. -/
namespace LiteralRecovery

/-- How `a; b; op` over long constants is folded. -/
inductive LongFold where
  /-- To `a op b`. -/
  | combine
  /-- To `a op a`. -/
  | legacy
deriving DecidableEq

structure Options where
  longFold : LongFold
deriving DecidableEq

/-- Why a class is beyond recovery. -/
inductive RecoveryError where
  /-- A table that is stored into, but not declared by the class. -/
  | undeclaredField (field : MemberRef)
  /-- A string helper that the class does not declare. -/
  | undeclaredHelper (helper : MemberRef)
deriving DecidableEq

namespace RecoveryError

def message : RecoveryError → String
  | .undeclaredField field => "table store references undeclared field " ++ field.render
  | .undeclaredHelper helper =>
    "string store calls undeclared helper " ++ helper.owner ++ "." ++ helper.name ++
      helper.descriptor

end RecoveryError

structure RecoveryState where
  cls : Class
  /-- Position of the static initializer among the methods. -/
  initializer : Nat
  /-- Tables that a value was taken from. -/
  markedFields : KeySet
  /-- Helpers that a value was decrypted with. -/
  markedMethods : KeySet
  /-- Tables whose declaration is gone. -/
  removedFields : KeySet
  /-- The value of every table slot whose store was taken out. -/
  memo : List ((MemberKey × Int32) × Instruction)
  stats : Stats
  events : Array Event

namespace RecoveryState

def start (cls : Class) (initializer : Nat) : RecoveryState where
  cls := cls
  initializer := initializer
  markedFields := .empty
  markedMethods := .empty
  removedFields := .empty
  memo := []
  stats := .zero
  events := #[]

/-- The listing of the static initializer. -/
def initializerCode (state : RecoveryState) : Listing Instruction :=
  state.cls.codeAt state.initializer

def editInitializer (state : RecoveryState)
    (edit : Listing Instruction → Listing Instruction) : RecoveryState :=
  { state with cls := state.cls.editCode state.initializer edit }

def log (state : RecoveryState) (event : Event) : RecoveryState :=
  { state with events := state.events.push event }

end RecoveryState

/-- What one place of a walk asks for. -/
inductive Step (σ ε : Type) where
  | skip
  | change (next : σ)
  | stop (error : ε)

/-- A walk's outcome. After an error the state is that before the place at
fault. -/
structure Swept (σ ε : Type) where
  state : σ
  changes : Nat
  error : Option ε

/-- Visits places in order and changes the state where `step` says so, counting
on from `changes`. Places that were taken out on the way are for `step` to
skip. -/
def sweep {σ ε ι : Type} (step : σ → ι → Step σ ε) : List ι → σ → Nat → Swept σ ε
  | [], state, changes => { state, changes, error := none }
  | place :: rest, state, changes =>
    match step state place with
    | .skip => sweep step rest state changes
    | .change next => sweep step rest next (changes + 1)
    | .stop error => { state, changes, error := some error }

end LiteralRecovery
