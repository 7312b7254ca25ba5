import LiteralRecovery.Class.Lift
import LiteralRecovery.Class.Lower
import LiteralRecovery.Recovery.Transform

/-! One class from bytes to bytes. Whatever goes wrong, the class is left as it
was and the reason is reported. -/
namespace LiteralRecovery

/-- What became of an input entry. -/
inductive Outcome where
  /-- New bytes were produced. -/
  | transformed (stats : Stats)
  /-- A class with nothing to recover. -/
  | unchanged
  /-- Not a class. -/
  | copied
  /-- A class that could not be decoded. -/
  | skipped (reason : String)
  /-- A class that could not be recovered or written. -/
  | failed (reason : String)
deriving DecidableEq

/-- An outcome, with new bytes if the class was transformed, and the log. -/
structure Processed where
  outcome : Outcome
  bytes : Option Bytes
  events : Array Event

/-- Decodes, recovers and writes one class. -/
def processClass (options : Options) (entry : String) (data : Bytes) : Processed :=
  match Class.decode data with
  | .error error =>
    { outcome := .skipped error.message, bytes := none, events := #[.skipped entry error.message] }
  | .ok cls =>
    let recovered := recover options cls
    match recovered.result with
    | .error error =>
      { outcome := .failed error.message, bytes := none
        events := recovered.events.push (.leftUnchanged entry error.message) }
    | .ok stats =>
      if stats.isZero then
        { outcome := .unchanged, bytes := none
          events := recovered.events.push (.nothingFound entry) }
      else
        let (result, events) := recovered.cls.encode
        match result with
        | .ok bytes =>
          { outcome := .transformed stats, bytes := some bytes
            events := (recovered.events ++ events).push (.recovered entry stats) }
        | .error error =>
          { outcome := .failed error.message, bytes := none
            events := (recovered.events ++ events).push (.encodingFailed entry error.message) }

end LiteralRecovery
