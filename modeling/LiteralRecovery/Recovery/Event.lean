import LiteralRecovery.Instruction
import LiteralRecovery.Recovery.Stats

/-! What happens during a run, for the log. -/
namespace LiteralRecovery

/-- The passes over a class. -/
inductive Pass where
  | fold (width : Width)
  | table (kind : ElementKind)
  | allocations
deriving DecidableEq

namespace Pass

def id : Pass → String
  | .fold .int => "fold-int"
  | .fold .long => "fold-long"
  | .table .int => "resolve-int-table"
  | .table .long => "resolve-long-table"
  | .table .reference => "resolve-string-table"
  | .allocations => "clean-allocations"

def description : Pass → String
  | .fold .int => "Fold 32-bit bitwise constant expressions"
  | .fold .long => "Fold 64-bit bitwise constant expressions"
  | .table .int => "Inline constant loads from static int tables"
  | .table .long => "Inline constant loads from static long tables"
  | .table .reference => "Inline and decrypt loads from static string tables"
  | .allocations => "Remove allocations of deleted table fields"

end Pass

/-- How much a log line matters. -/
inductive Level where
  | debug | info | warn
deriving DecidableEq

namespace Level

def name : Level → String
  | .debug => "DEBUG"
  | .info => "INFO"
  | .warn => "WARN"

end Level

/-- Something worth a log line. -/
inductive Event where
  | noInitializer (className : String)
  | passStarted (className : String) (pass : Pass)
  | passScanned (className : String) (pass : Pass) (iteration count : Nat)
  | readResolved (className : String) (field : MemberRef) (index : Int32) (method : String)
      (value : Instruction)
  | fieldKept (className : String) (field : MemberKey) (references : Nat)
  | fieldRemoved (className : String) (field : MemberKey)
  | helperKept (className : String) (helper : MemberKey) (calls : Nat)
  | helperRemoved (className : String) (helper : MemberKey)
  | attributesDropped (count : Nat)
  | skipped (entry reason : String)
  | leftUnchanged (entry reason : String)
  | encodingFailed (entry reason : String)
  | nothingFound (entry : String)
  | recovered (entry : String) (stats : Stats)
  | notAClass (entry : String)
  | wrote (output : String) (transformed classes : Nat)
deriving DecidableEq

namespace Event

def level : Event → Level
  | .skipped _ _ | .leftUnchanged _ _ | .encodingFailed _ _ | .notAClass _
  | .fieldKept _ _ _ | .helperKept _ _ _ => .warn
  | .recovered _ _ | .wrote _ _ _ => .info
  | _ => .debug

def message : Event → String
  | .noInitializer className => className ++ ": no static initializer"
  | .passStarted className pass =>
    className ++ ": " ++ pass.id ++ " (" ++ pass.description ++ ")"
  | .passScanned className pass iteration count =>
    className ++ ": " ++ pass.id ++ " iteration " ++ toString iteration ++ " rewrote " ++
      toString count
  | .readResolved className field index method value =>
    className ++ ": " ++ field.render ++ "[" ++ toString index.toInt ++ "] in " ++ method ++
      " -> " ++ value.renderConstant
  | .fieldKept className field references =>
    className ++ ": keeping field " ++ field.render ++ ": " ++ toString references ++
      " references outside its table scaffold"
  | .fieldRemoved className field => className ++ ": removed field " ++ field.render
  | .helperKept className helper calls =>
    className ++ ": keeping helper " ++ helper.render ++ ": " ++ toString calls ++ " calls remain"
  | .helperRemoved className helper => className ++ ": removed helper " ++ helper.render
  | .attributesDropped count =>
    "dropping " ++ toString count ++ " code attributes that cannot be relocated"
  | .skipped entry reason => "skipping " ++ entry ++ ": " ++ reason
  | .leftUnchanged entry reason => "leaving " ++ entry ++ " unchanged: " ++ reason
  | .encodingFailed entry reason =>
    "leaving " ++ entry ++ " unchanged: failed to encode: " ++ reason
  | .nothingFound entry => entry ++ ": nothing to rewrite"
  | .recovered entry stats =>
    "deobfuscated " ++ entry ++ ": " ++ toString stats.folded ++ " folded, " ++
      toString stats.resolvedInts ++ " ints, " ++ toString stats.resolvedLongs ++ " longs, " ++
      toString stats.resolvedStrings ++ " strings"
  | .notAClass entry => entry ++ " is not a class file, copying"
  | .wrote output transformed classes =>
    "wrote " ++ output ++ ": deobfuscated " ++ toString transformed ++ " of " ++
      toString classes ++ " classes"

end Event

end LiteralRecovery
