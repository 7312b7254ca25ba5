import LiteralRecovery.Recovery.StaticTable

/-! What is left of a table once its reads are gone: stores that nothing reads,
the declaration, the allocation, and the helper that unmasked its strings. -/
namespace LiteralRecovery.Cleanup

/-- Nodes of `size; new array; putstatic field`, starting at `id`, for a field
that passes the test. -/
def allocation? (code : Listing Instruction) (id : NodeId) (isTarget : MemberRef → Bool) :
    Option (List NodeId) :=
  match code.window 3 id with
  | some [(sizeId, .intConst _), (newId, .newArray _), (putId, .putStatic field)] =>
    if isTarget field then some [sizeId, newId, putId] else none
  | _ => none

def allocations (code : Listing Instruction) (field : MemberRef) : List (List NodeId) :=
  code.items.filterMap fun (id, _) => allocation? code id (· = field)

/-- The stores into `field` that are still there, of whatever kind. -/
def stores (code : Listing Instruction) (field : MemberRef) (className : String) :
    List StaticTable.StoreSite :=
  code.items.filterMap fun (id, _) =>
    [ElementKind.int, .long, .reference].findSome? fun kind =>
      StaticTable.store? code id field kind className

def isReference (field : MemberRef) : Instruction → Bool
  | .getStatic target | .putStatic target => target = field
  | _ => false

/-- How often the class reads or writes the static field. -/
def references (cls : Class) (field : MemberRef) : Nat :=
  cls.instructions.countP (isReference field)

def isCall (owner : String) (helper : MemberKey) : Instruction → Bool
  | .invokeStatic target _ => target.owner = owner ∧ target.key = helper
  | _ => false

/-- How often the class calls its own method. -/
def calls (cls : Class) (helper : MemberKey) : Nat :=
  cls.instructions.countP (isCall cls.name helper)

/-- Removes a marked table, with the stores into it, unless something other than
its stores and allocations refers to it. -/
def removeField (state : RecoveryState) (key : MemberKey) : RecoveryState :=
  let owner := state.cls.name
  let field : MemberRef := ⟨owner, key.name, key.descriptor⟩
  let stores := stores state.initializerCode field owner
  let allocations := (allocations state.initializerCode field).length
  let references := references state.cls field
  if references ≠ stores.length + allocations then
    state.log (.fieldKept owner key (references - stores.length - allocations))
  else
    let state := state.editInitializer (·.removeAll (stores.flatMap (·.nodes)))
    let fields := state.cls.fields.filter (·.key ≠ key)
    let strippedStores := state.stats.strippedStores + stores.length
    let removedFields := state.stats.removedFields + (state.cls.fields.length - fields.length)
    { state.log (.fieldRemoved owner key) with
      cls := { state.cls with fields }
      removedFields := state.removedFields.insert key
      stats := { state.stats with strippedStores, removedFields } }

/-- Removes a marked helper unless it is still called. The static initializer
stays in any case. -/
def removeHelper (state : RecoveryState) (key : MemberKey) : RecoveryState :=
  if key.name = initializerName then state
  else
    let owner := state.cls.name
    let calls := calls state.cls key
    if 0 < calls then state.log (.helperKept owner key calls)
    else
      let methods := state.cls.methods.filter (·.key ≠ key)
      let removedMethods := state.stats.removedMethods + (state.cls.methods.length - methods.length)
      { state.log (.helperRemoved owner key) with
        cls := { state.cls with methods }
        stats := { state.stats with removedMethods } }

/-- Removes marked tables, then marked helpers, each in key order, and finds the
static initializer again. -/
def removeMarked (state : RecoveryState) : RecoveryState :=
  let state := state.markedFields.keys.foldl removeField state
  let state := state.markedMethods.keys.foldl removeHelper state
  { state with initializer := state.cls.initializer?.getD state.initializer }

/-- Takes out the allocation of a removed table that starts at `id`. -/
def step (isTarget : MemberRef → Bool) (code : Listing Instruction) (id : NodeId) :
    Step (Listing Instruction) RecoveryError :=
  match allocation? code id isTarget with
  | some nodes => .change (code.removeAll nodes)
  | none => .skip

/-- One walk over the static initializer that takes out allocations of removed
tables. -/
def scan (state : RecoveryState) : Swept RecoveryState RecoveryError :=
  let isTarget (field : MemberRef) : Bool :=
    field.owner = state.cls.name ∧ state.removedFields.contains field.key
  let code := state.initializerCode
  let swept := sweep (step isTarget) code.ids code 0
  let removedAllocations := state.stats.removedAllocations + swept.changes
  let state := state.editInitializer fun _ => swept.state
  { state := { state with stats := { state.stats with removedAllocations } }
    changes := swept.changes
    error := none }

/-- Whether an attribute names local variables. -/
def isLocalTable : Attribute → Bool
  | .table named =>
    match named.table with
    | .localVariables _ | .localVariableTypes _ => true
    | _ => false
  | _ => false

/-- The attribute without local variable tables in its body. -/
def clearAttribute : Attribute → Attribute
  | .code name body =>
    .code name { body with attributes := body.attributes.filter (!isLocalTable ·) }
  | other => other

/-- Drops the local variable tables of every method. -/
def clearLocals (cls : Class) : Class :=
  let clear (method : Method) : Method :=
    { method with
      info := { method.info with attributes := method.info.attributes.map clearAttribute } }
  { cls with methods := cls.methods.map clear }

end LiteralRecovery.Cleanup
