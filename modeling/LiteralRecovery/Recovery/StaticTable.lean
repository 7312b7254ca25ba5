import LiteralRecovery.Recovery.Cipher
import LiteralRecovery.Recovery.State

/-! Tables: static arrays that the initializer fills with constants. A read at a
constant index is replaced by the constant that was stored there, and the
store goes away with it. -/
namespace LiteralRecovery.StaticTable

/-- `getstatic table; index; load`, as found at the first of its nodes. -/
structure ReadSite where
  field : MemberRef
  index : Int32
  /-- The nodes behind the first. -/
  tail : List NodeId
deriving DecidableEq

/-- `getstatic table; index; value; store`, with a helper call before the store
if the table holds strings. -/
structure StoreSite where
  nodes : List NodeId
  index : Int32
  value : Instruction
  helper : Option MemberRef
deriving DecidableEq

/-- The read of one of the class's own tables that starts at `id`. -/
def read? (code : Listing Instruction) (id : NodeId) (className : String) (kind : ElementKind) :
    Option ReadSite :=
  match code.window 3 id with
  | some [(_, .getStatic field), (indexId, .intConst index), (loadId, .arrayLoad loadKind)] =>
    if field.owner = className ∧ loadKind = kind then
      some { field, index, tail := [indexId, loadId] }
    else none
  | _ => none

/-- The store of a plain value into `field` that starts at `id`. -/
def plainStore? (code : Listing Instruction) (id : NodeId) (field : MemberRef)
    (kind : ElementKind) (suits : Instruction → Bool) : Option StoreSite :=
  match code.window 4 id with
  | some [(headId, .getStatic head), (indexId, .intConst index), (valueId, value),
      (storeId, .arrayStore storeKind)] =>
    if head = field ∧ suits value ∧ storeKind = kind then
      some { nodes := [headId, indexId, valueId, storeId], index, value, helper := none }
    else none
  | _ => none

/-- The store of a masked string into `field`, through a helper of the class,
that starts at `id`. -/
def stringStore? (code : Listing Instruction) (id : NodeId) (field : MemberRef)
    (className : String) : Option StoreSite :=
  match code.window 5 id with
  | some [(headId, .getStatic head), (indexId, .intConst index), (valueId, .stringConst cipher),
      (callId, .invokeStatic helper _), (storeId, .arrayStore .reference)] =>
    if head = field ∧ helper.owner = className then
      some { nodes := [headId, indexId, valueId, callId, storeId], index,
             value := .stringConst cipher, helper := some helper }
    else none
  | _ => none

/-- The store into `field`, at any index, that starts at `id`. -/
def store? (code : Listing Instruction) (id : NodeId) (field : MemberRef) (kind : ElementKind)
    (className : String) : Option StoreSite :=
  match kind with
  | .int => plainStore? code id field .int (·.int?.isSome)
  | .long => plainStore? code id field .long (·.long?.isSome)
  | .reference => stringStore? code id field className

/-- The first store into `field` at `index`. -/
def storeAt? (code : Listing Instruction) (field : MemberRef) (index : Int32)
    (kind : ElementKind) (className : String) : Option StoreSite :=
  code.items.findSome? fun (id, _) =>
    (store? code id field kind className).filter (·.index = index)

/-- The value that a store leaves in its slot, with the helper it took. -/
def storedValue (cls : Class) (store : StoreSite) :
    Except RecoveryError (Instruction × Option MemberKey) :=
  match store.value, store.helper with
  | .stringConst cipher, some helper =>
    match cls.method? helper.key with
    | some method =>
      .ok (.stringConst (Cipher.decrypt cls.name helper.name method.code cipher), some helper.key)
    | none => .error (.undeclaredHelper helper)
  | value, _ => .ok (value, none)

/-- Counts a read that was replaced by a stored value. -/
def count (kind : ElementKind) (stats : Stats) : Stats :=
  match kind with
  | .int => { stats with resolvedInts := stats.resolvedInts + 1 }
  | .long => { stats with resolvedLongs := stats.resolvedLongs + 1 }
  | .reference => { stats with resolvedStrings := stats.resolvedStrings + 1 }

/-- The state after the store behind a read has been used up. -/
def consume (kind : ElementKind) (state : RecoveryState) (site : ReadSite) (store : StoreSite)
    (value : Instruction) (helper : Option MemberKey) : RecoveryState :=
  let state := state.editInitializer (·.removeAll store.nodes)
  { state with
    markedFields := state.markedFields.insert site.field.key
    markedMethods := helper.elim state.markedMethods state.markedMethods.insert
    memo := ((site.field.key, site.index), value) :: state.memo
    stats := count kind state.stats }

/-- The value of a read. The first read of a slot uses up its store and is
remembered; a slot without a store reads as zero or null. -/
def resolve (kind : ElementKind) (state : RecoveryState) (site : ReadSite) :
    Except RecoveryError (Instruction × RecoveryState) :=
  match state.memo.lookup (site.field.key, site.index) with
  | some value => .ok (value, { state with stats := count kind state.stats })
  | none =>
    match storeAt? state.initializerCode site.field site.index kind state.cls.name with
    | none =>
      let defaulted := state.stats.defaulted + 1
      .ok (.zero kind, { state with stats := { state.stats with defaulted } })
    | some store =>
      if (state.cls.field? site.field.key).isNone then .error (.undeclaredField site.field)
      else
        match storedValue state.cls store with
        | .error error => .error error
        | .ok (value, helper) => .ok (value, consume kind state site store value helper)

/-- A node of a method. -/
structure Place where
  method : Nat
  node : NodeId
deriving DecidableEq

/-- Every live node of every method, in order. -/
def places (cls : Class) : List Place :=
  cls.methods.zipIdx.flatMap fun (method, position) =>
    method.code.ids.map fun node => ⟨position, node⟩

/-- Replaces the read that starts at a place, if there is one. -/
def step (kind : ElementKind) (state : RecoveryState) (place : Place) :
    Step RecoveryState RecoveryError :=
  match read? (state.cls.codeAt place.method) place.node state.cls.name kind with
  | none => .skip
  | some site =>
    match resolve kind state site with
    | .error error => .stop error
    | .ok (value, state) =>
      let method := (state.cls.methods[place.method]?.map (·.signature)).getD ""
      let state := state.log (.readResolved state.cls.name site.field site.index method value)
      .change { state with
        cls := state.cls.editCode place.method fun code =>
          (code.removeAll site.tail).replace place.node value }

/-- One walk over all methods. -/
def scan (kind : ElementKind) (state : RecoveryState) : Swept RecoveryState RecoveryError :=
  sweep (step kind) (places state.cls) state 0

end LiteralRecovery.StaticTable
