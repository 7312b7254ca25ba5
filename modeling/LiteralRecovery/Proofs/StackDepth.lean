import LiteralRecovery.Proofs.SlotValues
import LiteralRecovery.Proofs.StackEffect
import LiteralRecovery.Proofs.Untouched

/-! Recovery never needs a deeper stack. What it takes out or replaces is worth as
much to the stack as what it leaves, provided that tables are arrays of what is read
from them and stored into them, and that helpers turn a reference into a reference.
So the depth before every instruction that is left is what it was, in every method
that is left, and the greatest depth does not grow. -/
namespace LiteralRecovery

open Instruction (effect total)

/-! ### What windows are worth to the stack -/

section Windows

variable {others : Instruction → Int} {code after : Listing Instruction}

/-- A folded constant pushes what its expression leaves. -/
theorem Fold.effect_value? {width : Width} {mode : LongFold} {op : BitwiseOp}
    {first second value : Instruction} (valued : value? width mode op first second = some value) :
    effect others value = total (effect others) [first, second, .bitwise width op] := by
  unfold value? at valued
  split at valued
  all_goals
    split at valued
    · cases valued
      simp [effect]
    · cases valued

theorem Fold.changes_levels {width : Width} {mode : LongFold}
    (changed : Changes (step width mode) code after) :
    Listing.Levels (effect others) code after := by
  obtain ⟨id, changed⟩ := changed
  obtain ⟨first, second, secondId, opId, op, value, stands, valued, rfl⟩ :=
    step_eq_change.mp changed
  apply Listing.levels_collapse stands
  exact effect_value? valued

/-- An allocation leaves nothing on the stack. -/
theorem Cleanup.changes_levels {isTarget : MemberRef → Bool}
    (single : ∀ field, isTarget field = true → Descriptor.slots field.descriptor.toList = 1)
    (changed : Changes (step isTarget) code after) :
    Listing.Levels (effect others) code after := by
  obtain ⟨id, changed⟩ := changed
  obtain ⟨size, kind, field, newId, putId, stands, target, rfl⟩ := step_eq_change.mp changed
  apply Listing.levels_remove_segment stands
  simp [effect, single field target]

end Windows

namespace StaticTable

/-- The helper of a string store takes one reference and returns one. -/
def StoreSite.Typed (store : StoreSite) : Prop :=
  ∀ helper, store.helper = some helper → Descriptor.MapsReference helper.descriptor.toList

section Stores

variable {others : Instruction → Int} {className : String} {field : MemberRef}
variable {kind : ElementKind} {store : StoreSite} {segment : List (NodeId × Instruction)}

/-- A store leaves nothing on the stack. -/
theorem StoreSegment.neutral (shape : StoreSegment className field kind store segment)
    (single : Descriptor.slots field.descriptor.toList = 1) (typed : store.Typed) :
    total (effect others) (segment.map (·.2)) = 0 := by
  cases shape with
  | int => simp [effect, single, ElementKind.slots]
  | long => simp [effect, single, ElementKind.slots]
  | string _ _ _ _ _ _ _ helper _ _ =>
    have call := Descriptor.callEffect_of_mapsReference (typed helper rfl)
    simp [effect, single, call, ElementKind.slots]

/-- The value of a store pushes an element of its table. -/
theorem StoreSegment.effect_stored {cls : Class} {value : Instruction} {helper : Option MemberKey}
    (shape : StoreSegment className field kind store segment)
    (stored : storedValue cls store = .ok (value, helper)) :
    effect others value = kind.slots := by
  cases shape with
  | int =>
    cases stored
    rfl
  | long =>
    cases stored
    rfl
  | string =>
    simp only [storedValue] at stored
    split at stored
    · cases stored
      rfl
    · cases stored

theorem effect_zero (kind : ElementKind) : effect others (.zero kind) = kind.slots := by
  cases kind <;> rfl

end Stores

end StaticTable

/-! ### Methods and classes -/

namespace Method

/-- The stack size that a method declares. -/
def maxStack? (method : Method) : Option UInt16 := method.info.body?.map (·.maxStack)

/-- The same method with the same stack size, of which the code gets no deeper. -/
structure Levels (effect : Instruction → Int) (earlier later : Method) : Prop where
  key : later.key = earlier.key
  maxStack : later.maxStack? = earlier.maxStack?
  code : Listing.Levels effect earlier.code later.code

theorem Levels.refl (effect : Instruction → Int) (method : Method) : Levels effect method method :=
  ⟨rfl, rfl, .refl _ _⟩

theorem Levels.trans {effect : Instruction → Int} {first second third : Method}
    (early : Levels effect first second) (late : Levels effect second third) :
    Levels effect first third :=
  ⟨late.key.trans early.key, late.maxStack.trans early.maxStack, early.code.trans late.code⟩

section Remain

variable {related : Method → Method → Prop} {methods : List Method}

theorem remain_refl (reflexive : ∀ method, related method method) (methods : List Method) :
    Remain related methods methods := by
  induction methods with
  | nil => exact .nil
  | cons method methods ih => exact .cons (reflexive method) ih

theorem Remain.trans {first second third : List Method}
    (transitive : ∀ {one two three}, related one two → related two three → related one three)
    (early : Remain related first second) (late : Remain related second third) :
    Remain related first third := by
  unfold Remain at early late ⊢
  induction early generalizing third with
  | nil =>
    cases late
    exact .nil
  | cons here _ ih =>
    cases late with
    | nil => exact .nil
    | cons here' rest => exact .cons (transitive here here') (ih rest)
    | cons_right rest => exact .cons_right (ih rest)
  | cons_right _ ih => exact .cons_right (ih late)

/-- One method may be changed, all others stay. -/
theorem remain_modify (reflexive : ∀ method, related method method) {position : Nat}
    {change : Method → Method}
    (changed : ∀ method, methods[position]? = some method → related method (change method)) :
    Remain related methods (methods.modify position change) := by
  induction methods generalizing position with
  | nil =>
    rw [List.modify_nil]
    exact .nil
  | cons method methods ih =>
    cases position with
    | zero => exact .cons (changed method rfl) (remain_refl reflexive methods)
    | succ position => exact .cons (reflexive method) (ih fun other held => changed other held)

theorem remain_map {change : Method → Method} (changed : ∀ method, related method (change method))
    (methods : List Method) : Remain related methods (methods.map change) := by
  induction methods with
  | nil => exact .nil
  | cons method methods ih => exact .cons (changed method) ih

end Remain

end Method

namespace Class

variable {effect : Instruction → Int} {first second third cls : Class}

/-- The methods that are left are some of those there were, in order, and none of
them gets deeper. -/
def Levels (effect : Instruction → Int) (earlier later : Class) : Prop :=
  Method.Remain (Method.Levels effect) earlier.methods later.methods

theorem Levels.refl (effect : Instruction → Int) (cls : Class) : Levels effect cls cls :=
  Method.remain_refl (Method.Levels.refl effect) _

theorem Levels.trans (early : Levels effect first second) (late : Levels effect second third) :
    Levels effect first third :=
  Method.Remain.trans Method.Levels.trans early late

theorem levels_editCode {position : Nat} {edit : Listing Instruction → Listing Instruction}
    (levels : Listing.Levels effect (cls.codeAt position) (edit (cls.codeAt position))) :
    Levels effect cls (cls.editCode position edit) := by
  refine Method.remain_modify (Method.Levels.refl effect) fun method held => ⟨rfl, rfl, ?_⟩
  simpa only [codeAt, held] using levels

theorem levels_filter (keep : Method → Bool) :
    Levels effect cls { cls with methods := cls.methods.filter keep } :=
  (Levels.refl effect cls).sublist List.filter_sublist

end Class

theorem Cleanup.maxStack?_clearMethod (method : Method) :
    (clearMethod method).maxStack? = method.maxStack? := by
  rw [Method.maxStack?, clearMethod, body?_clearAttribute, Option.map_map]
  rfl

theorem Cleanup.levels_clearLocals {effect : Instruction → Int} (cls : Class) :
    cls.Levels effect (clearLocals cls) :=
  Method.remain_map (fun method => ⟨rfl, maxStack?_clearMethod method, .refl _ _⟩) _

/-! ### Passes -/

namespace StaticTable

variable {others : Instruction → Int} {origin : Class} {entry : Replacement}

/-- The table of a read is an array of what is read, and the store that the read used
up, if it did, calls a helper of the right type. -/
structure Replacement.Typed (entry : Replacement) : Prop where
  table : entry.kind.IsArray entry.site.field.descriptor.toList
  store : ∀ store, entry.Takes store → store.Typed

/-- What holds at every point of a run of passes that bring constants back. -/
structure Balanced (others : Instruction → Int) (origin : Class) (state : RecoveryState) :
    Prop where
  levels : origin.Levels (effect others) state.cls
  /-- A remembered value is an element of its table. -/
  memo : ∀ slot value, state.memo.lookup slot = some value →
    ∃ kind : ElementKind, kind.IsArray slot.1.descriptor.toList ∧ effect others value = kind.slots
  marked : ∀ key, state.markedFields.contains key = true →
    Descriptor.slots key.descriptor.toList = 1

theorem balanced_start (others : Instruction → Int) (cls : Class) (initializer : Nat) :
    Balanced others cls (.start cls initializer) where
  levels := .refl _ _
  memo := fun _ _ known => nomatch known
  marked := fun _ marked => nomatch marked

/-- Finding a value takes nothing off the stack and puts nothing on it, and the value
is an element of the table. -/
theorem Balanced.resolve {resolved : RecoveryState} {event : Event}
    (balanced : Balanced others origin entry.before) (typed : entry.Typed)
    (found : StaticTable.resolve entry.kind entry.before entry.site = .ok (entry.value, resolved))
    (after : entry.after = { resolved with
      cls := entry.putInto resolved.cls
      events := resolved.events.push event }) :
    effect others entry.value = entry.kind.slots ∧ Balanced others origin resolved := by
  have single := Descriptor.slots_of_isArray typed.table
  rcases resolve_cases found with ⟨hit, rfl⟩ | ⟨_, _, default, rfl⟩ |
    ⟨_, store, helper, first, _, stored, rfl⟩
  · -- the value may come from a pass of another kind, but the table settles the kind
    obtain ⟨kind, array, value⟩ := balanced.memo _ _ hit
    rw [Descriptor.kind_of_isArray typed.table array]
    exact ⟨value, balanced.levels, balanced.memo, balanced.marked⟩
  · rw [default]
    exact ⟨effect_zero entry.kind, balanced.levels, balanced.memo, balanced.marked⟩
  · have takes : entry.Takes store :=
      ⟨storeAt?_eq_some.mp first, ⟨helper, stored⟩, congrArg RecoveryState.cls after⟩
    obtain ⟨id, hit, _, _⟩ := takes.first
    obtain ⟨segment, stands, shape, _⟩ := store?_eq_some.mp hit
    have value : effect others entry.value = entry.kind.slots := shape.effect_stored stored
    refine ⟨value, ?_, fun slot other known => ?_, fun key marked => ?_⟩
    · refine balanced.levels.trans (Class.levels_editCode ?_)
      rw [← shape.nodes]
      exact Listing.levels_remove_segment stands (shape.neutral single (typed.store store takes))
    · change List.lookup slot ((entry.slot, entry.value) :: entry.before.memo) = some other at known
      rw [List.lookup_cons] at known
      split at known
      · rename_i same
        cases known
        rw [eq_of_beq same]
        exact ⟨entry.kind, typed.table, value⟩
      · exact balanced.memo slot other known
    · rcases KeySet.contains_insert.mp marked with rfl | marked
      · exact single
      · exact balanced.marked key marked

/-- A value in place of a read pushes what the read left. -/
theorem Balanced.replace (balanced : Balanced others origin entry.before)
    (happens : entry.Happens) (typed : entry.Typed) : Balanced others origin entry.after := by
  obtain ⟨resolved, event, found, after⟩ := happens.resolved
  obtain ⟨value, kept⟩ := balanced.resolve typed found after
  obtain ⟨indexId, loadId, tail, stands⟩ := read_stands_resolved happens.read found
  rw [after]
  refine ⟨kept.levels.trans (Class.levels_editCode ?_), kept.memo, kept.marked⟩
  rw [tail]
  apply Listing.levels_collapse stands
  have single := Descriptor.slots_of_isArray typed.table
  rw [value]
  simp only [List.map_cons, List.map_nil, Instruction.total_cons, Instruction.total_nil,
    effect, single]
  omega

theorem Balanced.fold {options : Options} {state : RecoveryState}
    (balanced : Balanced others origin state) (width : Width) :
    Balanced others origin (Fold.scan width options state).state := by
  refine ⟨balanced.levels.trans (Class.levels_editCode ?_), balanced.memo, balanced.marked⟩
  exact sweep_keeps (Listing.Levels (effect others) state.initializerCode)
    (fun _ _ levels changed => levels.trans (Fold.changes_levels changed)) (.refl _ _)

theorem Runs.balanced {options : Options} {state final : RecoveryState}
    {entries : List Replacement} (runs : Runs options state entries final)
    (typed : ∀ entry ∈ entries, entry.Typed) (balanced : Balanced others origin state) :
    Balanced others origin final := by
  induction runs with
  | done state => exact balanced
  | log event _ ih => exact ih typed ⟨balanced.levels, balanced.memo, balanced.marked⟩
  | fold width _ ih => exact ih typed (balanced.fold width)
  | @replace entry _ _ happens _ ih =>
    exact ih (fun other member => typed other (List.mem_cons_of_mem _ member))
      (balanced.replace happens (typed entry List.mem_cons_self))

end StaticTable

/-! ### Cleanup -/

namespace Cleanup

open StaticTable (StoreSite StoreSegment)

variable {others : Instruction → Int} {origin : Class} {state : RecoveryState}

/-- Stores that stand in the code can be taken out, one after the other. -/
theorem levels_removeAll_stores {className : String} {field : MemberRef} {sites : List StoreSite}
    (single : Descriptor.slots field.descriptor.toList = 1) (typed : ∀ site ∈ sites, site.Typed)
    (distinct : sites.Nodup) {code : Listing Instruction}
    (each : ∀ site ∈ sites, ∃ kind segment, Stands code segment ∧
      StoreSegment className field kind site segment) :
    Listing.Levels (effect others) code (code.removeAll (sites.flatMap (·.nodes))) := by
  induction sites generalizing code with
  | nil => exact .refl _ _
  | cons site sites ih =>
    obtain ⟨kind, segment, stands, shape⟩ := each site List.mem_cons_self
    obtain ⟨fresh, distinct⟩ := List.nodup_cons.mp distinct
    have split : code.removeAll ((site :: sites).flatMap (·.nodes)) =
        (code.removeAll (segment.map (·.1))).removeAll (sites.flatMap (·.nodes)) := by
      simp [Listing.removeAll, shape.nodes]
    rw [split]
    refine (Listing.levels_remove_segment stands (shape.neutral single
      (typed site List.mem_cons_self))).trans (ih
        (fun other member => typed other (List.mem_cons_of_mem _ member)) distinct ?_)
    intro other member
    obtain ⟨kind', segment', stands', shape'⟩ := each other (List.mem_cons_of_mem _ member)
    refine ⟨kind', segment', ?_, shape'⟩
    -- two stores share a node only if they are one, and none is listed twice
    rcases StaticTable.stores_apart_or_same stands' shape'.constant stands shape.constant with
      apart | rfl
    · obtain ⟨before, after, found⟩ := stands'
      exact Listing.split_removeAll found apart
    · rw [(shape'.unique shape).2.2] at member
      exact absurd member fresh

/-- The stores of a table are worth nothing to the stack. -/
theorem levels_strip {code : Listing Instruction} {className : String} {field : MemberRef}
    (single : Descriptor.slots field.descriptor.toList = 1)
    (typed : ∀ site ∈ stores code field className, site.Typed) :
    Listing.Levels (effect others) code
      (code.removeAll ((stores code field className).flatMap (·.nodes))) := by
  have heads := scaffoldIds_nodup code field className
  rw [scaffoldIds, List.nodup_append] at heads
  have each : ∀ site ∈ stores code field className, ∃ kind segment, Stands code segment ∧
      StoreSegment className field kind site segment := by
    intro site counted
    obtain ⟨id, kind, hit⟩ := mem_stores.mp counted
    obtain ⟨segment, stands, shape, _⟩ := StaticTable.store?_eq_some.mp hit
    exact ⟨kind, segment, stands, shape⟩
  exact levels_removeAll_stores single typed heads.1.of_map each

/-- The stores that cleanup finds while it looks at one table after the other. -/
def foundStores : List MemberKey → RecoveryState → List StoreSite
  | [], _ => []
  | key :: keys, state =>
    stores state.initializerCode (key.owned state.cls.name) state.cls.name ++
      foundStores keys (removeField state key)

/-- What holds at every point of cleanup. -/
structure Balanced (others : Instruction → Int) (origin : Class) (state : RecoveryState) :
    Prop where
  levels : origin.Levels (effect others) state.cls
  removed : ∀ key, state.removedFields.contains key = true →
    Descriptor.slots key.descriptor.toList = 1

theorem Balanced.removeField (balanced : Balanced others origin state) {key : MemberKey}
    (single : Descriptor.slots key.descriptor.toList = 1)
    (typed : ∀ site ∈ stores state.initializerCode (key.owned state.cls.name) state.cls.name,
      site.Typed) :
    Balanced others origin (removeField state key) := by
  rcases removeField_cases state key with ⟨_, cls, removed, _⟩ | ⟨_, cls, removed, _⟩
  · exact ⟨cls ▸ balanced.levels, removed ▸ balanced.removed⟩
  · have stripped : state.cls.Levels (effect others) (state.cls.editCode state.initializer
        (·.removeAll ((stores state.initializerCode (key.owned state.cls.name)
          state.cls.name).flatMap (·.nodes)))) :=
      Class.levels_editCode (levels_strip single typed)
    constructor
    · rw [cls]
      exact balanced.levels.trans stripped
    · intro other gone
      rw [removed] at gone
      rcases KeySet.contains_insert.mp gone with rfl | gone
      · exact single
      · exact balanced.removed other gone

theorem Balanced.removeFields (balanced : Balanced others origin state) {keys : List MemberKey}
    (single : ∀ key ∈ keys, Descriptor.slots key.descriptor.toList = 1)
    (typed : ∀ site ∈ foundStores keys state, site.Typed) :
    Balanced others origin (keys.foldl Cleanup.removeField state) := by
  induction keys generalizing state with
  | nil => exact balanced
  | cons key keys ih =>
    have here := balanced.removeField (single key List.mem_cons_self)
      fun site counted => typed site (List.mem_append_left _ counted)
    exact ih here (fun other member => single other (List.mem_cons_of_mem _ member))
      fun site counted => typed site (List.mem_append_right _ counted)

theorem Balanced.removeHelper (balanced : Balanced others origin state) (key : MemberKey) :
    Balanced others origin (removeHelper state key) := by
  obtain ⟨⟨_, cls⟩ | ⟨_, _, cls⟩, removed⟩ := removeHelper_cases state key
  · exact ⟨cls ▸ balanced.levels, removed ▸ balanced.removed⟩
  · refine ⟨?_, removed ▸ balanced.removed⟩
    rw [cls]
    exact balanced.levels.trans (Class.levels_filter _)

theorem Balanced.removeMarked (balanced : Balanced others origin state)
    (single : ∀ key ∈ state.markedFields.keys, Descriptor.slots key.descriptor.toList = 1)
    (typed : ∀ site ∈ foundStores state.markedFields.keys state, site.Typed) :
    Balanced others origin (removeMarked state) := by
  have fields := balanced.removeFields single typed
  have helpers := List.foldlRecOn (motive := Balanced others origin)
    (state.markedFields.keys.foldl Cleanup.removeField state).markedMethods.keys
    Cleanup.removeHelper fields fun _ kept key _ => kept.removeHelper key
  exact ⟨helpers.levels, helpers.removed⟩

theorem Balanced.scan (balanced : Balanced others origin state) :
    Balanced others origin (scan state).state := by
  refine ⟨balanced.levels.trans (Class.levels_editCode ?_), balanced.removed⟩
  refine sweep_keeps (Listing.Levels (effect others) state.initializerCode)
    (fun _ _ levels changed => levels.trans (changes_levels (fun field target => ?_) changed))
    (.refl _ _)
  exact balanced.removed field.key (of_decide_eq_true target).2

end Cleanup

/-- Every window that recovery finds is well typed. -/
structure WellTyped (options : Options) (cls : Class) : Prop where
  /-- What the replaced reads found. -/
  reads : ∀ entry ∈ history options cls, entry.Typed
  /-- What cleanup found of the tables that values were taken from. -/
  stores : ∀ position, cls.initializer? = some position →
    let resolved := (Pass.runAll options recoveryPasses (.start cls position)).1
    ∀ site ∈ Cleanup.foundStores resolved.markedFields.keys resolved, site.Typed

/-- Where every window is well typed, no method gets deeper: whatever the effects of
the instructions that no pass looks into, the depth before each instruction that is
left is what it was, and the greatest depth is no greater. -/
theorem recover_never_deepens (options : Options) (cls : Class) (stats : Stats)
    (others : Instruction → Int) (fine : (recover options cls).result = .ok stats)
    (typed : WellTyped options cls) :
    Method.Remain (Method.Levels (effect others)) cls.methods
      (recover options cls).cls.methods := by
  change cls.Levels (effect others) (recover options cls).cls
  cases found : cls.initializer? with
  | none =>
    simp only [recover, found]
    exact .refl _ _
  | some position =>
    obtain ⟨resolved, cleaned, ran, swept, final, _, _⟩ := recover_stages found fine
    have passes := (runs_history options found).balanced typed.reads
      (StaticTable.balanced_start others cls position)
    have looked := typed.stores position found
    have frame := Pass.runAll_frame options recoveryPasses (.start cls position)
    rw [ran] at passes looked frame
    have start : Cleanup.Balanced others cls resolved := by
      refine ⟨passes.levels, fun key gone => ?_⟩
      rw [RecoveryState.frame_removedFields frame] at gone
      cases gone
    have cleared := start.removeMarked
      (fun key member => passes.marked key (List.contains_iff_mem.mpr member)) looked
    have last := Pass.allocations.run_keeps options (Cleanup.Balanced others cls)
      (fun _ _ kept => ⟨kept.levels, kept.removed⟩) (fun _ kept => kept.scan) cleared
    rw [swept] at last
    rw [final]
    exact last.levels.trans (Cleanup.levels_clearLocals _)

/-- A table of longs, filled through an expression, and a table of strings, of which
one entry is never read. -/
def coffer : Class :=
  let sums : MemberRef := ⟨"Coffer", "sums", "[J"⟩
  let words : MemberRef := ⟨"Coffer", "words", "[Ljava/lang/String;"⟩
  let unmask : MemberRef := ⟨"Coffer", "unmask", "(Ljava/lang/String;)Ljava/lang/String;"⟩
  .ofMembers "Coffer" [sums.key, words.key]
    [(⟨initializerName, "()V"⟩,
      [.intConst 1, .newArray .long, .putStatic sums,
       .getStatic sums, .intConst 0, .longConst 9, .longConst 5, .bitwise .long .xor,
       .arrayStore .long,
       .intConst 2, .newArray (.reference "java/lang/String"), .putStatic words,
       .getStatic words, .intConst 0, .stringConst (.ofText "ab"), .invokeStatic unmask false,
       .arrayStore .reference,
       .getStatic words, .intConst 1, .stringConst (.ofText "cd"), .invokeStatic unmask false,
       .arrayStore .reference,
       .plain (.plain .returnVoid)]),
     (unmask.key, [.bitwise .int .xor, .intConst 7, .bitwise .int .xor, .plain (.plain .areturn)]),
     (⟨"main", "()V"⟩,
      [.getStatic sums, .intConst 0, .arrayLoad .long, .plain (.plain .pop2),
       .getStatic words, .intConst 0, .arrayLoad .reference, .plain (.plain .pop),
       .plain (.plain .returnVoid)])]

/-- The effects of what is left over in `coffer`. -/
def popEffect : Instruction → Int
  | .plain (.plain .pop2) => -2
  | .plain (.plain .pop) => -1
  | _ => 0

theorem coffer_store_typed {store : StaticTable.StoreSite}
    (known : store.helper = none ∨
      store.helper.map (·.descriptor) = some "(Ljava/lang/String;)Ljava/lang/String;") :
    store.Typed := by
  intro helper called
  rw [called] at known
  rcases known with none | same
  · cases none
  · have descriptor : helper.descriptor = _ := Option.some.inj same
    rw [descriptor]
    have text : Descriptor.IsReference "Ljava/lang/String;".toList :=
      .object "java/lang/String".toList (by decide)
    exact ⟨_, _, text, text, by decide⟩

theorem coffer_wellTyped : WellTyped ⟨.combine⟩ coffer where
  reads := by
    intro entry member
    have seen : ∀ entry ∈ history ⟨.combine⟩ coffer,
        (entry.kind = .long ∧ entry.site.field.descriptor = "[J" ∨
          entry.kind = .reference ∧ entry.site.field.descriptor = "[Ljava/lang/String;") ∧
        ∀ store ∈ entry.firstStore?, store.helper = none ∨
          store.helper.map (·.descriptor) = some "(Ljava/lang/String;)Ljava/lang/String;" := by
      decide +kernel
    obtain ⟨table, helper⟩ := seen entry member
    refine ⟨?_, fun store takes => coffer_store_typed ?_⟩
    · rcases table with ⟨kind, descriptor⟩ | ⟨kind, descriptor⟩
      · rw [kind, descriptor]
        exact .long
      · rw [kind, descriptor]
        exact .reference (.object "java/lang/String".toList (by decide))
    · exact helper store (StaticTable.storeAt?_eq_some.mpr takes.first)
  stores := by
    intro position found resolved site counted
    cases found
    have left : ∀ site ∈ Cleanup.foundStores resolved.markedFields.keys resolved,
        site.helper = none ∨
          site.helper.map (·.descriptor) = some "(Ljava/lang/String;)Ljava/lang/String;" := by
      decide +kernel
    exact coffer_store_typed (left site counted)

theorem coffer_never_deepens :
    (recover ⟨.combine⟩ coffer).result = .ok ⟨1, 0, 1, 1, 0, 1, 2, 1, 2⟩ ∧
    WellTyped ⟨.combine⟩ coffer ∧
    Method.Remain (Method.Levels (effect popEffect)) coffer.methods
      (recover ⟨.combine⟩ coffer).cls.methods := by
  have fine : (recover ⟨.combine⟩ coffer).result = .ok ⟨1, 0, 1, 1, 0, 1, 2, 1, 2⟩ := rfl
  exact ⟨fine, coffer_wellTyped, recover_never_deepens _ _ _ popEffect fine coffer_wellTyped⟩

end LiteralRecovery
