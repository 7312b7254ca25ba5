import LiteralRecovery.Proofs.SecondRun
import LiteralRecovery.Proofs.WalkOrder

/-! The order of the methods of a class. Two states that differ in it and in
the log only are twins; every pass and every step of cleanup takes twins to
twins, or fails on both. For the table passes that takes an initializer whose
accesses to tables do not nest: where one table is filled from another, a store
shows only once the read in it has been replaced, and a method that is visited
before the initializer misses it. -/
namespace LiteralRecovery

namespace Class

variable {cls other : Class} {method : Method}

theorem method?_eq_some_iff (distinct : (cls.methods.map Method.key).Nodup) {key : MemberKey} :
    cls.method? key = some method ↔ method ∈ cls.methods ∧ method.key = key := by
  constructor
  · intro found
    exact ⟨List.mem_of_find?_eq_some found, by simpa using List.find?_some found⟩
  · rintro ⟨member, rfl⟩
    obtain ⟨position, held⟩ := List.getElem?_of_mem member
    exact method?_of_getElem distinct held

theorem method?_of_perm (distinct : (cls.methods.map Method.key).Nodup)
    (perm : other.methods.Perm cls.methods) : other.method? = cls.method? := by
  funext key
  refine Option.ext fun method => ?_
  rw [method?_eq_some_iff distinct, method?_eq_some_iff ((perm.map _).nodup_iff.mpr distinct),
    perm.mem_iff]

theorem perm_of_method? (distinct : (cls.methods.map Method.key).Nodup)
    (distinct' : (other.methods.map Method.key).Nodup) (same : other.method? = cls.method?) :
    other.methods.Perm cls.methods := by
  refine (List.perm_ext_iff_of_nodup (List.Nodup.of_map _ distinct')
    (List.Nodup.of_map _ distinct)).mpr fun method => ?_
  have here := @method?_eq_some_iff cls method distinct method.key
  have there := @method?_eq_some_iff other method distinct' method.key
  rw [same] at there
  simpa using there.symm.trans here

end Class

/-- Two states that differ in the order of the methods and in the log only. -/
structure Alike (one two : RecoveryState) : Prop where
  distinct : (one.cls.methods.map Method.key).Nodup
  distinct' : (two.cls.methods.map Method.key).Nodup
  same : two.keyed = one.keyed

/-- Such states, each with its initializer where it says. -/
structure Twins (home : MemberKey) (one two : RecoveryState) : Prop where
  seated : Seated home one
  seated' : Seated home two
  same : two.keyed = one.keyed

section Alike

variable {home : MemberKey} {one two : RecoveryState}

theorem Alike.methods (alike : Alike one two) : two.cls.methods.Perm one.cls.methods :=
  Class.perm_of_method? alike.distinct alike.distinct' (congrArg KeyedState.method? alike.same)

theorem Alike.instructions (alike : Alike one two) :
    two.cls.instructions.Perm one.cls.instructions :=
  alike.methods.flatMap_right _

theorem Alike.references (alike : Alike one two) (field : MemberRef) :
    Cleanup.references two.cls field = Cleanup.references one.cls field :=
  alike.instructions.countP_eq _

theorem Alike.calls (alike : Alike one two) (helper : MemberKey) :
    Cleanup.calls two.cls helper = Cleanup.calls one.cls helper := by
  have name : two.cls.name = one.cls.name := congrArg KeyedState.name alike.same
  unfold Cleanup.calls
  rw [name]
  exact alike.instructions.countP_eq _

theorem Alike.weight (alike : Alike one two) : two.cls.weight = one.cls.weight := by
  rw [Class.weight_eq_sum, Class.weight_eq_sum]
  exact (alike.methods.map _).sum_nat

theorem Twins.alike (twins : Twins home one two) : Alike one two :=
  ⟨twins.seated.distinct, twins.seated'.distinct, twins.same⟩

theorem Twins.log (twins : Twins home one two) (event event' : Event) :
    Twins home (one.log event) (two.log event') :=
  ⟨⟨twins.seated.distinct, twins.seated.initializer⟩,
    ⟨twins.seated'.distinct, twins.seated'.initializer⟩, twins.same⟩

end Alike

/-! ### Passes -/

/-- Outcomes that fail together or leave twins. -/
structure Agree (home : MemberKey) (keeps : KeyedState → Prop)
    (one two : RecoveryState × Option RecoveryError) : Prop where
  failure : two.2 = none ↔ one.2 = none
  twins : one.2 = none → Twins home one.1 two.1 ∧ keeps one.1.keyed

namespace Pass

variable {pass : Pass} {options : Options} {home : MemberKey} {keeps : KeyedState → Prop}
variable {one two : RecoveryState}

/-- A pass whose walks agree on twins. -/
def Parallel (pass : Pass) (options : Options) (home : MemberKey) (keeps : KeyedState → Prop) :
    Prop :=
  ∀ one two, Twins home one two → keeps one.keyed →
    Agree home keeps ((pass.scan options one).state, (pass.scan options one).error)
      ((pass.scan options two).state, (pass.scan options two).error)

theorem changes_eq (counted : two.stats = one.stats)
    (after : (pass.scan options two).state.stats = (pass.scan options one).state.stats) :
    (pass.scan options two).changes = (pass.scan options one).changes := by
  have first := pass.scan_counts options one
  have second := pass.scan_counts options two
  rw [counted, after] at second
  omega

theorem repeatScan_agree (parallel : pass.Parallel options home keeps) (bound iteration : Nat)
    (twins : Twins home one two) (kept : keeps one.keyed) :
    Agree home keeps (pass.repeatScan options bound iteration one)
      (pass.repeatScan options bound iteration two) := by
  induction bound generalizing iteration one two with
  | zero => exact ⟨Iff.rfl, fun _ => ⟨twins, kept⟩⟩
  | succ bound ih =>
    obtain ⟨failure, after⟩ := parallel one two twins kept
    simp only [repeatScan]
    cases fine : (pass.scan options one).error with
    | some error =>
      have failed : (pass.scan options two).error ≠ none := by simp [failure, fine]
      obtain ⟨error', fine'⟩ := Option.ne_none_iff_exists'.mp failed
      simp only [fine']
      exact ⟨by simp, by simp⟩
    | none =>
      obtain ⟨next, kept'⟩ := after fine
      have counted := congrArg KeyedState.stats twins.same
      have changes : (pass.scan options two).changes = (pass.scan options one).changes :=
        changes_eq counted (congrArg KeyedState.stats next.same)
      have fine' : (pass.scan options two).error = none := failure.mpr fine
      simp only [fine', changes]
      split
      · exact ⟨Iff.rfl, fun _ => ⟨next.log _ _, kept'⟩⟩
      · exact ih (iteration + 1) (next.log _ _) kept'

theorem run_agree (parallel : pass.Parallel options home keeps) (twins : Twins home one two)
    (kept : keeps one.keyed) :
    Agree home keeps (pass.run options one) (pass.run options two) := by
  have weight : two.cls.weight = one.cls.weight := twins.alike.weight
  simp only [run, RecoveryState.log, weight]
  exact repeatScan_agree parallel _ 1 (twins.log _ _) kept

theorem runAll_agree {passes : List Pass}
    (parallel : ∀ pass ∈ passes, pass.Parallel options home keeps) (twins : Twins home one two)
    (kept : keeps one.keyed) :
    Agree home keeps (runAll options passes one) (runAll options passes two) := by
  induction passes generalizing one two with
  | nil => exact ⟨Iff.rfl, fun _ => ⟨twins, kept⟩⟩
  | cons pass rest ih =>
    obtain ⟨failure, after⟩ := run_agree (parallel pass List.mem_cons_self) twins kept
    cases fine : (pass.run options one).2 with
    | some error =>
      have failed : (pass.run options two).2 ≠ none := by simp [failure, fine]
      obtain ⟨error', fine'⟩ := Option.ne_none_iff_exists'.mp failed
      rw [runAll, runAll, ← Prod.eta (pass.run options one), ← Prod.eta (pass.run options two),
        fine, fine']
      exact ⟨by simp, by simp⟩
    | none =>
      obtain ⟨next, kept'⟩ := after fine
      rw [runAll_cons fine, runAll_cons (failure.mpr fine)]
      exact ih (fun other member => parallel other (List.mem_cons_of_mem _ member)) next kept'

end Pass

/-! ### Walks over the initializer -/

section Initializer

variable {home : MemberKey} {state one two : RecoveryState} {width : Width} {options : Options}

theorem Fold.keyed_scan (seated : Seated home state) :
    let swept := Fold.scanCode width options.longFold (state.keyed.codeOf home)
    (Fold.scan width options state).state.keyed =
      { state.keyed.editCode home fun _ => swept.state with
        stats := { state.keyed.stats with folded := state.keyed.stats.folded + swept.changes } } := by
  have code := RecoveryState.codeOf_home seated
  have edited := RecoveryState.keyed_editInitializer seated
  simp only [Fold.scan, code, ← edited]
  rfl

theorem Cleanup.keyed_scan (seated : Seated home state) :
    let isTarget (field : MemberRef) : Bool :=
      field.owner = state.keyed.name ∧ state.keyed.removedFields.contains field.key
    let code := state.keyed.codeOf home
    let swept := sweep (Cleanup.step isTarget) code.ids code 0
    (Cleanup.scan state).state.keyed =
      { state.keyed.editCode home fun _ => swept.state with
        stats := { state.keyed.stats with
          removedAllocations := state.keyed.stats.removedAllocations + swept.changes } } := by
  have code := RecoveryState.codeOf_home seated
  have edited := RecoveryState.keyed_editInitializer seated
  simp only [Cleanup.scan, code, ← edited]
  rfl

/-- Folding takes expressions out of the initializer and leaves constants. -/
theorem Fold.tame_scan (seated : Seated home state) (tame : state.keyed.Tame home) :
    (Fold.scan width options state).state.keyed.Tame home := by
  rw [keyed_scan seated]
  have traded : StaticTable.Unnested state.keyed.name
        (Fold.scanCode width options.longFold (state.keyed.codeOf home)).state ∧
      ∀ held ∈ (Fold.scanCode width options.longFold (state.keyed.codeOf home)).state.toList,
        StaticTable.isConstant held = false → held ∈ (state.keyed.codeOf home).toList := by
    refine sweep_keeps (fun code => StaticTable.Unnested state.keyed.name code ∧
      ∀ held ∈ code.toList, StaticTable.isConstant held = false →
        held ∈ (state.keyed.codeOf home).toList) ?_ ⟨tame.unnested, fun _ member _ => member⟩
    rintro before after ⟨unnested, kept⟩ changed
    obtain ⟨segment, trades, operands⟩ := Fold.changes_trades changed
    exact ⟨trades.unnested (.inr operands) unnested,
      fun held member other => kept held (trades.mem_toList member other) other⟩
  have edited : KeyedState.Tame home (state.keyed.editCode home fun _ =>
      (Fold.scanCode width options.longFold (state.keyed.codeOf home)).state) :=
    tame.edited traded.1 traded.2
  exact edited.counted _

theorem Fold.parallel (width : Width) (options : Options) (home : MemberKey) :
    (Pass.fold width).Parallel options home (KeyedState.Tame home) := by
  intro one two twins tame
  refine ⟨Iff.rfl, fun _ => ⟨⟨twins.seated.of_frame (Pass.scan_frame _ options one),
    twins.seated'.of_frame (Pass.scan_frame _ options two), ?_⟩, tame_scan twins.seated tame⟩⟩
  change (Fold.scan width options two).state.keyed = (Fold.scan width options one).state.keyed
  rw [keyed_scan twins.seated, keyed_scan twins.seated', twins.same]

theorem Cleanup.parallel (options : Options) (home : MemberKey) :
    Pass.allocations.Parallel options home fun _ => True := by
  intro one two twins _
  refine ⟨Iff.rfl, fun _ => ⟨⟨twins.seated.of_frame (Pass.scan_frame _ options one),
    twins.seated'.of_frame (Pass.scan_frame _ options two), ?_⟩, trivial⟩⟩
  change (Cleanup.scan two).state.keyed = (Cleanup.scan one).state.keyed
  rw [keyed_scan twins.seated, keyed_scan twins.seated', twins.same]

theorem StaticTable.parallel (kind : ElementKind) (options : Options) (home : MemberKey) :
    (Pass.table kind).Parallel options home (KeyedState.Tame home) := by
  intro one two twins tame
  have keys : (two.cls.methods.map Method.key).Perm (one.cls.methods.map Method.key) :=
    twins.alike.methods.map _
  have order := @KeyedState.walk_perm home kind _ _ _ keys.symm twins.seated.distinct tame
  have first := @walk_keyed home kind one twins.seated
  have second := @walk_keyed home kind two twins.seated'
  -- by key, the two walks are one run over the same places in two orders
  rw [twins.same, ← order, first] at second
  have seats := twins.seated.of_frame (Pass.scan_frame (.table kind) options one)
  have seats' := twins.seated'.of_frame (Pass.scan_frame (.table kind) options two)
  cases fine : (scan kind one).error with
  | some error =>
    simp only [fine, Option.isNone_some, Bool.false_eq_true, if_false] at second
    split at second
    · cases second
    · rename_i failed
      have failed' : ¬ (scan kind two).error = none := by simpa using failed
      exact ⟨by simp [Pass.scan, fine, failed'], by simp [Pass.scan, fine]⟩
  | none =>
    simp only [fine, Option.isNone_none, if_true] at first second
    split at second
    · rename_i fine'
      refine ⟨by simpa [Pass.scan, fine] using fine', fun _ => ⟨⟨seats, seats', ?_⟩, ?_⟩⟩
      · exact (Option.some.inj second).symm
      · exact foldlM_keeps (fun _ _ _ start done => KeyedState.tame_advance start done) tame first
    · cases second

end Initializer

/-! ### Cleanup -/

/-- Of the methods with these keys, `home` is the only initializer. -/
structure Lone (home : MemberKey) (keys : List MemberKey) : Prop where
  named : home.name = initializerName
  member : home ∈ keys
  single : ∀ key ∈ keys, key.name = initializerName → key = home

theorem Lone.of_perm {home : MemberKey} {keys keys' : List MemberKey} (lone : Lone home keys)
    (perm : keys'.Perm keys) : Lone home keys' :=
  ⟨lone.named, perm.mem_iff.mpr lone.member,
    fun key member => lone.single key (perm.mem_iff.mp member)⟩

theorem Lone.seat {home : MemberKey} {cls : Class} (lone : Lone home (cls.methods.map Method.key)) :
    ∃ position method, cls.initializer? = some position ∧
      cls.methods[position]? = some method ∧ method.key = home := by
  obtain ⟨initializer, member, key⟩ := List.mem_map.mp lone.member
  have found : (cls.methods.findIdx? (·.name = initializerName)).isSome = true := by
    rw [List.findIdx?_isSome, List.any_eq_true]
    refine ⟨initializer, member, ?_⟩
    have name : initializer.name = home.name := congrArg MemberKey.name key
    simp [name, lone.named]
  obtain ⟨position, first⟩ := Option.isSome_iff_exists.mp found
  obtain ⟨valid, named, _⟩ := List.findIdx?_eq_some_iff_getElem.mp first
  refine ⟨position, cls.methods[position], first, List.getElem?_eq_getElem valid, ?_⟩
  have name : cls.methods[position].name = initializerName := by simpa using named
  exact lone.single _ (List.mem_map_of_mem (List.getElem_mem valid)) name

/-- Removing a table, told by key. -/
def KeyedState.dropField (home : MemberKey) (references : Nat) (state : KeyedState)
    (key : MemberKey) : KeyedState :=
  let field := key.owned state.name
  let stores := Cleanup.stores (state.codeOf home) field state.name
  let allocations := (Cleanup.allocations (state.codeOf home) field).length
  if references ≠ stores.length + allocations then state
  else
    let fields := state.fields.filter (·.key ≠ key)
    let strippedStores := state.stats.strippedStores + stores.length
    let removedFields := state.stats.removedFields + (state.fields.length - fields.length)
    { state.editCode home (·.removeAll (stores.flatMap (·.nodes))) with
      fields
      removedFields := state.removedFields.insert key
      stats := { state.stats with strippedStores, removedFields } }

namespace Cleanup

variable {home : MemberKey} {one two state : RecoveryState}

theorem keyed_removeField (seated : Seated home state) (key : MemberKey) :
    (removeField state key).keyed =
      state.keyed.dropField home (references state.cls (key.owned state.cls.name)) key := by
  have code := RecoveryState.codeOf_home seated
  have edited := RecoveryState.keyed_editInitializer seated
  have name : state.keyed.name = state.cls.name := rfl
  simp only [removeField, KeyedState.dropField, code, name, ← edited, MemberKey.owned]
  split <;> rfl

theorem keys_removeField (state : RecoveryState) (key : MemberKey) :
    (removeField state key).cls.methods.map Method.key = state.cls.methods.map Method.key ∧
      (removeField state key).initializer = state.initializer := by
  rcases removeField_cases state key with ⟨_, cls, _, same⟩ | ⟨_, cls, _, same⟩
  · exact ⟨by rw [cls], same⟩
  · have outline := Class.outline_editCode state.cls state.initializer (·.removeAll
      ((stores state.initializerCode (key.owned state.cls.name) state.cls.name).flatMap (·.nodes)))
    have keys := Method.map_key_of_declarations (Class.outline_eq_iff.mp outline).2.2
    exact ⟨by rw [cls]; exact keys, same⟩

theorem twins_removeField (twins : Twins home one two) (key : MemberKey) :
    Twins home (removeField one key) (removeField two key) := by
  have name : two.cls.name = one.cls.name := congrArg KeyedState.name twins.same
  obtain ⟨keys, place⟩ := keys_removeField one key
  obtain ⟨keys', place'⟩ := keys_removeField two key
  refine ⟨twins.seated.of_keys keys place, twins.seated'.of_keys keys' place', ?_⟩
  rw [keyed_removeField twins.seated, keyed_removeField twins.seated', twins.same, name,
    twins.alike.references]

/-- A helper is dropped from both states or from neither. -/
theorem alike_removeHelper (alike : Alike one two) (key : MemberKey) :
    Alike (removeHelper one key) (removeHelper two key) := by
  have stats : two.stats = one.stats := congrArg KeyedState.stats alike.same
  simp only [removeHelper, alike.calls]
  split
  · exact alike
  · split
    · exact ⟨alike.distinct, alike.distinct', alike.same⟩
    · have perm := alike.methods.filter fun method => decide (method.key ≠ key)
      have kept {methods : List Method} (distinct : (methods.map Method.key).Nodup) :
          ((methods.filter fun method => decide (method.key ≠ key)).map Method.key).Nodup :=
        distinct.sublist ((List.filter_sublist).map _)
      have methods := @Class.method?_of_perm
        { one.cls with methods := one.cls.methods.filter fun method => decide (method.key ≠ key) }
        { two.cls with methods := two.cls.methods.filter fun method => decide (method.key ≠ key) }
        (kept alike.distinct) perm
      refine ⟨kept alike.distinct, kept alike.distinct', ?_⟩
      have name := congrArg KeyedState.name alike.same
      have fields := congrArg KeyedState.fields alike.same
      have marked := congrArg KeyedState.markedFields alike.same
      have helpers := congrArg KeyedState.markedMethods alike.same
      have removed := congrArg KeyedState.removedFields alike.same
      have memo := congrArg KeyedState.memo alike.same
      refine KeyedState.ext name fields methods marked helpers removed memo ?_
      simp only [RecoveryState.keyed, stats, perm.length_eq, alike.methods.length_eq]

theorem lone_removeHelper (lone : Lone home (state.cls.methods.map Method.key)) (key : MemberKey) :
    Lone home ((removeHelper state key).cls.methods.map Method.key) := by
  obtain ⟨⟨_, cls⟩ | ⟨named, _, cls⟩, _⟩ := removeHelper_cases state key
  · rwa [cls]
  · rw [cls]
    refine ⟨lone.named, ?_, ?_⟩
    · obtain ⟨initializer, member, rfl⟩ := List.mem_map.mp lone.member
      refine List.mem_map_of_mem (List.mem_filter.mpr ⟨member, ?_⟩)
      have stays : initializer.key ≠ key := by
        rintro rfl
        exact named lone.named
      simpa using stays
    · intro other member
      obtain ⟨method, kept, rfl⟩ := List.mem_map.mp member
      exact lone.single _ (List.mem_map_of_mem (List.mem_filter.mp kept).1)

/-- What one removal does to both states, a row of them does. -/
theorem foldl_both {related : RecoveryState → RecoveryState → Prop}
    {remove : RecoveryState → MemberKey → RecoveryState}
    (each : ∀ one two key, related one two → related (remove one key) (remove two key))
    (keys : List MemberKey) (start : related one two) :
    related (keys.foldl remove one) (keys.foldl remove two) := by
  induction keys generalizing one two with
  | nil => exact start
  | cons key rest ih => exact ih (each one two key start)

theorem twins_removeMarked (twins : Twins home one two)
    (lone : Lone home (one.cls.methods.map Method.key)) :
    Twins home (removeMarked one) (removeMarked two) := by
  have fields : two.markedFields = one.markedFields := congrArg KeyedState.markedFields twins.same
  obtain ⟨stripped, lone⟩ := @foldl_both one two
    (fun one two => Twins home one two ∧ Lone home (one.cls.methods.map Method.key)) removeField
    (fun one two key both =>
      ⟨twins_removeField both.1 key, (keys_removeField one key).1 ▸ both.2⟩)
    one.markedFields.keys ⟨twins, lone⟩
  simp only [removeMarked, fields]
  generalize one.markedFields.keys.foldl removeField one = one' at stripped lone
  generalize one.markedFields.keys.foldl removeField two = two' at stripped
  have methods : two'.markedMethods = one'.markedMethods :=
    congrArg KeyedState.markedMethods stripped.same
  obtain ⟨alike, lone⟩ := @foldl_both one' two'
    (fun one two => Alike one two ∧ Lone home (one.cls.methods.map Method.key)) removeHelper
    (fun one two key both => ⟨alike_removeHelper both.1 key, lone_removeHelper both.2 key⟩)
    one'.markedMethods.keys ⟨stripped.alike, lone⟩
  rw [methods]
  -- dropped helpers may have moved the initializer, so each state looks for its own again
  have lone' := lone.of_perm (alike.methods.map Method.key)
  obtain ⟨position, method, found, held, key⟩ := lone.seat
  obtain ⟨position', method', found', held', key'⟩ := lone'.seat
  rw [found, found']
  exact ⟨⟨alike.distinct, method, held, key⟩, ⟨alike.distinct', method', held', key'⟩, alike.same⟩

end Cleanup

/-! ### The whole recovery -/

/-- The key of the method of the class that an instruction calls. -/
def calledKey? (className : String) : Instruction → Option MemberKey
  | .invokeStatic target _ => if target.owner = className then some target.key else none
  | _ => none

/-- One initializer among methods with distinct keys. Its accesses to tables do
not nest, and the methods of the class that it calls are others and name no
table. -/
structure Class.Orderly (cls : Class) (initializer : Method) : Prop where
  distinct : (cls.methods.map Method.key).Nodup
  declared : initializer ∈ cls.methods
  named : initializer.name = initializerName
  single : ∀ method ∈ cls.methods, method.name = initializerName → method = initializer
  unnested : StaticTable.Unnested cls.name initializer.code
  helpers : ∀ key ∈ initializer.code.toList.filterMap (calledKey? cls.name),
    key ≠ initializer.key ∧ ∀ method ∈ cls.methods, method.key = key →
      ∀ held ∈ method.code.toList, StaticTable.namesTable cls.name held = false

section Order

variable {cls : Class} {initializer : Method} {methods : List Method} {options : Options}

theorem Class.Orderly.lone (orderly : cls.Orderly initializer) :
    Lone initializer.key (cls.methods.map Method.key) := by
  refine ⟨orderly.named, List.mem_map_of_mem orderly.declared, fun key member named => ?_⟩
  obtain ⟨method, held, rfl⟩ := List.mem_map.mp member
  rw [orderly.single method held named]

theorem Class.Orderly.tame (orderly : cls.Orderly initializer) (position : Nat) :
    (RecoveryState.start cls position).keyed.Tame initializer.key := by
  have methods : (RecoveryState.start cls position).keyed.method? = cls.method? := rfl
  have held {method : Method} (member : method ∈ cls.methods) :
      cls.method? method.key = some method :=
    (Class.method?_eq_some_iff orderly.distinct).mpr ⟨member, rfl⟩
  have code : (RecoveryState.start cls position).keyed.codeOf initializer.key =
      initializer.code := by
    simp [KeyedState.codeOf, methods, held orderly.declared]
  refine ⟨?_, ?_, ?_, ?_, KeySet.ordered_empty, KeySet.ordered_empty⟩
  · simp [methods, held orderly.declared]
  · rw [code]
    exact orderly.unnested
  · intro target flag called own
    rw [code] at called
    obtain ⟨other, unnamed⟩ := orderly.helpers target.key
      (List.mem_filterMap.mpr ⟨_, called, if_pos own⟩)
    refine ⟨other, fun instruction present => ?_⟩
    cases found : cls.method? target.key with
    | none => simp [KeyedState.codeOf, methods, found, Listing.toList, Listing.items,
        Listing.empty] at present
    | some helper =>
      obtain ⟨member, key⟩ := (Class.method?_eq_some_iff orderly.distinct).mp found
      refine unnamed helper member key instruction ?_
      simpa [KeyedState.codeOf, methods, found] using present
  · intro slot value remembered
    cases remembered

/-- At the start the two orders are twins. -/
theorem Class.Orderly.twins (orderly : cls.Orderly initializer)
    (shuffled : methods.Perm cls.methods) :
    ∃ position position', cls.initializer? = some position ∧
      ({ cls with methods } : Class).initializer? = some position' ∧
      Twins initializer.key (.start cls position) (.start { cls with methods } position') := by
  have lone' : Lone initializer.key (({ cls with methods } : Class).methods.map Method.key) :=
    orderly.lone.of_perm (shuffled.map Method.key)
  obtain ⟨position, method, found, held, key⟩ := orderly.lone.seat
  obtain ⟨position', method', found', held', key'⟩ := lone'.seat
  have distinct' : (methods.map Method.key).Nodup :=
    (shuffled.map Method.key).nodup_iff.mpr orderly.distinct
  refine ⟨position, position', found, found', ⟨orderly.distinct, method, held, key⟩,
    ⟨distinct', method', held', key'⟩, ?_⟩
  have same := @Class.method?_of_perm cls { cls with methods } orderly.distinct shuffled
  exact KeyedState.ext rfl rfl same rfl rfl rfl rfl rfl

theorem recoveryPasses_parallel (options : Options) (home : MemberKey) :
    ∀ pass ∈ recoveryPasses, pass.Parallel options home (KeyedState.Tame home) := by
  intro pass member
  simp only [recoveryPasses, List.mem_cons, List.not_mem_nil, or_false] at member
  rcases member with rfl | rfl | rfl | rfl | rfl
  · exact Fold.parallel .long options home
  · exact Fold.parallel .int options home
  · exact StaticTable.parallel .int options home
  · exact StaticTable.parallel .long options home
  · exact StaticTable.parallel .reference options home

/-- Both recoveries fail, or both end in twins. -/
theorem recover_both (options : Options) (orderly : cls.Orderly initializer)
    (shuffled : methods.Perm cls.methods) :
    ((∀ stats, (recover options cls).result ≠ .ok stats) ∧
      ∀ stats, (recover options { cls with methods }).result ≠ .ok stats) ∨
    ∃ one two, Twins initializer.key one two ∧
      recover options cls =
        { cls := Cleanup.clearLocals one.cls, result := .ok one.stats, events := one.events } ∧
      recover options { cls with methods } =
        { cls := Cleanup.clearLocals two.cls, result := .ok two.stats, events := two.events } := by
  obtain ⟨position, position', found, found', twins⟩ := orderly.twins shuffled
  obtain ⟨failure, after⟩ := Pass.runAll_agree (recoveryPasses_parallel options initializer.key)
    twins (orderly.tame position)
  have lone : Lone initializer.key ((Pass.runAll options recoveryPasses
      (.start cls position)).1.cls.methods.map Method.key) := by
    rw [RecoveryState.frame_keys (Pass.runAll_frame options recoveryPasses _)]
    exact orderly.lone
  rcases ran : Pass.runAll options recoveryPasses (.start cls position) with ⟨one, error | error⟩
  all_goals rcases ran' : Pass.runAll options recoveryPasses (.start { cls with methods } position')
    with ⟨two, error' | error'⟩
  all_goals rw [ran, ran'] at failure after
  · rw [ran] at lone
    obtain ⟨resolved, _⟩ := after rfl
    have cleaned := Cleanup.twins_removeMarked resolved lone
    have last := (Pass.run_agree (Cleanup.parallel options initializer.key) cleaned trivial).twins
      (Pass.allocations.run_fine options _ (by simp))
    exact .inr ⟨_, _, last.1, recover_eq found ran, recover_eq found' ran'⟩
  · exact absurd (failure.mpr rfl) (by simp)
  · exact absurd (failure.mp rfl) (by simp)
  · refine .inl ⟨fun stats => ?_, fun stats => ?_⟩
    · simp [recover, found, recoverFrom, ran]
    · simp [recover, found', recoverFrom, ran']

/-- The order of the methods does not matter to the recovery of an orderly
class: it fails in all orders or in none, and otherwise the counters, the
remaining fields and the remaining methods are the same. -/
theorem recover_any_order (options : Options) (cls : Class) (initializer : Method)
    (methods : List Method) (orderly : cls.Orderly initializer)
    (shuffled : methods.Perm cls.methods) :
    (∀ stats, (recover options { cls with methods }).result = .ok stats ↔
      (recover options cls).result = .ok stats) ∧
    ∀ stats, (recover options cls).result = .ok stats →
      (recover options { cls with methods }).cls.fields = (recover options cls).cls.fields ∧
      (recover options { cls with methods }).cls.methods.Perm (recover options cls).cls.methods ∧
      ∀ key, (recover options { cls with methods }).cls.method? key =
        (recover options cls).cls.method? key := by
  rcases recover_both options orderly shuffled with ⟨failed, failed'⟩ | ⟨one, two, twins, ran, ran'⟩
  · exact ⟨fun stats => ⟨fun fine => absurd fine (failed' stats),
      fun fine => absurd fine (failed stats)⟩, fun stats fine => absurd fine (failed stats)⟩
  · have stats : two.stats = one.stats := congrArg KeyedState.stats twins.same
    have fields : two.cls.fields = one.cls.fields := congrArg KeyedState.fields twins.same
    have perm : (Cleanup.clearLocals two.cls).methods.Perm (Cleanup.clearLocals one.cls).methods :=
      twins.alike.methods.map _
    have distinct : ((Cleanup.clearLocals one.cls).methods.map Method.key).Nodup := by
      rw [Cleanup.methods_clearLocals, List.map_map]
      exact twins.seated.distinct
    rw [ran, ran', stats]
    refine ⟨fun _ => Iff.rfl, fun _ _ => ⟨fields, perm, fun key => ?_⟩⟩
    exact congrFun (Class.method?_of_perm distinct perm) key

/-- Fills a table of numbers and a table of masked strings. -/
def lockerInitializer : Method :=
  let numbers : MemberRef := ⟨"Locker", "numbers", "[I"⟩
  let texts : MemberRef := ⟨"Locker", "texts", "[Ljava/lang/String;"⟩
  let unmask : MemberRef := ⟨"Locker", "unmask", "(Ljava/lang/String;)Ljava/lang/String;"⟩
  ⟨initializerName, "()V", .ofList
    [.intConst 2, .newArray .int, .putStatic numbers,
     .getStatic numbers, .intConst 0, .intConst 1, .arrayStore .int,
     .getStatic numbers, .intConst 1, .intConst 7, .arrayStore .int,
     .intConst 1, .newArray (.reference "java/lang/String"), .putStatic texts,
     .getStatic texts, .intConst 0, .stringConst (.ofText "x"), .invokeStatic unmask false,
     .arrayStore .reference, .plain (.plain .returnVoid)], ⟨0, 0, 0, []⟩⟩

/-- A class whose readers, one of them with a read inside a read, stand around
the initializer. -/
def locker : Class :=
  let numbers : MemberRef := ⟨"Locker", "numbers", "[I"⟩
  let texts : MemberRef := ⟨"Locker", "texts", "[Ljava/lang/String;"⟩
  let others : Class := .ofMembers "Locker" [numbers.key, texts.key]
    [(⟨"nested", "()I"⟩,
      [.getStatic numbers, .getStatic numbers, .intConst 0, .arrayLoad .int, .arrayLoad .int,
       .plain (.plain .ireturn)]),
     (⟨"unmask", "(Ljava/lang/String;)Ljava/lang/String;"⟩,
      [.bitwise .int .xor, .intConst 3, .bitwise .int .xor, .plain (.plain .areturn)]),
     (⟨"text", "()Ljava/lang/String;"⟩,
      [.getStatic texts, .intConst 0, .arrayLoad .reference, .plain (.plain .areturn)])]
  { others with methods := others.methods.insertIdx 2 lockerInitializer }

theorem locker_orderly : locker.Orderly lockerInitializer where
  distinct := by decide
  declared := by simp [locker, Class.ofMembers, List.insertIdx]
  named := rfl
  single := by
    intro method member named
    simp only [locker, Class.ofMembers, List.map_cons, List.map_nil, List.insertIdx_succ_cons,
      List.insertIdx_zero, List.mem_cons, List.not_mem_nil, or_false] at member
    rcases member with rfl | rfl | rfl | rfl
    · exact absurd named (by decide)
    · exact absurd named (by decide)
    · rfl
    · exact absurd named (by decide)
  unnested := by decide
  helpers := by decide

theorem locker_any_order :
    locker.Orderly lockerInitializer ∧ locker.methods.reverse.Perm locker.methods ∧
    (recover ⟨.combine⟩ { locker with methods := locker.methods.reverse }).result =
      .ok ⟨0, 2, 0, 1, 0, 0, 2, 1, 2⟩ ∧
    (recover ⟨.combine⟩ { locker with methods := locker.methods.reverse }).cls.fields.map
      Field.key = [] ∧
    ((recover ⟨.combine⟩ { locker with methods := locker.methods.reverse }).cls.method?
      ⟨"nested", "()I"⟩).map (·.code.toList) = some [.intConst 7, .plain (.plain .ireturn)] := by
  have shuffled : locker.methods.reverse.Perm locker.methods := List.reverse_perm _
  obtain ⟨fine, gone, code⟩ :
      (recover ⟨.combine⟩ locker).result = .ok ⟨0, 2, 0, 1, 0, 0, 2, 1, 2⟩ ∧
      (recover ⟨.combine⟩ locker).cls.fields.map Field.key = [] ∧
      ((recover ⟨.combine⟩ locker).cls.method? ⟨"nested", "()I"⟩).map (·.code.toList) =
        some [.intConst 7, .plain (.plain .ireturn)] := by
    decide +kernel
  obtain ⟨result, rest⟩ :=
    recover_any_order ⟨.combine⟩ locker lockerInitializer _ locker_orderly shuffled
  obtain ⟨fields, _, methods⟩ := rest _ fine
  refine ⟨locker_orderly, shuffled, (result _).mpr fine, ?_, ?_⟩
  · rw [fields, gone]
  · rw [methods, code]

/-- Two tables, one of which is filled from the other, and two methods that read
it. -/
def cascade (order : List MemberKey) : Class :=
  let source : MemberRef := ⟨"Cascade", "source", "[I"⟩
  let target : MemberRef := ⟨"Cascade", "target", "[I"⟩
  let code (key : MemberKey) : List Instruction :=
    if key.name = initializerName then
      [.intConst 1, .newArray .int, .putStatic source, .intConst 1, .newArray .int,
       .putStatic target, .getStatic source, .intConst 0, .intConst 5, .arrayStore .int,
       .getStatic target, .intConst 0, .getStatic source, .intConst 0, .arrayLoad .int,
       .arrayStore .int, .plain (.plain .returnVoid)]
    else [.getStatic target, .intConst 0, .arrayLoad .int, .plain (.plain .ireturn)]
  .ofMembers "Cascade" [source.key, target.key] (order.map fun key => (key, code key))

/-- The store into the second table shows only once the read in it has been
replaced. A method in front of the initializer reads zero, and one behind it
the value of the same slot; with the initializer in front, both read the
value. -/
theorem cascade_order_matters :
    let early := cascade [⟨"read", "()I"⟩, ⟨initializerName, "()V"⟩, ⟨"again", "()I"⟩]
    let late := cascade [⟨initializerName, "()V"⟩, ⟨"read", "()I"⟩, ⟨"again", "()I"⟩]
    late.methods.Perm early.methods ∧ (early.methods.map Method.key).Nodup ∧
    (early.fields.map Field.key).Nodup ∧
    early.methods.countP (·.name = initializerName) = 1 ∧
    (recover ⟨.combine⟩ early).result = .ok ⟨0, 2, 0, 0, 1, 0, 2, 0, 2⟩ ∧
    (recover ⟨.combine⟩ late).result = .ok ⟨0, 3, 0, 0, 0, 0, 2, 0, 2⟩ ∧
    (recover ⟨.combine⟩ early).cls.methods.map (fun method => (method.name, method.code.toList)) =
      [("read", [.intConst 0, .plain (.plain .ireturn)]),
       (initializerName, [.plain (.plain .returnVoid)]),
       ("again", [.intConst 5, .plain (.plain .ireturn)])] ∧
    (recover ⟨.combine⟩ late).cls.methods.map (fun method => (method.name, method.code.toList)) =
      [(initializerName, [.plain (.plain .returnVoid)]),
       ("read", [.intConst 5, .plain (.plain .ireturn)]),
       ("again", [.intConst 5, .plain (.plain .ireturn)])] := by
  refine ⟨List.Perm.swap _ _ _, by decide, by decide, by decide, ?_⟩
  decide +kernel

end Order

end LiteralRecovery
