import LiteralRecovery.Proofs.Dangling
import LiteralRecovery.Proofs.Rewriting
import Mathlib.Data.List.Sort

/-! What recovery leaves alone. A pass touches a node only for what the node
holds: the parts of a read of an own table in any method, and in the static
initializer also the parts of the expressions, stores and allocations that fill
the tables. A touched node is vacant or holds a constant afterwards, and every
other node stays as it is. -/
namespace LiteralRecovery

open StaticTable (isConstant)

namespace Instruction

/-- Whether an instruction is carried along: code that no pass looks into, or a
null. -/
def isCarried : Instruction → Bool
  | .plain _ | .jump .. | .nullConst => true
  | _ => false

/-- Whether an instruction can be part of a read of an own table. -/
def readsOwn (className : String) : Instruction → Bool
  | .getStatic field => field.owner = className
  | .intConst _ | .arrayLoad _ => true
  | _ => false

/-- Whether an instruction of the initializer can be part of what fills or reads
an own table, or folds to what does. Fields are written only by the allocation
of a table, and only one that is no longer declared loses it. -/
def isScaffold (className : String) (declared : List MemberKey) : Instruction → Bool
  | .getStatic field => field.owner = className
  | .putStatic field => field.owner = className ∧ field.key ∉ declared
  | .invokeStatic target _ => target.owner = className
  | .plain _ | .jump .. | .nullConst => false
  | _ => true

variable {className : String} {declared fewer : List MemberKey} {instruction : Instruction}

theorem isScaffold_of_readsOwn (reads : instruction.readsOwn className = true) :
    instruction.isScaffold className declared = true := by
  cases instruction <;> simp_all [readsOwn, isScaffold]

theorem isScaffold_of_fewer (subset : fewer ⊆ declared)
    (scaffold : instruction.isScaffold className declared = true) :
    instruction.isScaffold className fewer = true := by
  cases instruction with
  | putStatic field =>
    obtain ⟨own, gone⟩ := of_decide_eq_true scaffold
    exact decide_eq_true ⟨own, fun still => gone (subset still)⟩
  | _ => exact scaffold

theorem readsOwn_of_isCarried (carried : instruction.isCarried = true) :
    instruction.readsOwn className = false := by
  cases instruction <;> simp_all [isCarried, readsOwn]

theorem isScaffold_of_isCarried (carried : instruction.isCarried = true) :
    instruction.isScaffold className declared = false := by
  cases instruction <;> simp_all [isCarried, isScaffold]

end Instruction

namespace Listing

variable {may : Instruction → Bool} {first second third code : Listing Instruction}

/-- The later listing differs from the earlier one only at nodes whose contents
may be touched, and there it has nothing or a constant. -/
def Touches (may : Instruction → Bool) (earlier later : Listing Instruction) : Prop :=
  ∀ id, later.get? id = earlier.get? id ∨
    ∃ held, earlier.get? id = some held ∧ may held = true ∧
      ∀ now, later.get? id = some now → isConstant now = true

theorem Touches.refl (may : Instruction → Bool) (code : Listing Instruction) :
    Touches may code code :=
  fun _ => .inl rfl

theorem Touches.trans (early : Touches may first second) (late : Touches may second third) :
    Touches may first third := by
  intro id
  rcases early id with same | ⟨held, found, allowed, constant⟩
  · have later := late id
    rwa [same] at later
  · refine .inr ⟨held, found, allowed, fun now present => ?_⟩
    rcases late id with same | ⟨_, _, _, constant'⟩
    · exact constant now (same ▸ present)
    · exact constant' now present

theorem Touches.mono {more : Instruction → Bool} (touches : Touches may first second)
    (wider : ∀ instruction, may instruction = true → more instruction = true) :
    Touches more first second :=
  fun id => (touches id).imp_right fun ⟨held, found, allowed, constant⟩ =>
    ⟨held, found, wider held allowed, constant⟩

/-- Taking out nodes touches nothing else. -/
theorem touches_removeAll {nodes : List NodeId}
    (allowed : ∀ id ∈ nodes, ∃ held, code.get? id = some held ∧ may held = true) :
    Touches may code (code.removeAll nodes) := by
  intro id
  rw [get?_removeAll]
  by_cases taken : id ∈ nodes
  · obtain ⟨held, found, touchable⟩ := allowed id taken
    refine .inr ⟨held, found, touchable, fun now present => ?_⟩
    rw [if_pos taken] at present
    cases present
  · exact .inl (if_neg taken)

theorem touches_remove_segment {segment : List (NodeId × Instruction)}
    (stands : Stands code segment) (allowed : ∀ entry ∈ segment, may entry.2 = true) :
    Touches may code (code.removeAll (segment.map (·.1))) := by
  apply touches_removeAll
  intro id taken
  obtain ⟨entry, member, rfl⟩ := List.mem_map.mp taken
  exact ⟨entry.2, stands_live stands entry member, allowed entry member⟩

/-- Putting a constant in place of a segment touches nothing but the segment. -/
theorem touches_collapse {id : NodeId} {content value : Instruction}
    {rest : List (NodeId × Instruction)} (stands : Stands code ((id, content) :: rest))
    (allowed : ∀ entry ∈ (id, content) :: rest, may entry.2 = true)
    (constant : isConstant value = true) :
    Touches may code ((code.removeAll (rest.map (·.1))).replace id value) := by
  have held := stands_live stands (id, content) List.mem_cons_self
  have live : (code.removeAll (rest.map (·.1))).isLive id = true :=
    (isLive_removeAll _).mpr ⟨head_not_mem_of_stands stands, isLive_iff.mpr ⟨content, held⟩⟩
  have removed : Touches may code (code.removeAll (rest.map (·.1))) := by
    apply touches_removeAll
    intro other taken
    obtain ⟨entry, member, rfl⟩ := List.mem_map.mp taken
    exact ⟨entry.2, stands_live stands entry (List.mem_cons_of_mem _ member),
      allowed entry (List.mem_cons_of_mem _ member)⟩
  intro other
  rw [get?_replace live]
  by_cases same : other = id
  · subst same
    refine .inr ⟨content, held, allowed _ List.mem_cons_self, fun now present => ?_⟩
    rw [if_pos rfl] at present
    cases present
    exact constant
  · rw [if_neg same]
    exact removed other

theorem Touches.live (touches : Touches may first second) {id : NodeId}
    (alive : second.isLive id = true) : first.isLive id = true := by
  rcases touches id with same | ⟨held, found, _⟩
  · rwa [isLive, same] at alive
  · exact isLive_iff.mpr ⟨held, found⟩

/-- Live nodes keep their order. -/
theorem Touches.ids_sublist (touches : Touches may first second) :
    second.ids.Sublist first.ids := by
  have inside : second.ids ⊆ first.ids := fun id member =>
    mem_ids.mpr (touches.live (mem_ids.mp member))
  exact List.sublist_of_subperm_of_pairwise (List.subperm_of_subset second.ids_nodup inside)
    second.ids_ascending first.ids_ascending

end Listing

/-! ### Passes -/

theorem Class.touches_editCode {may : Nat → Instruction → Bool} {cls : Class} {position : Nat}
    {edit : Listing Instruction → Listing Instruction}
    (touches : Listing.Touches (may position) (cls.codeAt position) (edit (cls.codeAt position)))
    (other : Nat) :
    Listing.Touches (may other) (cls.codeAt other) ((cls.editCode position edit).codeAt other) := by
  by_cases same : position = other
  · subst same
    by_cases valid : position < cls.methods.length
    · rwa [codeAt_editCode_self valid]
    · rw [editCode_of_not_lt valid]
      exact .refl _ _
  · rw [codeAt_editCode_ne same]
    exact .refl _ _

/-- What may be touched in the method at a position. -/
def RecoveryState.may (state : RecoveryState) (declared : List MemberKey) (position : Nat) :
    Instruction → Bool :=
  if position = state.initializer then Instruction.isScaffold state.cls.name declared
  else Instruction.readsOwn state.cls.name

section May

variable {state later : RecoveryState} {declared : List MemberKey}

theorem RecoveryState.may_of_frame (same : later.frame = state.frame) (position : Nat) :
    later.may declared position = state.may declared position := by
  rw [may, may, frame_name same, frame_initializer same]

theorem RecoveryState.may_initializer (state : RecoveryState) (declared : List MemberKey) :
    state.may declared state.initializer = Instruction.isScaffold state.cls.name declared :=
  if_pos rfl

theorem RecoveryState.may_of_readsOwn {position : Nat} {instruction : Instruction}
    (reads : instruction.readsOwn state.cls.name = true) :
    state.may declared position instruction = true := by
  rw [may]
  split
  · exact Instruction.isScaffold_of_readsOwn reads
  · exact reads

end May

namespace StaticTable

variable {kind : ElementKind} {state after : RecoveryState} {site : ReadSite} {value : Instruction}

/-- A store into an own table is scaffold. -/
theorem StoreSegment.isScaffold {className : String} {field : MemberRef} {store : StoreSite}
    {segment : List (NodeId × Instruction)} {declared : List MemberKey}
    (shape : StoreSegment className field kind store segment) (own : field.owner = className) :
    ∀ entry ∈ segment, entry.2.isScaffold className declared = true := by
  cases shape <;> simp_all [Instruction.isScaffold]

theorem resolve_touches (found : resolve kind state site = .ok (value, after))
    (own : site.field.owner = state.cls.name) (declared : List MemberKey) (position : Nat) :
    Listing.Touches (state.may declared position) (state.cls.codeAt position)
      (after.cls.codeAt position) := by
  rcases resolve_cls found with same | ⟨store, segment, stands, shape, edited⟩
  · rw [same]
    exact .refl _ _
  · rw [edited]
    apply Class.touches_editCode
    rw [state.may_initializer]
    exact Listing.touches_remove_segment stands (shape.isScaffold own)

/-- A replaced read touches its own nodes, and a store of the initializer. -/
theorem changes_touches (remembers : RemembersConstants state)
    (changed : Changes (step kind) state after) (declared : List MemberKey) (position : Nat) :
    Listing.Touches (state.may declared position) (state.cls.codeAt position)
      (after.cls.codeAt position) := by
  obtain ⟨place, changed⟩ := changed
  obtain ⟨site, value, resolved, event, read, found, _, rfl⟩ := step_cases changed
  obtain ⟨_, _, _, own, _⟩ := read?_eq_some.mp read
  obtain ⟨indexId, loadId, tail, stands⟩ := read_stands_resolved read found
  have constant := (resolve_constant remembers found).1
  refine (resolve_touches found own declared position).trans (Class.touches_editCode ?_ position)
  rw [tail]
  apply Listing.touches_collapse stands ?_ constant
  have parts : ∀ entry ∈ [(place.node, Instruction.getStatic site.field),
      (indexId, .intConst site.index), (loadId, .arrayLoad kind)],
      entry.2.readsOwn state.cls.name = true := by
    simp [Instruction.readsOwn, own]
  exact fun entry member => RecoveryState.may_of_readsOwn (parts entry member)

end StaticTable

/-- What is folded, and to what, are numbers. -/
theorem Fold.scaffold_of_value? {width : Width} {mode : LongFold} {op : BitwiseOp}
    {first second value : Instruction} (valued : value? width mode op first second = some value)
    (className : String) (declared : List MemberKey) :
    first.isScaffold className declared = true ∧ second.isScaffold className declared = true ∧
      isConstant value = true := by
  unfold value? at valued
  split at valued
  all_goals
    split at valued
    · cases valued
      exact ⟨rfl, rfl, rfl⟩
    · cases valued

/-- A fold touches two constants and the operation on them. -/
theorem Fold.changes_touches {width : Width} {mode : LongFold} {code after : Listing Instruction}
    (changed : Changes (step width mode) code after) (className : String)
    (declared : List MemberKey) :
    Listing.Touches (Instruction.isScaffold className declared) code after := by
  obtain ⟨id, changed⟩ := changed
  obtain ⟨first, second, secondId, opId, op, value, stands, valued, rfl⟩ :=
    step_eq_change.mp changed
  obtain ⟨left, right, constant⟩ := scaffold_of_value? valued className declared
  have operation : (Instruction.bitwise width op).isScaffold className declared = true := rfl
  apply Listing.touches_collapse stands ?_ constant
  simp [left, right, operation]

/-- A removed allocation touches a constant, the allocation and the write of a
field that is no longer declared. -/
theorem Cleanup.changes_touches {isTarget : MemberRef → Bool} {code after : Listing Instruction}
    {className : String} {declared : List MemberKey}
    (gone : ∀ field, isTarget field = true → field.owner = className ∧ field.key ∉ declared)
    (changed : Changes (step isTarget) code after) :
    Listing.Touches (Instruction.isScaffold className declared) code after := by
  obtain ⟨id, changed⟩ := changed
  obtain ⟨size, kind, field, newId, putId, stands, target, rfl⟩ := step_eq_change.mp changed
  apply Listing.touches_remove_segment stands
  simp [Instruction.isScaffold, gone field target]

namespace Pass

variable {options : Options} {state later : RecoveryState} {declared : List MemberKey}

/-- What holds at every point of a run of passes that bring constants back: the
frame and the nodes that may not be touched are those of the start. -/
structure Spares (start : RecoveryState) (declared : List MemberKey) (state : RecoveryState) :
    Prop where
  frame : state.frame = start.frame
  remembers : StaticTable.RemembersConstants state
  touches : ∀ position, Listing.Touches (start.may declared position)
    (start.cls.codeAt position) (state.cls.codeAt position)

theorem Spares.scan {start : RecoveryState} (spares : Spares start declared state) (pass : Pass)
    (recovers : pass ≠ .allocations) : Spares start declared (pass.scan options state).state := by
  cases pass with
  | fold width =>
    refine ⟨(scan_frame _ options state).trans spares.frame, spares.remembers, fun position => ?_⟩
    apply (spares.touches position).trans
    rw [← RecoveryState.may_of_frame spares.frame]
    refine Class.touches_editCode ?_ position
    rw [state.may_initializer]
    exact sweep_keeps (Listing.Touches _ state.initializerCode)
      (fun _ _ touches changed => touches.trans (Fold.changes_touches changed _ _)) (.refl _ _)
  | table kind =>
    refine sweep_keeps (Spares start declared) (fun before after spares changed => ?_) spares
    refine ⟨(StaticTable.changes_frame changed).trans spares.frame,
      (StaticTable.changes_edits spares.remembers changed).2, fun position => ?_⟩
    apply (spares.touches position).trans
    rw [← RecoveryState.may_of_frame spares.frame]
    exact StaticTable.changes_touches spares.remembers changed declared position
  | allocations => exact absurd rfl recovers

theorem spares_recoveryPasses (options : Options) (cls : Class) (initializer : Nat)
    (declared : List MemberKey) :
    Spares (.start cls initializer) declared
      (runAll options recoveryPasses (.start cls initializer)).1 := by
  refine runAll_keeps options recoveryPasses (Spares (.start cls initializer) declared) ?_
    ⟨rfl, fun _ member => absurd member List.not_mem_nil, fun _ => .refl _ _⟩
  intro pass member state spares
  have recovers : pass ≠ .allocations := by
    rintro rfl
    simp [recoveryPasses] at member
  exact pass.run_keeps options _ (fun _ _ spares => ⟨spares.frame, spares.remembers, spares.touches⟩)
    (fun _ spares => spares.scan pass recovers) spares

end Pass

/-! ### Methods -/

namespace Method

/-- The same method, in which nothing was touched but what may be. -/
structure Spared (may : Instruction → Bool) (earlier later : Method) : Prop where
  declaration : later.declaration = earlier.declaration
  code : Listing.Touches may earlier.code later.code

theorem Spared.trans {may : Instruction → Bool} {first second third : Method}
    (early : first.Spared may second) (late : second.Spared may third) : first.Spared may third :=
  ⟨late.declaration.trans early.declaration, early.code.trans late.code⟩

theorem Spared.mono {may more : Instruction → Bool} {earlier later : Method}
    (spared : earlier.Spared may later)
    (wider : ∀ instruction, may instruction = true → more instruction = true) :
    earlier.Spared more later :=
  ⟨spared.declaration, spared.code.mono wider⟩

/-- The later methods are some of the earlier ones, in the same order, each
related to what it was. -/
def Remain (related : Method → Method → Prop) (earlier later : List Method) : Prop :=
  List.SublistForall₂ (fun after before => related before after) later earlier

theorem Remain.sublist {related : Method → Method → Prop} {earlier later fewer : List Method}
    (remain : Remain related earlier later) (sublist : fewer.Sublist later) :
    Remain related earlier fewer := by
  unfold Remain at remain ⊢
  induction remain generalizing fewer with
  | nil =>
    cases sublist
    exact .nil
  | cons here _ ih =>
    cases sublist with
    | cons _ rest => exact .cons_right (ih rest)
    | cons_cons _ rest => exact .cons here (ih rest)
  | cons_right _ ih => exact .cons_right (ih sublist)

/-- While only listings change, all methods remain. -/
theorem remain_of_declarations {may : Instruction → Bool} {earlier later : List Method}
    (same : later.map declaration = earlier.map declaration)
    (touches : ∀ (position : Nat) (method method' : Method), earlier[position]? = some method →
      later[position]? = some method' → Listing.Touches may method.code method'.code) :
    Remain (Spared may) earlier later := by
  induction earlier generalizing later with
  | nil =>
    cases List.map_eq_nil_iff.mp same
    exact .nil
  | cons method earlier ih =>
    obtain ⟨method', later, rfl, here, rest⟩ := List.map_eq_cons_iff.mp same
    refine .cons ⟨here, touches 0 _ _ rfl rfl⟩ (ih rest ?_)
    intro position other other' held held'
    exact touches (position + 1) other other' (by simpa using held) (by simpa using held')

/-- What a method is known by, and its declaration but for local variable
tables, stay. Nodes keep their order, those that are left hold what they held or
a constant, and all that is carried along or may not be touched stays where it
is. -/
structure Preserved (may : Instruction → Bool) (earlier later : Method) : Prop where
  name : later.name = earlier.name
  descriptor : later.descriptor = earlier.descriptor
  info : later.info =
    { earlier.info with attributes := earlier.info.attributes.map Cleanup.clearAttribute }
  order : later.code.ids.Sublist earlier.code.ids
  contents : ∀ id now, later.code.get? id = some now →
    earlier.code.get? id = some now ∨ isConstant now = true
  carried : ∀ id held, earlier.code.get? id = some held → held.isCarried = true →
    later.code.get? id = some held
  untouched : ∀ id held, earlier.code.get? id = some held → may held = false →
    later.code.get? id = some held

theorem Spared.preserved {may : Instruction → Bool} {earlier later : Method}
    (spared : earlier.Spared may later)
    (carried : ∀ instruction, instruction.isCarried = true → may instruction = false) :
    earlier.Preserved may (Cleanup.clearMethod later) := by
  have untouched : ∀ id held, earlier.code.get? id = some held → may held = false →
      later.code.get? id = some held := by
    intro id held found forbidden
    rcases spared.code id with same | ⟨other, found', allowed, _⟩
    · exact same.trans found
    · cases found.symm.trans found'
      rw [forbidden] at allowed
      cases allowed
  have declared := spared.declaration
  simp only [Method.declaration, Prod.mk.injEq] at declared
  obtain ⟨name, descriptor, info⟩ := declared
  refine ⟨name, descriptor, by simp [Cleanup.clearMethod, info], spared.code.ids_sublist,
    fun id now found => ?_, fun id held found unread => untouched id held found (carried held unread),
    untouched⟩
  rcases spared.code id with same | ⟨_, _, _, constant⟩
  · exact .inl (same ▸ found)
  · exact .inr (constant now found)

theorem Remain.preserved {may : Instruction → Bool} {earlier later : List Method}
    (remain : Remain (Spared may) earlier later)
    (carried : ∀ instruction, instruction.isCarried = true → may instruction = false) :
    Remain (Preserved may) earlier (later.map Cleanup.clearMethod) := by
  apply List.sublistForall₂_map_left_iff.mpr
  unfold Remain at remain
  induction remain with
  | nil => exact .nil
  | cons here _ ih => exact .cons (here.preserved carried) ih
  | cons_right _ ih => exact .cons_right ih

end Method

/-- While only listings change, and the initializer by other rules than the other
methods, all methods remain around the initializer. -/
theorem InitializerAt.remain {cls later : Class} {front back : List Method} {initial : Method}
    {inside outside : Instruction → Bool} (located : InitializerAt cls front initial back)
    (same : later.methods.map Method.declaration = cls.methods.map Method.declaration)
    (touches : ∀ position, Listing.Touches (if position = front.length then inside else outside)
      (cls.codeAt position) (later.codeAt position)) :
    ∃ front' method back', InitializerAt later front' method back' ∧
      front'.length = front.length ∧ Method.Remain (Method.Spared outside) front front' ∧
      initial.Spared inside method ∧ Method.Remain (Method.Spared outside) back back' := by
  obtain ⟨front', method, back', located', length, declaration⟩ := located.edited same
  have touched (position : Nat) (earlier later' : Method)
      (held : (front ++ initial :: back)[position]? = some earlier)
      (held' : (front' ++ method :: back')[position]? = some later') :
      Listing.Touches (if position = front.length then inside else outside) earlier.code
        later'.code := by
    rw [← located.split] at held
    rw [← located'.split] at held'
    simpa only [Class.codeAt, held, held'] using touches position
  rw [located.split, located'.split, List.map_append, List.map_append, List.map_cons,
    List.map_cons] at same
  obtain ⟨fronts, rest⟩ := List.append_inj same (by simp [length])
  obtain ⟨_, backs⟩ := List.cons.inj rest
  refine ⟨front', method, back', located', length, ?_, ⟨declaration, ?_⟩, ?_⟩
  · refine Method.remain_of_declarations fronts fun position earlier later held held' => ?_
    have bound := (List.getElem?_eq_some_iff.mp held).1
    have bound' := (List.getElem?_eq_some_iff.mp held').1
    have apart := touched position earlier later (by rwa [List.getElem?_append_left bound])
      (by rwa [List.getElem?_append_left bound'])
    rwa [if_neg (Nat.ne_of_lt bound)] at apart
  · have center := touched front.length initial method (by simp) (by simp [← length])
    rwa [if_pos rfl] at center
  · refine Method.remain_of_declarations backs fun position earlier later held held' => ?_
    have shifted (list rest : List Method) (head : Method) :
        (list ++ head :: rest)[list.length + (position + 1)]? = rest[position]? := by
      rw [List.getElem?_append_right (Nat.le_add_right _ _), Nat.add_sub_cancel_left,
        List.getElem?_cons_succ]
    have apart := touched (front.length + (position + 1)) earlier later
      ((shifted _ _ _).trans held) (by rw [← length]; exact (shifted _ _ _).trans held')
    rwa [if_neg (by omega)] at apart

/-! ### Cleanup -/

namespace Cleanup

variable {origin : Class} {front back : List Method} {initial : Method}
variable {state : RecoveryState} {front' back' : List Method} {method : Method}

/-- What holds at every point of cleanup, given the class it started from with
its initializer in place. -/
structure Intact (origin : Class) (front : List Method) (initial : Method) (back : List Method)
    (cls : Class) (removed : KeySet) (front' : List Method) (method : Method)
    (back' : List Method) : Prop where
  name : cls.name = origin.name
  located : InitializerAt cls front' method back'
  /-- A table on record as removed is not declared. -/
  gone : ∀ key, removed.contains key = true → key ∉ cls.fields.map Field.key
  before : Method.Remain (Method.Spared (Instruction.readsOwn origin.name)) front front'
  here : initial.Spared (Instruction.isScaffold origin.name (cls.fields.map Field.key)) method
  behind : Method.Remain (Method.Spared (Instruction.readsOwn origin.name)) back back'

/-- The state in which cleanup starts is intact. -/
theorem intact_resolved {options : Options} {resolved : RecoveryState}
    (located : InitializerAt origin front initial back)
    (ran : Pass.runAll options recoveryPasses (RecoveryState.start origin front.length) =
      (resolved, none)) :
    ∃ front' method back', Intact origin front initial back resolved.cls
      resolved.removedFields front' method back' ∧
      resolved.initializer = front'.length := by
  have spares := Pass.spares_recoveryPasses options origin front.length
    (origin.fields.map Field.key)
  rw [ran] at spares
  obtain ⟨name, fields, declarations⟩ :=
    Class.outline_eq_iff.mp (RecoveryState.frame_outline spares.frame)
  obtain ⟨front', method, back', located', length, before, here, behind⟩ :=
    located.remain declarations spares.touches
  refine ⟨front', method, back', ⟨name, located', ?_, before, ?_, behind⟩,
    (RecoveryState.frame_initializer spares.frame).trans length.symm⟩
  · intro key gone
    rw [RecoveryState.frame_removedFields spares.frame] at gone
    cases gone
  · exact fields ▸ here

theorem touches_strip (code : Listing Instruction) (key : MemberKey) (className : String)
    (declared : List MemberKey) :
    Listing.Touches (Instruction.isScaffold className declared) code
      (code.removeAll ((stores code (key.owned className) className).flatMap (·.nodes))) := by
  apply Listing.touches_removeAll
  intro id taken
  obtain ⟨site, counted, inside⟩ := List.mem_flatMap.mp taken
  obtain ⟨_, _, hit⟩ := mem_stores.mp counted
  obtain ⟨segment, stands, shape, _⟩ := StaticTable.store?_eq_some.mp hit
  rw [← shape.nodes] at inside
  obtain ⟨entry, member, rfl⟩ := List.mem_map.mp inside
  exact ⟨entry.2, stands_live stands entry member, shape.isScaffold rfl entry member⟩

section Steps

variable (intact : Intact origin front initial back state.cls state.removedFields front' method
  back')
variable (located : state.initializer = front'.length)
include intact

include located in
theorem Intact.code_here : state.initializerCode = method.code := by
  rw [RecoveryState.initializerCode, located, Class.codeAt_of_split intact.located.split]

/-- The initializer may lose scaffold, and the class may lose fields. -/
theorem Intact.thinned {code : Listing Instruction} {later : RecoveryState}
    (name : later.cls.name = state.cls.name)
    (methods : later.cls.methods = front' ++ { method with code } :: back')
    (fewer : later.cls.fields.map Field.key ⊆ state.cls.fields.map Field.key)
    (gone : ∀ key, later.removedFields.contains key = true →
      key ∉ later.cls.fields.map Field.key)
    (touches : Listing.Touches
      (Instruction.isScaffold origin.name (later.cls.fields.map Field.key)) method.code code) :
    Intact origin front initial back later.cls later.removedFields front' { method with code }
      back' where
  name := name.trans intact.name
  located := ⟨methods, intact.located.named, intact.located.first⟩
  gone := gone
  before := intact.before
  here := (intact.here.mono fun _ => Instruction.isScaffold_of_fewer fewer).trans ⟨rfl, touches⟩
  behind := intact.behind

include located in
/-- A table goes with its stores, which are scaffold. -/
theorem intact_removeField (key : MemberKey) :
    ∃ method', Intact origin front initial back (removeField state key).cls
      (removeField state key).removedFields front' method' back' ∧
      (removeField state key).initializer = front'.length := by
  rcases removeField_cases state key with ⟨_, cls, removed, same⟩ | ⟨_, cls, removed, same⟩
  · exact ⟨method, ⟨cls ▸ intact.name, cls ▸ intact.located, cls ▸ removed ▸ intact.gone,
      intact.before, cls ▸ intact.here, intact.behind⟩, same.trans located⟩
  · have fewer : (removeField state key).cls.fields.map Field.key ⊆
        state.cls.fields.map Field.key := by
      rw [cls]
      exact List.map_subset _ (List.filter_subset_self _)
    rw [intact.code_here located, located, intact.name] at cls
    refine ⟨_, intact.thinned ?_ ?_ fewer ?_ (touches_strip method.code key _ _),
      same.trans located⟩
    · rw [cls]
      rfl
    · rw [cls]
      exact Class.methods_editCode_of_split (·.removeAll _) intact.located.split
    · intro other gone
      rw [removed, KeySet.contains_insert] at gone
      rcases gone with rfl | gone
      · rw [cls]
        simp
      · exact fun still => intact.gone other gone (fewer still)

theorem intact_removeHelper (key : MemberKey) :
    ∃ front' back', Intact origin front initial back (removeHelper state key).cls
      (removeHelper state key).removedFields front' method back' := by
  obtain ⟨⟨_, cls⟩ | ⟨named, _, cls⟩, removed⟩ := removeHelper_cases state key
  · exact ⟨front', back', ⟨cls ▸ intact.name, cls ▸ intact.located, cls ▸ removed ▸ intact.gone,
      intact.before, cls ▸ intact.here, intact.behind⟩⟩
  · have stays : method.key ≠ key := by
      rintro rfl
      exact named intact.located.named
    refine ⟨front'.filter (·.key ≠ key), back'.filter (·.key ≠ key), ⟨?_, ⟨?_,
      intact.located.named, ?_⟩, ?_, intact.before.sublist List.filter_sublist, ?_,
      intact.behind.sublist List.filter_sublist⟩⟩
    · rw [cls]
      exact intact.name
    · rw [cls]
      simp [intact.located.split, List.filter_append, stays]
    · exact fun other member => intact.located.first other (List.mem_of_mem_filter member)
    · rw [cls, removed]
      exact intact.gone
    · rw [cls]
      exact intact.here

include located in
theorem intact_removeFields (keys : List MemberKey) :
    ∃ method', Intact origin front initial back (keys.foldl removeField state).cls
      (keys.foldl removeField state).removedFields front' method' back' := by
  induction keys generalizing state method with
  | nil => exact ⟨method, intact⟩
  | cons key keys ih =>
    obtain ⟨_, intact', located'⟩ := intact_removeField intact located key
    exact ih intact' located'

/-- A helper may stand before the initializer, so that the place of this changes
with it. -/
theorem intact_removeHelpers (keys : List MemberKey) :
    ∃ front' back', Intact origin front initial back (keys.foldl removeHelper state).cls
      (keys.foldl removeHelper state).removedFields front' method back' := by
  induction keys generalizing state front' back' with
  | nil => exact ⟨front', back', intact⟩
  | cons key keys ih =>
    obtain ⟨_, _, intact'⟩ := intact_removeHelper intact key
    exact ih intact'

include located in
theorem intact_removeMarked :
    ∃ front' method' back',
      Intact origin front initial back (removeMarked state).cls (removeMarked state).removedFields
        front' method' back' ∧
      (removeMarked state).initializer = front'.length := by
  obtain ⟨method', intact⟩ := intact_removeFields intact located state.markedFields.keys
  obtain ⟨front', back', intact⟩ := intact_removeHelpers intact _
  refine ⟨front', method', back', intact, ?_⟩
  simp only [removeMarked]
  rw [intact.located.found]
  rfl

include located in
theorem intact_scan :
    ∃ method', Intact origin front initial back (scan state).state.cls
      (scan state).state.removedFields front' method' back' ∧
      (scan state).state.initializer = front'.length := by
  have touches : Listing.Touches
      (Instruction.isScaffold origin.name (state.cls.fields.map Field.key)) method.code
      (sweep (step (isRemoved state)) method.code.ids method.code 0).state := by
    refine sweep_keeps (Listing.Touches _ method.code) (fun _ _ touches changed => ?_) (.refl _ _)
    refine touches.trans (changes_touches (fun field target => ?_) changed)
    obtain ⟨own, gone⟩ := of_decide_eq_true target
    exact ⟨own.trans intact.name, intact.gone field.key gone⟩
  refine ⟨_, intact.thinned rfl ?_ (List.Subset.refl _) intact.gone touches, located⟩
  simp only [scan, intact.code_here located, RecoveryState.editInitializer, located]
  exact Class.methods_editCode_of_split (fun _ => _) intact.located.split

end Steps

end Cleanup

theorem Class.Edits.fields_sublist {cls later : Class} (edits : cls.Edits later) :
    later.fields.Sublist cls.fields := by
  induction edits with
  | refl => exact List.Sublist.refl _
  | tail _ edit ih =>
    cases edit with
    | code _ _ => exact ih
    | fields fewer => exact fewer.trans ih
    | methods _ => exact ih
    | locals => exact ih

/-- Recovery touches nothing but reads of own tables and the scaffold that fills
them. The fields that are left are some of those there were, in order, and so
are the methods before and behind the static initializer; in these, whatever is
not part of a read of an own table stays. In the initializer, no write of a field
that is still declared and no read or call of another class's member is
touched. -/
theorem recover_preserves_the_rest (options : Options) (cls : Class) (stats : Stats)
    (fine : (recover options cls).result = .ok stats) :
    (recover options cls).cls.fields.Sublist cls.fields ∧
    (cls.initializer? = none → (recover options cls).cls = cls) ∧
    ∀ position, cls.initializer? = some position →
      ∃ front initial back front' initial' back',
        InitializerAt cls front initial back ∧ front.length = position ∧
        InitializerAt (recover options cls).cls front' initial' back' ∧
        Method.Remain (Method.Preserved (Instruction.readsOwn cls.name)) front front' ∧
        initial.Preserved (Instruction.isScaffold cls.name
          ((recover options cls).cls.fields.map Field.key)) initial' ∧
        Method.Remain (Method.Preserved (Instruction.readsOwn cls.name)) back back' := by
  refine ⟨(recover_edits fine).fields_sublist, fun missing => by simp [recover, missing],
    fun position found => ?_⟩
  obtain ⟨front, initial, back, located, rfl⟩ := initializerAt_of_found found
  obtain ⟨resolved, cleaned, ran, swept, final, _, _⟩ := recover_stages found fine
  obtain ⟨_, _, _, intact, place⟩ := Cleanup.intact_resolved located ran
  obtain ⟨front', method, back', intact, place⟩ := Cleanup.intact_removeMarked intact place
  have last := Pass.allocations.run_keeps options
    (fun state => ∃ method', Cleanup.Intact cls front initial back state.cls state.removedFields
      front' method' back' ∧ state.initializer = front'.length)
    (fun _ _ kept => kept)
    (by rintro _ ⟨_, intact, place⟩; exact Cleanup.intact_scan intact place)
    ⟨method, intact, place⟩
  rw [swept] at last
  obtain ⟨method', intact, _⟩ := last
  have located' := Cleanup.located_clearLocals intact.located
  rw [final]
  exact ⟨front, initial, back, _, _, _, located, rfl, located',
    intact.before.preserved fun _ => Instruction.readsOwn_of_isCarried,
    intact.here.preserved fun _ => Instruction.isScaffold_of_isCarried,
    intact.behind.preserved fun _ => Instruction.readsOwn_of_isCarried⟩

/-- A table that is read back, and a field and a call that have nothing to do
with it. -/
def bystanders : Class :=
  let seed : MemberRef := ⟨"By", "seed", "[I"⟩
  let spare : MemberRef := ⟨"By", "spare", "[I"⟩
  .ofMembers "By" [seed.key, spare.key]
    [(⟨initializerName, "()V"⟩,
      [.intConst 1, .newArray .int, .putStatic seed,
       .getStatic seed, .intConst 0, .intConst 5, .arrayStore .int,
       .nullConst, .putStatic spare, .invokeStatic ⟨"Other", "start", "()V"⟩ false,
       .plain (.plain .returnVoid)]),
     (⟨"read", "()I"⟩,
      [.getStatic seed, .intConst 0, .arrayLoad .int, .plain (.plain .ireturn)])]

theorem bystanders_stay :
    (recover ⟨.combine⟩ bystanders).result = .ok ⟨0, 1, 0, 0, 0, 0, 1, 0, 1⟩ ∧
    ∃ front initial back, InitializerAt (recover ⟨.combine⟩ bystanders).cls front initial back ∧
      initial.code.get? 7 = some .nullConst ∧
      initial.code.get? 8 = some (.putStatic ⟨"By", "spare", "[I"⟩) ∧
      initial.code.get? 9 = some (.invokeStatic ⟨"Other", "start", "()V"⟩ false) := by
  have fine : (recover ⟨.combine⟩ bystanders).result = .ok ⟨0, 1, 0, 0, 0, 0, 1, 0, 1⟩ := rfl
  obtain ⟨_, _, found⟩ := recover_preserves_the_rest ⟨.combine⟩ bystanders _ fine
  obtain ⟨front, initial, back, front', initial', back', located, empty, located', _, kept, _⟩ :=
    found 0 rfl
  cases List.length_eq_zero_iff.mp empty
  have split := located.split
  cases split
  exact ⟨fine, front', initial', back', located', kept.carried 7 _ rfl rfl,
    kept.untouched 8 _ rfl (by decide +kernel), kept.untouched 9 _ rfl (by decide +kernel)⟩

end LiteralRecovery
