import LiteralRecovery.Proofs.References

/-! Cleanup step by step. A table goes only when the stores and allocations of
the initializer hold all references to it; the stores go with it, and its
allocations stay in one piece until the last pass takes them out. A table that
stays keeps the stores it has. A helper goes only when nothing calls it. The
static initializer itself never goes, and stays the first of its name. -/
namespace LiteralRecovery

namespace KeySet

variable {set : KeySet} {key other : MemberKey}

theorem mem_insertInto {keys : List MemberKey} :
    other ∈ insertInto key keys ↔ other = key ∨ other ∈ keys := by
  induction keys with
  | nil => simp [insertInto]
  | cons head rest ih =>
    simp only [insertInto]
    split
    · rename_i same
      subst same
      simp
    · split
      · simp
      · simp only [List.mem_cons, ih]
        exact or_left_comm

theorem contains_insert :
    (set.insert key).contains other = true ↔ other = key ∨ set.contains other = true := by
  simp [contains, insert, mem_insertInto]

end KeySet

/-- The reference that names a member of `owner`. -/
def MemberKey.owned (key : MemberKey) (owner : String) : MemberRef :=
  ⟨owner, key.name, key.descriptor⟩

@[simp] theorem MemberKey.key_owned (key : MemberKey) (owner : String) :
    (key.owned owner).key = key := rfl

theorem MemberKey.owned_inj {key other : MemberKey} {owner : String} :
    key.owned owner = other.owned owner ↔ key = other := by
  cases key
  cases other
  simp [owned]

/-- The first static initializer of a class, between the methods around it. -/
structure InitializerAt (cls : Class) (front : List Method) (method : Method)
    (back : List Method) : Prop where
  split : cls.methods = front ++ method :: back
  named : method.name = initializerName
  first : ∀ other ∈ front, other.name ≠ initializerName

theorem InitializerAt.found {cls : Class} {front back : List Method} {method : Method}
    (located : InitializerAt cls front method back) : cls.initializer? = some front.length := by
  have skipped : front.findIdx? (·.name = initializerName) = none := by
    simpa [List.findIdx?_eq_none_iff] using located.first
  simp [Class.initializer?, located.split, List.findIdx?_append, skipped, List.findIdx?_cons,
    located.named]

theorem initializerAt_of_found {cls : Class} {position : Nat}
    (found : cls.initializer? = some position) :
    ∃ front method back, InitializerAt cls front method back ∧ front.length = position := by
  obtain ⟨valid, named, first⟩ := List.findIdx?_eq_some_iff_getElem.mp found
  refine ⟨cls.methods.take position, cls.methods[position], cls.methods.drop (position + 1),
    ⟨by simp, by simpa using named, ?_⟩, by simp [Nat.le_of_lt valid]⟩
  intro other member
  obtain ⟨index, bound, rfl⟩ := List.mem_take_iff_getElem.mp member
  simpa using first index (by omega)

/-- The initializer stays where it is while only listings change. -/
theorem InitializerAt.edited {cls later : Class} {front back : List Method} {method : Method}
    (located : InitializerAt cls front method back)
    (same : later.methods.map Method.declaration = cls.methods.map Method.declaration) :
    ∃ front' method' back', InitializerAt later front' method' back' ∧
      front'.length = front.length ∧ method'.declaration = method.declaration := by
  rw [located.split, List.map_append, List.map_cons] at same
  obtain ⟨front', rest, split, fronts, rests⟩ := List.map_eq_append_iff.mp same
  obtain ⟨method', back', rfl, here, _⟩ := List.map_eq_cons_iff.mp rests
  refine ⟨front', method', back', ⟨split, ?_, ?_⟩, by simpa using congrArg List.length fronts, here⟩
  · have name : method'.name = method.name := congrArg (·.1) here
    rw [name, located.named]
  · intro other member
    have known : other.declaration ∈ front.map Method.declaration :=
      fronts ▸ List.mem_map_of_mem member
    obtain ⟨earlier, present, equal⟩ := List.mem_map.mp known
    have name : earlier.name = other.name := congrArg (·.1) equal
    rw [← name]
    exact located.first earlier present

namespace Cleanup

open Listing StaticTable

variable {code : Listing Instruction} {field : MemberRef} {others : List Method}

/-- All that refers to the table is the end of an allocation. -/
def Orphan (others : List Method) (code : Listing Instruction) (field : MemberRef) : Prop :=
  (∀ other ∈ others, ∀ instruction ∈ other.code.toList, isReference field instruction = false) ∧
    ∀ id ∈ referenceIds code field, ∃ sizeId newId size kind, Stands code
      [(sizeId, .intConst size), (newId, .newArray kind), (id, .putStatic field)]

/-- Removing nodes apart from its allocations leaves an orphan an orphan, and
so does removing a whole allocation. -/
theorem Orphan.removeAll (orphan : Orphan others code field) {nodes : List NodeId}
    (apart : ∀ sizeId newId putId size kind, Stands code
      [(sizeId, .intConst size), (newId, .newArray kind), (putId, .putStatic field)] →
      putId ∉ nodes → ∀ node ∈ [sizeId, newId, putId], node ∉ nodes) :
    Orphan others (code.removeAll nodes) field := by
  refine ⟨orphan.1, fun id member => ?_⟩
  obtain ⟨kept, present⟩ := mem_referenceIds_removeAll.mp member
  obtain ⟨sizeId, newId, size, kind, before, after, split⟩ := orphan.2 id present
  have clear := apart sizeId newId id size kind ⟨before, after, split⟩ kept
  exact ⟨sizeId, newId, size, kind, split_removeAll split (by simpa using clear)⟩

theorem Orphan.mono {fewer : List Method} (orphan : Orphan others code field)
    (subset : fewer ⊆ others) : Orphan fewer code field :=
  ⟨fun other member => orphan.1 other (subset member), orphan.2⟩

theorem toList_removeAll_subset (code : Listing Instruction) (nodes : List NodeId) :
    (code.removeAll nodes).toList ⊆ code.toList := by
  rw [toList, toList, items_removeAll]
  exact List.map_subset _ (List.filter_subset_self _)

/-- The nodes of the stores of a table lie apart from every allocation. -/
theorem allocation_apart_from_stores (field : MemberRef) (className : String) {target : MemberRef}
    {sizeId newId putId : NodeId} {size : Int32} {kind : ArrayKind}
    (stands : Stands code
      [(sizeId, .intConst size), (newId, .newArray kind), (putId, .putStatic target)]) :
    ∀ node ∈ [sizeId, newId, putId],
      node ∉ (stores code field className).flatMap (·.nodes) := by
  intro node member shared
  obtain ⟨site, counted, inside⟩ := List.mem_flatMap.mp shared
  obtain ⟨_, _, hit⟩ := mem_stores.mp counted
  obtain ⟨segment, present, shape, _⟩ := store?_eq_some.mp hit
  rw [← shape.nodes] at inside
  obtain ⟨entry, found, rfl⟩ := List.mem_map.mp inside
  exact store_apart_from_allocation present shape.constant stands entry found member

/-- The nodes of the stores of a table lie apart from the stores into any other. -/
theorem stores_apart_of_ne {className : String} {other : MemberRef} {index : Int32}
    {segment : List (NodeId × Instruction)} (stands : Stands code segment)
    (shape : ConstantStore other index segment) (different : other ≠ field) :
    ∀ entry ∈ segment, entry.1 ∉ (stores code field className).flatMap (·.nodes) := by
  intro entry inside shared
  obtain ⟨site, counted, member⟩ := List.mem_flatMap.mp shared
  obtain ⟨id, kind, hit⟩ := mem_stores.mp counted
  obtain ⟨segment', stands', shape', _⟩ := store?_eq_some.mp hit
  rcases stores_apart_or_same stands shape stands' shape'.constant with apart | rfl
  · exact apart entry inside (shape'.nodes ▸ member)
  · obtain ⟨head, rest, rfl, _⟩ := shape.head
    obtain ⟨head', rest', same, _⟩ := shape'.head
    cases same
    exact different rfl

/-- A table whose references are all in stores and allocations is an orphan once
its stores are gone. -/
theorem orphan_of_stripped {cls : Class} {front back : List Method} {method : Method}
    {className : String} (split : cls.methods = front ++ method :: back)
    (agree : references cls field =
      (stores method.code field className).length + (allocations method.code field).length) :
    Orphan (front ++ back)
      (method.code.removeAll ((stores method.code field className).flatMap (·.nodes))) field := by
  obtain ⟨inside, elsewhere⟩ := references_elsewhere split agree
  refine ⟨elsewhere, fun id member => ?_⟩
  obtain ⟨kept, present⟩ := mem_referenceIds_removeAll.mp member
  rcases mem_scaffoldIds.mp (inside present) with
    ⟨kind, site, hit⟩ | ⟨sizeId, newId, size, kind, before, after, split⟩
  · -- the first node of a store is gone with the store
    obtain ⟨segment, _, shape, start⟩ := store?_eq_some.mp hit
    refine absurd (List.mem_flatMap.mpr ⟨site, mem_stores.mpr ⟨id, kind, hit⟩, ?_⟩) kept
    exact List.mem_of_mem_head? start
  · have clear := allocation_apart_from_stores field className ⟨before, after, split⟩
    exact ⟨sizeId, newId, size, kind, split_removeAll split (by simpa using clear)⟩

/-! ### Cleanup step by step -/

/-- What holds of a class at every point of cleanup, given the class and the
initializer it started from, the listing of the initializer when cleanup began,
and the record of removed tables. -/
structure Tidy (origin : Class) (initial : Method) (settled : Listing Instruction) (cls : Class)
    (removed : KeySet) (front : List Method) (method : Method) (back : List Method) : Prop where
  name : cls.name = origin.name
  located : InitializerAt cls front method back
  /-- A field that is no longer declared is on record as removed. -/
  declared : ∀ key ∈ origin.fields.map Field.key, key ∉ cls.fields.map Field.key →
    removed.contains key = true
  orphans : ∀ key, removed.contains key = true →
    Orphan (front ++ back) method.code (key.owned origin.name)
  /-- A method that is no longer declared is not called. -/
  uncalled : ∀ key ∈ origin.methods.map Method.key, key ∉ cls.methods.map Method.key →
    ∀ other ∈ cls.methods, ∀ instruction ∈ other.code.toList,
      isCall origin.name key instruction = false
  continued : method.declaration = initial.declaration ∧ Thins initial.code method.code
  /-- A table that is still declared has lost no store. -/
  contents : ∀ key ∈ cls.fields.map Field.key, ∀ index segment,
    ConstantStore (key.owned origin.name) index segment → Stands settled segment →
      Stands method.code segment

variable {origin : Class} {initial method : Method} {settled : Listing Instruction}
variable {state : RecoveryState}
variable {front back : List Method} {key : MemberKey}

theorem Tidy.code_here
    (tidy : Tidy origin initial settled state.cls state.removedFields front method back)
    (here : state.initializer = front.length) : state.initializerCode = method.code := by
  rw [RecoveryState.initializerCode, here, Class.codeAt_of_split tidy.located.split]

/-- The initializer may lose nodes, as long as orphans stay orphans and fields
that go are recorded. -/
theorem Tidy.thinned
    (tidy : Tidy origin initial settled state.cls state.removedFields front method back)
    {code : Listing Instruction} {later : RecoveryState}
    (fewer : code.toList ⊆ method.code.toList) (thins : Thins method.code code)
    (name : later.cls.name = state.cls.name)
    (methods : later.cls.methods = front ++ { method with code } :: back)
    (declared : ∀ key ∈ origin.fields.map Field.key, key ∉ later.cls.fields.map Field.key →
      later.removedFields.contains key = true)
    (orphans : ∀ key, later.removedFields.contains key = true →
      Orphan (front ++ back) code (key.owned origin.name))
    (contents : ∀ key ∈ later.cls.fields.map Field.key, ∀ index segment,
      ConstantStore (key.owned origin.name) index segment → Stands settled segment →
        Stands code segment) :
    Tidy origin initial settled later.cls later.removedFields front { method with code } back := by
  refine ⟨name.trans tidy.name, ⟨methods, tidy.located.named, tidy.located.first⟩, declared,
    orphans, ?_, ⟨tidy.continued.1, tidy.continued.2.trans thins⟩, contents⟩
  intro key known gone other member instruction inside
  have absent : key ∉ state.cls.methods.map Method.key := by
    rw [methods] at gone
    rw [tidy.located.split]
    simpa [Method.key] using gone
  rw [methods, List.mem_append, List.mem_cons] at member
  have uncalled := tidy.uncalled key known absent
  rw [tidy.located.split] at uncalled
  rcases member with early | rfl | late
  · exact uncalled other (by simp [early]) instruction inside
  · exact uncalled method (by simp) instruction (fewer inside)
  · exact uncalled other (by simp [late]) instruction inside

theorem removeField_cases (state : RecoveryState) (key : MemberKey) :
    (references state.cls (key.owned state.cls.name) ≠
          (stores state.initializerCode (key.owned state.cls.name) state.cls.name).length +
            (allocations state.initializerCode (key.owned state.cls.name)).length ∧
        (removeField state key).cls = state.cls ∧
        (removeField state key).removedFields = state.removedFields ∧
        (removeField state key).initializer = state.initializer) ∨
      (references state.cls (key.owned state.cls.name) =
          (stores state.initializerCode (key.owned state.cls.name) state.cls.name).length +
            (allocations state.initializerCode (key.owned state.cls.name)).length ∧
        (removeField state key).cls =
          { state.cls.editCode state.initializer (·.removeAll
              ((stores state.initializerCode (key.owned state.cls.name) state.cls.name).flatMap
                (·.nodes))) with
            fields := state.cls.fields.filter (·.key ≠ key) } ∧
        (removeField state key).removedFields = state.removedFields.insert key ∧
        (removeField state key).initializer = state.initializer) := by
  simp only [removeField]
  split
  · rename_i differ
    exact .inl ⟨differ, rfl, rfl, rfl⟩
  · rename_i agree
    exact .inr ⟨by simpa [MemberKey.owned] using agree, rfl, rfl, rfl⟩

theorem tidy_removeField
    (tidy : Tidy origin initial settled state.cls state.removedFields front method back)
    (here : state.initializer = front.length) (key : MemberKey) :
    ∃ method', Tidy origin initial settled (removeField state key).cls
      (removeField state key).removedFields front method' back ∧
      (removeField state key).initializer = front.length := by
  rcases removeField_cases state key with ⟨_, cls, removed, same⟩ | ⟨agree, cls, removed, same⟩
  · refine ⟨method, ⟨?_, ?_, ?_, ?_, ?_, tidy.continued, ?_⟩, same.trans here⟩
    · exact cls ▸ tidy.name
    · exact cls ▸ tidy.located
    · exact cls ▸ removed ▸ tidy.declared
    · exact removed ▸ tidy.orphans
    · exact cls ▸ tidy.uncalled
    · exact cls ▸ tidy.contents
  · rw [tidy.code_here here, tidy.name] at agree cls
    refine ⟨_, tidy.thinned (toList_removeAll_subset method.code
      ((stores method.code (key.owned origin.name) origin.name).flatMap (·.nodes)))
      (thins_removeAll _ _) ?_ ?_ ?_ ?_ ?_, same.trans here⟩
    · rw [cls]
      rfl
    · rw [cls, here]
      exact Class.methods_editCode_of_split (·.removeAll _) tidy.located.split
    · intro other known gone
      rw [removed, KeySet.contains_insert]
      by_cases same : other = key
      · exact .inl same
      · refine .inr (tidy.declared other known fun present => gone ?_)
        rw [cls]
        obtain ⟨field, member, rfl⟩ := List.mem_map.mp present
        exact List.mem_map.mpr ⟨field, List.mem_filter.mpr ⟨member, by simpa using same⟩, rfl⟩
    · intro other gone
      rw [removed, KeySet.contains_insert] at gone
      rcases gone with rfl | gone
      · exact orphan_of_stripped tidy.located.split agree
      · apply (tidy.orphans other gone).removeAll
        intro sizeId newId putId size kind stands _
        exact allocation_apart_from_stores _ _ stands
    · intro other still index segment shape stands
      rw [cls] at still
      obtain ⟨field, member, rfl⟩ := List.mem_map.mp still
      obtain ⟨present, different⟩ := List.mem_filter.mp member
      obtain ⟨before, after, split⟩ :=
        tidy.contents _ (List.mem_map_of_mem present) index segment shape stands
      refine split_removeAll split (stores_apart_of_ne ⟨before, after, split⟩ shape ?_)
      intro same
      exact of_decide_eq_true different (MemberKey.owned_inj.mp same)

theorem removeHelper_cases (state : RecoveryState) (key : MemberKey) :
    (((key.name ≠ initializerName → calls state.cls key ≠ 0) ∧
        (removeHelper state key).cls = state.cls) ∨
      (key.name ≠ initializerName ∧ calls state.cls key = 0 ∧
        (removeHelper state key).cls =
          { state.cls with methods := state.cls.methods.filter (·.key ≠ key) })) ∧
      (removeHelper state key).removedFields = state.removedFields := by
  simp only [removeHelper]
  split
  · rename_i initializer
    exact ⟨.inl ⟨fun named => absurd initializer named, rfl⟩, rfl⟩
  · rename_i named
    split
    · rename_i called
      exact ⟨.inl ⟨fun _ => Nat.ne_of_gt called, rfl⟩, rfl⟩
    · rename_i uncalled
      exact ⟨.inr ⟨named, Nat.eq_zero_of_not_pos uncalled, rfl⟩, rfl⟩

theorem tidy_removeHelper
    (tidy : Tidy origin initial settled state.cls state.removedFields front method back)
    (key : MemberKey) :
    ∃ front' back', Tidy origin initial settled (removeHelper state key).cls
      (removeHelper state key).removedFields front' method back' := by
  obtain ⟨⟨_, cls⟩ | ⟨named, uncalled, cls⟩, removed⟩ := removeHelper_cases state key
  · exact ⟨front, back, cls ▸ tidy.name, cls ▸ tidy.located, cls ▸ removed ▸ tidy.declared,
      removed ▸ tidy.orphans, cls ▸ tidy.uncalled, tidy.continued, cls ▸ tidy.contents⟩
  · have stays : method.key ≠ key := by
      rintro rfl
      exact named tidy.located.named
    refine ⟨front.filter (·.key ≠ key), back.filter (·.key ≠ key), ?_, ⟨?_, tidy.located.named, ?_⟩,
      ?_, ?_, ?_, tidy.continued, cls ▸ tidy.contents⟩
    · rw [cls]
      exact tidy.name
    · rw [cls]
      simp [tidy.located.split, List.filter_append, stays]
    · intro other member
      exact tidy.located.first other (List.mem_of_mem_filter member)
    · rw [cls, removed]
      exact tidy.declared
    · rw [removed]
      intro other gone
      apply (tidy.orphans other gone).mono
      rw [← List.filter_append]
      exact List.filter_subset_self _
    · intro other known gone caller member instruction inside
      rw [cls] at gone member
      have present : caller ∈ state.cls.methods := List.mem_of_mem_filter member
      by_cases same : other = key
      · subst same
        have none := List.countP_eq_zero.mp uncalled instruction
          (List.mem_flatMap.mpr ⟨caller, present, inside⟩)
        rw [tidy.name] at none
        simpa using none
      · refine tidy.uncalled other known (fun still => gone ?_) caller present instruction inside
        obtain ⟨declared, member, rfl⟩ := List.mem_map.mp still
        exact List.mem_map.mpr
          ⟨declared, List.mem_filter.mpr ⟨member, by simpa using same⟩, rfl⟩

theorem tidy_removeMarked
    (tidy : Tidy origin initial settled state.cls state.removedFields front method back)
    (here : state.initializer = front.length) :
    ∃ front' method' back', Tidy origin initial settled (removeMarked state).cls
      (removeMarked state).removedFields front' method' back' ∧
      (removeMarked state).initializer = front'.length := by
  have fields (keys : List MemberKey) (state : RecoveryState) (method : Method)
      (tidy : Tidy origin initial settled state.cls state.removedFields front method back)
      (here : state.initializer = front.length) :
      ∃ method', Tidy origin initial settled (keys.foldl removeField state).cls
        (keys.foldl removeField state).removedFields front method' back := by
    induction keys generalizing state method with
    | nil => exact ⟨method, tidy⟩
    | cons key keys ih =>
      obtain ⟨method', tidy', here'⟩ := tidy_removeField tidy here key
      exact ih _ _ tidy' here'
  have helpers (keys : List MemberKey) (state : RecoveryState) (front back : List Method)
      (method : Method)
      (tidy : Tidy origin initial settled state.cls state.removedFields front method back) :
      ∃ front' back', Tidy origin initial settled (keys.foldl removeHelper state).cls
        (keys.foldl removeHelper state).removedFields front' method back' := by
    induction keys generalizing state front back with
    | nil => exact ⟨front, back, tidy⟩
    | cons key keys ih =>
      obtain ⟨front', back', tidy'⟩ := tidy_removeHelper tidy key
      exact ih _ _ _ tidy'
  obtain ⟨method', tidyFields⟩ := fields state.markedFields.keys state method tidy here
  obtain ⟨front', back', tidyHelpers⟩ := helpers _ _ front back method' tidyFields
  refine ⟨front', method', back', ⟨tidyHelpers.name, tidyHelpers.located, tidyHelpers.declared,
    tidyHelpers.orphans, tidyHelpers.uncalled, tidyHelpers.continued, tidyHelpers.contents⟩, ?_⟩
  simp only [removeMarked]
  rw [tidyHelpers.located.found]
  rfl

theorem tidy_scan
    (tidy : Tidy origin initial settled state.cls state.removedFields front method back)
    (here : state.initializer = front.length) :
    ∃ method', Tidy origin initial settled (scan state).state.cls (scan state).state.removedFields
      front method' back ∧
      (scan state).state.initializer = front.length := by
  have codeHere := tidy.code_here here
  have kept : let code := (sweep (step (isRemoved state)) method.code.ids method.code 0).state
      code.toList ⊆ method.code.toList ∧ Thins method.code code ∧
        (∀ key, state.removedFields.contains key = true →
          Orphan (front ++ back) code (key.owned origin.name)) ∧
        ∀ field index segment, ConstantStore field index segment → Stands method.code segment →
          Stands code segment := by
    refine sweep_keeps (fun code => code.toList ⊆ method.code.toList ∧ Thins method.code code ∧
      (∀ key, state.removedFields.contains key = true →
        Orphan (front ++ back) code (key.owned origin.name)) ∧
      ∀ field index segment, ConstantStore field index segment → Stands method.code segment →
        Stands code segment) ?_
      ⟨fun _ inside => inside, .refl _, tidy.orphans, fun _ _ _ _ stands => stands⟩
    rintro before after ⟨fewer, thins, orphans, contents⟩ ⟨id, changed⟩
    obtain ⟨size, kind, field, newId, putId, stands, _, rfl⟩ := step_eq_change.mp changed
    refine ⟨fun _ inside => fewer (toList_removeAll_subset _ _ inside),
      thins.trans (thins_removeAll _ _), fun key gone => (orphans key gone).removeAll ?_, ?_⟩
    · intro sizeId newId' putId' size' kind' stands' outside
      rcases allocations_apart_or_same stands' stands with apart | ⟨_, _, same⟩
      · exact apart
      · exact absurd (by simp [same]) outside
    · intro table index segment shape present
      have store := contents table index segment shape present
      have apart := store_apart_from_allocation store shape stands
      obtain ⟨early, late, split⟩ := store
      exact split_removeAll split apart
  obtain ⟨fewer, thins, orphans, contents⟩ := kept
  refine ⟨_, tidy.thinned fewer thins rfl ?_ tidy.declared orphans ?_, here⟩
  · simp only [scan, codeHere, RecoveryState.editInitializer, here]
    exact Class.methods_editCode_of_split (fun _ => _) tidy.located.split
  · intro key still index segment shape stands
    exact contents _ index segment shape (tidy.contents key still index segment shape stands)

/-- A method without its local variable tables. -/
def clearMethod (method : Method) : Method :=
  { method with
    info := { method.info with attributes := method.info.attributes.map clearAttribute } }

theorem methods_clearLocals (cls : Class) :
    (clearLocals cls).methods = cls.methods.map clearMethod := rfl

theorem located_clearLocals {cls : Class} {front back : List Method} {method : Method}
    (located : InitializerAt cls front method back) :
    InitializerAt (clearLocals cls) (front.map clearMethod) (clearMethod method)
      (back.map clearMethod) := by
  refine ⟨?_, located.named, ?_⟩
  · rw [methods_clearLocals, located.split, List.map_append, List.map_cons]
  · intro other member
    obtain ⟨earlier, present, rfl⟩ := List.mem_map.mp member
    exact located.first earlier present

/-- The state in which cleanup starts is tidy. -/
theorem tidy_resolved {options : Options} {cls : Class} {resolved : RecoveryState}
    {front back : List Method} {method : Method} (located : InitializerAt cls front method back)
    (ran : Pass.runAll options recoveryPasses (RecoveryState.start cls front.length) =
      (resolved, none)) :
    ∃ front' method' back',
      Tidy cls method resolved.initializerCode resolved.cls resolved.removedFields front' method'
        back' ∧ resolved.initializer = front'.length := by
  have frame := Pass.runAll_frame options recoveryPasses (RecoveryState.start cls front.length)
  have thins := Pass.runAll_thins options recoveryPasses
    (RecoveryState.start cls front.length) front.length
  rw [ran] at frame thins
  obtain ⟨name, fields, declarations⟩ :=
    Class.outline_eq_iff.mp (RecoveryState.frame_outline frame)
  obtain ⟨front', method', back', located', length, declaration⟩ := located.edited declarations
  have keys := Method.map_key_of_declarations declarations
  have here : resolved.initializer = front'.length :=
    (RecoveryState.frame_initializer frame).trans length.symm
  refine ⟨front', method', back', ⟨name, located', ?_, ?_, ?_, ⟨declaration, ?_⟩, ?_⟩, here⟩
  · intro key known gone
    rw [fields] at gone
    exact absurd known gone
  · intro key gone
    rw [RecoveryState.frame_removedFields frame] at gone
    cases gone
  · intro key known gone
    rw [keys] at gone
    exact absurd known gone
  · rw [← Class.codeAt_of_split located.split, ← Class.codeAt_of_split located'.split, length]
    exact thins
  · intro key _ index segment _ stands
    rwa [RecoveryState.initializerCode, here, Class.codeAt_of_split located'.split] at stands

/-- Cleanup adds to the log. -/
theorem event_removeMarked {event : Event} (logged : event ∈ state.events) :
    event ∈ (removeMarked state).events := by
  have fields (keys : List MemberKey) (state : RecoveryState) (logged : event ∈ state.events) :
      event ∈ (keys.foldl removeField state).events := by
    induction keys generalizing state with
    | nil => exact logged
    | cons key keys ih =>
      apply ih _
      simp only [removeField]
      split <;> simp [RecoveryState.log, RecoveryState.editInitializer, logged]
  have helpers (keys : List MemberKey) (state : RecoveryState) (logged : event ∈ state.events) :
      event ∈ (keys.foldl removeHelper state).events := by
    induction keys generalizing state with
    | nil => exact logged
    | cons key keys ih =>
      apply ih _
      simp only [removeHelper]
      split
      · exact logged
      · split <;> simp [RecoveryState.log, logged]
  exact helpers _ _ (fields _ _ logged)

/-- A successful recovery, from its class with the initializer in place to the
tidy state that its last walk leaves. -/
theorem recover_tidy {options : Options} {cls : Class} {stats : Stats} {front back : List Method}
    {method : Method} (located : InitializerAt cls front method back)
    (fine : (recover options cls).result = .ok stats) :
    ∃ resolved last front' method' back',
      Pass.runAll options recoveryPasses (RecoveryState.start cls front.length) =
        (resolved, none) ∧
      Tidy cls method resolved.initializerCode last.cls last.removedFields front' method' back' ∧
      last.initializer = front'.length ∧
      (∀ id ∈ last.initializerCode.ids,
        step (isRemoved last) last.initializerCode id = .skip) ∧
      (recover options cls).cls = clearLocals last.cls ∧
      ∀ event ∈ resolved.events, event ∈ (recover options cls).events := by
  obtain ⟨resolved, cleaned, ran, cleanup, final, _, events⟩ := recover_stages located.found fine
  obtain ⟨_, _, _, tidy, here⟩ := tidy_resolved located ran
  obtain ⟨front', _, back', tidy, here⟩ := tidy_removeMarked tidy here
  -- the invariant of the last pass: tidy, at the position on record
  obtain ⟨last, ⟨⟨method', tidy, here⟩, logged⟩, settled⟩ := Pass.allocations.run_settles options
    (fun state => (∃ method', Tidy cls method resolved.initializerCode state.cls
      state.removedFields front' method' back' ∧ state.initializer = front'.length) ∧
      ∀ event ∈ resolved.events, event ∈ state.events)
    (fun _ _ ⟨kept, logged⟩ => ⟨kept, fun event member => by
      simp [RecoveryState.log, logged event member]⟩)
    (fun _ ⟨⟨_, tidy, here⟩, logged⟩ => ⟨tidy_scan tidy here, logged⟩)
    ⟨⟨_, tidy, here⟩, fun _ member => event_removeMarked member⟩ (by rw [cleanup])
  rw [cleanup] at settled
  obtain ⟨event, rfl⟩ := settled.eq
  refine ⟨resolved, last, front', method', back', ran, tidy, here,
    (Pass.allocations_still settled.2.1).2, final, fun event member => ?_⟩
  rw [events]
  simp [RecoveryState.log, logged event member]

end Cleanup

end LiteralRecovery
