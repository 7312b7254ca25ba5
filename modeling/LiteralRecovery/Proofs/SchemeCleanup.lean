import LiteralRecovery.Proofs.SchemePasses

/-! Cleanup of a class that fits a scheme, once every use has its value. Nothing
but stores and allocations refers to a table then, so that every marked table
goes. Its stores go with it, which frees the helpers that only they called,
and its allocations go last. -/
namespace LiteralRecovery

open Listing StaticTable

/-- No two tiles have a node in common. -/
theorem Tiling.tile_unique {β : Type} {code : Listing Instruction} {shape : β → List Instruction}
    {tiles : List (β × List (NodeId × Instruction))} (tiling : Tiling code shape tiles)
    {tile tile' : β × List (NodeId × Instruction)} (member : tile ∈ tiles) (member' : tile' ∈ tiles)
    {entry entry' : NodeId × Instruction} (inside : entry ∈ tile.2) (inside' : entry' ∈ tile'.2)
    (same : entry.1 = entry'.1) : tile = tile' := by
  obtain ⟨front, back, rfl⟩ := List.mem_iff_append.mp member
  have view : code.items = front.flatMap (·.2) ++ tile.2 ++ back.flatMap (·.2) := by
    simp [tiling.view]
  obtain ⟨early, late⟩ := split_disjoint view
  have shared : entry'.1 ∈ tile.2.map (·.1) := same ▸ List.mem_map_of_mem inside
  rw [List.mem_append, List.mem_cons] at member'
  rcases member' with before | rfl | behind
  · exact absurd shared (early entry' (List.mem_flatMap.mpr ⟨tile', before, inside'⟩))
  · rfl
  · exact absurd shared (late entry' (List.mem_flatMap.mpr ⟨tile', behind, inside'⟩))

namespace Scheme

open Cleanup

namespace Entry

/-- Whether an entry stores into the table. -/
def storesInto (table : MemberKey) : Entry → Bool
  | .store other _ _ => other = table
  | _ => false

/-- Whether an entry masks a string with the helper. -/
def callsHelper (helper : MemberKey) : Entry → Bool
  | .store _ _ source => source.helper? = some helper
  | _ => false

end Entry

section Strip

variable {owner : String} {code : Listing Instruction} {live : List Entry}
variable {tiles : List (Entry × List (NodeId × Instruction))}

/-- All that refers to a table are its stores and allocations. -/
theorem referenceIds_subset (tiling : Tiling code (Entry.code owner) tiles) (field : MemberRef) :
    referenceIds code field ⊆ scaffoldIds code field owner := by
  intro id member
  rw [mem_scaffoldIds]
  rcases mem_referenceIds.mp member with held | held
  · obtain ⟨_, _, source, site, segment, _, _, rfl, stands, shape, start, _⟩ :=
      getStatic_tile tiling held
    exact .inl ⟨source.kind, site, store?_eq_some.mpr ⟨segment, stands, shape, start⟩⟩
  · obtain ⟨_, _, size, array, sizeId, newId, _, rfl, split⟩ := putStatic_tile tiling held
    exact .inr ⟨sizeId, newId, size, array, tiling.stands split⟩

/-- The initializer refers to a table exactly as often as it stores into it and
allocates it. -/
theorem references_eq_scaffold (view : code.toList = live.flatMap (Entry.code owner))
    (field : MemberRef) :
    code.toList.countP (isReference field) =
      (stores code field owner).length + (allocations code field).length := by
  obtain ⟨tiles, tiling, _⟩ := Tiling.exists_of_toList view
  refine Nat.le_antisymm ?_ (scaffold_le_references code field owner)
  have distinct : (referenceIds code field).Nodup :=
    code.ids_nodup.sublist (List.filter_sublist.map _)
  have fits := (List.subperm_of_subset distinct (referenceIds_subset tiling field)).length_le
  rwa [length_referenceIds, scaffoldIds, List.length_append, List.length_map,
    List.length_map] at fits

/-- Taking out the stores into a table takes out their entries. -/
theorem toList_strip (view : code.toList = live.flatMap (Entry.code owner)) (table : MemberKey) :
    (code.removeAll ((stores code (table.owned owner) owner).flatMap (·.nodes))).toList =
      (live.filter (!Entry.storesInto table ·)).flatMap (Entry.code owner) := by
  obtain ⟨tiles, tiling, rfl⟩ := Tiling.exists_of_toList view
  refine tiling.toList_filter (Entry.storesInto table) fun tile member entry inside => ?_
  constructor
  · intro shared
    obtain ⟨site, counted, listed⟩ := List.mem_flatMap.mp shared
    obtain ⟨_, kind, hit⟩ := mem_stores.mp counted
    obtain ⟨segment, stands, shape, _⟩ := store?_eq_some.mp hit
    obtain ⟨front, other, source, back, split, same, _, _⟩ := store_tile tiling stands shape
    rw [← shape.nodes] at listed
    obtain ⟨entry', inside', equal⟩ := List.mem_map.mp listed
    have tile' : (.store other site.index source, segment) ∈ tiles := by simp [split]
    rw [tiling.tile_unique member tile' inside inside' equal.symm]
    simpa [Entry.storesInto] using (MemberKey.owned_inj.mp same).symm
  · intro dropped
    obtain ⟨piece, segment⟩ := tile
    cases piece with
    | allocate size array other => cases dropped
    | other code => cases dropped
    | store other index source =>
      obtain ⟨front, back, split⟩ := List.mem_iff_append.mp member
      obtain ⟨site, shape, _, _⟩ := storeSegment_of_entry (tiling.shapes _ member)
      obtain ⟨head, rest, rfl, start⟩ := shape.head
      cases of_decide_eq_true dropped
      have hit := store?_eq_some.mpr ⟨_, tiling.stands split, shape, start⟩
      refine List.mem_flatMap.mpr ⟨site, mem_stores.mpr ⟨head, source.kind, hit⟩, ?_⟩
      rw [← shape.nodes]
      exact List.mem_map_of_mem inside

end Strip

/-! ### Tables -/

/-- The instructions of a method while the initializer holds the given entries. -/
def bodyOf (scheme : Scheme) (origin : Class) (live : List Entry) (key : MemberKey) :
    List Instruction :=
  if key.name = initializerName then live.flatMap (Entry.code origin.name)
  else scheme.recoveredBody origin key

/-- What is left of a class at some point of cleanup: the fields and methods
that did not go, and in the initializer the given entries. -/
structure Cleared (scheme : Scheme) (origin : Class) (live : List Entry)
    (gone dropped : MemberKey → Bool) (state : RecoveryState) : Prop where
  name : state.cls.name = origin.name
  located : ∃ front method back, InitializerAt state.cls front method back ∧
    ∀ other ∈ back, other.name ≠ initializerName
  fields : state.cls.fields = origin.fields.filter fun field => !gone field.key
  methods : state.cls.methods.map Method.declaration =
    (origin.methods.filter fun method => !dropped method.key).map Method.declaration
  bodies : ∀ method ∈ state.cls.methods, method.code.toList = scheme.bodyOf origin live method.key
  removed : ∀ table, state.removedFields.contains table = gone table

variable {scheme : Scheme} {origin : Class} {live live' : List Entry}
variable {gone dropped : MemberKey → Bool} {state later : RecoveryState} {key : MemberKey}

theorem bodyOf_initializer {method : Method} (named : method.name = initializerName) :
    scheme.bodyOf origin live method.key = live.flatMap (Entry.code origin.name) := if_pos named

theorem bodyOf_other {method : Method} (named : method.name ≠ initializerName) :
    scheme.bodyOf origin live method.key = scheme.recoveredBody origin method.key := if_neg named

theorem isReference_of_foreign {owner : String} {instruction : Instruction}
    (foreign : refersTo owner instruction = false) (table : MemberKey) :
    isReference (table.owned owner) instruction = false := by
  cases instruction with
  | getStatic field =>
    apply decide_eq_false
    rintro rfl
    simp [refersTo, MemberKey.owned] at foreign
  | putStatic field =>
    apply decide_eq_false
    rintro rfl
    simp [refersTo, MemberKey.owned] at foreign
  | _ => rfl

theorem isCall_of_foreign {owner : String} {instruction : Instruction}
    (foreign : refersTo owner instruction = false) (helper : MemberKey) :
    isCall owner helper instruction = false := by
  cases instruction with
  | invokeStatic target onInterface =>
    apply decide_eq_false
    rintro ⟨rfl, _⟩
    simp [refersTo] at foreign
  | _ => rfl

theorem refersTo_of_constant {owner : String} {instruction : Instruction}
    (constant : isConstant instruction = true) : refersTo owner instruction = false := by
  cases instruction <;> cases constant <;> rfl

/-- No instruction of another method names the class. -/
theorem Cleared.foreign (fits : scheme.Fits origin)
    (cleared : Cleared scheme origin live gone dropped state) :
    ∀ method ∈ state.cls.methods, method.name ≠ initializerName →
      ∀ instruction ∈ method.code.toList, refersTo origin.name instruction = false := by
  intro method member named instruction inside
  have known : method.declaration ∈ state.cls.methods.map Method.declaration :=
    List.mem_map_of_mem member
  rw [cleared.methods] at known
  obtain ⟨declared, present, same⟩ := List.mem_map.mp known
  simp only [Method.declaration, Prod.mk.injEq] at same
  have key : declared.key = method.key := by simp [Method.key, same]
  rw [cleared.bodies method member, bodyOf_other named, recoveredBody] at inside
  obtain ⟨part, among, rfl⟩ := List.mem_map.mp inside
  have admitted := fits.admits declared (List.mem_of_mem_filter present) (same.1 ▸ named) part
    (key ▸ among)
  cases part with
  | other instruction => exact admitted
  | use table index => exact refersTo_of_constant (isConstant_slotValue scheme origin table index)

theorem Cleared.view (cleared : Cleared scheme origin live gone dropped state)
    {front back : List Method} {method : Method}
    (located : InitializerAt state.cls front method back) :
    method.code.toList = live.flatMap (Entry.code origin.name) := by
  rw [cleared.bodies method (by simp [located.split]), bodyOf_initializer located.named]

theorem initializer_here {front back : List Method} {method : Method}
    (located : InitializerAt state.cls front method back)
    (here : state.cls.initializer? = some state.initializer) :
    front.length = state.initializer ∧ state.initializerCode = method.code := by
  have position : front.length = state.initializer :=
    Option.some.inj (located.found.symm.trans here)
  exact ⟨position, by
    rw [RecoveryState.initializerCode, ← position, Class.codeAt_of_split located.split]⟩

/-- Taking entries out of the initializer. -/
theorem Cleared.edited (cleared : Cleared scheme origin live gone dropped state)
    (here : state.cls.initializer? = some state.initializer)
    (edit : Listing Instruction → Listing Instruction) {gone' : MemberKey → Bool}
    (view : (edit state.initializerCode).toList = live'.flatMap (Entry.code origin.name))
    (methods : later.cls.methods = (state.cls.editCode state.initializer edit).methods)
    (name : later.cls.name = state.cls.name) (initializer : later.initializer = state.initializer)
    (fields : later.cls.fields = origin.fields.filter fun field => !gone' field.key)
    (removed : ∀ table, later.removedFields.contains table = gone' table) :
    Cleared scheme origin live' gone' dropped later ∧
      later.cls.initializer? = some later.initializer := by
  obtain ⟨front, method, back, located, single⟩ := cleared.located
  obtain ⟨position, code⟩ := initializer_here located here
  rw [← position, Class.methods_editCode_of_split edit located.split, ← code] at methods
  have located' : InitializerAt later.cls front { method with code := edit state.initializerCode }
      back := ⟨methods, located.named, located.first⟩
  refine ⟨⟨name.trans cleared.name, ⟨front, _, back, located', single⟩, fields, ?_, ?_, removed⟩,
    ?_⟩
  · rw [methods, ← cleared.methods, located.split]
    simp [Method.declaration]
  · intro other member
    rw [methods, List.mem_append, List.mem_cons] at member
    have same {other : Method} (named : other.name ≠ initializerName)
        (member : other ∈ state.cls.methods) :
        other.code.toList = scheme.bodyOf origin live' other.key := by
      rw [cleared.bodies other member, bodyOf_other named, bodyOf_other named]
    rcases member with early | rfl | late
    · exact same (located.first other early) (by simp [located.split, early])
    · exact view.trans (bodyOf_initializer located.named).symm
    · exact same (single other late) (by simp [located.split, late])
  · rw [located'.found, initializer, position]

/-- Nothing but stores and allocations in the initializer refers to a table. -/
theorem Cleared.references (fits : scheme.Fits origin)
    (cleared : Cleared scheme origin live gone dropped state)
    (here : state.cls.initializer? = some state.initializer) (table : MemberKey) :
    references state.cls (table.owned origin.name) =
      (stores state.initializerCode (table.owned origin.name) origin.name).length +
        (allocations state.initializerCode (table.owned origin.name)).length := by
  obtain ⟨front, method, back, located, single⟩ := cleared.located
  obtain ⟨_, code⟩ := initializer_here located here
  have none {methods : List Method} (among : methods ⊆ state.cls.methods)
      (named : ∀ other ∈ methods, other.name ≠ initializerName) :
      (methods.flatMap (·.code.toList)).countP (isReference (table.owned origin.name)) = 0 := by
    refine List.countP_eq_zero.mpr fun instruction inside => ?_
    obtain ⟨other, member, inside⟩ := List.mem_flatMap.mp inside
    have foreign := cleared.foreign fits other (among member) (named other member) _ inside
    simp [isReference_of_foreign foreign]
  rw [references_of_split located.split, none (by simp [located.split]) located.first,
    none (fun other member => by simp [located.split, member]) single, code,
    references_eq_scaffold (cleared.view located), Nat.zero_add, Nat.add_zero]

/-- A marked table goes, and its stores with it. -/
theorem cleared_removeField (fits : scheme.Fits origin)
    (cleared : Cleared scheme origin live gone dropped state)
    (here : state.cls.initializer? = some state.initializer) (key : MemberKey) :
    Cleared scheme origin (live.filter (!Entry.storesInto key ·))
        (fun table => gone table || table = key) dropped (removeField state key) ∧
      (removeField state key).cls.initializer? = some (removeField state key).initializer ∧
      (removeField state key).markedMethods = state.markedMethods := by
  have agree := cleared.references fits here key
  have marks : (removeField state key).markedMethods = state.markedMethods := by
    simp only [removeField]
    split <;> rfl
  rw [← cleared.name] at agree
  rcases removeField_cases state key with ⟨differ, _⟩ | ⟨_, cls, removed, initializer⟩
  · exact absurd agree differ
  · rw [← and_assoc]
    refine ⟨?_, marks⟩
    refine cleared.edited here (·.removeAll ((stores state.initializerCode
      (key.owned state.cls.name) state.cls.name).flatMap (·.nodes))) ?_ ?_ ?_ initializer ?_ ?_
    · obtain ⟨front, method, back, located, _⟩ := cleared.located
      rw [(initializer_here located here).2, cleared.name]
      exact toList_strip (cleared.view located) key
    · rw [cls]
    · rw [cls]
      rfl
    · rw [cls]
      simp only [cleared.fields, List.filter_filter]
      refine List.filter_congr fun field _ => ?_
      cases gone field.key <;> simp
    · intro table
      rw [removed, Bool.eq_iff_iff, KeySet.contains_insert, cleared.removed]
      simp [or_comm]

/-- What is left in the initializer: all entries that stay, and no store into a
table that is gone. -/
structure Left (scheme : Scheme) (origin : Class) (gone : MemberKey → Bool) (live : List Entry) :
    Prop where
  subset : live ⊆ scheme.entries
  rest : live.filter (scheme.stays origin) = scheme.entries.filter (scheme.stays origin)
  stores : ∀ table index source, .store table index source ∈ live → gone table = false

theorem Left.strip (left : Left scheme origin gone live)
    (taken : scheme.takesTable origin key = true) :
    Left scheme origin (fun table => gone table || table = key)
      (live.filter (!Entry.storesInto key ·)) := by
  refine ⟨fun entry member => left.subset (List.mem_of_mem_filter member), ?_, ?_⟩
  · rw [← left.rest, List.filter_filter]
    refine List.filter_congr fun entry _ => ?_
    cases entry with
    | store table index source =>
      by_cases same : table = key <;> simp [stays, Block.table?, Entry.storesInto, same, taken]
    | allocate size kind table => simp [Entry.storesInto]
    | other code => simp [Entry.storesInto]
  · intro table index source member
    obtain ⟨present, other⟩ := List.mem_filter.mp member
    simpa [left.stores table index source present, Entry.storesInto] using other

/-- All marked tables go. -/
theorem cleared_fields (fits : scheme.Fits origin) {keys : List MemberKey}
    (taken : ∀ key ∈ keys, scheme.takesTable origin key = true)
    (cleared : Cleared scheme origin live gone dropped state)
    (here : state.cls.initializer? = some state.initializer)
    (left : Left scheme origin gone live) :
    let later := keys.foldl removeField state
    (∃ live', Left scheme origin (fun table => gone table || keys.contains table) live' ∧
      Cleared scheme origin live' (fun table => gone table || keys.contains table) dropped later) ∧
      later.cls.initializer? = some later.initializer ∧
      later.markedMethods = state.markedMethods := by
  induction keys generalizing state live gone with
  | nil => exact ⟨⟨live, by simpa using left, by simpa using cleared⟩, here, rfl⟩
  | cons key keys ih =>
    obtain ⟨cleared', here', marks⟩ := cleared_removeField fits cleared here key
    have more : (fun table => (gone table || decide (table = key)) || keys.contains table) =
        fun table => gone table || (key :: keys).contains table := by
      funext table
      rw [List.contains_cons, Bool.or_assoc]
      rfl
    obtain ⟨kept, here'', marks'⟩ := ih (fun other member => taken other (by simp [member]))
      cleared' here' (left.strip (taken key List.mem_cons_self))
    rw [more] at kept
    exact ⟨kept, here'', marks'.trans marks⟩

/-! ### Helpers -/

theorem callsHelper_of_call {owner : String} {helper : MemberKey} {entry : Entry}
    {instruction : Instruction} (inside : instruction ∈ Entry.code owner entry)
    (calling : isCall owner helper instruction = true) : entry.callsHelper helper = true := by
  cases instruction with
  | invokeStatic target flag =>
    obtain ⟨_, same⟩ := of_decide_eq_true calling
    cases entry with
    | allocate size kind table => simp [Entry.code, Block.code] at inside
    | other code => simp [Entry.code, Block.code] at inside
    | store table index source =>
      cases source with
      | int value => simp [Entry.code, Block.code, Source.code] at inside
      | long value => simp [Entry.code, Block.code, Source.code] at inside
      | string cipher key onInterface =>
        simp only [Entry.code, Block.code, Source.code, List.cons_append, List.nil_append,
          List.mem_cons, reduceCtorEq, Instruction.invokeStatic.injEq, List.not_mem_nil, or_false,
          false_or] at inside
        rw [inside.1] at same
        exact decide_eq_true (congrArg some same)
  | _ => cases calling

/-- A helper is called exactly by the stores that are left. -/
theorem Cleared.calls_eq_zero (fits : scheme.Fits origin)
    (cleared : Cleared scheme origin live gone dropped state) (helper : MemberKey) :
    calls state.cls helper = 0 ↔ live.any (Entry.callsHelper helper) = false := by
  rw [calls, List.countP_eq_zero, cleared.name, List.any_eq_false]
  constructor
  · intro uncalled entry member calling
    obtain ⟨front, method, back, located, _⟩ := cleared.located
    cases entry with
    | allocate size kind table => cases calling
    | other code => cases calling
    | store table index source =>
      cases source with
      | int value => cases calling
      | long value => cases calling
      | string cipher key onInterface =>
        cases of_decide_eq_true calling
        refine uncalled (.invokeStatic (helper.owned origin.name) onInterface) ?_ ?_
        · refine List.mem_flatMap.mpr ⟨method, by simp [located.split], ?_⟩
          rw [cleared.view located]
          refine List.mem_flatMap.mpr ⟨_, member, ?_⟩
          simp [Entry.code, Block.code, Source.code]
        · exact decide_eq_true ⟨rfl, rfl⟩
  · intro none instruction member
    obtain ⟨method, present, inside⟩ := List.mem_flatMap.mp member
    by_cases named : method.name = initializerName
    · rw [cleared.bodies method present, bodyOf_initializer named] at inside
      obtain ⟨entry, among, inside⟩ := List.mem_flatMap.mp inside
      exact fun calling => none entry among (callsHelper_of_call inside calling)
    · simp [isCall_of_foreign (cleared.foreign fits method present named instruction inside)]

/-- Choosing methods by their keys is choosing declarations. -/
theorem declarations_filter (methods : List Method) (chosen : MemberKey → Bool) :
    (methods.filter fun method => chosen method.key).map Method.declaration =
      (methods.map Method.declaration).filter fun entry => chosen ⟨entry.1, entry.2.1⟩ := by
  rw [List.filter_map]
  rfl

/-- A marked helper goes unless a store that is left calls it. -/
theorem cleared_removeHelper (fits : scheme.Fits origin)
    (cleared : Cleared scheme origin live gone dropped state) (named : key.name ≠ initializerName) :
    Cleared scheme origin live gone
      (fun helper => dropped helper ||
        (helper = key && !live.any (Entry.callsHelper helper))) (removeHelper state key) := by
  obtain ⟨⟨kept, cls⟩ | ⟨_, uncalled, cls⟩, removed⟩ := removeHelper_cases state key
  · have called : live.any (Entry.callsHelper key) = true := by
      simpa using mt (cleared.calls_eq_zero fits key).mpr (kept named)
    have same : (fun helper => dropped helper ||
        (decide (helper = key) && !live.any (Entry.callsHelper helper))) = dropped := by
      funext helper
      by_cases here : helper = key <;> simp [here, called]
    rw [same]
    exact ⟨cls ▸ cleared.name, cls ▸ cleared.located, cls ▸ cleared.fields, cls ▸ cleared.methods,
      cls ▸ cleared.bodies, removed ▸ cleared.removed⟩
  · have free := (cleared.calls_eq_zero fits key).mp uncalled
    obtain ⟨front, method, back, located, single⟩ := cleared.located
    have stays : method.key ≠ key := by
      rintro rfl
      exact named located.named
    refine ⟨?_, ⟨front.filter (·.key ≠ key), method, back.filter (·.key ≠ key),
      ⟨?_, located.named, ?_⟩, ?_⟩, ?_, ?_, ?_, removed ▸ cleared.removed⟩
    · rw [cls]
      exact cleared.name
    · rw [cls]
      simp [located.split, List.filter_append, stays]
    · exact fun other member => located.first other (List.mem_of_mem_filter member)
    · exact fun other member => single other (List.mem_of_mem_filter member)
    · rw [cls]
      exact cleared.fields
    · rw [cls, declarations_filter _ (· ≠ key), cleared.methods, ← declarations_filter _ (· ≠ key),
        List.filter_filter]
      refine congrArg _ (List.filter_congr fun other _ => ?_)
      by_cases same : other.key = key <;> simp [same, free]
    · rw [cls]
      exact fun other member => cleared.bodies other (List.mem_of_mem_filter member)

/-- The marked helpers that are not called any more go. -/
theorem cleared_helpers (fits : scheme.Fits origin) {keys : List MemberKey}
    (named : ∀ key ∈ keys, key.name ≠ initializerName)
    (cleared : Cleared scheme origin live gone dropped state) :
    Cleared scheme origin live gone
      (fun helper => dropped helper ||
        (keys.contains helper && !live.any (Entry.callsHelper helper)))
      (keys.foldl removeHelper state) := by
  induction keys generalizing state dropped with
  | nil => simpa using cleared
  | cons key keys ih =>
    have more : (fun helper => (dropped helper ||
          (decide (helper = key) && !live.any (Entry.callsHelper helper))) ||
          (keys.contains helper && !live.any (Entry.callsHelper helper))) =
        fun helper => dropped helper ||
          ((key :: keys).contains helper && !live.any (Entry.callsHelper helper)) := by
      funext helper
      rw [List.contains_cons, Bool.or_assoc, ← Bool.and_or_distrib_right]
      rfl
    have step := cleared_removeHelper fits cleared (named key List.mem_cons_self)
    rw [← more]
    exact ih (fun other member => named other (List.mem_cons_of_mem _ member)) step

/-! ### From the passes to the end of cleanup -/

variable {position : Nat}

theorem mem_of_firstStore {table : MemberKey} {index : Int32} {source : Source Int32 Int64}
    (first : firstStore live table index = some source) : .store table index source ∈ live := by
  obtain ⟨entry, member, found⟩ := List.exists_of_findSome?_eq_some first
  cases entry with
  | store other place source' =>
    simp only [Option.ite_none_right_eq_some, Option.some.injEq] at found
    obtain ⟨⟨rfl, rfl⟩, rfl⟩ := found
    exact member
  | allocate size kind other => cases found
  | other code => cases found

/-- When the passes are done nothing has gone yet. -/
theorem cleared_resolved (fits : scheme.Fits origin) (located : origin.initializer? = some position)
    (resolved : Resolved scheme origin position state) :
    ∃ live, Left scheme origin (fun _ => false) live ∧
      Cleared scheme origin live (fun _ => false) (fun _ => false) state ∧
      state.cls.initializer? = some state.initializer := by
  obtain ⟨live, view, subset, rest⟩ := resolved.initializer
  have outline : state.cls.outline = origin.outline := RecoveryState.frame_outline resolved.frame
  obtain ⟨name, fields, declarations⟩ := Class.outline_eq_iff.mp outline
  have here : state.initializer = position := RecoveryState.frame_initializer resolved.frame
  obtain ⟨front, method, back, located', length⟩ := initializerAt_of_found located
  obtain ⟨front', method', back', located'', length', _⟩ := located'.edited declarations
  have position' : front'.length = state.initializer := by rw [length', length, here]
  refine ⟨live, ⟨subset, rest, fun _ _ _ _ => rfl⟩, ⟨name, ?_, ?_, ?_, ?_, ?_⟩, ?_⟩
  · refine ⟨front', method', back', located'', fun other member => ?_⟩
    obtain ⟨offset, present⟩ := List.getElem?_of_mem member
    have found : state.cls.methods[front'.length + (offset + 1)]? = some other := by
      rw [located''.split, List.getElem?_append_right (Nat.le_add_right _ _),
        Nat.add_sub_cancel_left, List.getElem?_cons_succ, present]
    obtain ⟨declared, known, same, _⟩ := Class.exists_of_outline outline.symm found
    have named := name_ne_of_other fits located known (by omega)
    rwa [← show declared.name = other.name from congrArg (·.1) same]
  · simpa using fields
  · simpa using declarations
  · intro other member
    obtain ⟨number, found⟩ := List.getElem?_of_mem member
    obtain ⟨declared, known, same, _⟩ := Class.exists_of_outline outline.symm found
    have code : state.cls.codeAt number = other.code := by simp [Class.codeAt, found]
    simp only [Method.declaration, Prod.mk.injEq] at same
    have key : declared.key = other.key := by simp [Method.key, same]
    rw [← code, ← key]
    by_cases inside : number = position
    · subst inside
      rw [bodyOf_initializer (Class.name_of_initializer? located known), ← view, ← here]
      rfl
    · rw [bodyOf_other (name_ne_of_other fits located known inside)]
      exact resolved.bodies number declared known inside
  · intro table
    rw [RecoveryState.frame_removedFields resolved.frame]
    rfl
  · rw [located''.found, position']

/-- A helper that a value was unmasked with goes unless a store that is left calls
it. -/
theorem takesHelper_eq (left : Left scheme origin (scheme.takesTable origin) live)
    (helper : MemberKey) :
    scheme.takesHelper origin helper =
      (((scheme.usedSlots origin).any fun (table, index) =>
        (firstStore scheme.entries table index).any (·.helper? = some helper)) &&
        !live.any (Entry.callsHelper helper)) := by
  unfold takesHelper
  congr 1
  rw [Bool.eq_iff_iff, List.all_eq_true, Bool.not_eq_true', List.any_eq_false]
  constructor
  · intro all entry member calling
    cases entry with
    | allocate size kind table => cases calling
    | other code => cases calling
    | store table index source =>
      have taken := all _ (left.subset member)
      simp [left.stores table index source member, of_decide_eq_true calling] at taken
  · intro none entry member
    cases entry with
    | allocate size kind table => rfl
    | other code => rfl
    | store table index source =>
      by_contra neither
      simp only [ne_eq, decide_not, Bool.not_eq_true, Bool.or_eq_false_iff, Bool.not_eq_false',
        decide_eq_true_eq] at neither
      obtain ⟨calling, kept⟩ := neither
      have staying : .store table index source ∈ scheme.entries.filter (scheme.stays origin) :=
        List.mem_filter.mpr ⟨member, by simp [stays, Block.table?, kept]⟩
      rw [← left.rest] at staying
      exact none _ (List.mem_of_mem_filter staying) (decide_eq_true calling)

/-- What cleanup leaves before the last pass: the tables and helpers that go are
gone, but for the allocations. -/
theorem cleared_removeMarked (fits : scheme.Fits origin)
    (located : origin.initializer? = some position)
    (resolved : Resolved scheme origin position state) :
    (∃ live, Left scheme origin (scheme.takesTable origin) live ∧
      Cleared scheme origin live (scheme.takesTable origin) (scheme.takesHelper origin)
        (removeMarked state)) ∧
      (removeMarked state).cls.initializer? = some (removeMarked state).initializer := by
  obtain ⟨live, left, cleared, here⟩ := cleared_resolved fits located resolved
  have taken : ∀ key ∈ state.markedFields.keys, scheme.takesTable origin key = true := by
    intro key member
    rw [← resolved.fields]
    exact List.contains_iff_mem.mpr member
  obtain ⟨⟨live, left, cleared⟩, _, marks⟩ := cleared_fields fits taken cleared here left
  have gone : (fun table => false || state.markedFields.keys.contains table) =
      scheme.takesTable origin := by
    funext table
    rw [Bool.false_or, ← resolved.fields]
    rfl
  rw [gone] at left cleared
  have named : ∀ key ∈ state.markedMethods.keys, key.name ≠ initializerName := by
    intro key member
    have marked := (resolved.methods key).symm.trans (List.contains_iff_mem.mpr member)
    obtain ⟨⟨table, index⟩, _, found⟩ := List.any_eq_true.mp marked
    obtain ⟨source, first, helps⟩ := (Option.any_eq_true _ _).mp found
    exact ((suits_entry fits (mem_of_firstStore first)).2.2 key (of_decide_eq_true helps)).2.1
  have dropped : (fun helper => false || (state.markedMethods.keys.contains helper &&
      !live.any (Entry.callsHelper helper))) = scheme.takesHelper origin := by
    funext helper
    rw [Bool.false_or, takesHelper_eq left, ← resolved.methods]
    rfl
  have cleared' := cleared_helpers fits named cleared
  rw [dropped] at cleared'
  simp only [removeMarked, marks]
  refine ⟨⟨live, left, cleared'.name, cleared'.located, cleared'.fields, cleared'.methods,
    cleared'.bodies, cleared'.removed⟩, ?_⟩
  obtain ⟨front, method, back, at', _⟩ := cleared'.located
  rw [at'.found]
  rfl

/-! ### Allocations -/

theorem Left.remove {front back : List Entry} {size : Int32} {array : ArrayKind}
    (left : Left scheme origin gone (front ++ .allocate size array key :: back))
    (taken : scheme.takesTable origin key = true) : Left scheme origin gone (front ++ back) := by
  have among : front ++ back ⊆ front ++ .allocate size array key :: back :=
    ((List.sublist_cons_self _ back).append_left front).subset
  refine ⟨fun entry member => left.subset (among member), ?_,
    fun table index source member => left.stores table index source (among member)⟩
  rw [← left.rest, List.filter_append, List.filter_append, List.filter_cons_of_neg]
  simp [stays, Block.table?, taken]

/-- Taking out the allocation of a table that goes takes out its entry. -/
theorem left_of_changes {isTarget : MemberRef → Bool} {code after : Listing Instruction}
    (targets : ∀ table : MemberKey, isTarget (table.owned origin.name) = true →
      scheme.takesTable origin table = true)
    (changed : Changes (Cleanup.step isTarget) code after)
    (view : code.toList = live.flatMap (Entry.code origin.name))
    (left : Left scheme origin gone live) :
    ∃ live', after.toList = live'.flatMap (Entry.code origin.name) ∧
      Left scheme origin gone live' := by
  obtain ⟨id, changed⟩ := changed
  obtain ⟨size, array, field, newId, putId, stands, target, rfl⟩ :=
    Cleanup.step_eq_change.mp changed
  obtain ⟨tiles, tiling, rfl⟩ := Tiling.exists_of_toList view
  obtain ⟨front, table, back, rfl, split⟩ := allocation_tile tiling stands
  refine ⟨front.map (·.1) ++ back.map (·.1), ?_, ?_⟩
  · have removed := tiling.toList_remove split
    simpa only [List.map_append, List.map_cons, List.map_nil] using removed
  · rw [split, List.map_append, List.map_cons] at left
    exact left.remove (targets table target)

/-- A walk of the last pass. -/
theorem cleared_scan (left : Left scheme origin (scheme.takesTable origin) live)
    (cleared : Cleared scheme origin live (scheme.takesTable origin) dropped state)
    (here : state.cls.initializer? = some state.initializer) :
    (∃ live', Left scheme origin (scheme.takesTable origin) live' ∧
      Cleared scheme origin live' (scheme.takesTable origin) dropped
        (Cleanup.scan state).state) ∧
      (Cleanup.scan state).state.cls.initializer? =
        some (Cleanup.scan state).state.initializer := by
  obtain ⟨front, method, back, located, _⟩ := cleared.located
  have targets (table : MemberKey) (target : isRemoved state (table.owned origin.name) = true) :
      scheme.takesTable origin table = true := by
    rw [← cleared.removed]
    exact (of_decide_eq_true target).2
  have swept : ∃ live', (sweep (Cleanup.step (isRemoved state)) state.initializerCode.ids
      state.initializerCode 0).state.toList = live'.flatMap (Entry.code origin.name) ∧
      Left scheme origin (scheme.takesTable origin) live' :=
    sweep_keeps (fun code => ∃ live', code.toList = live'.flatMap (Entry.code origin.name) ∧
        Left scheme origin (scheme.takesTable origin) live')
      (fun before after ⟨live', view, left'⟩ changed => left_of_changes targets changed view left')
      ⟨live, (initializer_here located here).2 ▸ cleared.view located, left⟩
  obtain ⟨live', view, left'⟩ := swept
  have kept : Cleared scheme origin live' (scheme.takesTable origin) dropped
      (Cleanup.scan state).state ∧ _ :=
    cleared.edited here (fun _ => _) view rfl rfl rfl cleared.fields cleared.removed
  exact ⟨⟨live', left', kept.1⟩, kept.2⟩

/-- Where no allocation of a table that goes is found, only entries that stay are
left. -/
theorem Left.eq_of_still {code : Listing Instruction}
    (left : Left scheme origin (scheme.takesTable origin) live)
    (view : code.toList = live.flatMap (Entry.code origin.name))
    {isTarget : MemberRef → Bool}
    (targets : ∀ table : MemberKey, scheme.takesTable origin table = true →
      isTarget (table.owned origin.name) = true)
    (still : ∀ id ∈ code.ids, Cleanup.step isTarget code id = .skip) :
    live = scheme.entries.filter (scheme.stays origin) := by
  rw [← left.rest]
  refine (List.filter_eq_self.mpr fun entry member => ?_).symm
  cases entry with
  | other code => rfl
  | store table index source =>
    simp [stays, Block.table?, left.stores table index source member]
  | allocate size array table =>
    by_contra goes
    have taken : scheme.takesTable origin table = true := by
      simpa [stays, Block.table?] using goes
    obtain ⟨front, back, rfl⟩ := List.mem_iff_append.mp member
    rw [List.flatMap_append, List.flatMap_cons, ← List.append_assoc] at view
    obtain ⟨segment, stands, contents⟩ := stands_of_toList view
    obtain ⟨sizeId, newId, putId, rfl⟩ := segment_of_three contents
    have changed := Cleanup.step_eq_change.mpr
      ⟨size, array, table.owned origin.name, newId, putId, stands, targets table taken, rfl⟩
    have live := isLive_iff.mpr ⟨_, stands_live stands _ List.mem_cons_self⟩
    rw [still sizeId (mem_ids.mpr live)] at changed
    cases changed

/-! ### The whole recovery -/

end Scheme

end LiteralRecovery
