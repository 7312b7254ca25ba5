import LiteralRecovery.Proofs.KeyedState

/-! The account that decides about a marked table. Its windows, the stores and
the allocations found in the initializer, lie apart and hold one reference each,
so the references of a class are as many as the windows and the references
outside of them together. A table whose windows account for everything goes, one
after the other in key order; the counters say how much went with it. -/
namespace LiteralRecovery

namespace KeySet

/-- However keys are collected, they end up in key order, each once. -/
theorem ordered_ofList (keys : List MemberKey) : (ofList keys).Ordered :=
  List.foldlRecOn (motive := Ordered) keys insert ordered_empty
    fun _ ordered key _ => ordered.insert key

theorem mem_keys_ofList {keys : List MemberKey} {key : MemberKey} :
    key ∈ (ofList keys).keys ↔ key ∈ keys := by
  have collected (set : KeySet) :
      key ∈ (keys.foldl insert set).keys ↔ key ∈ keys ∨ key ∈ set.keys := by
    induction keys generalizing set with
    | nil => simp
    | cons head rest ih =>
      rw [List.foldl_cons, ih, insert, mem_insertInto, List.mem_cons, or_assoc, or_left_comm]
  rw [ofList, collected]
  exact or_iff_left List.not_mem_nil

end KeySet

namespace Cleanup

open Listing StaticTable

section Windows

variable {code : Listing Instruction} {field : MemberRef} {className : String}
  {window : List NodeId}

/-- The nodes of each store into a table and of each allocation of it. -/
def windows (code : Listing Instruction) (field : MemberRef) (className : String) :
    List (List NodeId) :=
  (stores code field className).map (·.nodes) ++ allocations code field

theorem length_windows (code : Listing Instruction) (field : MemberRef) (className : String) :
    (windows code field className).length =
      (stores code field className).length + (allocations code field).length := by
  rw [windows, List.length_append, List.length_map]

/-- A window is a stretch of live nodes around the one node that its table is known by. -/
structure Framed (code : Listing Instruction) (field : MemberRef) (window : List NodeId)
    (anchor : NodeId) : Prop where
  live : ∀ id ∈ window, code.isLive id = true
  distinct : window.Nodup
  anchored : anchor ∈ window
  refers : anchor ∈ referenceIds code field
  single : ∀ id ∈ window, id ∈ referenceIds code field → id = anchor

theorem nodup_of_stands {segment : List (NodeId × Instruction)} (stands : Stands code segment) :
    (segment.map (·.1)).Nodup := by
  obtain ⟨before, after, split⟩ := stands
  have distinct := code.ids_nodup
  rw [ids, split, List.map_append, List.map_append] at distinct
  exact (List.nodup_append.mp (List.nodup_append.mp distinct).1).2.1

/-- What stands in the code is framed by the only one of its nodes that refers to
the table. -/
theorem framed_of_stands {segment : List (NodeId × Instruction)} {anchor : NodeId}
    (stands : Stands code segment)
    (refers : ∃ instruction, (anchor, instruction) ∈ segment ∧
      isReference field instruction = true)
    (single : ∀ entry ∈ segment, isReference field entry.2 = true → entry.1 = anchor) :
    Framed code field (segment.map (·.1)) anchor := by
  have refers_iff {entry : NodeId × Instruction} (member : entry ∈ segment) :
      entry.1 ∈ referenceIds code field ↔ isReference field entry.2 = true := by
    have held := stands_live stands entry member
    rw [mem_referenceIds, held]
    cases entry.2 <;> simp [isReference]
  obtain ⟨instruction, member, reference⟩ := refers
  refine ⟨?_, nodup_of_stands stands, List.mem_map.mpr ⟨_, member, rfl⟩,
    (refers_iff member).mpr reference, ?_⟩
  · intro id inside
    obtain ⟨entry, present, rfl⟩ := List.mem_map.mp inside
    exact isLive_iff.mpr ⟨_, stands_live stands entry present⟩
  · intro id inside reference
    obtain ⟨entry, present, rfl⟩ := List.mem_map.mp inside
    exact single entry present ((refers_iff present).mp reference)

theorem framed_store {site : StoreSite} (counted : site ∈ stores code field className) :
    Framed code field site.nodes (site.nodes.headD 0) := by
  obtain ⟨id, kind, hit⟩ := mem_stores.mp counted
  obtain ⟨segment, stands, shape, start⟩ := store?_eq_some.mp hit
  rw [← shape.nodes]
  apply framed_of_stands stands
  · cases shape <;> exact ⟨_, List.mem_cons_self, by simp [isReference]⟩
  · cases shape <;> simp [isReference]

theorem framed_allocation {nodes : List NodeId} (counted : nodes ∈ allocations code field) :
    Framed code field nodes (nodes.getLastD 0) := by
  obtain ⟨id, hit⟩ := mem_allocations.mp counted
  obtain ⟨size, kind, target, newId, putId, stands, same, rfl⟩ := allocation?_eq_some.mp hit
  cases of_decide_eq_true same
  exact framed_of_stands stands ⟨.putStatic field, by simp, by simp [isReference]⟩
    (by simp [isReference])

theorem framed_of_window (counted : window ∈ windows code field className) :
    ∃ anchor ∈ scaffoldIds code field className, Framed code field window anchor := by
  rcases List.mem_append.mp counted with stored | allocated
  · obtain ⟨site, member, rfl⟩ := List.mem_map.mp stored
    exact ⟨_, List.mem_append_left _ (List.mem_map.mpr ⟨site, member, rfl⟩), framed_store member⟩
  · exact ⟨_, List.mem_append_right _ (List.mem_map.mpr ⟨window, allocated, rfl⟩),
      framed_allocation allocated⟩

theorem Framed.countP {anchor : NodeId} (framed : Framed code field window anchor) :
    window.countP (· ∈ referenceIds code field) = 1 := by
  have only : ∀ id ∈ window,
      (decide (id ∈ referenceIds code field) = true ↔ (id == anchor) = true) := by
    intro id inside
    rw [decide_eq_true_iff, beq_iff_eq]
    constructor
    · exact framed.single id inside
    · rintro rfl
      exact framed.refers
  rw [List.countP_congr only]
  exact List.count_eq_one_of_mem framed.distinct framed.anchored

/-- No two windows of a table share a node. -/
theorem windows_apart (code : Listing Instruction) (field : MemberRef) (className : String) :
    (windows code field className).Pairwise List.Disjoint := by
  rw [windows, List.pairwise_append]
  refine ⟨?_, ?_, ?_⟩
  · rw [List.pairwise_map]
    refine List.pairwise_filterMap.mpr (code.items_ascending.imp ?_)
    intro early late below site found site' found'
    obtain ⟨kind, hit⟩ := store_found_iff.mp found
    obtain ⟨kind', hit'⟩ := store_found_iff.mp found'
    obtain ⟨segment, stands, shape, start⟩ := store?_eq_some.mp hit
    obtain ⟨segment', stands', shape', start'⟩ := store?_eq_some.mp hit'
    rcases stores_apart_or_same stands shape.constant stands' shape'.constant with apart | rfl
    · rw [← shape.nodes, ← shape'.nodes]
      intro id inside inside'
      obtain ⟨entry, member, rfl⟩ := List.mem_map.mp inside
      exact apart entry member inside'
    · have same := (shape.unique shape').2.2
      subst same
      rw [start] at start'
      exact absurd (Option.some.inj start') (Nat.ne_of_lt below)
  · refine List.pairwise_filterMap.mpr (code.items_ascending.imp ?_)
    intro early late below nodes found nodes' found'
    obtain ⟨_, _, _, newId, putId, stands, _, rfl⟩ := allocation?_eq_some.mp found
    obtain ⟨_, _, _, newId', putId', stands', _, rfl⟩ := allocation?_eq_some.mp found'
    rcases allocations_apart_or_same stands stands' with apart | ⟨same, _, _⟩
    · exact apart
    · exact absurd same (Nat.ne_of_lt below)
  · intro nodes stored nodes' allocated
    obtain ⟨site, counted, rfl⟩ := List.mem_map.mp stored
    obtain ⟨_, _, hit⟩ := mem_stores.mp counted
    obtain ⟨segment, stands, shape, _⟩ := store?_eq_some.mp hit
    obtain ⟨_, found⟩ := mem_allocations.mp allocated
    obtain ⟨_, _, _, newId, putId, stands', _, rfl⟩ := allocation?_eq_some.mp found
    rw [← shape.nodes]
    intro id inside
    obtain ⟨entry, member, rfl⟩ := List.mem_map.mp inside
    exact store_apart_from_allocation stands shape.constant stands' entry member

/-- The references inside windows are the ones that windows are known by. -/
theorem mem_window_iff_mem_scaffoldIds {id : NodeId} (refers : id ∈ referenceIds code field) :
    (∃ window ∈ windows code field className, id ∈ window) ↔
      id ∈ scaffoldIds code field className := by
  constructor
  · rintro ⟨window, counted, inside⟩
    obtain ⟨anchor, listed, framed⟩ := framed_of_window counted
    exact framed.single id inside refers ▸ listed
  · intro listed
    rcases List.mem_append.mp listed with stored | allocated
    · obtain ⟨site, counted, rfl⟩ := List.mem_map.mp stored
      exact ⟨site.nodes, List.mem_append_left _ (List.mem_map_of_mem counted),
        (framed_store counted).anchored⟩
    · obtain ⟨nodes, counted, rfl⟩ := List.mem_map.mp allocated
      exact ⟨nodes, List.mem_append_right _ counted, (framed_allocation counted).anchored⟩

end Windows

/-! ### References of a whole class -/

section Outside

variable {cls : Class} {initializer : Nat} {field : MemberRef}

/-- Every node of a class that refers to the table. -/
def referencePlaces (cls : Class) (field : MemberRef) : List Place :=
  cls.methods.zipIdx.flatMap fun (method, position) =>
    (referenceIds method.code field).map (Place.mk position)

theorem mem_referencePlaces {place : Place} :
    place ∈ referencePlaces cls field ↔
      place.node ∈ referenceIds (cls.codeAt place.method) field := by
  obtain ⟨number, node⟩ := place
  simp only [referencePlaces, List.mem_flatMap, List.mem_map, Prod.exists,
    List.mem_zipIdx_iff_getElem?, Place.mk.injEq, Class.codeAt]
  constructor
  · rintro ⟨method, position, held, id, refers, rfl, rfl⟩
    rwa [held]
  · intro refers
    cases held : cls.methods[number]? with
    | none =>
      rw [held] at refers
      cases refers
    | some method =>
      rw [held] at refers
      exact ⟨method, number, held, node, refers, rfl, rfl⟩

theorem length_referencePlaces (cls : Class) (field : MemberRef) :
    (referencePlaces cls field).length = references cls field := by
  have shape : ∀ entry : Method × Nat,
      ((referenceIds entry.1.code field).map (Place.mk entry.2)).length =
        entry.1.code.toList.countP (isReference field) := by
    intro entry
    rw [List.length_map, length_referenceIds]
  rw [referencePlaces, List.length_flatMap, references, Class.instructions, List.countP_flatMap]
  conv_rhs => rw [← List.zipIdx_map_fst 0 cls.methods, List.map_map]
  simp only [shape]
  rfl

theorem place_injective (number : Nat) : Function.Injective (Place.mk number) :=
  fun _ _ same => (Place.mk.inj same).2

theorem referencePlaces_nodup (cls : Class) (field : MemberRef) :
    (referencePlaces cls field).Nodup := by
  have distinct (code : Listing Instruction) : (referenceIds code field).Nodup :=
    code.ids_nodup.sublist (List.filter_sublist.map _)
  rw [referencePlaces, List.nodup_flatMap]
  constructor
  · intro entry _
    exact (distinct _).map (place_injective entry.2)
  · have positions : (cls.methods.zipIdx.map Prod.snd).Nodup := by
      rw [List.zipIdx_map_snd]
      exact List.nodup_range'
    refine (List.pairwise_map.mp positions).imp ?_
    intro early late different place inside inside'
    obtain ⟨_, _, rfl⟩ := List.mem_map.mp inside
    obtain ⟨_, _, same⟩ := List.mem_map.mp inside'
    exact different (Place.mk.inj same).1.symm

/-- Whether a place lies in one of the windows that the initializer has for the table. -/
def Inside (cls : Class) (initializer : Nat) (field : MemberRef) (place : Place) : Prop :=
  place.method = initializer ∧
    ∃ window ∈ windows (cls.codeAt initializer) field cls.name, place.node ∈ window

instance (cls : Class) (initializer : Nat) (field : MemberRef) (place : Place) :
    Decidable (Inside cls initializer field place) :=
  inferInstanceAs (Decidable (_ ∧ _))

/-- The references that lie in no window. -/
def outsiders (cls : Class) (initializer : Nat) (field : MemberRef) : List Place :=
  (referencePlaces cls field).filter fun place => ¬ Inside cls initializer field place

/-- As many references lie inside as there are windows. -/
theorem length_insiders (cls : Class) (initializer : Nat) (field : MemberRef) :
    ((referencePlaces cls field).filter fun place => Inside cls initializer field place).length =
      (windows (cls.codeAt initializer) field cls.name).length := by
  have anchors := (scaffoldIds_nodup (cls.codeAt initializer) field cls.name).map
    (place_injective initializer)
  have same : ((referencePlaces cls field).filter fun place =>
      Inside cls initializer field place).Perm
        ((scaffoldIds (cls.codeAt initializer) field cls.name).map (Place.mk initializer)) := by
    refine (List.perm_ext_iff_of_nodup ((referencePlaces_nodup cls field).filter _) anchors).mpr ?_
    intro place
    rw [List.mem_filter, decide_eq_true_iff, mem_referencePlaces, List.mem_map]
    constructor
    · rintro ⟨refers, here, inside⟩
      rw [here] at refers
      exact ⟨place.node, (mem_window_iff_mem_scaffoldIds refers).mp inside, by rw [← here]⟩
    · rintro ⟨node, listed, rfl⟩
      have refers := scaffoldIds_subset _ _ _ listed
      exact ⟨refers, rfl, (mem_window_iff_mem_scaffoldIds refers).mpr listed⟩
  rw [same.length_eq, List.length_map, length_windows, scaffoldIds, List.length_append,
    List.length_map, List.length_map]

/-- References are windows and outsiders. -/
theorem references_eq_windows_add_outsiders (cls : Class) (initializer : Nat)
    (field : MemberRef) :
    references cls field =
      (stores (cls.codeAt initializer) field cls.name).length +
        (allocations (cls.codeAt initializer) field).length +
        (outsiders cls initializer field).length := by
  rw [← length_windows, ← length_insiders, ← length_referencePlaces, outsiders]
  have both := (referencePlaces cls field).length_eq_length_filter_add
    fun place => decide (Inside cls initializer field place)
  simpa using both

theorem outsiders_eq_nil_iff :
    outsiders cls initializer field = [] ↔
      ∀ place ∈ referencePlaces cls field, Inside cls initializer field place := by
  simp [outsiders, List.filter_eq_nil_iff]

end Outside

/-! ### Marked tables, one after the other -/

/-- The stores found for a marked table. -/
def storesFor (state : RecoveryState) (key : MemberKey) : List StoreSite :=
  stores state.initializerCode (key.owned state.cls.name) state.cls.name

/-- The windows of a marked table are as many as the references to it. -/
def Tallies (state : RecoveryState) (key : MemberKey) : Prop :=
  references state.cls (key.owned state.cls.name) =
    (storesFor state key).length +
      (allocations state.initializerCode (key.owned state.cls.name)).length

/-- A table is gone, with its declarations and its stores. -/
structure TableGone (before : RecoveryState) (key : MemberKey) (after : RecoveryState) :
    Prop where
  name : after.cls.name = before.cls.name
  initializer : after.initializer = before.initializer
  fields : after.cls.fields = before.cls.fields.filter (·.key ≠ key)
  code : after.initializerCode.items =
    before.initializerCode.items.filter fun entry =>
      ∀ site ∈ storesFor before key, entry.1 ∉ site.nodes
  others : ∀ number, number ≠ before.initializer →
    after.cls.methods[number]? = before.cls.methods[number]?
  declared : after.cls.methods.map Method.declaration = before.cls.methods.map Method.declaration
  removed : after.removedFields = before.removedFields.insert key
  stats : after.stats =
    { before.stats with
      strippedStores := before.stats.strippedStores + (storesFor before key).length
      removedFields := before.stats.removedFields + before.cls.fields.countP (·.key = key) }

/-- A table stays, and the log says how many references are in the way. -/
structure TableKept (before : RecoveryState) (key : MemberKey) (after : RecoveryState) :
    Prop where
  cls : after.cls = before.cls
  initializer : after.initializer = before.initializer
  removed : after.removedFields = before.removedFields
  stats : after.stats = before.stats
  warned : after.events = before.events.push (.fieldKept before.cls.name key
    (outsiders before.cls before.initializer (key.owned before.cls.name)).length)

/-- Tables of a list of keys are looked at in turn, each in the state that the
ones before it left; the stores that went are listed. -/
inductive TablesSettled : List MemberKey → RecoveryState → List StoreSite → RecoveryState → Prop
  | done (state : RecoveryState) : TablesSettled [] state [] state
  | gone {key : MemberKey} {keys : List MemberKey} {before middle after : RecoveryState}
      {stripped : List StoreSite} (tallies : Tallies before key)
      (gone : TableGone before key middle) (later : TablesSettled keys middle stripped after) :
      TablesSettled (key :: keys) before (storesFor before key ++ stripped) after
  | kept {key : MemberKey} {keys : List MemberKey} {before middle after : RecoveryState}
      {stripped : List StoreSite} (differs : ¬ Tallies before key)
      (kept : TableKept before key middle) (later : TablesSettled keys middle stripped after) :
      TablesSettled (key :: keys) before stripped after

section Step

variable {state : RecoveryState} {key : MemberKey}

theorem items_strip (state : RecoveryState) (sites : List StoreSite) :
    ((state.cls.editCode state.initializer
        (·.removeAll (sites.flatMap (·.nodes)))).codeAt state.initializer).items =
      state.initializerCode.items.filter fun entry => ∀ site ∈ sites, entry.1 ∉ site.nodes := by
  by_cases valid : state.initializer < state.cls.methods.length
  · rw [Class.codeAt_editCode_self valid, items_removeAll]
    refine List.filter_congr fun entry _ => ?_
    simp [List.mem_flatMap]
  · rw [Class.editCode_of_not_lt valid, RecoveryState.initializerCode,
      Class.codeAt_of_not_lt valid]
    rfl

theorem tableGone_removeField (tallies : Tallies state key) :
    TableGone state key (removeField state key) := by
  have declarations := state.cls.fields.length_eq_length_filter_add (fun field => field.key ≠ key)
  have counted : state.cls.fields.length - (state.cls.fields.filter (·.key ≠ key)).length =
      state.cls.fields.countP (·.key = key) := by
    rw [declarations, Nat.add_sub_cancel_left, List.countP_eq_length_filter]
    simp
  unfold Tallies storesFor MemberKey.owned at tallies
  rw [removeField, if_neg (not_not_intro tallies)]
  refine ⟨rfl, rfl, rfl, items_strip state _, ?_, ?_, rfl, ?_⟩
  · intro number different
    simp only [RecoveryState.editInitializer, Class.editCode]
    exact List.getElem?_modify_ne _ _ (Ne.symm different)
  · exact (Class.outline_eq_iff.mp (state.cls.outline_editCode state.initializer
      (·.removeAll ((storesFor state key).flatMap (·.nodes))))).2.2
  · simp only [RecoveryState.editInitializer, Class.fields_editCode, counted, storesFor,
      MemberKey.owned]

theorem tableKept_removeField (differs : ¬ Tallies state key) :
    TableKept state key (removeField state key) := by
  have count := references_eq_windows_add_outsiders state.cls state.initializer
    (key.owned state.cls.name)
  unfold MemberKey.owned at count
  unfold Tallies storesFor MemberKey.owned at differs
  rw [removeField, if_pos differs]
  refine ⟨rfl, rfl, rfl, rfl, ?_⟩
  simp only [RecoveryState.log, RecoveryState.initializerCode, MemberKey.owned]
  congr 2
  omega

theorem settles_removeField (keys : List MemberKey) (state : RecoveryState) :
    ∃ stripped, TablesSettled keys state stripped (keys.foldl removeField state) := by
  induction keys generalizing state with
  | nil => exact ⟨[], .done state⟩
  | cons key keys ih =>
    obtain ⟨stripped, later⟩ := ih (removeField state key)
    by_cases tallies : Tallies state key
    · exact ⟨_, .gone tallies (tableGone_removeField tallies) later⟩
    · exact ⟨_, .kept tallies (tableKept_removeField tallies) later⟩

end Step

/-- The counters rise by the stores and the declarations that went. -/
theorem TablesSettled.counts {keys : List MemberKey} {before after : RecoveryState}
    {stripped : List StoreSite} (settled : TablesSettled keys before stripped after) :
    after.stats.strippedStores = before.stats.strippedStores + stripped.length ∧
    after.stats.removedFields + after.cls.fields.length =
      before.stats.removedFields + before.cls.fields.length ∧
    after.stats.removedMethods = before.stats.removedMethods ∧
    after.cls.methods.length = before.cls.methods.length := by
  induction settled with
  | done state => exact ⟨rfl, rfl, rfl, rfl⟩
  | @gone key keys before middle after stripped tallies gone later ih =>
    obtain ⟨stores, fields, methods, length⟩ := ih
    have declared := congrArg List.length gone.declared
    have split := before.cls.fields.length_eq_length_filter_add fun field => field.key ≠ key
    simp only [List.length_map] at declared
    simp only [decide_not, Bool.not_not, ← List.countP_eq_length_filter] at split
    rw [gone.stats, gone.fields] at fields
    rw [gone.stats] at stores methods
    simp only [decide_not, ← List.countP_eq_length_filter] at stores methods fields
    refine ⟨?_, ?_, methods, length.trans declared⟩
    · rw [stores, List.length_append, Nat.add_assoc]
    · omega
  | @kept key keys before middle after stripped differs kept later ih =>
    rwa [kept.stats, kept.cls] at ih

/-- Helpers take nothing but themselves. -/
structure HelpersSettled (before after : RecoveryState) : Prop where
  methods : after.cls.methods.Sublist before.cls.methods
  counted : after.stats.removedMethods + after.cls.methods.length =
    before.stats.removedMethods + before.cls.methods.length
  stats : after.stats = { before.stats with removedMethods := after.stats.removedMethods }
  fields : after.cls.fields = before.cls.fields
  removed : after.removedFields = before.removedFields

theorem HelpersSettled.refl (state : RecoveryState) : HelpersSettled state state :=
  ⟨.refl _, rfl, rfl, rfl, rfl⟩

theorem HelpersSettled.trans {before middle after : RecoveryState}
    (first : HelpersSettled before middle) (second : HelpersSettled middle after) :
    HelpersSettled before after where
  methods := second.methods.trans first.methods
  counted := second.counted.trans first.counted
  stats := by
    rw [second.stats, first.stats]
  fields := second.fields.trans first.fields
  removed := second.removed.trans first.removed

theorem settles_removeHelper (state : RecoveryState) (key : MemberKey) :
    HelpersSettled state (removeHelper state key) := by
  simp only [removeHelper]
  split
  · exact .refl state
  · split
    · exact ⟨.refl _, rfl, rfl, rfl, rfl⟩
    · have fewer : (state.cls.methods.filter (·.key ≠ key)).Sublist state.cls.methods :=
        List.filter_sublist
      have shorter := fewer.length_le
      refine ⟨fewer, ?_, rfl, rfl, rfl⟩
      simp only
      omega

theorem settles_removeHelpers (keys : List MemberKey) (state : RecoveryState) :
    HelpersSettled state (keys.foldl removeHelper state) := by
  induction keys generalizing state with
  | nil => exact .refl state
  | cons key keys ih => exact (settles_removeHelper state key).trans (ih _)

/-- The account of a table: its windows lie apart, stretches of live nodes with one
reference in each, and what else refers to the table is what is left when they are
taken off. -/
structure Accounted (cls : Class) (initializer : Nat) (field : MemberRef) : Prop where
  apart : (windows (cls.codeAt initializer) field cls.name).Pairwise List.Disjoint
  live : ∀ window ∈ windows (cls.codeAt initializer) field cls.name, ∀ id ∈ window,
    (cls.codeAt initializer).isLive id = true
  single : ∀ window ∈ windows (cls.codeAt initializer) field cls.name,
    window.Nodup ∧ window.countP (· ∈ referenceIds (cls.codeAt initializer) field) = 1
  enough : (stores (cls.codeAt initializer) field cls.name).length +
    (allocations (cls.codeAt initializer) field).length ≤ references cls field
  tallies_iff : references cls field =
      (stores (cls.codeAt initializer) field cls.name).length +
        (allocations (cls.codeAt initializer) field).length ↔
    ∀ place ∈ referencePlaces cls field, Inside cls initializer field place
  rest : references cls field - (stores (cls.codeAt initializer) field cls.name).length -
    (allocations (cls.codeAt initializer) field).length = (outsiders cls initializer field).length

theorem accounted (cls : Class) (initializer : Nat) (field : MemberRef) :
    Accounted cls initializer field := by
  have count := references_eq_windows_add_outsiders cls initializer field
  have framed {window : List NodeId}
      (counted : window ∈ windows (cls.codeAt initializer) field cls.name) :
      ∃ anchor, Framed (cls.codeAt initializer) field window anchor := by
    obtain ⟨anchor, _, framed⟩ := framed_of_window counted
    exact ⟨anchor, framed⟩
  refine ⟨windows_apart _ _ _, ?_, ?_, by omega, ?_, by omega⟩
  · intro window counted
    obtain ⟨anchor, framed⟩ := framed counted
    exact framed.live
  · intro window counted
    obtain ⟨anchor, framed⟩ := framed counted
    exact ⟨framed.distinct, framed.countP⟩
  · rw [← outsiders_eq_nil_iff, ← List.length_eq_zero_iff]
    omega

/-- References add up. Whatever the class and wherever its initializer, the windows of
a table never outnumber the references to it, and where the numbers agree there is no
reference outside of them. Marked tables come up in key order; each goes with its
declarations and stores if the numbers agree by then, and stays with everything else as it is
if they do not. The counters rise by the stores, the declarations and the methods that went. -/
theorem marked_tables_accounted :
    (∀ (cls : Class) (initializer : Nat) (field : MemberRef), Accounted cls initializer field) ∧
    (∀ marks : List MemberKey, (KeySet.ofList marks).Ordered ∧
      ∀ key, key ∈ (KeySet.ofList marks).keys ↔ key ∈ marks) ∧
    ∀ state : RecoveryState, ∃ stripped tables,
      TablesSettled state.markedFields.keys state stripped tables ∧
      HelpersSettled tables (removeMarked state) ∧
      (removeMarked state).stats.strippedStores = state.stats.strippedStores + stripped.length ∧
      (removeMarked state).stats.removedFields + (removeMarked state).cls.fields.length =
        state.stats.removedFields + state.cls.fields.length ∧
      (removeMarked state).stats.removedMethods + (removeMarked state).cls.methods.length =
        state.stats.removedMethods + state.cls.methods.length := by
  refine ⟨accounted, fun marks => ⟨KeySet.ordered_ofList marks, fun key =>
    KeySet.mem_keys_ofList⟩, fun state => ?_⟩
  obtain ⟨stripped, tables⟩ := settles_removeField state.markedFields.keys state
  have settled := settles_removeHelpers
    (state.markedFields.keys.foldl removeField state).markedMethods.keys
    (state.markedFields.keys.foldl removeField state)
  have helpers : HelpersSettled (state.markedFields.keys.foldl removeField state)
      (removeMarked state) :=
    ⟨settled.methods, settled.counted, settled.stats, settled.fields, settled.removed⟩
  obtain ⟨stores, fields, methods, length⟩ := tables.counts
  refine ⟨stripped, _, tables, helpers, ?_, ?_, ?_⟩
  · rw [helpers.stats]
    exact stores
  · rw [helpers.stats, helpers.fields]
    exact fields
  · rw [helpers.counted, methods, length]

end Cleanup

end LiteralRecovery
