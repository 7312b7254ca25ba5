import LiteralRecovery.Proofs.Walk

/-! What one replaced read does to the state. The value comes from the memo,
from a store, or is the default; only the second touches anything but counters,
and the store it takes out lies apart from the read, so that the read still
stands when it is replaced. -/
namespace LiteralRecovery.StaticTable

open Listing

variable {code : Listing Instruction} {field : MemberRef} {index : Int32} {kind : ElementKind}
variable {className : String} {store : StoreSite} {site : ReadSite} {value : Instruction}
variable {state after : RecoveryState} {place : Place}

theorem live_of_store? {id : NodeId} (found : store? code id field kind className = some store) :
    code.isLive id = true := by
  obtain ⟨segment, stands, shape, start⟩ := store?_eq_some.mp found
  obtain ⟨head, rest, rfl, same⟩ := shape.head
  rw [start] at same
  cases same
  exact isLive_iff.mpr ⟨_, stands_live stands (id, .getStatic field) (by simp)⟩

/-- The store that is used is the first one of its slot. -/
theorem storeAt?_eq_some :
    storeAt? code field index kind className = some store ↔
      ∃ id, store? code id field kind className = some store ∧ store.index = index ∧
        ∀ earlier < id, ∀ other, store? code earlier field kind className = some other →
          other.index ≠ index := by
  simp only [storeAt?, List.findSome?_eq_some_iff, Option.filter_eq_some_iff,
    decide_eq_true_eq]
  constructor
  · rintro ⟨front, ⟨id, content⟩, back, split, ⟨found, atIndex⟩, none⟩
    refine ⟨id, found, atIndex, ?_⟩
    intro earlier below other hit same
    obtain ⟨held, present⟩ := isLive_iff.mp (live_of_store? hit)
    have member := mem_items.mpr present
    rw [split, List.mem_append, List.mem_cons] at member
    rcases member with early | here | late
    · have missed := none _ early
      rw [hit] at missed
      simp [same] at missed
    · cases here
      exact Nat.lt_irrefl _ below
    · have ascending := code.items_ascending
      rw [split, List.pairwise_append, List.pairwise_cons] at ascending
      exact Nat.lt_asymm below (ascending.2.1.1 _ late)
  · rintro ⟨id, found, atIndex, first⟩
    obtain ⟨content, present⟩ := isLive_iff.mp (live_of_store? found)
    obtain ⟨front, back, split⟩ := List.mem_iff_append.mp (mem_items.mpr present)
    refine ⟨front, (id, content), back, split, ⟨found, atIndex⟩, ?_⟩
    rintro ⟨earlier, held⟩ member
    have ascending := code.items_ascending
    rw [split, List.pairwise_append] at ascending
    have below := ascending.2.2 _ member _ List.mem_cons_self
    apply Option.filter_eq_none_iff.mpr
    intro other hit
    simpa using first earlier below other hit

theorem storeAt?_eq_none :
    storeAt? code field index kind className = none ↔
      ∀ id other, store? code id field kind className = some other → other.index ≠ index := by
  simp only [storeAt?, List.findSome?_eq_none_iff, Option.filter_eq_none_iff, decide_eq_true_eq]
  constructor
  · intro none id other hit
    obtain ⟨content, present⟩ := isLive_iff.mp (live_of_store? hit)
    exact none _ (mem_items.mpr present) other hit
  · intro none entry _ other hit
    exact none entry.1 other hit

/-- The three ways to a value. -/
theorem resolve_cases (found : resolve kind state site = .ok (value, after)) :
    (state.memo.lookup (site.field.key, site.index) = some value ∧
      after = { state with stats := count kind state.stats }) ∨
    (state.memo.lookup (site.field.key, site.index) = none ∧
      storeAt? state.initializerCode site.field site.index kind state.cls.name = none ∧
      value = .zero kind ∧
      after = { state with stats.defaulted := state.stats.defaulted + 1 }) ∨
    (state.memo.lookup (site.field.key, site.index) = none ∧ ∃ store helper,
      storeAt? state.initializerCode site.field site.index kind state.cls.name = some store ∧
      (state.cls.field? site.field.key).isSome = true ∧
      storedValue state.cls store = .ok (value, helper) ∧
      after = consume kind state site store value helper) := by
  unfold resolve at found
  split at found
  · rename_i remembered known
    cases found
    exact .inl ⟨known, rfl⟩
  · rename_i unknown
    split at found
    · rename_i missing
      cases found
      exact .inr (.inl ⟨unknown, missing, rfl, rfl⟩)
    · rename_i store hit
      split at found
      · cases found
      · rename_i declared
        split at found
        · cases found
        · rename_i stored helper held
          cases found
          exact .inr (.inr ⟨unknown, store, helper, hit,
            by simpa [Option.isSome_iff_ne_none] using declared, held, rfl⟩)

/-- A store that was used up has its value on record. -/
theorem lookup_consume {helper : Option MemberKey} {table : MemberKey} :
    (consume kind state site store value helper).memo.lookup (table, index) =
      if table = site.field.key ∧ index = site.index then some value
      else state.memo.lookup (table, index) := by
  simp only [consume, List.lookup_cons]
  by_cases same : table = site.field.key ∧ index = site.index
  · obtain ⟨rfl, rfl⟩ := same
    simp
  · have apart : ((table, index) == (site.field.key, site.index)) = false := by simpa using same
    simp [apart, same, RecoveryState.editInitializer]

/-- The change of a step, taken apart: the read that stands at the place, the
value found for it, and the edit that puts the value in. -/
theorem step_cases (changed : step kind state place = .change after) :
    ∃ site value resolved event,
      read? (state.cls.codeAt place.method) place.node state.cls.name kind = some site ∧
      resolve kind state site = .ok (value, resolved) ∧
      event = Event.readResolved resolved.cls.name site.field site.index
        ((resolved.cls.methods[place.method]?.map (·.signature)).getD "") value ∧
      after = { resolved with
        cls := resolved.cls.editCode place.method fun code =>
          (code.removeAll site.tail).replace place.node value
        events := resolved.events.push event } := by
  unfold step at changed
  split at changed
  · cases changed
  · rename_i site read
    split at changed
    · cases changed
    · rename_i value resolved found
      cases changed
      exact ⟨site, value, resolved, _, read, found, rfl, rfl⟩

/-- Whatever the value, the class loses a store of the initializer at most. -/
theorem resolve_cls (found : resolve kind state site = .ok (value, after)) :
    after.cls = state.cls ∨ ∃ store segment, Stands state.initializerCode segment ∧
      StoreSegment state.cls.name site.field kind store segment ∧
      after.cls = state.cls.editCode state.initializer (·.removeAll (segment.map (·.1))) := by
  rcases resolve_cases found with ⟨_, rfl⟩ | ⟨_, _, _, rfl⟩ | ⟨_, store, helper, hit, _, _, rfl⟩
  · exact .inl rfl
  · exact .inl rfl
  · obtain ⟨id, stored, _, _⟩ := storeAt?_eq_some.mp hit
    obtain ⟨segment, stands, shape, _⟩ := store?_eq_some.mp stored
    refine .inr ⟨store, segment, stands, shape, ?_⟩
    rw [shape.nodes]
    rfl

theorem codeAt_resolve (found : resolve kind state site = .ok (value, after))
    {method : Nat} {segment : List (NodeId × Instruction)}
    (stands : Stands (state.cls.codeAt method) segment)
    (apart : ∀ store stored, Stands state.initializerCode stored →
      StoreSegment state.cls.name site.field kind store stored → method = state.initializer →
      ∀ entry ∈ segment, entry.1 ∉ stored.map (·.1)) :
    Stands (after.cls.codeAt method) segment := by
  rcases resolve_cls found with same | ⟨store, stored, present, shape, edited⟩
  · rwa [same]
  · rw [edited]
    by_cases here : state.initializer = method
    · subst here
      by_cases valid : state.initializer < state.cls.methods.length
      · rw [Class.codeAt_editCode_self valid]
        obtain ⟨before, behind, split⟩ := stands
        exact split_removeAll split (apart store stored present shape rfl)
      · rwa [Class.editCode_of_not_lt valid]
    · rwa [Class.codeAt_editCode_ne here]

/-- A read still stands when its value has been found. -/
theorem read_stands_resolved
    (read : read? (state.cls.codeAt place.method) place.node state.cls.name kind = some site)
    (found : resolve kind state site = .ok (value, after)) :
    ∃ indexId loadId, site.tail = [indexId, loadId] ∧
      Stands (after.cls.codeAt place.method) [(place.node, .getStatic site.field),
        (indexId, .intConst site.index), (loadId, .arrayLoad kind)] := by
  obtain ⟨indexId, loadId, stands, _, tail⟩ := read?_eq_some.mp read
  refine ⟨indexId, loadId, tail, codeAt_resolve found stands ?_⟩
  intro store stored present shape here entry member shared
  have apart := store_apart_from_read present shape.constant (here ▸ stands)
  obtain ⟨twin, inside, same⟩ := List.mem_map.mp shared
  apply apart twin inside
  rw [same]
  simp only [List.mem_cons, List.not_mem_nil, or_false] at member ⊢
  rcases member with rfl | rfl | rfl <;> simp

/-- Every replaced read makes the class lighter by at least two. -/
theorem changes_shrink (changed : Changes (step kind) state after) :
    after.cls.weight + 2 ≤ state.cls.weight := by
  obtain ⟨place, changed⟩ := changed
  obtain ⟨site, value, resolved, event, read, found, _, rfl⟩ := step_cases changed
  obtain ⟨indexId, loadId, tail, stands⟩ := read_stands_resolved read found
  have lighter : resolved.cls.weight ≤ state.cls.weight := by
    rcases resolve_cls found with same | ⟨store, segment, present, shape, edited⟩
    · rw [same]
    · rw [edited]
      have taken : (state.cls.editCode state.initializer (·.removeAll _)).weight + _ ≤ _ :=
        Class.weight_editCode_add_le (Nat.le_of_eq (length_remove_segment present))
      exact Nat.le_of_add_right_le taken
  refine Nat.le_trans (Class.weight_editCode_add_le ?_) lighter
  have shorter := length_collapse value stands
  simp only [List.map_cons, List.map_nil, List.length_cons, List.length_nil, Nat.zero_add,
    Nat.reduceAdd] at shorter
  rw [tail]
  exact Nat.le_of_eq shorter

/-! ### Places -/

theorem mem_places {cls : Class} {number : Nat} {node : NodeId} :
    ⟨number, node⟩ ∈ places cls ↔ (cls.codeAt number).isLive node = true := by
  rw [← mem_ids, Class.codeAt]
  constructor
  · intro member
    obtain ⟨⟨method, position⟩, listed, inside⟩ := List.mem_flatMap.mp member
    obtain ⟨id, live, same⟩ := List.mem_map.mp inside
    cases same
    rw [List.mem_zipIdx_iff_getElem?.mp listed]
    exact live
  · intro live
    cases present : cls.methods[number]? with
    | none =>
      rw [present] at live
      cases live
    | some method =>
      rw [present] at live
      exact List.mem_flatMap.mpr ⟨(method, number), List.mem_zipIdx_iff_getElem?.mpr present,
        List.mem_map.mpr ⟨node, live, rfl⟩⟩

/-- Where every place is skipped there is no read. -/
theorem read?_eq_none_of_still (still : ∀ place ∈ places state.cls, step kind state place = .skip)
    (number : Nat) (node : NodeId) :
    read? (state.cls.codeAt number) node state.cls.name kind = none := by
  cases read : read? (state.cls.codeAt number) node state.cls.name kind with
  | none => rfl
  | some site =>
    obtain ⟨_, _, stands, _, _⟩ := read?_eq_some.mp read
    have live := isLive_iff.mpr ⟨_, stands_live stands _ List.mem_cons_self⟩
    have skipped := still ⟨number, node⟩ (mem_places.mpr live)
    simp only [step, read] at skipped
    split at skipped <;> cases skipped

end LiteralRecovery.StaticTable
