import LiteralRecovery.Proofs.PassRun
import Mathlib.Data.List.Perm.Subperm

/-! Reference accounting. Every store and every allocation of a table holds one
reference to it, and no two of them hold the same one. Hence a class refers to
a table at least as often as the initializer stores into and allocates it, and
where the numbers agree there is no reference anywhere else. -/
namespace LiteralRecovery.Cleanup

open Listing StaticTable

variable {code : Listing Instruction} {field : MemberRef} {className : String}

/-- Nothing stands twice at one node: the kind of a store is decided by it. -/
theorem store?_unique {id : NodeId} {kind kind' : ElementKind} {site site' : StoreSite}
    (found : store? code id field kind className = some site)
    (found' : store? code id field kind' className = some site') : kind = kind' ∧ site = site' := by
  obtain ⟨segment, stands, shape, start⟩ := store?_eq_some.mp found
  obtain ⟨segment', stands', shape', start'⟩ := store?_eq_some.mp found'
  rcases stores_apart_or_same stands shape.constant stands' shape'.constant with apart | rfl
  · obtain ⟨head, rest, rfl, same⟩ := shape.head
    obtain ⟨head', rest', rfl, same'⟩ := shape'.head
    rw [start] at same
    rw [start'] at same'
    cases same
    cases same'
    exact absurd (by simp) (apart (id, .getStatic field) (by simp))
  · exact (shape.unique shape').2

theorem store_found_iff {id : NodeId} {site : StoreSite} :
    ([ElementKind.int, .long, .reference].findSome? fun kind =>
      store? code id field kind className) = some site ↔
      ∃ kind, store? code id field kind className = some site := by
  constructor
  · intro found
    obtain ⟨kind, _, hit⟩ := List.exists_of_findSome?_eq_some found
    exact ⟨kind, hit⟩
  · rintro ⟨kind, hit⟩
    have some : ([ElementKind.int, .long, .reference].findSome? fun kind =>
        store? code id field kind className).isSome = true := by
      rw [List.findSome?_isSome_iff]
      exact ⟨kind, by cases kind <;> simp, by simp [hit]⟩
    obtain ⟨other, found⟩ := Option.isSome_iff_exists.mp some
    obtain ⟨kind', _, hit'⟩ := List.exists_of_findSome?_eq_some found
    rw [found, (store?_unique hit hit').2]

/-- The stores counted for a table are those that stand in the code. -/
theorem mem_stores {site : StoreSite} :
    site ∈ stores code field className ↔
      ∃ id kind, store? code id field kind className = some site := by
  simp only [stores, List.mem_filterMap, store_found_iff]
  constructor
  · rintro ⟨⟨id, _⟩, _, kind, hit⟩
    exact ⟨id, kind, hit⟩
  · rintro ⟨id, kind, hit⟩
    obtain ⟨content, present⟩ := isLive_iff.mp (live_of_store? hit)
    exact ⟨(id, content), mem_items.mpr present, kind, hit⟩

theorem mem_allocations {nodes : List NodeId} :
    nodes ∈ allocations code field ↔ ∃ id, allocation? code id (· = field) = some nodes := by
  simp only [allocations, List.mem_filterMap]
  constructor
  · rintro ⟨⟨id, _⟩, _, hit⟩
    exact ⟨id, hit⟩
  · rintro ⟨id, hit⟩
    obtain ⟨size, kind, target, newId, putId, stands, _, _⟩ := allocation?_eq_some.mp hit
    have present := stands_live stands (id, .intConst size) (by simp)
    exact ⟨(id, .intConst size), mem_items.mpr present, hit⟩

/-! ### The reference inside each of them -/

/-- The nodes that refer to the table. -/
def referenceIds (code : Listing Instruction) (field : MemberRef) : List NodeId :=
  (code.items.filter fun entry => isReference field entry.2).map (·.1)

theorem mem_referenceIds {id : NodeId} :
    id ∈ referenceIds code field ↔
      code.get? id = some (.getStatic field) ∨ code.get? id = some (.putStatic field) := by
  simp only [referenceIds, List.mem_map, List.mem_filter, Prod.exists, exists_and_right,
    exists_eq_right, mem_items]
  constructor
  · rintro ⟨instruction, held, refers⟩
    cases instruction <;> simp_all [isReference]
  · rintro (held | held)
    · exact ⟨_, held, by simp [isReference]⟩
    · exact ⟨_, held, by simp [isReference]⟩

theorem mem_referenceIds_removeAll {id : NodeId} {nodes : List NodeId} :
    id ∈ referenceIds (code.removeAll nodes) field ↔
      id ∉ nodes ∧ id ∈ referenceIds code field := by
  simp only [mem_referenceIds, get?_removeAll]
  split <;> simp [*]

theorem length_referenceIds (code : Listing Instruction) (field : MemberRef) :
    (referenceIds code field).length = code.toList.countP (isReference field) := by
  rw [referenceIds, toList, List.length_map, List.countP_map, List.countP_eq_length_filter]
  rfl

/-- One reference for each store and each allocation: the first node of a store
and the last node of an allocation. -/
def scaffoldIds (code : Listing Instruction) (field : MemberRef) (className : String) :
    List NodeId :=
  (stores code field className).map (·.nodes.headD 0) ++
    (allocations code field).map (·.getLastD 0)

theorem mem_scaffoldIds {id : NodeId} :
    id ∈ scaffoldIds code field className ↔
      (∃ kind site, store? code id field kind className = some site) ∨
      ∃ sizeId newId size kind, Stands code
        [(sizeId, .intConst size), (newId, .newArray kind), (id, .putStatic field)] := by
  simp only [scaffoldIds, List.mem_append, List.mem_map, mem_stores, mem_allocations]
  refine or_congr ⟨?_, ?_⟩ ⟨?_, ?_⟩
  · rintro ⟨site, ⟨head, kind, hit⟩, rfl⟩
    obtain ⟨segment, _, _, start⟩ := store?_eq_some.mp hit
    refine ⟨kind, site, ?_⟩
    rwa [List.headD_eq_head?_getD, start, Option.getD_some]
  · rintro ⟨kind, site, hit⟩
    obtain ⟨segment, _, _, start⟩ := store?_eq_some.mp hit
    exact ⟨site, ⟨id, kind, hit⟩, by rw [List.headD_eq_head?_getD, start, Option.getD_some]⟩
  · rintro ⟨nodes, ⟨start, hit⟩, rfl⟩
    obtain ⟨size, kind, target, newId, putId, stands, same, rfl⟩ := allocation?_eq_some.mp hit
    rw [of_decide_eq_true same] at stands
    exact ⟨start, newId, size, kind, stands⟩
  · rintro ⟨sizeId, newId, size, kind, stands⟩
    exact ⟨[sizeId, newId, id], ⟨sizeId, allocation?_eq_some.mpr
      ⟨size, kind, field, newId, id, stands, decide_eq_true rfl, rfl⟩⟩, rfl⟩

private theorem get?_of_storeHead {id : NodeId}
    (member : id ∈ (stores code field className).map (·.nodes.headD 0)) :
    code.get? id = some (.getStatic field) := by
  obtain ⟨site, counted, rfl⟩ := List.mem_map.mp member
  obtain ⟨_, kind, hit⟩ := mem_stores.mp counted
  obtain ⟨segment, stands, shape, _⟩ := store?_eq_some.mp hit
  obtain ⟨head, rest, rfl, same⟩ := shape.head
  rw [List.headD_eq_head?_getD, same]
  exact stands_live stands _ List.mem_cons_self

private theorem get?_of_allocationEnd {id : NodeId}
    (member : id ∈ (allocations code field).map (·.getLastD 0)) :
    code.get? id = some (.putStatic field) := by
  obtain ⟨nodes, counted, rfl⟩ := List.mem_map.mp member
  obtain ⟨_, found⟩ := mem_allocations.mp counted
  obtain ⟨_, _, target, newId, putId, stands, same, rfl⟩ := allocation?_eq_some.mp found
  rw [← of_decide_eq_true same]
  exact stands_live stands (putId, .putStatic target) (by simp)

theorem scaffoldIds_subset (code : Listing Instruction) (field : MemberRef) (className : String) :
    scaffoldIds code field className ⊆ referenceIds code field := by
  intro id member
  rw [mem_referenceIds]
  rcases List.mem_append.mp member with stored | allocated
  · exact .inl (get?_of_storeHead stored)
  · exact .inr (get?_of_allocationEnd allocated)

theorem scaffoldIds_nodup (code : Listing Instruction) (field : MemberRef) (className : String) :
    (scaffoldIds code field className).Nodup := by
  rw [scaffoldIds, List.nodup_append]
  refine ⟨?_, ?_, ?_⟩
  · rw [List.Nodup, List.pairwise_map]
    refine List.pairwise_filterMap.mpr (code.items_ascending.imp ?_)
    intro early late below site found site' found'
    obtain ⟨kind, hit⟩ := store_found_iff.mp found
    obtain ⟨kind', hit'⟩ := store_found_iff.mp found'
    obtain ⟨_, _, _, start⟩ := store?_eq_some.mp hit
    obtain ⟨_, _, _, start'⟩ := store?_eq_some.mp hit'
    rw [List.headD_eq_head?_getD, List.headD_eq_head?_getD, start, start']
    exact Nat.ne_of_lt below
  · rw [List.Nodup, List.pairwise_map]
    refine List.pairwise_filterMap.mpr (code.items_ascending.imp ?_)
    intro early late below nodes found nodes' found'
    obtain ⟨_, _, _, newId, putId, stands, _, rfl⟩ := allocation?_eq_some.mp found
    obtain ⟨_, _, _, newId', putId', stands', _, rfl⟩ := allocation?_eq_some.mp found'
    rcases allocations_apart_or_same stands stands' with apart | ⟨same, _, _⟩
    · intro shared
      exact apart putId (by simp) (by simp_all)
    · exact absurd same (Nat.ne_of_lt below)
  · rintro id stored _ allocated rfl
    have reads := get?_of_storeHead stored
    rw [get?_of_allocationEnd allocated] at reads
    cases reads

/-- A listing refers to a table at least as often as it stores into it and
allocates it. -/
theorem scaffold_le_references (code : Listing Instruction) (field : MemberRef)
    (className : String) :
    (stores code field className).length + (allocations code field).length ≤
      code.toList.countP (isReference field) := by
  have fits := (List.subperm_of_subset (scaffoldIds_nodup code field className)
    (scaffoldIds_subset code field className)).length_le
  rwa [length_referenceIds, scaffoldIds, List.length_append, List.length_map,
    List.length_map] at fits

/-- Where the numbers agree, every reference belongs to a store or an
allocation. -/
theorem references_in_scaffold
    (agree : code.toList.countP (isReference field) ≤
      (stores code field className).length + (allocations code field).length) :
    referenceIds code field ⊆ scaffoldIds code field className := by
  have contained := List.subperm_of_subset (scaffoldIds_nodup code field className)
    (scaffoldIds_subset code field className)
  refine (contained.perm_of_length_le ?_).symm.subset
  rwa [length_referenceIds, scaffoldIds, List.length_append, List.length_map, List.length_map]

/-! ### A class as a whole -/

variable {cls : Class} {front back : List Method} {method : Method}

theorem references_of_split (split : cls.methods = front ++ method :: back) (field : MemberRef) :
    references cls field =
      (front.flatMap (·.code.toList)).countP (isReference field) +
        method.code.toList.countP (isReference field) +
        (back.flatMap (·.code.toList)).countP (isReference field) := by
  simp [references, Class.instructions, split, List.countP_append, Nat.add_assoc]

/-- If a class refers to a table no more often than one of its methods stores
into and allocates it, then no other method refers to it at all. -/
theorem references_elsewhere (split : cls.methods = front ++ method :: back)
    (agree : references cls field =
      (stores method.code field className).length + (allocations method.code field).length) :
    referenceIds method.code field ⊆ scaffoldIds method.code field className ∧
      ∀ other ∈ front ++ back, ∀ instruction ∈ other.code.toList,
        isReference field instruction = false := by
  have least := scaffold_le_references method.code field className
  rw [references_of_split split] at agree
  refine ⟨references_in_scaffold (by omega), ?_⟩
  have clean {methods : List Method}
      (none : (methods.flatMap (·.code.toList)).countP (isReference field) = 0) :
      ∀ other ∈ methods, ∀ instruction ∈ other.code.toList,
        isReference field instruction = false := by
    intro other member instruction inside
    have absent := List.countP_eq_zero.mp none instruction
      (List.mem_flatMap.mpr ⟨other, member, inside⟩)
    simpa using absent
  intro other member
  rcases List.mem_append.mp member with early | late
  · exact clean (by omega) other early
  · exact clean (by omega) other late

end LiteralRecovery.Cleanup
