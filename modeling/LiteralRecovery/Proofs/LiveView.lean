import LiteralRecovery.Listing.Basic
import Mathlib.Data.List.Basic
import Mathlib.Data.List.Nodup
import Mathlib.Data.Nat.Find

/-! A listing is known by its live nodes. Every operation is described by what
it does to `items`, the live nodes in list order, so that no later argument
has to look at slots: removal filters, replacement maps, and a window is a
contiguous segment. -/
namespace LiteralRecovery.Listing

variable {α : Type} {list : Listing α} {id other : NodeId} {content value : α}

/-- The contents of a node decide whether it is among the live ones. -/
theorem mem_items : (id, content) ∈ list.items ↔ list.get? id = some content := by
  simp only [items, get?, List.mem_filterMap, Option.map_eq_some_iff, Prod.mk.injEq]
  constructor
  · rintro ⟨⟨slot, position⟩, member, found, held, rfl, rfl⟩
    rw [List.mem_zipIdx_iff_getElem?] at member
    simp only [Array.getElem?_toList] at member
    simp [member, held]
  · intro held
    obtain ⟨slot, found, held⟩ := Option.bind_eq_some_iff.mp held
    refine ⟨(slot, id), ?_, content, held, rfl, rfl⟩
    rw [List.mem_zipIdx_iff_getElem?]
    simpa using found

private theorem zipIdx_ascending (slots : List α) (start : Nat) :
    (slots.zipIdx start).Pairwise fun left right => left.2 < right.2 := by
  induction slots generalizing start with
  | nil => simp
  | cons slot rest ih =>
    simp only [List.zipIdx_cons, List.pairwise_cons]
    refine ⟨?_, ih (start + 1)⟩
    intro entry member
    have above := List.le_snd_of_mem_zipIdx member
    omega

/-- Live nodes come in the order of their numbers. -/
theorem items_ascending (list : Listing α) :
    list.items.Pairwise fun left right => left.1 < right.1 := by
  refine List.pairwise_filterMap.mpr ((zipIdx_ascending _ 0).imp ?_)
  rintro ⟨slot, position⟩ ⟨later, place⟩ below entry found entry' found'
  obtain ⟨_, _, rfl⟩ := Option.map_eq_some_iff.mp found
  obtain ⟨_, _, rfl⟩ := Option.map_eq_some_iff.mp found'
  exact below

theorem ids_ascending (list : Listing α) : list.ids.Pairwise (· < ·) := by
  rw [ids, List.pairwise_map]
  exact list.items_ascending

theorem ids_nodup (list : Listing α) : list.ids.Nodup :=
  (ids_ascending list).imp Nat.ne_of_lt

/-- Whatever lists the live nodes in ascending order is the live view. -/
theorem items_unique {view : List (NodeId × α)}
    (ascending : view.Pairwise fun left right => left.1 < right.1)
    (same : ∀ id content, (id, content) ∈ view ↔ list.get? id = some content) :
    list.items = view := by
  have distinct {entries : List (NodeId × α)}
      (sorted : entries.Pairwise fun left right => left.1 < right.1) : entries.Nodup := by
    apply sorted.imp
    rintro left right below rfl
    exact Nat.lt_irrefl _ below
  refine List.Perm.eq_of_pairwise ?_ list.items_ascending ascending ?_
  · intro left right _ _ below above
    exact absurd above (Nat.lt_asymm below)
  · apply (List.perm_ext_iff_of_nodup (distinct list.items_ascending) (distinct ascending)).mpr
    rintro ⟨id, content⟩
    rw [mem_items, same]

/-! ### One node at a time -/

theorem isLive_iff : list.isLive id = true ↔ ∃ content, list.get? id = some content :=
  Option.isSome_iff_exists

theorem lt_size_of_live (live : list.isLive id = true) : id < list.size := by
  by_contra outside
  have missing : list.slots[id]? = none := Array.getElem?_eq_none (by simpa [size] using outside)
  simp [isLive, get?, missing] at live

theorem mem_ids : id ∈ list.ids ↔ list.isLive id = true := by
  simp [ids, isLive_iff, ← mem_items]

theorem mem_toList : content ∈ list.toList ↔ ∃ id, list.get? id = some content := by
  simp [toList, ← mem_items]

@[simp] theorem toList_ofList (contents : List α) : (ofList contents).toList = contents := by
  have numbered (rest : List α) (start : Nat) :
      (((rest.map Slot.live).zipIdx start).filterMap fun entry =>
        entry.1.content?.map (entry.2, ·)).map (·.2) = rest := by
    induction rest generalizing start with
    | nil => rfl
    | cons content rest ih => simpa [Slot.content?] using ih (start + 1)
  simpa [toList, items, ofList] using numbered contents 0

@[simp] theorem size_remove (list : Listing α) (id : NodeId) :
    (list.remove id).size = list.size := by
  simp only [remove]
  split <;> simp [size]

theorem get?_remove :
    (list.remove id).get? other = if other = id then none else list.get? other := by
  simp only [remove]
  split
  · rename_i live
    have bound := lt_size_of_live live
    simp only [get?, Array.getElem?_setIfInBounds]
    by_cases same : id = other
    · subst same
      simp [show id < list.slots.size from bound, Slot.content?]
    · simp [same, Ne.symm same]
  · rename_i dead
    split
    · subst other
      simpa [isLive] using dead
    · rfl

theorem get?_replace (live : list.isLive id = true) :
    (list.replace id value).get? other = if other = id then some value else list.get? other := by
  have bound : id < list.slots.size := lt_size_of_live live
  simp only [replace, live, ↓reduceIte, get?, Array.getElem?_setIfInBounds]
  by_cases same : id = other
  · subst same
    simp [bound, Slot.content?]
  · simp [same, Ne.symm same]

@[simp] theorem size_replace (list : Listing α) (id : NodeId) (value : α) :
    (list.replace id value).size = list.size := by
  simp only [replace]
  split <;> simp [size]

@[simp] theorem size_removeAll (list : Listing α) (nodes : List NodeId) :
    (list.removeAll nodes).size = list.size := by
  induction nodes generalizing list with
  | nil => rfl
  | cons node nodes ih => exact (ih (list.remove node)).trans (size_remove list node)

theorem get?_removeAll (nodes : List NodeId) :
    (list.removeAll nodes).get? other = if other ∈ nodes then none else list.get? other := by
  induction nodes generalizing list with
  | nil => simp [removeAll]
  | cons node nodes ih =>
    have step : list.removeAll (node :: nodes) = (list.remove node).removeAll nodes := rfl
    rw [step, ih, get?_remove]
    by_cases same : other = node <;> simp [same]

theorem isLive_removeAll (nodes : List NodeId) :
    (list.removeAll nodes).isLive other = true ↔ other ∉ nodes ∧ list.isLive other = true := by
  simp only [isLive, get?_removeAll]
  split <;> simp [*]

theorem getElem?_slots_remove (list : Listing α) (id other : NodeId) :
    (list.remove id).slots[other]? =
      if other = id ∧ list.isLive id = true then some .vacant else list.slots[other]? := by
  by_cases live : list.isLive id = true
  · have bound : id < list.slots.size := lt_size_of_live live
    by_cases same : other = id
    · simp [remove, live, same, bound]
    · simp [remove, live, same, Array.getElem?_setIfInBounds_ne (Ne.symm same)]
  · simp [remove, live]

theorem getElem?_slots_replace (list : Listing α) (id other : NodeId) (value : α) :
    (list.replace id value).slots[other]? =
      if other = id ∧ list.isLive id = true then some (.live value) else list.slots[other]? := by
  by_cases live : list.isLive id = true
  · have bound : id < list.slots.size := lt_size_of_live live
    by_cases same : other = id
    · simp [replace, live, same, bound]
    · simp [replace, live, same, Array.getElem?_setIfInBounds_ne (Ne.symm same)]
  · simp [replace, live]

theorem ext_slots {other : Listing α} (same : ∀ id : NodeId, list.slots[id]? = other.slots[id]?) :
    list = other :=
  congrArg Listing.mk (Array.ext_getElem? same)

theorem isLive_remove (list : Listing α) (id other : NodeId) :
    (list.remove id).isLive other = (decide (other ≠ id) && list.isLive other) := by
  rw [isLive, get?_remove]
  by_cases same : other = id <;> simp [same, isLive]

theorem isLive_replace (list : Listing α) (id other : NodeId) (value : α) :
    (list.replace id value).isLive other = list.isLive other := by
  by_cases live : list.isLive id = true
  · rw [isLive, get?_replace live]
    by_cases same : other = id
    · simp [same, live]
    · simp [same, isLive]
  · simp [replace, live]

/-! ### Operations on the view -/

/-- Removal keeps the other live nodes, in their order. -/
theorem items_removeAll (list : Listing α) (nodes : List NodeId) :
    (list.removeAll nodes).items = list.items.filter fun entry => entry.1 ∉ nodes := by
  apply items_unique (list.items_ascending.filter _)
  intro id content
  rw [List.mem_filter, mem_items, get?_removeAll]
  split <;> simp [*]

/-- Replacement changes the contents of one live node in place. -/
theorem items_replace (live : list.isLive id = true) :
    (list.replace id value).items =
      list.items.map fun entry => if entry.1 = id then (id, value) else entry := by
  refine items_unique ?_ ?_
  · rw [List.pairwise_map]
    apply list.items_ascending.imp
    intro left right below
    split <;> split <;> simp_all
  · intro other content
    obtain ⟨held, found⟩ := isLive_iff.mp live
    rw [get?_replace live, List.mem_map]
    constructor
    · rintro ⟨entry, member, equal⟩
      split at equal
      · cases equal
        simp
      · rename_i different
        subst equal
        simpa [different] using mem_items.mp member
    · intro reads
      by_cases same : other = id
      · subst same
        exact ⟨(other, held), mem_items.mpr found, by simpa using reads⟩
      · exact ⟨(other, content), mem_items.mpr (by simpa [same] using reads), by simp [same]⟩

/-! ### The node that follows -/

theorem searchLive_eq_some {count : Nat} {found : NodeId} :
    list.searchLive count id = some found ↔
      list.isLive found = true ∧ id ≤ found ∧ found < id + count ∧
        ∀ between, id ≤ between → between < found → list.isLive between = false := by
  induction count generalizing id with
  | zero =>
    simp only [searchLive, reduceCtorEq, false_iff]
    rintro ⟨_, above, below, _⟩
    exact absurd above (Nat.not_le.mpr below)
  | succ count ih =>
    simp only [searchLive]
    split
    · rename_i live
      simp only [Option.some.injEq]
      constructor
      · rintro rfl
        exact ⟨live, Nat.le_refl _, Nat.lt_add_of_pos_right (Nat.succ_pos _),
          fun between above below => absurd above (Nat.not_le.mpr below)⟩
      · rintro ⟨_, above, _, gap⟩
        by_contra different
        have dead := gap id (Nat.le_refl _) (Nat.lt_of_le_of_ne above different)
        simp [dead] at live
    · rename_i dead
      rw [ih]
      constructor
      · rintro ⟨live, above, below, gap⟩
        refine ⟨live, Nat.le_of_succ_le above, Nat.add_right_comm id 1 count ▸ below, ?_⟩
        intro between atLeast under
        rcases Nat.eq_or_lt_of_le atLeast with rfl | beyond
        · simpa using dead
        · exact gap between beyond under
      · rintro ⟨live, above, below, gap⟩
        have different : id ≠ found := fun same => dead (same ▸ live)
        refine ⟨live, Nat.lt_of_le_of_ne above different,
          (Nat.add_right_comm id 1 count).symm ▸ below, ?_⟩
        exact fun between beyond => gap between (Nat.le_of_succ_le beyond)

/-- The search finds the least live node from `id` on. -/
theorem liveFrom_eq_some {found : NodeId} :
    list.liveFrom id = some found ↔
      list.isLive found = true ∧ id ≤ found ∧
        ∀ between, id ≤ between → between < found → list.isLive between = false := by
  rw [liveFrom, searchLive_eq_some]
  constructor
  · rintro ⟨live, above, _, gap⟩
    exact ⟨live, above, gap⟩
  · rintro ⟨live, above, gap⟩
    have bound := lt_size_of_live live
    refine ⟨live, above, ?_, gap⟩
    have inside : id ≤ list.size := Nat.le_trans above (Nat.le_of_lt bound)
    rwa [Nat.add_sub_cancel' inside]

theorem liveFrom_eq_none :
    list.liveFrom id = none ↔ ∀ node, id ≤ node → list.isLive node = false := by
  constructor
  · intro missing node above
    by_contra live
    simp only [Bool.not_eq_false] at live
    -- the least live node from `id` on would have been found
    have some : ∃ node, list.isLive node = true ∧ id ≤ node := ⟨node, live, above⟩
    classical
    have found : list.liveFrom id = Option.some (Nat.find some) := by
      refine liveFrom_eq_some.mpr ⟨(Nat.find_spec some).1, (Nat.find_spec some).2, ?_⟩
      intro between beyond under
      have least := Nat.find_min some under
      by_contra alive
      exact least ⟨by simpa using alive, beyond⟩
    rw [missing] at found
    cases found
  · intro dead
    by_contra present
    obtain ⟨found, equal⟩ := Option.ne_none_iff_exists'.mp present
    obtain ⟨live, above, _⟩ := liveFrom_eq_some.mp equal
    simp [dead found above] at live

theorem next_of_live (live : list.isLive id = true) : list.next id = list.liveFrom (id + 1) := by
  obtain ⟨content, held⟩ := isLive_iff.mp live
  obtain ⟨slot, found, inside⟩ := Option.bind_eq_some_iff.mp held
  cases slot with
  | live content => simp [next, found]
  | vacant => cases inside
  | closed => cases inside

section Segments

variable {before after segment rest : List (NodeId × α)}

theorem get?_of_split (split : list.items = before ++ (id, content) :: after) :
    list.get? id = some content :=
  mem_items.mp (by simp [split])

/-- The live node behind a live node is the next one of the view. -/
theorem next_of_split (split : list.items = before ++ (id, content) :: after) :
    list.next id = after.head?.map (·.1) := by
  have live : list.isLive id = true := isLive_iff.mpr ⟨content, get?_of_split split⟩
  have ascending := list.items_ascending
  rw [split, List.pairwise_append, List.pairwise_cons] at ascending
  obtain ⟨_, ⟨aboveHead, sorted⟩, across⟩ := ascending
  have located : ∀ node, list.isLive node = true →
      node ≤ id ∨ ∃ held, (node, held) ∈ after := by
    intro node alive
    obtain ⟨held, found⟩ := isLive_iff.mp alive
    have member := mem_items.mpr found
    rw [split, List.mem_append, List.mem_cons] at member
    rcases member with early | same | late
    · exact .inl (Nat.le_of_lt (across _ early _ List.mem_cons_self))
    · cases same
      exact .inl (Nat.le_refl _)
    · exact .inr ⟨held, late⟩
  rw [next_of_live live]
  cases after with
  | nil =>
    simp only [List.head?_nil, Option.map_none, liveFrom_eq_none]
    intro node above
    by_contra alive
    rcases located node (by simpa using alive) with below | ⟨_, none⟩
    · exact absurd above (Nat.not_le.mpr (Nat.lt_succ_of_le below))
    · cases none
  | cons entry after =>
    obtain ⟨found, held⟩ := entry
    simp only [List.head?_cons, Option.map_some, liveFrom_eq_some]
    refine ⟨isLive_iff.mpr ⟨held, mem_items.mp (by simp [split])⟩,
      aboveHead _ List.mem_cons_self, ?_⟩
    intro between beyond under
    by_contra alive
    rcases located between (by simpa using alive) with below | ⟨_, late⟩
    · exact absurd beyond (Nat.not_le.mpr (Nat.lt_succ_of_le below))
    · rcases List.mem_cons.mp late with same | later
      · cases same
        exact Nat.lt_irrefl _ under
      · exact Nat.lt_asymm under ((List.pairwise_cons.mp sorted).1 _ later)

theorem first_eq_head (list : Listing α) : list.first = list.items.head?.map (·.1) := by
  cases view : list.items with
  | nil =>
    refine liveFrom_eq_none.mpr fun node _ => ?_
    by_contra live
    obtain ⟨content, held⟩ := isLive_iff.mp (by simpa using live)
    have member := mem_items.mpr held
    simp [view] at member
  | cons entry rest =>
    obtain ⟨head, content⟩ := entry
    have held : list.get? head = some content := mem_items.mp (by simp [view])
    have sorted := list.items_ascending
    rw [view, List.pairwise_cons] at sorted
    refine liveFrom_eq_some.mpr ⟨isLive_iff.mpr ⟨content, held⟩, Nat.zero_le _, ?_⟩
    intro between _ below
    by_contra live
    obtain ⟨content', held'⟩ := isLive_iff.mp (by simpa using live)
    have member := mem_items.mpr held'
    rw [view, List.mem_cons] at member
    rcases member with same | later
    · cases same
      exact Nat.lt_irrefl _ below
    · exact Nat.lt_asymm below (sorted.1 _ later)

/-- A window is a contiguous segment of the live view. -/
theorem window_of_split (split : list.items = before ++ ((id, content) :: rest) ++ after) :
    list.window (rest.length + 1) id = some ((id, content) :: rest) := by
  induction rest generalizing before id content with
  | nil =>
    have held : list.get? id = some content := get?_of_split (by simpa using split)
    simp [window, held]
  | cons entry rest ih =>
    obtain ⟨following, held⟩ := entry
    have head : list.get? id = some content := get?_of_split (by simpa using split)
    have next : list.next id = some following := by
      have here : list.items = before ++ (id, content) :: (following, held) :: (rest ++ after) := by
        simpa using split
      rw [next_of_split here]
      rfl
    have behind : list.items =
        (before ++ [(id, content)]) ++ ((following, held) :: rest) ++ after := by
      simpa using split
    have tail := ih behind
    simp [window, head, next, tail]

/-- A node stands at one place of the view only. -/
theorem split_unique {before' after' : List (NodeId × α)} {content' : α}
    (first : list.items = before ++ (id, content) :: after)
    (second : list.items = before' ++ (id, content') :: after') :
    before = before' ∧ content = content' ∧ after = after' := by
  have twice : ∀ front middle back : List (NodeId × α), ∀ one two : α,
      list.items ≠ front ++ (id, one) :: (middle ++ (id, two) :: back) := by
    intro front middle back one two split
    have ascending := list.items_ascending
    rw [split, List.pairwise_append, List.pairwise_cons] at ascending
    exact Nat.lt_irrefl _ (ascending.2.1.1 (id, two) (by simp))
  rcases List.append_eq_append_iff.mp (first.symm.trans second) with
    ⟨middle, rfl, tail⟩ | ⟨middle, rfl, tail⟩
  · cases middle with
    | nil => simpa using tail
    | cons entry middle =>
      cases tail
      exact absurd first (twice before middle after' content content')
  · cases middle with
    | nil => simpa [eq_comm] using tail
    | cons entry middle =>
      cases tail
      exact absurd second (twice before' middle after content' content)

theorem split_of_window {count : Nat} (found : list.window (count + 1) id = some segment) :
    ∃ content rest before after, segment = (id, content) :: rest ∧ rest.length = count ∧
      list.items = before ++ segment ++ after := by
  induction count generalizing id segment with
  | zero =>
    obtain ⟨content, held, rfl⟩ := Option.map_eq_some_iff.mp found
    obtain ⟨before, after, split⟩ := List.mem_iff_append.mp (mem_items.mpr held)
    exact ⟨content, [], before, after, rfl, rfl, by simpa using split⟩
  | succ count ih =>
    simp only [window, Option.bind_eq_bind, Option.pure_def, Option.bind_eq_some_iff,
      Option.some.injEq] at found
    obtain ⟨content, held, following, next, tail, window, rfl⟩ := found
    obtain ⟨value, rest, front, after, rfl, length, split⟩ := ih window
    obtain ⟨before, late, whole⟩ := List.mem_iff_append.mp (mem_items.mpr held)
    have step := next_of_split whole
    rw [next] at step
    cases late with
    | nil => cases step
    | cons entry late =>
      obtain ⟨number, kept⟩ := entry
      simp only [List.head?_cons, Option.map_some, Option.some.injEq] at step
      subst number
      -- `following` stands at one place only, which is right behind `id`
      have here : list.items = front ++ (following, value) :: (rest ++ after) := by
        simpa using split
      have behind : list.items = (before ++ [(id, content)]) ++ (following, kept) :: late := by
        simpa using whole
      obtain ⟨rfl, rfl, rfl⟩ := split_unique here behind
      exact ⟨content, _, before, after, rfl, by simp [length], by simpa using whole⟩

end Segments

end LiteralRecovery.Listing
