import LiteralRecovery.Proofs.Edit
import LiteralRecovery.Proofs.Segment
import Mathlib.Order.Bounds.Basic

/-! The live nodes around a place of a listing: the first one from there on and
the last one before it, and how they change when a node is added or taken out.
Adding one also closes the vacant slots at the end. -/
namespace LiteralRecovery.Listing

variable {α : Type} {list later : Listing α} {id bound node other : Nat} {content : α}

/-- The answer to a search for the least live node from `bound` on. -/
def Leads (list : Listing α) (bound : NodeId) (answer : Option NodeId) : Prop :=
  ∀ node, answer = some node ↔ IsLeast {live | list.isLive live = true ∧ bound ≤ live} node

theorem liveFrom_eq_some_iff_isLeast :
    list.liveFrom bound = some node ↔
      IsLeast {live | list.isLive live = true ∧ bound ≤ live} node := by
  rw [liveFrom_eq_some]
  constructor
  · rintro ⟨live, above, gap⟩
    refine ⟨⟨live, above⟩, fun other ⟨alive, beyond⟩ => ?_⟩
    by_contra below
    rw [gap other beyond (Nat.lt_of_not_le below)] at alive
    cases alive
  · rintro ⟨⟨live, above⟩, least⟩
    refine ⟨live, above, fun between beyond under => ?_⟩
    by_contra alive
    exact absurd (least ⟨by simpa using alive, beyond⟩) (Nat.not_le.mpr under)

theorem leads_liveFrom (list : Listing α) (bound : NodeId) :
    list.Leads bound (list.liveFrom bound) :=
  fun _ => liveFrom_eq_some_iff_isLeast

theorem liveFrom_of_live (live : list.isLive id = true) : list.liveFrom id = some id :=
  liveFrom_eq_some.mpr ⟨live, Nat.le_refl _, fun _ above below =>
    absurd above (Nat.not_le.mpr below)⟩

theorem liveFrom_of_dead (dead : list.isLive id = false) :
    list.liveFrom id = list.liveFrom (id + 1) := by
  refine Option.ext fun node => ?_
  rw [liveFrom_eq_some, liveFrom_eq_some]
  constructor
  · rintro ⟨live, above, gap⟩
    have different : id ≠ node := by
      rintro rfl
      rw [dead] at live
      cases live
    exact ⟨live, Nat.lt_of_le_of_ne above different,
      fun between beyond => gap between (Nat.le_of_succ_le beyond)⟩
  · rintro ⟨live, above, gap⟩
    refine ⟨live, Nat.le_of_succ_le above, fun between beyond under => ?_⟩
    rcases Nat.eq_or_lt_of_le beyond with rfl | further
    · exact dead
    · exact gap between further under

/-- A slot that is not live is vacant or closed. -/
theorem slot_of_dead (inside : id < list.size) (dead : list.isLive id = false) :
    list.slots[id]? = some .vacant ∨ list.slots[id]? = some .closed := by
  have bound : id < list.slots.size := inside
  have found : list.slots[id]? = some list.slots[id] := Array.getElem?_eq_getElem bound
  cases slot : list.slots[id] with
  | live content => simp [isLive, get?, found, slot, Slot.content?] at dead
  | vacant => exact .inl (found.trans (congrArg some slot))
  | closed => exact .inr (found.trans (congrArg some slot))

theorem dead_of_vacant (vacant : list.slots[id]? = some .vacant) : list.isLive id = false := by
  simp [isLive, get?, vacant, Slot.content?]

theorem dead_of_closed (closed : list.slots[id]? = some .closed) : list.isLive id = false := by
  simp [isLive, get?, closed, Slot.content?]

theorem next_of_open (inside : id < list.size) (opened : list.slots[id]? ≠ some .closed) :
    list.next id = list.liveFrom (id + 1) := by
  by_cases live : list.isLive id = true
  · exact next_of_live live
  · have vacant := (slot_of_dead inside (by simpa using live)).resolve_right opened
    rw [next, vacant]

theorem lt_size_of_slot {slot : Slot α} (found : list.slots[id]? = some slot) : id < list.size :=
  (Array.getElem?_eq_some_iff.mp found).1

theorem lt_size_of_liveFrom (found : list.liveFrom bound = some node) : node < list.size :=
  lt_size_of_live (liveFrom_eq_some.mp found).1

theorem length_le_size (list : Listing α) : list.length ≤ list.size := by
  have fewer := List.length_filterMap_le
    (fun entry : Slot α × Nat => entry.1.content?.map (entry.2, ·)) list.slots.toList.zipIdx
  rwa [List.length_zipIdx, Array.length_toList] at fewer

/-- The last live node below `bound`. -/
def lastBelow (list : Listing α) : (bound : Nat) → Option NodeId
  | 0 => none
  | bound + 1 => if list.isLive bound then some bound else list.lastBelow bound

theorem lastBelow_eq_some :
    list.lastBelow bound = some node ↔ list.isLive node = true ∧ node < bound ∧
      ∀ between, node < between → between < bound → list.isLive between = false := by
  induction bound with
  | zero => simp [lastBelow]
  | succ bound ih =>
    rw [lastBelow]
    split
    · rename_i live
      rw [Option.some.injEq]
      constructor
      · rintro rfl
        exact ⟨live, Nat.lt_succ_self _, fun between above below => by omega⟩
      · rintro ⟨_, below, gap⟩
        by_contra different
        have under : node < bound :=
          Nat.lt_of_le_of_ne (Nat.le_of_lt_succ below) (Ne.symm different)
        rw [gap bound under (Nat.lt_succ_self _)] at live
        cases live
    · rename_i dead
      rw [ih]
      constructor
      · rintro ⟨live, below, gap⟩
        refine ⟨live, Nat.lt_succ_of_lt below, fun between above under => ?_⟩
        rcases Nat.eq_or_lt_of_le (Nat.le_of_lt_succ under) with rfl | further
        · simpa using dead
        · exact gap between above further
      · rintro ⟨live, below, gap⟩
        have different : node ≠ bound := by
          rintro rfl
          exact dead live
        exact ⟨live, by omega, fun between above under => gap between above (by omega)⟩

theorem lastBelow_eq_none :
    list.lastBelow bound = none ↔ ∀ node < bound, list.isLive node = false := by
  induction bound with
  | zero => simp [lastBelow]
  | succ bound ih =>
    rw [lastBelow]
    split
    · rename_i live
      simp only [reduceCtorEq, false_iff]
      intro dead
      rw [dead bound (Nat.lt_succ_self _)] at live
      cases live
    · rename_i dead
      rw [ih]
      constructor
      · intro below node under
        rcases Nat.eq_or_lt_of_le (Nat.le_of_lt_succ under) with rfl | further
        · simpa using dead
        · exact below node further
      · exact fun below node under => below node (Nat.lt_succ_of_lt under)

/-- Two searches that come to the same end still do when there are fewer live
nodes. -/
theorem Thins.liveFrom_eq (thins : Thins list later) (same : list.liveFrom id = list.liveFrom other) :
    later.liveFrom id = later.liveFrom other := by
  have onward {start bound node : NodeId} (same : list.liveFrom start = list.liveFrom bound)
      (live : later.isLive node = true) (above : start ≤ node) : bound ≤ node := by
    have alive := thins.live node live
    cases found : list.liveFrom start with
    | none =>
      rw [liveFrom_eq_none.mp found node above] at alive
      cases alive
    | some least =>
      have atMost := (liveFrom_eq_some_iff_isLeast.mp found).2 ⟨alive, above⟩
      have atLeast := (liveFrom_eq_some.mp (same ▸ found)).2.1
      exact Nat.le_trans atLeast atMost
  have range : {live | later.isLive live = true ∧ id ≤ live} =
      {live | later.isLive live = true ∧ other ≤ live} := by
    refine Set.ext fun node => and_congr_right fun live => ?_
    exact ⟨onward same live, onward same.symm live⟩
  refine Option.ext fun node => ?_
  rw [liveFrom_eq_some_iff_isLeast, liveFrom_eq_some_iff_isLeast, range]

theorem Thins.liveFrom_none (thins : Thins list later) (missing : list.liveFrom bound = none) :
    later.liveFrom bound = none := by
  refine liveFrom_eq_none.mpr fun node above => ?_
  by_contra alive
  have lived := thins.live node (by simpa using alive)
  rw [liveFrom_eq_none.mp missing node above] at lived
  cases lived

/-! ### Neighbours of a live node -/

/-- Of two live nodes, one is followed by the other exactly if it is the last
before it. -/
theorem follows_iff_precedes (live : list.isLive id = true) (live' : list.isLive other = true) :
    list.liveFrom (other + 1) = some id ↔ list.lastBelow id = some other := by
  rw [liveFrom_eq_some, lastBelow_eq_some]
  constructor
  · rintro ⟨_, above, gap⟩
    exact ⟨live', above, fun between beyond => gap between beyond⟩
  · rintro ⟨_, below, gap⟩
    exact ⟨live, below, fun between beyond => gap between beyond⟩

theorem first_iff_nothing_before (live : list.isLive id = true) :
    list.first = some id ↔ list.lastBelow id = none := by
  rw [first, liveFrom_eq_some, lastBelow_eq_none]
  constructor
  · exact fun ⟨_, _, gap⟩ node below => gap node (Nat.zero_le _) below
  · exact fun dead => ⟨live, Nat.zero_le _, fun between _ below => dead between below⟩

theorem last_iff_nothing_behind (live : list.isLive id = true) :
    list.lastBelow list.size = some id ↔ list.liveFrom (id + 1) = none := by
  rw [lastBelow_eq_some, liveFrom_eq_none]
  constructor
  · rintro ⟨_, _, gap⟩ node above
    by_contra alive
    have alive : list.isLive node = true := by simpa using alive
    rw [gap node above (lt_size_of_live alive)] at alive
    cases alive
  · exact fun dead => ⟨live, lt_size_of_live live, fun between above _ => dead between above⟩

theorem first_none_iff_last_none : list.first = none ↔ list.lastBelow list.size = none := by
  rw [first, liveFrom_eq_none, lastBelow_eq_none]
  constructor
  · exact fun dead node _ => dead node (Nat.zero_le _)
  · intro dead node _
    by_contra alive
    have alive : list.isLive node = true := by simpa using alive
    rw [dead node (lt_size_of_live alive)] at alive
    cases alive

/-! ### A node less -/

theorem isLive_remove_self : (list.remove id).isLive id = false := by
  simp [isLive_remove]

theorem isLive_remove_of_dead (dead : list.isLive other = false) :
    (list.remove id).isLive other = false := by
  simp [isLive_remove, dead]

theorem isLive_remove_of_ne (different : other ≠ id) (live : list.isLive other = true) :
    (list.remove id).isLive other = true := by
  simp [isLive_remove, different, live]

/-- A search that found the node goes on behind it. -/
theorem liveFrom_remove (list : Listing α) (id bound : NodeId) :
    (list.remove id).liveFrom bound =
      if list.liveFrom bound = some id then list.liveFrom (id + 1) else list.liveFrom bound := by
  by_cases found : list.liveFrom bound = some id
  · rw [if_pos found]
    obtain ⟨_, atLeast, before⟩ := liveFrom_eq_some.mp found
    cases behind : list.liveFrom (id + 1) with
    | none =>
      refine liveFrom_eq_none.mpr fun node above => ?_
      rcases Nat.lt_trichotomy node id with early | rfl | late
      · exact isLive_remove_of_dead (before node above early)
      · exact isLive_remove_self
      · exact isLive_remove_of_dead (liveFrom_eq_none.mp behind node late)
    | some next =>
      obtain ⟨live, beyond, gap⟩ := liveFrom_eq_some.mp behind
      refine liveFrom_eq_some.mpr ⟨isLive_remove_of_ne (Nat.ne_of_gt beyond) live,
        Nat.le_trans atLeast (Nat.le_of_succ_le beyond), fun between above under => ?_⟩
      rcases Nat.lt_trichotomy between id with early | rfl | late
      · exact isLive_remove_of_dead (before between above early)
      · exact isLive_remove_self
      · exact isLive_remove_of_dead (gap between late under)
  · rw [if_neg found]
    cases elsewhere : list.liveFrom bound with
    | none =>
      exact liveFrom_eq_none.mpr fun node above =>
        isLive_remove_of_dead (liveFrom_eq_none.mp elsewhere node above)
    | some next =>
      have different : next ≠ id := fun same => found (elsewhere.trans (congrArg some same))
      obtain ⟨live, above, gap⟩ := liveFrom_eq_some.mp elsewhere
      exact liveFrom_eq_some.mpr ⟨isLive_remove_of_ne different live, above,
        fun between beyond under => isLive_remove_of_dead (gap between beyond under)⟩

theorem first_remove (list : Listing α) (id : NodeId) :
    (list.remove id).first = if list.first = some id then list.liveFrom (id + 1) else list.first :=
  liveFrom_remove list id 0

theorem lastBelow_remove (list : Listing α) (id bound : NodeId) :
    (list.remove id).lastBelow bound =
      if list.lastBelow bound = some id then list.lastBelow id else list.lastBelow bound := by
  by_cases found : list.lastBelow bound = some id
  · rw [if_pos found]
    obtain ⟨_, below, behind⟩ := lastBelow_eq_some.mp found
    cases before : list.lastBelow id with
    | none =>
      refine lastBelow_eq_none.mpr fun node under => ?_
      rcases Nat.lt_trichotomy node id with early | rfl | late
      · exact isLive_remove_of_dead (lastBelow_eq_none.mp before node early)
      · exact isLive_remove_self
      · exact isLive_remove_of_dead (behind node late under)
    | some prev =>
      obtain ⟨live, beneath, gap⟩ := lastBelow_eq_some.mp before
      refine lastBelow_eq_some.mpr ⟨isLive_remove_of_ne (Nat.ne_of_lt beneath) live,
        Nat.lt_trans beneath below, fun between above under => ?_⟩
      rcases Nat.lt_trichotomy between id with early | rfl | late
      · exact isLive_remove_of_dead (gap between above early)
      · exact isLive_remove_self
      · exact isLive_remove_of_dead (behind between late under)
  · rw [if_neg found]
    cases elsewhere : list.lastBelow bound with
    | none =>
      exact lastBelow_eq_none.mpr fun node under =>
        isLive_remove_of_dead (lastBelow_eq_none.mp elsewhere node under)
    | some prev =>
      have different : prev ≠ id := fun same => found (elsewhere.trans (congrArg some same))
      obtain ⟨live, below, gap⟩ := lastBelow_eq_some.mp elsewhere
      exact lastBelow_eq_some.mpr ⟨isLive_remove_of_ne different live, below,
        fun between above under => isLive_remove_of_dead (gap between above under)⟩

theorem length_remove (live : list.isLive id = true) :
    (list.remove id).length + 1 = list.length := by
  obtain ⟨content, held⟩ := isLive_iff.mp live
  obtain ⟨before, after, split⟩ := List.mem_iff_append.mp (mem_items.mpr held)
  have segment : list.items = before ++ [(id, content)] ++ after := by simpa using split
  have left : (list.remove id).items = before ++ after := items_removeAll_segment segment
  simp only [length, left, split, List.length_append, List.length_cons]
  omega

/-! ### New contents -/

/-- Searches do not see contents. -/
theorem liveFrom_congr (same : ∀ node, later.isLive node = list.isLive node) (bound : NodeId) :
    later.liveFrom bound = list.liveFrom bound := by
  refine Option.ext fun node => ?_
  simp only [liveFrom_eq_some, same]

theorem lastBelow_congr (same : ∀ node < bound, later.isLive node = list.isLive node) :
    later.lastBelow bound = list.lastBelow bound := by
  induction bound with
  | zero => rfl
  | succ bound ih =>
    rw [lastBelow, lastBelow, same bound (Nat.lt_succ_self _),
      ih fun node below => same node (Nat.lt_succ_of_lt below)]

theorem length_replace (list : Listing α) (id : NodeId) (content : α) :
    (list.replace id content).length = list.length := by
  by_cases live : list.isLive id = true
  · rw [length, items_replace live, List.length_map, length]
  · rw [replace, if_neg live]

/-! ### A node more -/

private theorem isLive_close (dead : list.isLive id = false) (node : NodeId) :
    (⟨list.slots.setIfInBounds id .closed⟩ : Listing α).isLive node = list.isLive node := by
  simp only [isLive, get?, Array.getElem?_setIfInBounds]
  by_cases same : id = node
  · subst same
    rw [if_pos rfl]
    split
    · simpa [isLive, get?, Slot.content?] using dead.symm
    · rename_i outside
      rw [Array.getElem?_eq_none (Nat.le_of_not_lt outside)]
  · rw [if_neg same]

/-- What is closed are the slots with nothing live from there on. -/
theorem getElem?_closeBehind {count : Nat} (inside : count ≤ list.size) (id : NodeId) :
    (closeBehind list.slots count)[id]? =
      if id < count ∧ ∀ node, id ≤ node → node < count → list.isLive node = false then some .closed
      else list.slots[id]? := by
  induction count generalizing list with
  | zero => simp [closeBehind]
  | succ count ih =>
    rw [closeBehind]
    split
    · rename_i content held
      have live : list.isLive count = true := by simp [isLive, get?, held, Slot.content?]
      rw [if_neg]
      rintro ⟨below, dead⟩
      rw [dead count (Nat.le_of_lt_succ below) (Nat.lt_succ_self _)] at live
      cases live
    · rename_i vacant
      have dead : list.isLive count = false := by
        by_contra alive
        obtain ⟨content, held⟩ := isLive_iff.mp (by simpa using alive)
        obtain ⟨slot, found, inside⟩ := Option.bind_eq_some_iff.mp held
        cases slot with
        | live content => exact vacant content found
        | vacant => cases inside
        | closed => cases inside
      have bound : count < list.slots.size := inside
      have shorter := @ih ⟨list.slots.setIfInBounds count .closed⟩
        (by simpa [size] using Nat.le_of_lt bound)
      simp only [isLive_close dead] at shorter
      rw [shorter, Array.getElem?_setIfInBounds]
      rcases Nat.lt_trichotomy id count with below | rfl | above
      · rw [if_neg (Nat.ne_of_gt below)]
        refine if_congr ⟨?_, ?_⟩ rfl rfl
        · rintro ⟨_, clear⟩
          refine ⟨Nat.lt_succ_of_lt below, fun node above under => ?_⟩
          rcases Nat.eq_or_lt_of_le (Nat.le_of_lt_succ under) with rfl | further
          · exact dead
          · exact clear node above further
        · rintro ⟨_, clear⟩
          exact ⟨below, fun node above under => clear node above (Nat.lt_succ_of_lt under)⟩
      · rw [if_neg fun both => Nat.lt_irrefl _ both.1, if_pos rfl, if_pos bound, if_pos]
        refine ⟨Nat.lt_succ_self _, fun node above under => ?_⟩
        rwa [Nat.le_antisymm (Nat.le_of_lt_succ under) above]
      · rw [if_neg fun both => Nat.lt_asymm above both.1, if_neg (Nat.ne_of_lt above),
          if_neg fun both => Nat.not_le.mpr above (Nat.le_of_lt_succ both.1)]

theorem size_closeBehind (slots : Array (Slot α)) (count : Nat) :
    (closeBehind slots count).size = slots.size := by
  induction count generalizing slots with
  | zero => rfl
  | succ count ih =>
    rw [closeBehind]
    split
    · rfl
    · rw [ih, Array.size_setIfInBounds]

@[simp] theorem size_push (list : Listing α) (content : α) :
    (list.push content).size = list.size + 1 := by
  simp [push, size, size_closeBehind]

theorem slots_push_new (list : Listing α) (content : α) :
    (list.push content).slots[list.size]? = some (.live content) := by
  have last : list.size = (closeBehind list.slots list.size).size := (size_closeBehind _ _).symm
  rw [push, Array.getElem?_push, if_pos last]

/-- The slots before the new one stay, or are closed if nothing live is left from
there on. -/
theorem slots_push (inside : id < list.size) (content : α) :
    (list.push content).slots[id]? =
      if list.liveFrom id = none then some .closed else list.slots[id]? := by
  have before : id < (closeBehind list.slots list.size).size := by rwa [size_closeBehind]
  rw [push, Array.getElem?_push_lt before, ← Array.getElem?_eq_getElem before,
    getElem?_closeBehind (Nat.le_refl _)]
  refine if_congr ?_ rfl rfl
  rw [liveFrom_eq_none]
  constructor
  · rintro ⟨_, dead⟩ node above
    by_contra alive
    have alive : list.isLive node = true := by simpa using alive
    rw [dead node above (lt_size_of_live alive)] at alive
    cases alive
  · exact fun dead => ⟨inside, fun node above _ => dead node above⟩

theorem get?_of_size_le (outside : list.size ≤ id) : list.get? id = none := by
  rw [get?, Array.getElem?_eq_none outside]
  rfl

theorem liveFrom_of_size_le (outside : list.size ≤ id) : list.liveFrom id = none := by
  refine liveFrom_eq_none.mpr fun node above => ?_
  rw [isLive, get?_of_size_le (Nat.le_trans outside above)]
  rfl

theorem get?_push (list : Listing α) (content : α) (id : NodeId) :
    (list.push content).get? id = if id = list.size then some content else list.get? id := by
  rcases Nat.lt_trichotomy id list.size with inside | rfl | outside
  · rw [if_neg (Nat.ne_of_lt inside), get?, slots_push inside]
    split
    · rename_i dead
      have missing : list.get? id = none := by
        simpa [isLive] using liveFrom_eq_none.mp dead id (Nat.le_refl _)
      rw [missing]
      rfl
    · rfl
  · rw [if_pos rfl, get?, slots_push_new]
    rfl
  · rw [if_neg (Nat.ne_of_gt outside), get?_of_size_le (Nat.le_of_lt outside),
      get?_of_size_le (by rwa [size_push])]

theorem isLive_push (list : Listing α) (content : α) (id : NodeId) :
    (list.push content).isLive id = true ↔ id = list.size ∨ list.isLive id = true := by
  rw [isLive, get?_push]
  by_cases same : id = list.size <;> simp [same, isLive]

theorem isLive_push_of_lt (inside : id < list.size) :
    (list.push content).isLive id = list.isLive id := by
  rw [isLive, get?_push, if_neg (Nat.ne_of_lt inside)]
  rfl

/-- A search that found nothing finds the new node. -/
theorem liveFrom_push (inside : bound ≤ list.size) (content : α) :
    (list.push content).liveFrom bound = some ((list.liveFrom bound).getD list.size) := by
  cases found : list.liveFrom bound with
  | none =>
    refine liveFrom_eq_some.mpr ⟨(isLive_push _ _ _).mpr (.inl rfl), inside, ?_⟩
    intro between above below
    rw [isLive_push_of_lt below]
    exact liveFrom_eq_none.mp found between above
  | some node =>
    obtain ⟨live, above, gap⟩ := liveFrom_eq_some.mp found
    refine liveFrom_eq_some.mpr ⟨(isLive_push _ _ _).mpr (.inr live), above, ?_⟩
    intro between beyond below
    rw [isLive_push_of_lt (Nat.lt_trans below (lt_size_of_live live))]
    exact gap between beyond below

theorem first_push (list : Listing α) (content : α) :
    (list.push content).first = some (list.first.getD list.size) :=
  liveFrom_push (Nat.zero_le _) content

theorem lastBelow_push (inside : bound ≤ list.size) (content : α) :
    (list.push content).lastBelow bound = list.lastBelow bound := by
  exact lastBelow_congr fun node below => isLive_push_of_lt (Nat.lt_of_lt_of_le below inside)

theorem items_push (list : Listing α) (content : α) :
    (list.push content).items = list.items ++ [(list.size, content)] := by
  refine items_unique (List.pairwise_append.mpr ⟨list.items_ascending, by simp, ?_⟩) ?_
  · rintro ⟨id, held⟩ member _ here
    cases List.mem_singleton.mp here
    exact lt_size_of_live (isLive_iff.mpr ⟨held, mem_items.mp member⟩)
  · intro id held
    rw [List.mem_append, List.mem_singleton, mem_items, get?_push]
    by_cases same : id = list.size
    · subst same
      simp [get?_of_size_le, eq_comm]
    · rw [if_neg same]
      simp [same]

theorem length_push (list : Listing α) (content : α) :
    (list.push content).length = list.length + 1 := by
  rw [length, items_push, List.length_append, length, List.length_singleton]

/-- A closed slot stays closed. -/
theorem closed_push (closed : list.slots[id]? = some .closed) (content : α) :
    (list.push content).slots[id]? = some .closed := by
  rw [slots_push (lt_size_of_slot closed), closed, ite_self]

/-- A slot that is vacant afterwards was vacant, with a live node behind it. -/
theorem vacant_of_push (vacant : (list.push content).slots[id]? = some .vacant) :
    id < list.size ∧ list.slots[id]? = some .vacant ∧ list.liveFrom id ≠ none := by
  have bound : id < list.size + 1 := size_push list content ▸ lt_size_of_slot vacant
  rcases Nat.eq_or_lt_of_le (Nat.le_of_lt_succ bound) with rfl | inside
  · rw [slots_push_new] at vacant
    cases vacant
  · rw [slots_push inside] at vacant
    split at vacant
    · cases vacant
    · rename_i followed
      exact ⟨inside, vacant, followed⟩

/-- A slot that is closed afterwards was closed, or vacant at the end. -/
theorem closed_of_push (closed : (list.push content).slots[id]? = some .closed) :
    id < list.size ∧ (list.slots[id]? = some .closed ∨
      list.slots[id]? = some .vacant ∧ list.liveFrom id = none) := by
  have bound : id < list.size + 1 := size_push list content ▸ lt_size_of_slot closed
  rcases Nat.eq_or_lt_of_le (Nat.le_of_lt_succ bound) with rfl | inside
  · rw [slots_push_new] at closed
    cases closed
  · refine ⟨inside, ?_⟩
    rw [slots_push inside] at closed
    split at closed
    · rename_i last
      rcases slot_of_dead inside (liveFrom_eq_none.mp last id (Nat.le_refl _)) with vacant | shut
      · exact .inr ⟨vacant, last⟩
      · exact .inl shut
    · exact .inl closed

/-! ### What every listing is like -/

/-- The live nodes behind a node, and those from it on. -/
theorem filter_of_split {before behind : List (NodeId × α)}
    (split : list.items = before ++ (id, content) :: behind) :
    (list.items.filter fun entry => id < entry.1) = behind ∧
      (list.items.filter fun entry => id ≤ entry.1) = (id, content) :: behind := by
  have ascending := list.items_ascending
  rw [split, List.pairwise_append, List.pairwise_cons] at ascending
  obtain ⟨_, ⟨above, _⟩, across⟩ := ascending
  have below : ∀ entry ∈ before, entry.1 < id := fun entry member =>
    across entry member _ List.mem_cons_self
  have gone : (before.filter fun entry => id < entry.1) = [] ∧
      (before.filter fun entry => id ≤ entry.1) = [] := by
    constructor
    · exact List.filter_eq_nil_iff.mpr fun entry member => by
        simpa using Nat.le_of_lt (below entry member)
    · exact List.filter_eq_nil_iff.mpr fun entry member => by simpa using below entry member
  have kept : (behind.filter fun entry => id < entry.1) = behind ∧
      (behind.filter fun entry => id ≤ entry.1) = behind := by
    constructor
    · exact List.filter_eq_self.mpr fun entry member => by simpa using above entry member
    · exact List.filter_eq_self.mpr fun entry member => by
        simpa using Nat.le_of_lt (above entry member)
  rw [split, List.filter_append, List.filter_append, gone.1, gone.2]
  simp [kept.1, kept.2]

/-- There is a window exactly if enough live nodes follow a live one, and it
holds these. -/
theorem window_eq_some_iff {more : Nat} {segment : List (NodeId × α)} :
    list.window (more + 1) id = some segment ↔ list.isLive id = true ∧
      more ≤ (list.items.filter fun entry => id < entry.1).length ∧
      segment = (list.items.filter fun entry => id ≤ entry.1).take (more + 1) := by
  constructor
  · intro found
    obtain ⟨content, rest, before, after, rfl, length, split⟩ := split_of_window found
    have whole : list.items = before ++ (id, content) :: (rest ++ after) := by simpa using split
    obtain ⟨behind, onward⟩ := filter_of_split whole
    rw [behind, onward]
    refine ⟨isLive_iff.mpr ⟨content, get?_of_split whole⟩, ?_, ?_⟩
    · simp [length]
    · simp [← length]
  · rintro ⟨live, enough, rfl⟩
    obtain ⟨content, held⟩ := isLive_iff.mp live
    obtain ⟨before, rest, split⟩ := List.mem_iff_append.mp (mem_items.mpr held)
    obtain ⟨behind, onward⟩ := filter_of_split split
    rw [behind] at enough
    rw [onward, List.take_succ_cons]
    have whole : list.items = before ++ ((id, content) :: rest.take more) ++ rest.drop more := by
      simpa using split
    have window := window_of_split whole
    rwa [List.length_take, Nat.min_eq_left enough] at window

/-- What holds of a listing at any time: the live nodes in order, what the
searches find, and what removal and replacement do and leave alone. -/
structure Orderly (list : Listing α) : Prop where
  ascending : list.ids.Pairwise (· < ·)
  listed : ∀ id content, (id, content) ∈ list.items ↔ list.get? id = some content
  counted : list.length = list.ids.length
  first : list.Leads 0 list.first
  next : ∀ id, list.isLive id = true → list.Leads (id + 1) (list.next id)
  /-- From a node that is gone a node can be found, but then it is the next. -/
  onward : ∀ id node, list.next id = some node →
    IsLeast {live | list.isLive live = true ∧ id < live} node
  window : ∀ more id segment, list.window (more + 1) id = some segment ↔
    list.isLive id = true ∧ more ≤ (list.items.filter fun entry => id < entry.1).length ∧
      segment = (list.items.filter fun entry => id ≤ entry.1).take (more + 1)
  removed : ∀ id other,
    (list.remove id).get? other = if other = id then none else list.get? other
  replaced : ∀ id content other, (list.replace id content).get? other =
    if other = id ∧ list.isLive id = true then some content else list.get? other
  idle : ∀ id content, list.isLive id = false →
    list.remove id = list ∧ list.replace id content = list

theorem orderly (list : Listing α) : list.Orderly where
  ascending := list.ids_ascending
  listed _ _ := mem_items
  counted := by rw [length, ids, List.length_map]
  first := list.leads_liveFrom 0
  next id live := by
    rw [next_of_live live]
    exact list.leads_liveFrom (id + 1)
  onward id node found := by
    have search := next_iff.mp found
    exact liveFrom_eq_some_iff_isLeast.mp search.2.2
  window _ _ _ := window_eq_some_iff
  removed _ _ := get?_remove
  replaced id content other := by
    by_cases live : list.isLive id = true
    · simp only [get?_replace live, live, and_true]
    · simp [replace, live]
  idle id content dead := by simp [remove, replace, dead]

end LiteralRecovery.Listing
