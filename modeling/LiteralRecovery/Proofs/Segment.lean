import LiteralRecovery.Proofs.LiveView

/-! Segments of a live view under edits. A pass takes out or rewrites one
segment at a time; what stands before and behind it, and every segment that
shares no node with it, stays in one piece. Two segments share a node only if
one starts inside the other, which the shapes of the segments rule out. -/
namespace LiteralRecovery.Listing

variable {α : Type} {list : Listing α} {id : NodeId} {content value : α}
variable {before after segment rest : List (NodeId × α)}

/-- The parts of a split view have no node in common. -/
theorem split_disjoint (split : list.items = before ++ segment ++ after) :
    (∀ entry ∈ before, entry.1 ∉ segment.map (·.1)) ∧
      ∀ entry ∈ after, entry.1 ∉ segment.map (·.1) := by
  have ascending := list.items_ascending
  rw [split, List.pairwise_append, List.pairwise_append] at ascending
  obtain ⟨⟨_, _, across⟩, _, behind⟩ := ascending
  constructor
  · intro entry member shared
    obtain ⟨inside, found, same⟩ := List.mem_map.mp shared
    exact Nat.lt_irrefl _ (same ▸ across entry member inside found)
  · intro entry member shared
    obtain ⟨inside, found, same⟩ := List.mem_map.mp shared
    exact Nat.lt_irrefl _ (same ▸ behind inside (List.mem_append_right _ found) entry member)

private theorem filter_eq_self_of_apart {entries : List (NodeId × α)} {nodes : List NodeId}
    (apart : ∀ entry ∈ entries, entry.1 ∉ nodes) :
    (entries.filter fun entry => entry.1 ∉ nodes) = entries :=
  List.filter_eq_self.mpr fun entry member => decide_eq_true (apart entry member)

/-- A segment that loses no node stays a segment. -/
theorem split_removeAll (split : list.items = before ++ segment ++ after) {nodes : List NodeId}
    (apart : ∀ entry ∈ segment, entry.1 ∉ nodes) :
    ∃ before' after', (list.removeAll nodes).items = before' ++ segment ++ after' := by
  rw [items_removeAll, split, List.filter_append, List.filter_append,
    filter_eq_self_of_apart apart]
  exact ⟨_, _, rfl⟩

/-- Taking out a segment leaves its surroundings. -/
theorem items_removeAll_segment (split : list.items = before ++ segment ++ after) :
    (list.removeAll (segment.map (·.1))).items = before ++ after := by
  obtain ⟨apartBefore, apartAfter⟩ := split_disjoint split
  have gone : (segment.filter fun entry => entry.1 ∉ segment.map (·.1)) = [] := by
    apply List.filter_eq_nil_iff.mpr
    intro entry member
    simpa using ⟨entry.2, member⟩
  rw [items_removeAll, split, List.filter_append, List.filter_append,
    filter_eq_self_of_apart apartBefore, filter_eq_self_of_apart apartAfter, gone,
    List.append_nil]

theorem items_replace_split (split : list.items = before ++ (id, content) :: after) :
    (list.replace id value).items = before ++ (id, value) :: after := by
  have live : list.isLive id = true := isLive_iff.mpr ⟨content, get?_of_split split⟩
  have here : list.items = before ++ [(id, content)] ++ after := by simpa using split
  obtain ⟨apartBefore, apartAfter⟩ := split_disjoint here
  have keep {entries : List (NodeId × α)} (apart : ∀ entry ∈ entries, entry.1 ≠ id) :
      (entries.map fun entry => if entry.1 = id then (id, value) else entry) = entries := by
    refine (List.map_congr_left fun entry member => ?_).trans (List.map_id entries)
    simp [apart entry member]
  rw [items_replace live, split, List.map_append, List.map_cons]
  rw [keep (by simpa using apartBefore), keep (by simpa using apartAfter)]
  simp

/-- Collapsing a segment into its first node puts the new contents where the
segment stood. -/
theorem items_collapse (value : α)
    (split : list.items = before ++ ((id, content) :: rest) ++ after) :
    ((list.removeAll (rest.map (·.1))).replace id value).items =
      before ++ (id, value) :: after := by
  have tail : list.items = (before ++ [(id, content)]) ++ rest ++ after := by simpa using split
  have removed : (list.removeAll (rest.map (·.1))).items = before ++ (id, content) :: after := by
    simpa using items_removeAll_segment tail
  exact items_replace_split removed

/-- A segment apart from a collapsed one stays a segment. -/
theorem split_collapse (split : list.items = before ++ segment ++ after)
    (head : list.isLive id = true) {nodes : List NodeId} (kept : id ∉ nodes)
    (apart : ∀ entry ∈ segment, entry.1 ≠ id ∧ entry.1 ∉ nodes) :
    ∃ before' after',
      ((list.removeAll nodes).replace id value).items = before' ++ segment ++ after' := by
  obtain ⟨front, back, removed⟩ := split_removeAll split fun entry member => (apart entry member).2
  have live : (list.removeAll nodes).isLive id = true := (isLive_removeAll nodes).mpr ⟨kept, head⟩
  have same : (segment.map fun entry => if entry.1 = id then (id, value) else entry) = segment := by
    refine (List.map_congr_left fun entry member => ?_).trans (List.map_id segment)
    simp [(apart entry member).1]
  rw [items_replace live, removed, List.map_append, List.map_append, same]
  exact ⟨_, _, rfl⟩

/-! ### Segments with a node in common -/

/-- Where the later of two segments starts inside the earlier one, what is left
of the earlier one from there on agrees with the later one. -/
def Overlaps (earlier later : List (NodeId × α)) : Prop :=
  ∃ front back, earlier = front ++ back ∧ back ≠ [] ∧ (back <+: later ∨ later <+: back)

/-- Two segments of one view share nodes only where they overlap. -/
theorem apart_or_overlaps {before' after' segment' : List (NodeId × α)}
    (first : list.items = before ++ segment ++ after)
    (second : list.items = before' ++ segment' ++ after') :
    (∀ entry ∈ segment, entry.1 ∉ segment'.map (·.1)) ∨
      Overlaps segment segment' ∨ Overlaps segment' segment := by
  have apartFirst := split_disjoint first
  have apartSecond := split_disjoint second
  have inside {p q p' q' w w' : List (NodeId × α)} {m : List (NodeId × α)}
      (tail : w ++ q = m ++ (w' ++ q')) (whole : p' = p ++ m) :
      (∃ gap, p' = p ++ w ++ gap) ∨ Overlaps w w' := by
    rcases List.append_eq_append_iff.mp tail with ⟨gap, rfl, _⟩ | ⟨back, rfl, rest⟩
    · exact .inl ⟨gap, by simp [whole]⟩
    · by_cases empty : back = []
      · exact .inl ⟨[], by simp [whole, empty]⟩
      · refine .inr ⟨m, back, rfl, empty, ?_⟩
        rcases List.append_eq_append_iff.mp rest with ⟨more, equal, _⟩ | ⟨more, equal, _⟩
        · exact .inr ⟨more, equal.symm⟩
        · exact .inl ⟨more, equal.symm⟩
  have same : before ++ (segment ++ after) = before' ++ (segment' ++ after') := by
    simpa using first.symm.trans second
  rcases List.append_eq_append_iff.mp same with ⟨m, whole, tail⟩ | ⟨m, whole, tail⟩
  · rcases inside tail whole with ⟨gap, behind⟩ | overlap
    · left
      intro entry member
      exact apartSecond.1 entry (by simp [behind, member])
    · exact .inr (.inl overlap)
  · rcases inside tail whole with ⟨gap, behind⟩ | overlap
    · left
      intro entry member shared
      obtain ⟨twin, found, equal⟩ := List.mem_map.mp shared
      apply apartFirst.1 twin (by simp [behind, found])
      exact List.mem_map.mpr ⟨entry, member, equal.symm⟩
    · exact .inr (.inr overlap)

end LiteralRecovery.Listing
