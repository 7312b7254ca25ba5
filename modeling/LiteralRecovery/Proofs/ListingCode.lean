import LiteralRecovery.Proofs.InstructionCode
import LiteralRecovery.Proofs.Neighbours
import Mathlib.Data.List.Perm.Subperm

/-! A whole code sequence on its way into a listing and back. A listing is laid
out in the order of its live nodes, so that a position leads to the place of the
first live node at or after it, and the code that a listing is lowered to lifts
to its live instructions with their targets moved to those places. -/
namespace LiteralRecovery

namespace Listing

variable {α : Type} {list : Listing α} {id : NodeId}

/-- The place, among the live nodes, of the first one at or after a position; the
number of live nodes if there is none. -/
def landing (list : Listing α) (id : NodeId) : Nat := list.ids.findIdx (id ≤ ·)

/-- No slot was closed by an instruction added behind it. -/
def Open (list : Listing α) : Prop := ∀ id : NodeId, list.slots[id]? ≠ some .closed

theorem landing_le_length (list : Listing α) (id : NodeId) : list.landing id ≤ list.length := by
  have bound : list.landing id ≤ list.ids.length := List.findIdx_le_length
  simpa [ids, length] using bound

/-! ### Ranks -/

private theorem ranks_from (slots : List (Slot α)) (ranks : Array Nat) (count : Nat) :
    (slots.foldl (fun (ranks, count) slot =>
      (ranks.push count, if slot.isLive then count + 1 else count)) (ranks, count)).1.toList =
        ranks.toList ++
          (List.range slots.length).map fun index => count + (slots.take index).countP Slot.isLive := by
  induction slots generalizing ranks count with
  | nil => simp
  | cons slot rest ih =>
    simp only [List.foldl_cons]
    rw [ih, List.length_cons, List.range_succ_eq_map]
    cases live : slot.isLive <;>
      simp [live, Function.comp_def, Nat.add_assoc, Nat.add_comm 1]

/-- The rank of a slot counts the live ones before it. -/
theorem ranks_getD (inside : id < list.size) (limit : Nat) :
    list.ranks.getD id limit = (list.slots.toList.take id).countP Slot.isLive := by
  have all := ranks_from list.slots.toList #[] 0
  rw [Array.foldl_toList] at all
  have here : list.ranks[id]? = some ((list.slots.toList.take id).countP Slot.isLive) := by
    rw [← Array.getElem?_toList, ranks, all]
    have bound : id < list.slots.toList.length := by simpa [size] using inside
    rw [List.nil_append, List.getElem?_map, List.getElem?_range bound]
    simp
  rw [Array.getD_eq_getD_getElem?, here, Option.getD_some]

private theorem ids_eq (list : Listing α) :
    list.ids = (list.slots.toList.zipIdx.filter (·.1.isLive)).map (·.2) := by
  rw [ids, items, List.map_filterMap, ← List.filterMap_eq_filter, List.map_filterMap]
  apply List.filterMap_congr
  rintro ⟨slot, id⟩ _
  cases slot <;> rfl

private theorem rank_of_zipIdx (slots : List (Slot α)) (start index : Nat) :
    (slots.take index).countP Slot.isLive =
      (((slots.zipIdx start).filter (·.1.isLive)).map (·.2)).findIdx (start + index ≤ ·) := by
  induction slots generalizing start index with
  | nil => simp
  | cons slot rest ih =>
    cases index with
    | zero =>
      -- no number comes before `start`, so the first one is found at once
      have above : ∀ id ∈ (((slot :: rest).zipIdx start).filter (·.1.isLive)).map (·.2),
          start ≤ id := by
        intro id member
        obtain ⟨entry, kept, rfl⟩ := List.mem_map.mp member
        exact List.le_snd_of_mem_zipIdx (List.mem_filter.mp kept).1
      cases numbers : (((slot :: rest).zipIdx start).filter (·.1.isLive)).map (·.2) with
      | nil => rfl
      | cons first others =>
        have first_above := above first (by rw [numbers]; exact List.mem_cons_self)
        simp [List.findIdx_cons, first_above]
    | succ index =>
      have behind := ih (start + 1) index
      have moved : start + 1 + index = start + (index + 1) := by omega
      rw [moved] at behind
      rw [List.take_succ_cons, List.countP_cons, behind, List.zipIdx_cons, List.filter_cons]
      have beyond : ¬ start + (index + 1) ≤ start := by omega
      cases live : slot.isLive <;> simp [List.findIdx_cons, beyond]

/-- The live nodes before a slot are those whose place comes before where it
leads. -/
theorem ranks_landing (inside : id < list.size) (limit : Nat) :
    list.ranks.getD id limit = list.landing id := by
  rw [ranks_getD inside, rank_of_zipIdx _ 0, Nat.zero_add, landing, ids_eq]

/-! ### Places -/

theorem resolve_eq_liveFrom (unclosed : list.Open) (id : NodeId) :
    list.resolve id = list.liveFrom id := by
  unfold resolve
  by_cases live : list.isLive id = true
  · rw [if_pos live, liveFrom_of_live live]
  · rw [if_neg live]
    by_cases inside : id < list.size
    · rw [next_of_open inside (unclosed id)]
      exact (liveFrom_of_dead (by simpa using live)).symm
    · have outside : list.slots[id]? = none := Array.getElem?_eq_none (Nat.le_of_not_lt inside)
      rw [next, outside, liveFrom_of_size_le (Nat.le_of_not_lt inside)]

/-- Every position leads to the first live node at or after it. -/
theorem placeOf_eq_landing (unclosed : list.Open) (id : NodeId) :
    list.placeOf list.ranks list.length id = list.landing id := by
  rw [placeOf, resolve_eq_liveFrom unclosed]
  cases found : list.liveFrom id with
  | none =>
    have dead := liveFrom_eq_none.mp found
    symm
    simp only [length]
    rw [landing, ← List.length_map (·.1), ← ids, List.findIdx_eq_length]
    intro node member
    apply decide_eq_false
    intro above
    rw [mem_ids, dead node above] at member
    cases member
  | some live =>
    obtain ⟨alive, above, gap⟩ := liveFrom_eq_some.mp found
    simp only [ranks_landing (lt_size_of_live alive), landing]
    -- the two tests agree on live nodes
    apply Nat.le_antisymm
    · apply List.findIdx_le_findIdx
      intro node member reached
      have atLeast := of_decide_eq_true reached
      apply decide_eq_true
      by_contra under
      have dead := gap node atLeast (Nat.lt_of_not_le under)
      rw [mem_ids.mp member] at dead
      cases dead
    · apply List.findIdx_le_findIdx
      intro node _ reached
      exact decide_eq_true (Nat.le_trans above (of_decide_eq_true reached))

/-! ### Full listings -/

theorem ids_of_full (full : list.length = list.size) : list.ids = List.range list.size := by
  have inside : list.ids ⊆ List.range list.size :=
    fun id member => List.mem_range.mpr (lt_size_of_live (mem_ids.mp member))
  have long : (List.range list.size).length ≤ list.ids.length := by
    simp only [List.length_range, ids, List.length_map, ← full, length, Nat.le_refl]
  refine List.Perm.eq_of_pairwise ?_ list.ids_ascending List.pairwise_lt_range
    ((List.subperm_of_subset list.ids_nodup inside).perm_of_length_le long)
  intro left right _ _ below above
  exact absurd above (Nat.lt_asymm below)

/-- While no node was taken out, the live nodes are numbered by their places. -/
theorem getElem?_toList_of_full (full : list.length = list.size) (id : NodeId) :
    list.toList[id]? = list.get? id := by
  have numbered : list.items[id]?.map (·.1) = (List.range list.size)[id]? := by
    rw [← ids_of_full full, ids, List.getElem?_map]
  rw [toList, List.getElem?_map]
  cases item : list.items[id]? with
  | none =>
    rw [item, Option.map_none, eq_comm, List.getElem?_eq_none_iff, List.length_range] at numbered
    cases found : list.get? id with
    | none => rfl
    | some content =>
      have live := lt_size_of_live (isLive_iff.mpr ⟨content, found⟩)
      exact absurd live (Nat.not_lt.mpr numbered)
  | some entry =>
    rw [item, Option.map_some, eq_comm, List.getElem?_eq_some_iff] at numbered
    obtain ⟨_, same⟩ := numbered
    rw [List.getElem_range] at same
    have held := mem_items.mp (List.mem_of_getElem? item)
    rw [← same] at held
    exact held.symm

/-- Positions up to the end of a full listing lead to themselves. -/
theorem landing_of_full (full : list.length = list.size) (inside : id ≤ list.size) :
    list.landing id = id := by
  rw [landing, ids_of_full full]
  rcases Nat.lt_or_eq_of_le inside with before | rfl
  · rw [List.findIdx_eq (by simpa using before)]
    refine ⟨by simp, fun earlier below => ?_⟩
    simpa using below
  · have none : (List.range list.size).findIdx (list.size ≤ ·) = (List.range list.size).length := by
      rw [List.findIdx_eq_length]
      intro node member
      simpa using member
    rw [none, List.length_range]

end Listing

/-! ### Whole sequences -/

section Sequences

variable {σ ε α β : Type} {before after : σ} {action : α → ExceptT ε (StateM σ) β}

@[simp] theorem yields_mapM_nil {results : List β} :
    Yields (List.mapM action []) before results after ↔ results = [] ∧ after = before := by
  rw [List.mapM_nil, yields_pure]

@[simp] theorem yields_mapM_cons {first : α} {rest : List α} {results : List β} :
    Yields (List.mapM action (first :: rest)) before results after ↔
      ∃ result between others, Yields (action first) before result between ∧
        Yields (rest.mapM action) between others after ∧ results = result :: others := by
  simp only [List.mapM_cons, yields_bind, yields_pure]
  constructor
  · rintro ⟨result, between, here, others, _, behind, rfl, rfl⟩
    exact ⟨result, between, others, here, behind, rfl⟩
  · rintro ⟨result, between, others, here, behind, rfl⟩
    exact ⟨result, between, here, others, after, behind, rfl, rfl⟩

end Sequences

section Code

variable {before after : Constants} {code : List Bytecode} {list : Listing Instruction}

private theorem lifts_of_liftFrom {start : Nat} {instructions : List Instruction}
    (yields : Yields ((code.zipIdx start).mapM fun (code, position) =>
      code.lift.adapt fun cause => (⟨position, code, cause⟩ : LiftError)) before instructions after) :
    List.Forall₂ (Bytecode.Lifts before.pool) code instructions ∧ after.pool = before.pool ∧
      (before.Faithful → after.Faithful) := by
  induction code generalizing start before instructions with
  | nil =>
    obtain ⟨rfl, rfl⟩ := yields_mapM_nil.mp yields
    exact ⟨.nil, rfl, id⟩
  | cons first rest ih =>
    rw [List.zipIdx_cons, yields_mapM_cons] at yields
    obtain ⟨instruction, between, others, here, behind, rfl⟩ := yields
    obtain ⟨lifts, pool, kept⟩ := Bytecode.lifts_of_yields (yields_adapt.mp here)
    obtain ⟨lifted, pool', kept'⟩ := ih behind
    rw [pool] at lifted pool'
    exact ⟨.cons lifts lifted, pool', fun faithful => kept' (kept faithful)⟩

/-- A listing out of code holds what the code stands for. -/
theorem lifts_of_liftCode (yields : Yields (liftCode code) before list after) :
    (∃ instructions, list = .ofList instructions ∧
      List.Forall₂ (Bytecode.Lifts before.pool) code instructions) ∧
      after.pool = before.pool ∧ (before.Faithful → after.Faithful) := by
  simp only [liftCode, yields_bind, yields_pure] at yields
  obtain ⟨instructions, _, lifted, rfl, rfl⟩ := yields
  obtain ⟨lifts, pool, kept⟩ := lifts_of_liftFrom lifted
  exact ⟨⟨instructions, rfl, lifts⟩, pool, kept⟩

private theorem yields_liftFrom {pool : ConstantPool} {start : Nat}
    {instructions : List Instruction} (held : before.pool = pool)
    (lifts : List.Forall₂ (Bytecode.Lifts pool) code instructions) :
    ∃ after, Yields ((code.zipIdx start).mapM fun (code, position) =>
      code.lift.adapt fun cause => (⟨position, code, cause⟩ : LiftError)) before instructions after ∧
        after.pool = pool := by
  induction lifts generalizing start before with
  | nil => exact ⟨before, yields_mapM_nil.mpr ⟨rfl, rfl⟩, held⟩
  | cons here _ ih =>
    rw [← held] at here
    obtain ⟨between, lifted, same⟩ := here.yields
    obtain ⟨after, behind, kept⟩ := ih (same.trans held)
    refine ⟨after, ?_, kept⟩
    rw [List.zipIdx_cons, yields_mapM_cons]
    exact ⟨_, between, _, yields_adapt.mpr lifted, behind, rfl⟩

/-- Code that stands for something lifts to it. -/
theorem yields_liftCode {instructions : List Instruction}
    (lifts : List.Forall₂ (Bytecode.Lifts before.pool) code instructions) :
    ∃ after, Yields (liftCode code) before (.ofList instructions) after ∧
      after.pool = before.pool := by
  obtain ⟨after, lifted, pool⟩ := yields_liftFrom rfl lifts
  refine ⟨after, ?_, pool⟩
  simp only [liftCode, yields_bind, yields_pure]
  exact ⟨instructions, after, lifted, rfl, rfl⟩

theorem yields_lowerCode {liftedLength : Nat} {lowered : Lowered} :
    Yields (lowerCode list liftedLength) before lowered after ↔
      list.length < 0x10000 ∧
        Yields (list.toList.mapM (·.lowerIn (list.placeOf list.ranks list.length))) before
          lowered.code after ∧
        lowered.relocation =
          ⟨(Array.range liftedLength).map (list.placeOf list.ranks list.length), list.length⟩ := by
  unfold lowerCode
  by_cases long : 0x10000 ≤ list.length
  · simp only [long, if_true]
    constructor
    · intro yields
      obtain ⟨_, _, thrown, _⟩ := yields_bind.mp yields
      exact absurd thrown yields_throw
    · rintro ⟨short, _⟩
      exact absurd short (Nat.not_lt.mpr long)
  · simp only [long, if_false]
    constructor
    · intro yields
      obtain ⟨code, _, lowering, rest⟩ := yields_bind.mp yields
      obtain ⟨rfl, rfl⟩ := yields_pure.mp rest
      exact ⟨Nat.lt_of_not_le long, lowering, rfl⟩
    · rintro ⟨_, lowering, moved⟩
      refine yields_bind.mpr ⟨lowered.code, after, lowering, yields_pure.mpr ⟨?_, rfl⟩⟩
      rw [← moved]

theorem lifts_of_lowerEach {place : Nat → Nat} {instructions : List Instruction}
    (faithful : before.Faithful) (small : ∀ target, place target < 0x10000)
    (carries : ∀ instruction ∈ instructions, instruction.Carries before.pool)
    (yields : Yields (instructions.mapM (·.lowerIn place)) before code after) :
    after.Faithful ∧ before.pool.Grows after.pool ∧
      List.Forall₂ (Bytecode.Lifts after.pool) code (instructions.map (·.relocated place)) := by
  induction instructions generalizing before code with
  | nil =>
    obtain ⟨rfl, rfl⟩ := yields_mapM_nil.mp yields
    exact ⟨faithful, .refl _, .nil⟩
  | cons first rest ih =>
    obtain ⟨firstCode, between, others, here, behind, rfl⟩ := yields_mapM_cons.mp yields
    obtain ⟨kept, early, lifts⟩ := Instruction.supplied_lowerIn faithful
      (carries first List.mem_cons_self) (fun target _ => small target) here
    have carried : ∀ instruction ∈ rest, instruction.Carries between.pool :=
      fun instruction member => (carries instruction (List.mem_cons_of_mem _ member)).mono early
    obtain ⟨final, late, others⟩ := ih kept carried behind
    exact ⟨final, early.trans late, .cons (lifts.mono late) others⟩

/-- The code of a listing stands for its live instructions, each target at the
place where it leads. -/
theorem lifts_of_lowerCode {liftedLength : Nat} {lowered : Lowered} (unclosed : list.Open)
    (faithful : before.Faithful)
    (carries : ∀ instruction ∈ list.toList, instruction.Carries before.pool)
    (yields : Yields (lowerCode list liftedLength) before lowered after) :
    after.Faithful ∧ before.pool.Grows after.pool ∧
      List.Forall₂ (Bytecode.Lifts after.pool) lowered.code
        (list.toList.map (·.relocated list.landing)) := by
  obtain ⟨short, lowering, _⟩ := yields_lowerCode.mp yields
  have places : list.placeOf list.ranks list.length = list.landing :=
    funext (Listing.placeOf_eq_landing unclosed)
  rw [places] at lowering
  exact lifts_of_lowerEach faithful
    (fun target => Nat.lt_of_le_of_lt (list.landing_le_length target) short) carries lowering

end Code

end LiteralRecovery
