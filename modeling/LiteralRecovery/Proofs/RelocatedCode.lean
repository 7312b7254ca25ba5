import LiteralRecovery.Proofs.ClassRoundTrip
import Mathlib.Order.Monotone.Basic

/-! Where the positions of a method's code go when its listing is lowered. Every
position moves to the number of live nodes before it, whichever way the code asks
for it: branches and switches go by their target nodes, tables by the relocation,
and both count the same nodes. -/
namespace LiteralRecovery

/-! ### Ranks -/

namespace Listing

variable {α : Type} {list : Listing α} {id : NodeId} {content : α}

/-- Number of live nodes below a position. -/
def rank (list : Listing α) (position : Nat) : Nat := list.ids.countP (· < position)

private theorem findIdx_eq_countP {numbers : List Nat} (ascending : numbers.Pairwise (· < ·))
    (bound : Nat) : numbers.findIdx (bound ≤ ·) = numbers.countP (· < bound) := by
  induction numbers with
  | nil => rfl
  | cons first rest ih =>
    obtain ⟨above, sorted⟩ := List.pairwise_cons.mp ascending
    by_cases reached : bound ≤ first
    · have none : rest.countP (· < bound) = 0 := by
        rw [List.countP_eq_zero]
        intro number member
        have beyond := above number member
        simp only [decide_eq_true_eq]
        omega
      simp [List.findIdx_cons, reached, none]
    · have below : first < bound := by omega
      simp [List.findIdx_cons, reached, below, ih sorted]

/-- A position leads to the place that as many live nodes come before. -/
theorem landing_eq_rank (list : Listing α) (position : Nat) :
    list.landing position = list.rank position :=
  findIdx_eq_countP list.ids_ascending position

theorem placeOf_eq_rank (unclosed : list.Open) :
    list.placeOf list.ranks list.length = list.rank := by
  funext position
  rw [placeOf_eq_landing unclosed, landing_eq_rank]

theorem rank_mono (list : Listing α) : Monotone list.rank := by
  intro lower upper below
  apply List.countP_mono_left
  intro id _ counted
  simp only [decide_eq_true_eq] at counted ⊢
  exact Nat.lt_of_lt_of_le counted below

theorem rank_le_length (list : Listing α) (position : Nat) : list.rank position ≤ list.length := by
  rw [← landing_eq_rank]
  exact list.landing_le_length position

/-- All live nodes lie below the end. -/
theorem rank_of_size_le {position : Nat} (outside : list.size ≤ position) :
    list.rank position = list.length := by
  have all : list.rank position = list.ids.length := by
    rw [rank, List.countP_eq_length]
    intro id member
    exact decide_eq_true (Nat.lt_of_lt_of_le (lt_size_of_live (mem_ids.mp member)) outside)
  rw [all, ids, List.length_map, length]

/-- A live node stands at its rank. -/
theorem getElem?_items_rank (held : list.get? id = some content) :
    list.items[list.rank id]? = some (id, content) := by
  obtain ⟨front, back, split⟩ := List.mem_iff_append.mp (mem_items.mpr held)
  have ascending := list.items_ascending
  rw [split, List.pairwise_append, List.pairwise_cons] at ascending
  obtain ⟨_, ⟨above, _⟩, across⟩ := ascending
  have counted : list.rank id = front.length := by
    have early : (front.map (·.1)).countP (· < id) = front.length := by
      rw [← List.length_map (·.1), List.countP_eq_length]
      intro node member
      obtain ⟨entry, inside, rfl⟩ := List.mem_map.mp member
      exact decide_eq_true (across entry inside _ List.mem_cons_self)
    have late : (back.map (·.1)).countP (· < id) = 0 := by
      rw [List.countP_eq_zero]
      intro node member
      obtain ⟨entry, inside, rfl⟩ := List.mem_map.mp member
      simpa using Nat.le_of_lt (above entry inside)
    rw [rank, ids, split, List.map_append, List.countP_append, early, List.map_cons,
      List.countP_cons, late]
    simp
  rw [split, counted]
  simp

theorem getElem?_ids_rank (held : list.get? id = some content) :
    list.ids[list.rank id]? = some id := by
  rw [ids, List.getElem?_map, getElem?_items_rank held, Option.map_some]

theorem rank_lt_length (held : list.get? id = some content) : list.rank id < list.length := by
  obtain ⟨inside, _⟩ := List.getElem?_eq_some_iff.mp (getElem?_ids_rank held)
  rw [ids, List.length_map] at inside
  exact inside

theorem getElem?_toList_rank (held : list.get? id = some content) :
    list.toList[list.rank id]? = some content := by
  rw [toList, List.getElem?_map, getElem?_items_rank held, Option.map_some]

/-- Every place among the live instructions is the rank of a node. -/
theorem exists_of_getElem?_toList {place : Nat} (found : list.toList[place]? = some content) :
    ∃ id, list.get? id = some content ∧ list.rank id = place := by
  rw [toList, List.getElem?_map, Option.map_eq_some_iff] at found
  obtain ⟨⟨id, held⟩, item, rfl⟩ := found
  have holds := mem_items.mp (List.mem_of_getElem? item)
  refine ⟨id, holds, ?_⟩
  have ranked := getElem?_ids_rank holds
  have placed : list.ids[place]? = some id := by rw [ids, List.getElem?_map, item, Option.map_some]
  exact (List.getElem?_inj (List.getElem?_eq_some_iff.mp ranked).1 list.ids_nodup).mp
    (ranked.trans placed.symm)

end Listing

/-! ### Instructions without targets -/

namespace Bytecode

variable {pool : ConstantPool} {code carried : Bytecode}

/-- Code that is carried along as plain neither branches nor switches. -/
theorem Lifts.targets?_of_plain (lifts : code.Lifts pool (.plain carried)) :
    code.targets? = .ok none := by
  obtain ⟨after, yields, _⟩ := @Lifts.yields _ _ (Constants.ofPool pool) lifts
  cases code with
  | branch _ _ | branchWide _ _ | tableswitch _ _ _ _ | lookupswitch _ _ =>
    obtain ⟨lifted, _⟩ := yields_liftM.mp yields
    obtain ⟨targets?, found, rest⟩ := bind_eq_ok.mp lifted
    cases targets? with
    | none => exact found
    | some targets => cases rest
  | _ => rfl

end Bytecode

namespace Instruction

variable {before after : Constants} {code : Bytecode} {instruction : Instruction}

theorem targets?_loadConstant (number : UInt16) : (loadConstant number).targets? = .ok none := by
  unfold loadConstant
  split <;> rfl

theorem targets?_of_lowerInt {value : Int32} (yields : Yields (lowerInt value) before code after) :
    code.targets? = .ok none := by
  unfold lowerInt at yields
  iterate 9
    split at yields
    · obtain ⟨rfl, _⟩ := yields_pure.mp yields
      rfl
  obtain ⟨number, _, _, rest⟩ := yields_bind.mp yields
  obtain ⟨rfl, _⟩ := yields_pure.mp rest
  exact targets?_loadConstant number

theorem targets?_of_lowerLong {value : Int64} (yields : Yields (lowerLong value) before code after) :
    code.targets? = .ok none := by
  unfold lowerLong at yields
  iterate 2
    split at yields
    · obtain ⟨rfl, _⟩ := yields_pure.mp yields
      rfl
  obtain ⟨number, _, _, rest⟩ := yields_bind.mp yields
  obtain ⟨rfl, _⟩ := yields_pure.mp rest
  rfl

/-- Only a jump is lowered to code with targets. -/
theorem targets?_of_lower
    (plain : ∀ carried, instruction = .plain carried → carried.targets? = .ok none)
    (yields : Yields instruction.lower before code after) : code.targets? = .ok none := by
  have fixed {constant : Bytecode} (none : constant.targets? = .ok none)
      (yields : Yields (pure constant : ConstantsM CodeError Bytecode) before code after) :
      code.targets? = .ok .none := by
    obtain ⟨rfl, _⟩ := yields_pure.mp yields
    exact none
  have interned {key : ConstantKey} {build : UInt16 → Bytecode}
      (none : ∀ number, (build number).targets? = .ok none)
      (yields : Yields (do return build (← (Constants.intern key).adapt CodeError.constant)) before
        code after) : code.targets? = .ok .none := by
    obtain ⟨number, _, _, rest⟩ := yields_bind.mp yields
    obtain ⟨rfl, _⟩ := yields_pure.mp rest
    exact none number
  cases instruction with
  | intConst value => exact targets?_of_lowerInt (yields_adapt.mp yields)
  | longConst value => exact targets?_of_lowerLong (yields_adapt.mp yields)
  | stringConst value =>
    simp only [lower] at yields
    split at yields
    · exact interned targets?_loadConstant yields
    · exact absurd yields yields_throw
  | nullConst => exact fixed rfl yields
  | bitwise width op => cases width <;> cases op <;> exact fixed rfl yields
  | getStatic field => exact interned (fun _ => rfl) yields
  | putStatic field => exact interned (fun _ => rfl) yields
  | newArray kind =>
    cases kind with
    | int => exact fixed rfl yields
    | long => exact fixed rfl yields
    | reference element => exact interned (fun _ => rfl) yields
  | arrayLoad kind => cases kind <;> exact fixed rfl yields
  | arrayStore kind => cases kind <;> exact fixed rfl yields
  | invokeStatic target onInterface => exact interned (fun _ => rfl) yields
  | plain carried => exact fixed (plain carried rfl) yields
  | jump carried targets => exact absurd yields yields_throw

/-- Only jumps look at the layout. -/
theorem lowerIn_cases (instruction : Instruction) (place : Nat → Nat) :
    (∃ carried targets, instruction = .jump carried targets) ∨
      instruction.lowerIn place = instruction.lower := by
  cases instruction with
  | jump carried targets => exact .inl ⟨carried, targets, rfl⟩
  | _ => exact .inr rfl

/-- Code with targets comes from a jump, and has its targets where they were
placed. -/
theorem jump_of_lowerIn {pool : ConstantPool} {place : Nat → Nat}
    (carries : instruction.Carries pool) (small : ∀ target, place target < 0x10000)
    (yields : Yields (instruction.lowerIn place) before code after)
    (jumps : code.targets? ≠ .ok none) :
    ∃ carried targets, instruction = .jump carried targets ∧
      code = carried.mapTargets place ∧ code.targets? = .ok (some (targets.map place)) := by
  rcases instruction.lowerIn_cases place with ⟨carried, targets, rfl⟩ | alone
  · obtain ⟨placed, moved⟩ := Bytecode.withTargets_place carries fun target _ => small target
    obtain ⟨same, _⟩ := yields_liftM.mp yields
    rw [placed] at same
    cases same
    exact ⟨carried, targets, rfl, rfl, moved⟩
  · rw [alone] at yields
    refine absurd (targets?_of_lower ?_ yields) jumps
    rintro carried rfl
    exact Bytecode.Lifts.targets?_of_plain carries

end Instruction

/-! ### Whole sequences -/

section Sequences

variable {σ ε α β : Type} {before after : σ} {action : α → ExceptT ε (StateM σ) β}
variable {items : List α} {results : List β}

/-- The results of a run over a list stand where their items do. -/
theorem yields_each (yields : Yields (items.mapM action) before results after) :
    List.Forall₂ (fun item result => ∃ early late, Yields (action item) early result late)
      items results := by
  induction items generalizing before results with
  | nil =>
    obtain ⟨rfl, rfl⟩ := yields_mapM_nil.mp yields
    exact .nil
  | cons first rest ih =>
    obtain ⟨result, between, others, here, behind, rfl⟩ := yields_mapM_cons.mp yields
    exact .cons ⟨before, between, here⟩ (ih behind)

end Sequences

namespace Lowered

variable {list : Listing Instruction} {length : Nat} {before after : Constants} {lowered : Lowered}

/-- The end of the relocation is the end of the new code, which fits 16 bits. -/
theorem limit_eq_length (lowering : Yields (lowerCode list length) before lowered after) :
    lowered.relocation.limit = lowered.code.length ∧ lowered.code.length = list.length ∧
      lowered.code.length < 0x10000 := by
  obtain ⟨short, each, moved⟩ := yields_lowerCode.mp lowering
  have count : list.toList.length = lowered.code.length := (yields_each each).length_eq
  rw [Listing.toList, List.length_map, ← Listing.length] at count
  rw [moved]
  exact ⟨count, count.symm, count ▸ short⟩

/-- A relocation counts the live nodes before a position. -/
theorem map_eq_rank (unclosed : list.Open) (size : list.size = length)
    (lowering : Yields (lowerCode list length) before lowered after) :
    lowered.relocation.map = list.rank := by
  obtain ⟨_, _, moved⟩ := yields_lowerCode.mp lowering
  funext position
  rw [moved, Relocation.map, Listing.placeOf_eq_rank unclosed]
  by_cases inside : position < length
  · simp [Array.getD_eq_getD_getElem?, inside]
  · have outside : list.size ≤ position := by omega
    simp [Array.getD_eq_getD_getElem?, inside, Listing.rank_of_size_le outside]

/-- The instruction at a place of the new code is what the live node of that rank
is lowered to. -/
theorem code_each (unclosed : list.Open) (size : list.size = length)
    (lowering : Yields (lowerCode list length) before lowered after) :
    List.Forall₂ (fun instruction placed => ∃ early late,
      Yields (instruction.lowerIn lowered.relocation.map) early placed late)
        list.toList lowered.code := by
  obtain ⟨_, each, _⟩ := yields_lowerCode.mp lowering
  rw [Listing.placeOf_eq_rank unclosed, ← map_eq_rank unclosed size lowering] at each
  exact yields_each each

/-- A live node's instruction is found at its rank. -/
theorem placed_of_live (unclosed : list.Open) (size : list.size = length)
    (lowering : Yields (lowerCode list length) before lowered after) {id : NodeId}
    {instruction : Instruction} (held : list.get? id = some instruction) :
    ∃ placed early late, lowered.code[lowered.relocation.map id]? = some placed ∧
      Yields (instruction.lowerIn lowered.relocation.map) early placed late := by
  have each := code_each unclosed size lowering
  have ranked := map_eq_rank unclosed size lowering
  obtain ⟨inside, same⟩ := List.getElem?_eq_some_iff.mp (Listing.getElem?_toList_rank held)
  have inside' : list.rank id < lowered.code.length := each.length_eq ▸ inside
  obtain ⟨early, late, yields⟩ := each.get inside inside'
  rw [List.get_eq_getElem, same] at yields
  refine ⟨_, early, late, ?_, yields⟩
  rw [ranked]
  exact List.getElem?_eq_getElem inside'

/-- A branch or switch of the new code is one that was there before, with every
operand moved the way tables are. -/
theorem jump_of_placed {pool : ConstantPool} {code : List Bytecode} (stems : list.Stems pool code)
    (lowering : Yields (lowerCode list code.length) before lowered after) {place : Nat}
    {placed : Bytecode} (found : lowered.code[place]? = some placed)
    (jumps : placed.targets? ≠ .ok none) :
    ∃ id held targets, list.isLive id = true ∧ lowered.relocation.map id = place ∧
      code[id]? = some held ∧ held.targets? = .ok (some targets) ∧
      placed = held.mapTargets lowered.relocation.map ∧
      placed.targets? = .ok (some (targets.map lowered.relocation.map)) := by
  have each := code_each stems.unclosed stems.size lowering
  have ranked := map_eq_rank stems.unclosed stems.size lowering
  obtain ⟨_, count, short⟩ := limit_eq_length lowering
  have small : ∀ target, lowered.relocation.map target < 0x10000 := by
    intro target
    rw [ranked]
    exact Nat.lt_of_le_of_lt (list.rank_le_length target) (count ▸ short)
  obtain ⟨inside, rfl⟩ := List.getElem?_eq_some_iff.mp found
  have inside' : place < list.toList.length := each.length_eq ▸ inside
  obtain ⟨early, late, yields⟩ := each.get inside' inside
  obtain ⟨id, holds, rank⟩ := Listing.exists_of_getElem?_toList (List.getElem?_eq_getElem inside')
  have carries := stems.carries _ (List.getElem_mem inside')
  obtain ⟨carried, targets, same, moved, operands⟩ :=
    Instruction.jump_of_lowerIn carries small yields jumps
  rw [same] at holds
  rcases stems.origin id _ holds with constant | ⟨held, there, lifts⟩
  · cases constant
  · obtain ⟨rfl, operand⟩ := lifts.keeps
    exact ⟨id, carried, targets, Listing.isLive_iff.mpr ⟨_, holds⟩, ranked ▸ rank, there, operand,
      moved, operands⟩

end Lowered

/-- Lifted code stays what its listing stems from, whatever edits follow. -/
theorem Listing.stems_of_edits {code : List Bytecode} {before lifted : Constants}
    {list edited : Listing Instruction} (lifting : Yields (liftCode code) before list lifted)
    (edits : Relation.ReflTransGen Listing.Edit list edited) :
    edited.Stems before.pool code := by
  obtain ⟨⟨instructions, rfl, lifts⟩, _⟩ := lifts_of_liftCode lifting
  induction edits with
  | refl => exact Listing.stems_ofList lifts
  | tail _ edit ih => exact ih.edit edit

/-- A relocation takes every position to the number of live nodes before it, and
all positions behind the old end to the new one. So it keeps the order, stays
within the new code, and leads every live node to its place there; and the
operands of branches and switches are moved in the same way. -/
theorem relocation_counts_live_nodes {code : List Bytecode} {before lifted start after : Constants}
    {list edited : Listing Instruction} {lowered : Lowered}
    (lifting : Yields (liftCode code) before list lifted)
    (edits : Relation.ReflTransGen Listing.Edit list edited)
    (lowering : Yields (lowerCode edited code.length) start lowered after) :
    (∀ position ≤ code.length, lowered.relocation.map position = edited.rank position) ∧
    (∀ position > code.length, lowered.relocation.map position = lowered.code.length) ∧
    lowered.relocation.limit = lowered.code.length ∧ lowered.code.length < 0x10000 ∧
    Monotone lowered.relocation.map ∧
    (∀ position, lowered.relocation.map position ≤ lowered.code.length) ∧
    (∀ id instruction, edited.get? id = some instruction → ∃ placed early late,
      lowered.code[lowered.relocation.map id]? = some placed ∧
      Yields (instruction.lowerIn lowered.relocation.map) early placed late) ∧
    ∀ place placed, lowered.code[place]? = some placed → placed.targets? ≠ .ok none →
      ∃ id held targets, edited.isLive id = true ∧ lowered.relocation.map id = place ∧
        code[id]? = some held ∧ held.targets? = .ok (some targets) ∧
        placed = held.mapTargets lowered.relocation.map ∧
        placed.targets? = .ok (some (targets.map lowered.relocation.map)) := by
  have stems := Listing.stems_of_edits lifting edits
  obtain ⟨limit, count, short⟩ := Lowered.limit_eq_length lowering
  have ranked := Lowered.map_eq_rank stems.unclosed stems.size lowering
  refine ⟨fun _ _ => by rw [ranked], fun position beyond => ?_, limit, short, ?_,
    fun position => ?_, fun id instruction held => ?_, fun place placed found jumps => ?_⟩
  · rw [ranked, count]
    exact Listing.rank_of_size_le (stems.size ▸ Nat.le_of_lt beyond)
  · rw [ranked]
    exact edited.rank_mono
  · rw [ranked, count]
    exact edited.rank_le_length position
  · exact Lowered.placed_of_live stems.unclosed stems.size lowering held
  · exact Lowered.jump_of_placed stems lowering found jumps

section Thinned

/-- Code with a branch over a switch; the switch leads to a position that goes
away and to one behind the end. -/
def switching : List Bytecode :=
  [.plain .iconst0, .plain .iconst1, .plain .pop, .branch .ifeq 5, .tableswitch 2 0 0 [9],
    .plain .returnVoid]

/-- Two instructions less: positions behind them move up by two, one of theirs to
the branch that follows, and the far one to the new end. -/
theorem switching_moves : ∃ list lifted lowered after,
    Yields (liftCode switching) (.ofPool .empty) list lifted ∧
    Yields (lowerCode ((list.remove 1).remove 2) 6) lifted lowered after ∧
    lowered.code = [.plain .iconst0, .branch .ifeq 3, .tableswitch 1 0 0 [4], .plain .returnVoid] ∧
    lowered.relocation.map 2 = 1 ∧ lowered.relocation.map 5 = 3 ∧ lowered.relocation.map 9 = 4 := by
  obtain ⟨list, lifted, lowered, after, lifting, lowering, code, taken, last⟩ :
      ∃ list lifted lowered after, Yields (liftCode switching) (.ofPool .empty) list lifted ∧
        Yields (lowerCode ((list.remove 1).remove 2) 6) lifted lowered after ∧
        lowered.code =
          [.plain .iconst0, .branch .ifeq 3, .tableswitch 1 0 0 [4], .plain .returnVoid] ∧
        ((list.remove 1).remove 2).rank 2 = 1 ∧ ((list.remove 1).remove 2).rank 5 = 3 :=
    ⟨_, _, _, _, rfl, rfl, rfl, rfl, rfl⟩
  have edits : Relation.ReflTransGen Listing.Edit list ((list.remove 1).remove 2) :=
    .tail (.single (.remove 1)) (.remove 2)
  obtain ⟨counted, behind, _⟩ := relocation_counts_live_nodes lifting edits lowering
  refine ⟨list, lifted, lowered, after, lifting, lowering, code,
    (counted 2 (by decide)).trans taken, (counted 5 (by decide)).trans last, ?_⟩
  rw [behind 9 (by decide), code]
  rfl

end Thinned

end LiteralRecovery
