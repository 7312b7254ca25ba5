import LiteralRecovery.Proofs.UninitializedTypes

/-! Exception ranges, line numbers and local variables of a body that gets new
code. An entry speaks of a range of instructions or of everything from a position
on. It stays exactly if some instruction it speaks of is still there, and then it
speaks of the same instructions as before, at their new places. -/
namespace LiteralRecovery

/-! ### What an entry speaks of -/

namespace ExceptionRange

/-- The range holds the instruction with a given number. -/
def Covers (range : ExceptionRange) (index : Nat) : Prop :=
  range.start.toNat ≤ index ∧ index < range.stop.toNat

instance (range : ExceptionRange) (index : Nat) : Decidable (range.Covers index) :=
  inferInstanceAs (Decidable (_ ∧ _))

/-- The moved range covers the nodes of the listing, by their new places, that the
old one covers; its handler starts with the first node left at or after the old
one, or with the end of the code. -/
structure Follows (list : Listing Instruction) (range moved : ExceptionRange) : Prop where
  covers : ∀ place id, list.ids[place]? = some id → (moved.Covers place ↔ range.Covers id)
  handler : moved.handler.toNat = list.landing range.handler.toNat
  catchType : moved.catchType = range.catchType

end ExceptionRange

namespace LocalVariable

/-- The variable is in scope at the instruction with a given number. -/
def Covers (entry : LocalVariable) (index : Nat) : Prop :=
  entry.start.toNat ≤ index ∧ index < entry.start.toNat + entry.length.toNat

instance (entry : LocalVariable) (index : Nat) : Decidable (entry.Covers index) :=
  inferInstanceAs (Decidable (_ ∧ _))

/-- The moved variable is the old one, in scope at the same nodes of the
listing. -/
structure Follows (list : Listing Instruction) (entry moved : LocalVariable) : Prop where
  covers : ∀ place id, list.ids[place]? = some id → (moved.Covers place ↔ entry.Covers id)
  name : moved.name = entry.name
  descriptor : moved.descriptor = entry.descriptor
  slot : moved.slot = entry.slot

end LocalVariable

/-- The moved entry gives the old line to the first node of the listing that is
left at or after the old start. -/
structure LineEntry.Follows (list : Listing Instruction) (entry moved : LineEntry) : Prop where
  start : moved.start.toNat = list.landing entry.start.toNat
  line : moved.line = entry.line

/-- The entries of a line number table. -/
def Attribute.lines? : Attribute → Option (List LineEntry)
  | .table ⟨_, .lineNumbers lines⟩ => some lines
  | _ => none

/-- The entries of a local variable table. -/
def Attribute.vars? : Attribute → Option (List LocalVariable)
  | .table ⟨_, .localVariables vars⟩ => some vars
  | _ => none

namespace CodeBody

/-- The line number tables among the attributes of a body. -/
def lineTables (body : CodeBody Attribute) : List (List LineEntry) :=
  body.attributes.filterMap Attribute.lines?

/-- The local variable tables among the attributes of a body. -/
def varTables (body : CodeBody Attribute) : List (List LocalVariable) :=
  body.attributes.filterMap Attribute.vars?

end CodeBody

/-! ### Positions and places -/

namespace Listing

variable {α : Type} {list : Listing α}

/-- The node at a place is at or after a position exactly if the place is not
before the one that the position leads to. -/
theorem landing_le_iff {place : Nat} {id : NodeId} (held : list.ids[place]? = some id)
    (position : Nat) : list.landing position ≤ place ↔ position ≤ id := by
  obtain ⟨inside, rfl⟩ := List.getElem?_eq_some_iff.mp held
  constructor
  · intro reached
    have found : list.landing position < list.ids.length := by omega
    have first : position ≤ list.ids[list.landing position] :=
      of_decide_eq_true (List.findIdx_getElem (w := found))
    rcases Nat.lt_or_eq_of_le reached with before | same
    · have ascends := List.pairwise_iff_getElem.mp list.ids_ascending _ _ found inside before
      exact Nat.le_trans first (Nat.le_of_lt ascends)
    · simpa only [same] using first
  · intro above
    by_contra beyond
    have missed := List.not_of_lt_findIdx (Nat.lt_of_not_le beyond)
    exact of_decide_eq_false missed above

/-- Two positions lead to different places exactly if a node is left between
them. -/
theorem landing_lt_landing_iff {lower upper : Nat} :
    list.landing lower < list.landing upper ↔ ∃ id ∈ list.ids, lower ≤ id ∧ id < upper := by
  constructor
  · intro apart
    have inside : list.landing lower < list.ids.length :=
      Nat.lt_of_lt_of_le apart List.findIdx_le_length
    have held := List.getElem?_eq_getElem inside
    refine ⟨_, List.getElem_mem inside, (landing_le_iff held lower).mp (Nat.le_refl _), ?_⟩
    exact Nat.lt_of_not_le fun above =>
      Nat.not_le_of_lt apart ((landing_le_iff held upper).mpr above)
  · rintro ⟨id, member, above, below⟩
    obtain ⟨place, held⟩ := List.mem_iff_getElem?.mp member
    have reached := (landing_le_iff held lower).mpr above
    exact Nat.lt_of_le_of_lt reached
      (Nat.lt_of_not_le fun late => Nat.not_le_of_lt below ((landing_le_iff held upper).mp late))

/-- A position leads to a node exactly if one is left at or after it. -/
theorem landing_lt_length_iff {position : Nat} :
    list.landing position < list.length ↔ ∃ id ∈ list.ids, position ≤ id := by
  have count : list.length = list.ids.length := (List.length_map _).symm
  simp [count, landing, List.findIdx_lt_length]

/-- All positions behind the last slot lead to the end. -/
theorem landing_min {bound : Nat} (small : list.size ≤ bound) (position : Nat) :
    list.landing (min position bound) = list.landing position := by
  rcases Nat.le_total position bound with inside | outside
  · rw [Nat.min_eq_left inside]
  · rw [Nat.min_eq_right outside, landing_eq_rank, landing_eq_rank, rank_of_size_le small,
      rank_of_size_le (Nat.le_trans small outside)]

end Listing

/-! ### Moved tables -/

namespace Relocation

variable {relocation : Relocation} {list : Listing Instruction}

/-- The relocation leads every position to the first node of the listing that is
left at or after it, in code that positions of 16 bits suffice for. -/
structure Leads (relocation : Relocation) (list : Listing Instruction) : Prop where
  map : relocation.map = list.landing
  limit : relocation.limit = list.length
  short : list.length < 0x10000

theorem Leads.of_lowerCode {length : Nat} {before after : Constants} {lowered : Lowered}
    (unclosed : list.Open) (size : list.size = length)
    (lowering : Yields (lowerCode list length) before lowered after) :
    lowered.relocation.Leads list := by
  obtain ⟨limit, count, short⟩ := Lowered.limit_eq_length lowering
  refine ⟨?_, limit.trans count, count ▸ short⟩
  rw [Lowered.map_eq_rank unclosed size lowering]
  funext position
  exact (list.landing_eq_rank position).symm

theorem Leads.toNat_landing (leads : relocation.Leads list) (position : Nat) :
    (list.landing position).toUInt16.toNat = list.landing position := by
  have fits := list.landing_le_length position
  have short := leads.short
  simp only [Nat.toUInt16_eq, UInt16.toNat_ofNat']
  omega

theorem Leads.toNat_move (leads : relocation.Leads list) (position : UInt16) :
    (relocation.move position).toNat = list.landing position.toNat := by
  rw [move, leads.map, leads.toNat_landing]

/-- Entries that are moved one by one, of which those that became empty are
dropped. -/
private theorem forall₂_moved {β : Type} {move : β → β} {keeps stays : β → Bool}
    {follows : β → β → Prop} (entries : List β) (same : ∀ entry, keeps (move entry) = stays entry)
    (each : ∀ entry, follows entry (move entry)) :
    List.Forall₂ follows (entries.filter stays) ((entries.map move).filter keeps) := by
  have kept : keeps ∘ move = stays := funext same
  rw [List.filter_map, kept, List.forall₂_map_right_iff, List.forall₂_same]
  exact fun entry _ => each entry

theorem Leads.ranges_follow (leads : relocation.Leads list) (ranges : List ExceptionRange) :
    List.Forall₂ (ExceptionRange.Follows list)
      (ranges.filter fun range => list.ids.any (range.Covers ·)) (relocation.ranges ranges) := by
  refine forall₂_moved ranges (fun range => ?_) fun range => ⟨fun place id held => ?_, ?_, rfl⟩
  · rw [Bool.eq_iff_iff, decide_eq_true_eq, UInt16.lt_iff_toNat_lt, leads.toNat_move,
      leads.toNat_move, Listing.landing_lt_landing_iff, List.any_eq_true]
    simp only [decide_eq_true_eq]
    exact Iff.rfl
  · have first := Listing.landing_le_iff held range.start.toNat
    have last := Listing.landing_le_iff held range.stop.toNat
    simp only [ExceptionRange.Covers, leads.toNat_move]
    omega
  · exact leads.toNat_move range.handler

theorem Leads.lines_follow (leads : relocation.Leads list) (lines : List LineEntry) :
    List.Forall₂ (LineEntry.Follows list)
      (lines.filter fun entry => list.ids.any (entry.start.toNat ≤ ·)) (relocation.lines lines) := by
  refine forall₂_moved lines (fun entry => ?_) fun entry => ⟨leads.toNat_move entry.start, rfl⟩
  rw [Bool.eq_iff_iff, decide_eq_true_eq, leads.toNat_move, leads.limit,
    Listing.landing_lt_length_iff]
  simp

theorem Leads.vars_follow (leads : relocation.Leads list) (small : list.size ≤ 0xFFFF)
    (vars : List LocalVariable) :
    List.Forall₂ (LocalVariable.Follows list)
      (vars.filter fun entry => list.ids.any (entry.Covers ·)) (relocation.vars vars) := by
  have start (entry : LocalVariable) :
      (relocation.moveVariable entry).start.toNat = list.landing entry.start.toNat :=
    leads.toNat_move entry.start
  have length (entry : LocalVariable) : (relocation.moveVariable entry).length.toNat =
      list.landing (entry.start.toNat + entry.length.toNat) - list.landing entry.start.toNat := by
    have fits := list.landing_le_length (entry.start.toNat + entry.length.toNat)
    have short := leads.short
    simp only [moveVariable, leads.map, Listing.landing_min small, Nat.toUInt16_eq,
      UInt16.toNat_ofNat']
    omega
  refine forall₂_moved vars (fun entry => ?_) fun entry => ⟨fun place id held => ?_, rfl, rfl, rfl⟩
  · rw [Bool.eq_iff_iff, decide_eq_true_eq, UInt16.lt_iff_toNat_lt, length, UInt16.toNat_zero,
      Nat.sub_pos_iff_lt, Listing.landing_lt_landing_iff, List.any_eq_true]
    simp only [decide_eq_true_eq]
    exact Iff.rfl
  · have first := Listing.landing_le_iff held entry.start.toNat
    have last := Listing.landing_le_iff held (entry.start.toNat + entry.length.toNat)
    simp only [LocalVariable.Covers, start, length]
    omega

end Relocation

namespace CodeBody

variable {body changed : CodeBody Attribute} {lowered : Lowered}

theorem lines?_of_immovable (held : Attribute) (immovable : isMovable held = false) :
    held.lines? = none := by
  unfold Attribute.lines?
  split
  · cases immovable
  · rfl

theorem vars?_of_immovable (held : Attribute) (immovable : isMovable held = false) :
    held.vars? = none := by
  unfold Attribute.vars?
  split
  · cases immovable
  · rfl

theorem lineTables_relocate (moved : body.relocate lowered = .ok changed) :
    List.Forall₂ (fun lines moved => moved = lowered.relocation.lines lines) body.lineTables
      changed.lineTables := by
  refine filterMap_relocate lines?_of_immovable (fun held moved moves => ?_) moved
  cases moves with
  | lineNumbers _ _ => exact .some rfl
  | stackMap _ _ | localVariables _ _ => exact .none
  | fixed immovable =>
    rw [lines?_of_immovable held immovable]
    exact .none

theorem varTables_relocate (moved : body.relocate lowered = .ok changed) :
    List.Forall₂ (fun vars moved => moved = lowered.relocation.vars vars) body.varTables
      changed.varTables := by
  refine filterMap_relocate vars?_of_immovable (fun held moved moves => ?_) moved
  cases moves with
  | localVariables _ _ => exact .some rfl
  | stackMap _ _ | lineNumbers _ _ => exact .none
  | fixed immovable =>
    rw [vars?_of_immovable held immovable]
    exact .none

end CodeBody

/-- A body whose code is replaced keeps what its tables say about the instructions
that are left. An exception range stays exactly if an instruction it covers is
left, and then covers those; its handler goes to the first instruction left at or
after the old one. A local variable stays exactly if it is in scope at an
instruction that is left, and then at those. A line stays exactly if an
instruction is left at or after its start, and then starts with the first one.
All that stay do so in their order. -/
theorem tables_keep_their_instructions {body changed : CodeBody Attribute}
    {list edited : Listing Instruction} {before lifted : Constants} {writing after : Writing}
    (lifting : Yields (liftCode body.code) before list lifted) (thinned : list.Thins edited)
    (short : body.code.length ≤ 0xFFFF)
    (rewriting : Yields (body.withListing edited) writing changed after)
    (replaced : changed.code ≠ body.code) :
    changed.code.length = edited.ids.length ∧
    List.Forall₂ (ExceptionRange.Follows edited)
      (body.ranges.filter fun range => edited.ids.any (range.Covers ·)) changed.ranges ∧
    List.Forall₂ (fun vars moved => List.Forall₂ (LocalVariable.Follows edited)
      (vars.filter fun entry => edited.ids.any (entry.Covers ·)) moved)
      body.varTables changed.varTables ∧
    List.Forall₂ (fun lines moved => List.Forall₂ (LineEntry.Follows edited)
      (lines.filter fun entry => edited.ids.any (entry.start.toNat ≤ ·)) moved)
      body.lineTables changed.lineTables := by
  have stems := Listing.stems_of_edits lifting .refl
  have unclosed : edited.Open := fun id shut => stems.unclosed id ((thinned.closed id).mp shut)
  have size : edited.size = body.code.length := thinned.size.trans stems.size
  obtain ⟨lowered, _, lowering, same | moved⟩ := CodeBody.withListing_cases rewriting
  · exact absurd (congrArg CodeBody.code same) replaced
  have leads := Relocation.Leads.of_lowerCode unclosed size lowering
  obtain ⟨code, ranges⟩ := CodeBody.code_relocate moved
  refine ⟨?_, ?_, ?_, ?_⟩
  · rw [code, (Lowered.limit_eq_length lowering).2.1, Listing.ids, List.length_map, Listing.length]
  · rw [ranges]
    exact leads.ranges_follow body.ranges
  · refine (CodeBody.varTables_relocate moved).imp fun vars moved same => ?_
    rw [same]
    exact leads.vars_follow (size ▸ short) vars
  · refine (CodeBody.lineTables_relocate moved).imp fun lines moved same => ?_
    rw [same]
    exact leads.lines_follow lines

section Guarded

/-- A body with two guarded stretches, one of which goes away, with lines and with
variables, one of which is in scope up to behind the end. -/
def guarded : CodeBody Attribute where
  maxStack := 2
  maxLocals := 2
  code := [.plain .iconst5, .plain .iconst3, .plain .ixor, .plain .pop, .plain .returnVoid]
  ranges := [⟨1, 3, 4, 0⟩, ⟨0, 2, 2, 7⟩]
  attributes := [.table ⟨5, .lineNumbers [⟨0, 10⟩, ⟨2, 11⟩, ⟨5, 12⟩]⟩,
    .table ⟨6, .localVariables [⟨1, 2, 8, 9, 0⟩, ⟨2, 0xFFFF, 8, 9, 1⟩]⟩]

def guardedCode : Listing Instruction :=
  .ofList [.intConst 5, .intConst 3, .bitwise .int .xor, .plain (.plain .pop),
    .plain (.plain .returnVoid)]

/-- The body once its expression is folded. -/
def guardedFolded : CodeBody Attribute where
  maxStack := 2
  maxLocals := 2
  code := [.bipush 6, .plain .pop, .plain .returnVoid]
  ranges := [⟨0, 1, 1, 7⟩]
  attributes := [.table ⟨5, .lineNumbers [⟨0, 10⟩, ⟨1, 11⟩]⟩,
    .table ⟨6, .localVariables [⟨1, 2, 8, 9, 1⟩]⟩]

/-- The range over the two nodes that go away goes too, and so do a variable of
these nodes and the line behind the end. -/
theorem guarded_keeps_the_rest :
    Yields (guarded.withListing ((guardedCode.removeAll [1, 2]).replace 0 (.intConst 6)))
      ⟨.ofPool .empty, #[]⟩ guardedFolded ⟨.ofPool .empty, #[]⟩ ∧
    ExceptionRange.Follows ((guardedCode.removeAll [1, 2]).replace 0 (.intConst 6))
      ⟨0, 2, 2, 7⟩ ⟨0, 1, 1, 7⟩ ∧
    LocalVariable.Follows ((guardedCode.removeAll [1, 2]).replace 0 (.intConst 6))
      ⟨2, 0xFFFF, 8, 9, 1⟩ ⟨1, 2, 8, 9, 1⟩ := by
  have lifting : Yields (liftCode guarded.code) (.ofPool .empty) guardedCode (.ofPool .empty) := rfl
  have thinned : guardedCode.Thins ((guardedCode.removeAll [1, 2]).replace 0 (.intConst 6)) :=
    (Listing.thins_removeAll _ _).trans (Listing.thins_replace _ _ _)
  have rewriting : Yields
      (guarded.withListing ((guardedCode.removeAll [1, 2]).replace 0 (.intConst 6)))
      ⟨.ofPool .empty, #[]⟩ guardedFolded ⟨.ofPool .empty, #[]⟩ := by
    with_unfolding_all rfl
  obtain ⟨_, ranges, vars, _⟩ :=
    tables_keep_their_instructions lifting thinned (by decide) rewriting (by decide)
  refine ⟨rewriting, ?_, ?_⟩
  · exact (List.forall₂_cons.mp ranges).1
  · exact (List.forall₂_cons.mp (List.forall₂_cons.mp vars).1).1

end Guarded

end LiteralRecovery
