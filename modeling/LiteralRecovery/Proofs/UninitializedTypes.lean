import LiteralRecovery.Proofs.FrameRelocation

/-! Frames may speak of objects that are not initialized yet, and name them by the
byte offset of the `new` that makes them. When the code of a body is replaced,
frames move to the new positions of their instructions, but these offsets stay the
numbers they were. So such a type still names its `new` exactly if as many bytes
come before it as did. -/
namespace LiteralRecovery

/-! ### Byte offsets -/

namespace Bytecode

/-- The offset behind a code sequence that starts at `offset`. -/
def offsetAfter (offset : Nat) (code : List Bytecode) : Nat :=
  code.foldl (fun offset instruction => offset + instruction.width offset) offset

/-- Number of bytes before the instruction with a given number. -/
def bytesBefore (code : List Bytecode) (index : Nat) : Nat := offsetAfter 0 (code.take index)

private theorem offsets_from (code : List Bytecode) (starts : List Nat) (offset : Nat) :
    (code.foldl (fun (starts, offset) instruction =>
      (offset :: starts, offset + instruction.width offset)) (starts, offset)).1.reverse =
        starts.reverse ++
          (List.range code.length).map fun index => offsetAfter offset (code.take index) := by
  induction code generalizing starts offset with
  | nil => simp
  | cons first rest ih =>
    rw [List.foldl_cons, ih, List.length_cons, List.range_succ_eq_map]
    simp [offsetAfter, Function.comp_def]

/-- An instruction starts behind the bytes of those before it. -/
theorem getElem?_offsets {code : List Bytecode} {index : Nat} (inside : index < code.length) :
    (offsets code).1[index]? = some (bytesBefore code index) := by
  have starts : (offsets code).1 =
      (List.range code.length).map fun index => offsetAfter 0 (code.take index) :=
    offsets_from code [] 0
  rw [starts, List.getElem?_map, List.getElem?_range inside]
  rfl

/-- The instruction with a given number makes an object, and stands at the offset
by which types name it. -/
def Names (code : List Bytecode) (offset : UInt16) (index : Nat) : Prop :=
  (∃ number, code[index]? = some (.pooled .new number)) ∧
    (offsets code).1[index]? = some offset.toNat

theorem names_iff {code : List Bytecode} {offset number : UInt16} {index : Nat}
    (held : code[index]? = some (.pooled .new number)) :
    Names code offset index ↔ bytesBefore code index = offset.toNat := by
  have inside := (List.getElem?_eq_some_iff.mp held).1
  rw [Names, getElem?_offsets inside, Option.some.injEq]
  exact and_iff_right ⟨number, held⟩

end Bytecode

/-! ### Stack maps of a body -/

/-- All types that a frame mentions. -/
def StackFrame.types (frame : StackFrame) : List VerificationType := frame.locals ++ frame.stack

/-- The frames of a stack map. -/
def Attribute.frames? : Attribute → Option (List StackFrame)
  | .table ⟨_, .stackMap frames⟩ => some frames
  | _ => none

/-- The stack maps among the attributes of a body. -/
def CodeBody.stackMaps (body : CodeBody Attribute) : List (List StackFrame) :=
  body.attributes.filterMap Attribute.frames?

/-- How an attribute is moved: the three tables of positions each in their way,
and anything else not at all. -/
inductive Relocation.Moves (relocation : Relocation) : Attribute → Attribute → Prop where
  | stackMap (name : UInt16) {frames moved : List StackFrame}
      (found : relocation.frames frames = .ok moved) :
      Moves relocation (.table ⟨name, .stackMap frames⟩) (.table ⟨name, .stackMap moved⟩)
  | lineNumbers (name : UInt16) (lines : List LineEntry) :
      Moves relocation (.table ⟨name, .lineNumbers lines⟩)
        (.table ⟨name, .lineNumbers (relocation.lines lines)⟩)
  | localVariables (name : UInt16) (vars : List LocalVariable) :
      Moves relocation (.table ⟨name, .localVariables vars⟩)
        (.table ⟨name, .localVariables (relocation.vars vars)⟩)
  | fixed {held : Attribute} (immovable : isMovable held = false) : Moves relocation held held

theorem Relocation.moves_of_moveAttribute {relocation : Relocation} {held moved : Attribute}
    (found : relocation.moveAttribute held = .ok moved) : relocation.Moves held moved := by
  cases held with
  | code _ _ | record _ _ =>
    cases found
    exact .fixed rfl
  | table named =>
    obtain ⟨name, table⟩ := named
    obtain ⟨table', moves, same⟩ := bind_eq_ok.mp found
    cases same
    cases table with
    | stackMap frames =>
      obtain ⟨frames', here, same⟩ := bind_eq_ok.mp moves
      cases same
      exact .stackMap name here
    | lineNumbers lines =>
      cases moves
      exact .lineNumbers name lines
    | localVariables vars =>
      cases moves
      exact .localVariables name vars
    | localVariableTypes _ | other _ _ =>
      cases moves
      exact .fixed rfl

namespace CodeBody

variable {body changed : CodeBody Attribute} {list : Listing Instruction} {lowered : Lowered}
variable {writing after : Writing}

theorem code_relocate (moved : body.relocate lowered = .ok changed) :
    changed.code = lowered.code ∧ changed.ranges = lowered.relocation.ranges body.ranges := by
  obtain ⟨attributes, _, same⟩ := bind_eq_ok.mp moved
  cases same
  exact ⟨rfl, rfl⟩

/-- Attributes with positions are moved one by one and stay in their order. -/
theorem moves_relocate (moved : body.relocate lowered = .ok changed) :
    List.Forall₂ lowered.relocation.Moves (body.attributes.filter isMovable)
      changed.attributes := by
  obtain ⟨attributes, found, same⟩ := bind_eq_ok.mp moved
  cases same
  clear moved
  generalize body.attributes.filter isMovable = held at found
  induction held generalizing attributes with
  | nil =>
    cases found
    exact .nil
  | cons first rest ih =>
    rw [List.mapM_cons, bind_eq_ok] at found
    obtain ⟨moved, here, rest'⟩ := found
    obtain ⟨others, behind, same⟩ := bind_eq_ok.mp rest'
    cases same
    exact .cons (Relocation.moves_of_moveAttribute here) (ih others behind)

/-- The same of those that a test picks out. -/
theorem filterMap_relocate {β : Type} {pick : Attribute → Option β} {related : β → β → Prop}
    (immovable : ∀ held, isMovable held = false → pick held = none)
    (each : ∀ held moved, lowered.relocation.Moves held moved →
      Option.Rel related (pick held) (pick moved))
    (moved : body.relocate lowered = .ok changed) :
    List.Forall₂ related (body.attributes.filterMap pick) (changed.attributes.filterMap pick) := by
  have moves := List.rel_filterMap (fun held moved => each held moved) (moves_relocate moved)
  have kept : (body.attributes.filter isMovable).filterMap pick =
      body.attributes.filterMap pick := by
    rw [List.filterMap_filter]
    apply List.filterMap_congr
    intro held _
    split
    · rfl
    · rename_i fixed
      rw [immovable held (Bool.eq_false_of_not_eq_true fixed)]
  rwa [kept] at moves

theorem frames?_of_immovable (held : Attribute) (immovable : isMovable held = false) :
    held.frames? = none := by
  unfold Attribute.frames?
  split
  · cases immovable
  · rfl

theorem stackMaps_relocate (moved : body.relocate lowered = .ok changed) :
    changed.code = lowered.code ∧
      List.Forall₂ (fun frames frames' => lowered.relocation.frames frames = .ok frames')
        body.stackMaps changed.stackMaps := by
  refine ⟨(code_relocate moved).1, filterMap_relocate frames?_of_immovable ?_ moved⟩
  intro held moved moves
  cases moves with
  | stackMap name found => exact .some found
  | lineNumbers _ _ | localVariables _ _ => exact .none
  | fixed immovable =>
    rw [frames?_of_immovable held immovable]
    exact .none

/-- A body is given the lowered code and what can be moved there, unless that is
the code it has. -/
theorem withListing_cases (yields : Yields (body.withListing list) writing changed after) :
    ∃ lowered constants,
      Yields (lowerCode list body.code.length) writing.constants lowered constants ∧
        (changed = body ∨ body.relocate lowered = .ok changed) := by
  obtain ⟨lowered, _, step, rest⟩ := yields_bind.mp yields
  obtain ⟨constants, lowering, rfl⟩ := Writing.yields_onConstants.mp step
  refine ⟨lowered, constants, yields_adapt.mp lowering, ?_⟩
  split at rest
  · exact .inl (yields_pure.mp rest).1
  · dsimp only at rest
    split at rest
    · obtain ⟨_, _, _, moved⟩ := yields_bind.mp rest
      exact .inr (yields_liftM.mp moved).1
    · exact .inr (yields_liftM.mp rest).1

end CodeBody

/-- Moved frames mention the types that they did, offsets and all. -/
theorem Relocation.types_of_frames {relocation : Relocation} {frames moved : List StackFrame}
    (found : relocation.frames frames = .ok moved) :
    List.Forall₂ (fun frame later => later.types = frame.types) frames moved := by
  refine (framesFrom_forall₂ found).imp ?_
  rintro frame _ ⟨delta, rfl⟩
  have same := frame.corresponds_withDelta delta
  rw [StackFrame.types, StackFrame.types, same.locals, same.stack]

/-- An instruction that is carried along is found in the new code at the rank of
its node. -/
theorem Lowered.carried_of_live {pool : ConstantPool} {code : List Bytecode}
    {list : Listing Instruction} {before after : Constants} {lowered : Lowered}
    (stems : list.Stems pool code)
    (lowering : Yields (lowerCode list code.length) before lowered after) {id : NodeId}
    {carried : Bytecode} (held : list.get? id = some (.plain carried)) :
    lowered.code[list.rank id]? = some carried := by
  obtain ⟨placed, _, _, found, yields⟩ :=
    placed_of_live stems.unclosed stems.size lowering held
  rw [map_eq_rank stems.unclosed stems.size lowering] at found
  obtain ⟨rfl, _⟩ := yields_pure.mp yields
  exact found

/-- A body with new code keeps the types of its frames as they were. So a type
that names a `new` by its offset goes on naming it, now at the rank of its node,
exactly if the new code has as many bytes before it as the old code. -/
theorem uninitialized_kept_iff_room_kept {body changed : CodeBody Attribute}
    {list edited : Listing Instruction} {before lifted : Constants} {writing after : Writing}
    (lifting : Yields (liftCode body.code) before list lifted)
    (edits : Relation.ReflTransGen Listing.Edit list edited)
    (rewriting : Yields (body.withListing edited) writing changed after)
    (replaced : changed.code ≠ body.code) :
    List.Forall₂ (List.Forall₂ fun frame later => later.types = frame.types)
      body.stackMaps changed.stackMaps ∧
    ∀ frames ∈ changed.stackMaps, ∀ frame ∈ frames, ∀ offset number index,
      .uninitialized offset ∈ frame.types → Bytecode.Names body.code offset index →
      edited.get? index = some (.plain (.pooled .new number)) →
      changed.code[edited.rank index]? = some (.pooled .new number) ∧
      (Bytecode.Names changed.code offset (edited.rank index) ↔
        Bytecode.bytesBefore changed.code (edited.rank index) =
          Bytecode.bytesBefore body.code index) := by
  have stems := Listing.stems_of_edits lifting edits
  obtain ⟨lowered, _, lowering, same | moved⟩ := CodeBody.withListing_cases rewriting
  · exact absurd (congrArg CodeBody.code same) replaced
  obtain ⟨code, maps⟩ := CodeBody.stackMaps_relocate moved
  refine ⟨maps.imp fun _ _ found => Relocation.types_of_frames found, ?_⟩
  rintro _ _ _ _ offset number index _ ⟨⟨_, there⟩, named⟩ held
  have placed := Lowered.carried_of_live stems lowering held
  rw [← code] at placed
  refine ⟨placed, ?_⟩
  rw [Bytecode.getElem?_offsets (List.getElem?_eq_some_iff.mp there).1, Option.some.injEq] at named
  rw [Bytecode.names_iff placed, named]

section Constructing

/-- A body that works out a number before it makes an object; a frame behind the
branch has the object on the stack. -/
def constructing : CodeBody Attribute where
  maxStack := 2
  maxLocals := 0
  code := [.plain .iconst5, .plain .iconst3, .plain .ixor, .plain .pop, .pooled .new 2,
    .plain .iconst0, .branch .ifeq 7, .plain .pop, .plain .returnVoid]
  ranges := []
  attributes := [.table ⟨5, .stackMap [⟨.full [] [.uninitialized 4], 7⟩]⟩]

/-- The listing of the body. -/
def constructingCode : Listing Instruction :=
  .ofList [.intConst 5, .intConst 3, .bitwise .int .xor, .plain (.plain .pop),
    .plain (.pooled .new 2), .intConst 0, .jump (.branch .ifeq 7) [7], .plain (.plain .pop),
    .plain (.plain .returnVoid)]

theorem constructing_lifts :
    Yields (liftCode constructing.code) (.ofPool .empty) constructingCode (.ofPool .empty) := rfl

/-- The listing with the number in place of its expression. -/
def constructingFolded : Listing Instruction :=
  (constructingCode.removeAll [1, 2]).replace 0 (.intConst 6)

theorem constructing_edits :
    Relation.ReflTransGen Listing.Edit constructingCode constructingFolded :=
  Listing.edits_collapse [1, 2] 0 rfl

/-- The body with the folded code: the object is made one byte earlier. -/
def constructed : CodeBody Attribute where
  maxStack := 2
  maxLocals := 0
  code := [.bipush 6, .plain .pop, .pooled .new 2, .plain .iconst0, .branch .ifeq 5, .plain .pop,
    .plain .returnVoid]
  ranges := []
  attributes := [.table ⟨5, .stackMap [⟨.full [] [.uninitialized 4], 5⟩]⟩]

theorem constructing_rewritten :
    Yields (constructing.withListing constructingFolded) ⟨.ofPool .empty, #[]⟩ constructed
      ⟨.ofPool .empty, #[]⟩ := by
  with_unfolding_all rfl

/-- The `new` of the folded body is still there, but not where its type says. -/
theorem constructed_leaves_its_offset :
    constructed.code[2]? = some (.pooled .new 2) ∧ ¬ Bytecode.Names constructed.code 4 2 := by
  have kept := (uninitialized_kept_iff_room_kept constructing_lifts constructing_edits
    constructing_rewritten (by decide)).2 _ (List.mem_singleton_self _) _
    (List.mem_singleton_self _) 4 2 4 (List.mem_singleton_self _) ⟨⟨2, rfl⟩, rfl⟩ rfl
  refine ⟨kept.1, fun named => ?_⟩
  exact absurd (kept.2.mp named) (by decide)

/-- The frame names byte 4, where the object was made; it is now made at byte 3,
and at byte 4 no instruction starts. -/
theorem constructed_names_nothing :
    Yields (constructing.withListing constructingFolded) ⟨.ofPool .empty, #[]⟩ constructed
      ⟨.ofPool .empty, #[]⟩ ∧
    Bytecode.Names constructing.code 4 4 ∧ constructingFolded.rank 4 = 2 ∧
    Bytecode.Names constructed.code 3 2 ∧
    constructed.stackMaps = [[⟨.full [] [.uninitialized 4], 5⟩]] ∧
    ∀ index, ¬ Bytecode.Names constructed.code 4 index := by
  refine ⟨constructing_rewritten, ⟨⟨2, rfl⟩, rfl⟩, rfl, ⟨⟨2, rfl⟩, rfl⟩, rfl, ?_⟩
  rintro index ⟨_, start⟩
  have starts : (Bytecode.offsets constructed.code).1 = [0, 2, 3, 6, 7, 10, 11] := rfl
  have member := List.mem_of_getElem? start
  rw [starts] at member
  revert member
  decide

end Constructing

end LiteralRecovery
