import LiteralRecovery.Proofs.Tiling

/-! The table passes over a class that fits a scheme. Every step replaces one
use by the value of its slot, whatever has been replaced before: a slot that
was not read yet still has all its stores, and a slot that was is remembered.
No step fails, and a pass leaves no use of its kind behind. -/
namespace LiteralRecovery

namespace Class

variable {origin cls : Class} {index : Nat} {method : Method}

theorem exists_of_outline (same : cls.outline = origin.outline)
    (present : origin.methods[index]? = some method) :
    ∃ later, cls.methods[index]? = some later ∧ later.declaration = method.declaration ∧
      later.code = cls.codeAt index := by
  obtain ⟨_, _, declarations⟩ := outline_eq_iff.mp same
  have here := congrArg (·[index]?) declarations
  simp only [List.getElem?_map, present, Option.map_some, Option.map_eq_some_iff] at here
  obtain ⟨later, found, declaration⟩ := here
  exact ⟨later, found, declaration, by simp [codeAt, found]⟩

theorem name_of_initializer? (found : cls.initializer? = some index)
    (present : cls.methods[index]? = some method) : method.name = initializerName := by
  obtain ⟨valid, named, _⟩ := List.findIdx?_eq_some_iff_getElem.mp found
  rw [List.getElem?_eq_getElem valid] at present
  cases present
  simpa using named

end Class

namespace StaticTable

variable {kind : ElementKind} {state : RecoveryState} {site : ReadSite} {store : StoreSite}
variable {value : Instruction} {helper : Option MemberKey} {table : MemberKey} {index : Int32}

theorem remembered_consume (known : (state.memo.lookup (table, index)).isSome = true) :
    ((consume kind state site store value helper).memo.lookup (table, index)).isSome = true := by
  rw [lookup_consume]
  split
  · rfl
  · exact known

theorem markedFields_consume :
    (consume kind state site store value helper).markedFields.contains table = true ↔
      table = site.field.key ∨ state.markedFields.contains table = true :=
  KeySet.contains_insert

theorem markedMethods_consume {method : MemberKey} :
    (consume kind state site store value helper).markedMethods.contains method = true ↔
      helper = some method ∨ state.markedMethods.contains method = true := by
  cases helper with
  | none => simp [consume, RecoveryState.editInitializer]
  | some other =>
    rw [Option.some.injEq, @eq_comm _ other]
    exact KeySet.contains_insert

theorem codeAt_consume {number : Nat} (different : number ≠ state.initializer) :
    (consume kind state site store value helper).cls.codeAt number = state.cls.codeAt number :=
  Class.codeAt_editCode_ne different.symm

end StaticTable

namespace Scheme

open StaticTable

/-- A part of a method in the course of the passes: as it was, or a use that has
been replaced. -/
inductive Piece where
  | raw (part : Part)
  | settled (table : MemberKey) (index : Int32)

namespace Piece

/-- The part as it was. -/
def part : Piece → Part
  | .raw part => part
  | .settled table index => .use table index

def code (scheme : Scheme) (cls : Class) : Piece → List Instruction
  | .raw part => part.code cls.name scheme.kindOf
  | .settled table index => [scheme.slotValue cls table index]

/-- A use of a kind whose pass is done has been replaced, and a use that has been
replaced is remembered unless there was nothing to remember. -/
def Fine (scheme : Scheme) (done : ElementKind → Prop)
    (memo : List ((MemberKey × Int32) × Instruction)) : Piece → Prop
  | .raw (.use table _) => ¬ done (scheme.kindOf table)
  | .raw (.other _) => True
  | .settled table index => (memo.lookup (table, index)).isSome = true ∨
    firstStore scheme.entries table index = none

/-- A memo that forgets nothing keeps pieces fine. -/
theorem Fine.mono {scheme : Scheme} {done : ElementKind → Prop}
    {memo later : List ((MemberKey × Int32) × Instruction)} {piece : Piece}
    (fine : piece.Fine scheme done memo)
    (grows : ∀ table index, (memo.lookup (table, index)).isSome = true →
      (later.lookup (table, index)).isSome = true) : piece.Fine scheme done later := by
  cases piece with
  | settled table index => exact Or.imp_left (grows table index) fine
  | raw part =>
    cases part with
    | use table index => exact fine
    | other instruction => trivial

end Piece

/-- Whether an entry is about no table that a value was taken from. -/
def untouched (marked : KeySet) (entry : Entry) : Bool := entry.table?.all (!marked.contains ·)

/-- What the initializer still holds: the first store of every slot that is not
remembered, and all entries of tables that were not touched. -/
structure Remains (scheme : Scheme) (memo : List ((MemberKey × Int32) × Instruction))
    (marked : KeySet) (live : List Entry) : Prop where
  subset : live ⊆ scheme.entries
  first : ∀ table index, memo.lookup (table, index) = none →
    firstStore live table index = firstStore scheme.entries table index
  rest : live.filter (untouched marked) = scheme.entries.filter (untouched marked)

/-- What holds in the course of the table passes over `origin`, when the passes
of some kinds are done. -/
structure Resolving (scheme : Scheme) (origin : Class) (position : Nat) (done : ElementKind → Prop)
    (state : RecoveryState) : Prop where
  frame : state.frame = (RecoveryState.start origin position).frame
  initializer : ∃ live, state.initializerCode.toList = live.flatMap (Entry.code origin.name) ∧
    Remains scheme state.memo state.markedFields live
  bodies : ∀ index method, origin.methods[index]? = some method → index ≠ position →
    ∃ pieces : List Piece, pieces.map Piece.part = scheme.parts method.key ∧
      (state.cls.codeAt index).toList = pieces.flatMap (Piece.code scheme origin) ∧
      ∀ piece ∈ pieces, piece.Fine scheme done state.memo
  helpers : ∀ index method, origin.methods[index]? = some method → index ≠ position →
    (∀ part ∈ scheme.parts method.key, part.slot? = none) → state.cls.codeAt index = method.code
  memo : ∀ table index value, state.memo.lookup (table, index) = some value →
    (table, index) ∈ scheme.usedSlots origin ∧
      ∃ source, firstStore scheme.entries table index = some source ∧ value = source.value origin
  fields : ∀ table, state.markedFields.contains table = true ↔
    ∃ index, (state.memo.lookup (table, index)).isSome = true
  methods : ∀ helper, state.markedMethods.contains helper = true ↔
    ∃ table index source, (state.memo.lookup (table, index)).isSome = true ∧
      firstStore scheme.entries table index = some source ∧ source.helper? = some helper

variable {scheme : Scheme} {origin : Class} {position : Nat} {done : ElementKind → Prop}
variable {state after : RecoveryState} {table : MemberKey} {index : Int32}

theorem suits_entry (fits : scheme.Fits origin) {entry : Entry} (member : entry ∈ scheme.entries) :
    Suits scheme origin entry := by
  obtain ⟨block, present, rfl⟩ := List.mem_map.mp member
  have suits := fits.suits block present
  cases block with
  | allocate size kind table => exact suits
  | store table index source =>
    refine ⟨suits.1, ?_, ?_⟩
    · cases source <;> exact suits.2.1
    · cases source <;> exact suits.2.2
  | other code => trivial

/-- Logging and counting touch nothing that matters. -/
theorem Resolving.of_same (resolving : Resolving scheme origin position done state)
    (cls : after.cls = state.cls) (initializer : after.initializer = state.initializer)
    (fields : after.markedFields = state.markedFields)
    (methods : after.markedMethods = state.markedMethods)
    (removed : after.removedFields = state.removedFields) (memo : after.memo = state.memo) :
    Resolving scheme origin position done after := by
  obtain ⟨_, _, _, _, _, _, _, _⟩ := after
  cases cls
  cases initializer
  cases fields
  cases methods
  cases removed
  cases memo
  exact ⟨resolving.frame, resolving.initializer, resolving.bodies, resolving.helpers,
    resolving.memo, resolving.fields, resolving.methods⟩

/-! ### Finding a value -/

/-- Taking the first store of a slot leaves the other slots and the other tables
alone. -/
theorem Remains.take {memo : List ((MemberKey × Int32) × Instruction)} {marked : KeySet}
    {front back : List Entry} {source : Source Int32 Int64} {value : Instruction}
    (remains : Remains scheme memo marked (front ++ .store table index source :: back)) :
    Remains scheme (((table, index), value) :: memo) (marked.insert table) (front ++ back) := by
  refine ⟨?_, ?_, ?_⟩
  · have among : front ++ back ⊆ front ++ .store table index source :: back :=
      ((List.sublist_cons_self _ back).append_left front).subset
    exact fun entry member => remains.subset (among member)
  · intro other position fresh
    rw [List.lookup_cons] at fresh
    split at fresh
    · cases fresh
    · rename_i different
      rw [← remains.first other position fresh]
      refine firstStore_remove fun source' same => ?_
      cases same
      simp at different
  · have finer : ∀ entry : Entry, untouched (marked.insert table) entry =
        (untouched marked entry && entry.table?.all (· ≠ table)) := by
      intro entry
      cases about : entry.table? with
      | none => simp [untouched, about]
      | some other =>
        rw [Bool.eq_iff_iff]
        simp only [untouched, about, Option.all_some, Bool.not_eq_true', Bool.and_eq_true,
          decide_eq_true_eq, ← Bool.not_eq_true, KeySet.contains_insert, not_or]
        exact And.comm
    have split (entries : List Entry) : entries.filter (untouched (marked.insert table)) =
        (entries.filter (untouched marked)).filter (·.table?.all (· ≠ table)) := by
      rw [List.filter_filter]
      exact List.filter_congr fun entry _ => (finer entry).trans (Bool.and_comm _ _)
    have gone : (front ++ back).filter (untouched (marked.insert table)) =
        (front ++ .store table index source :: back).filter (untouched (marked.insert table)) := by
      rw [List.filter_append, List.filter_append, List.filter_cons_of_neg]
      simp [finer, Block.table?]
    rw [gone, split, remains.rest, ← split]

theorem slotValue_of_first {source : Source Int32 Int64}
    (first : firstStore scheme.entries table index = some source) :
    scheme.slotValue origin table index = source.value origin := by
  simp [slotValue, first]

/-- The store that is found yields the value of its source. -/
theorem storedValue_eq (fits : scheme.Fits origin)
    (resolving : Resolving scheme origin position done state)
    (located : origin.initializer? = some position) {source : Source Int32 Int64}
    {store : StoreSite} (known : .store table index source ∈ scheme.entries)
    (agrees : source.Agrees origin.name store) :
    storedValue state.cls store = .ok (source.value origin, source.helper?) := by
  obtain ⟨value, helper⟩ := agrees
  cases source with
  | int number => simp [storedValue, value, Source.raw, Source.value, Source.helper?]
  | long number => simp [storedValue, value, Source.raw, Source.value, Source.helper?]
  | string cipher key onInterface =>
    obtain ⟨_, _, suitable⟩ := suits_entry fits known
    obtain ⟨declared, named, silent⟩ := suitable key rfl
    obtain ⟨method, member, rfl⟩ := List.mem_map.mp declared
    obtain ⟨number, present⟩ := List.getElem?_of_mem member
    -- the helper is where it was, under its name and with its code
    obtain ⟨later, found, declaration, code⟩ :=
      Class.exists_of_outline (RecoveryState.frame_outline resolving.frame) present
    have outside : number ≠ position := by
      rintro rfl
      exact named (Class.name_of_initializer? located present)
    have same : later.key = method.key := by
      simp only [Method.declaration, Prod.mk.injEq] at declaration
      simp [Method.key, declaration]
    have distinct : (state.cls.methods.map Method.key).Nodup := by
      obtain ⟨_, _, declarations⟩ :=
        Class.outline_eq_iff.mp (RecoveryState.frame_outline resolving.frame)
      rw [Method.map_key_of_declarations declarations]
      exact fits.methods
    have original := Class.method?_of_getElem fits.methods present
    have current := Class.method?_of_getElem distinct found
    rw [same] at current
    rw [resolving.helpers number method present outside silent] at code
    have name := RecoveryState.frame_name resolving.frame
    have owned : (method.key.owned origin.name).key = method.key := rfl
    simp only [Source.raw, Source.helper?, Option.map_some] at value helper
    simp only [storedValue, value, helper, owned, current, code, name, Source.value, original,
      Source.helper?, Cipher.decrypt_eq_unmasked]
    rfl

theorem position_lt (located : origin.initializer? = some position)
    (resolving : Resolving scheme origin position done state) :
    state.initializer = position ∧ state.initializer < state.cls.methods.length := by
  have here : state.initializer = position := RecoveryState.frame_initializer resolving.frame
  obtain ⟨_, _, declarations⟩ :=
    Class.outline_eq_iff.mp (RecoveryState.frame_outline resolving.frame)
  have length := congrArg List.length declarations
  obtain ⟨valid, _⟩ := List.findIdx?_eq_some_iff_getElem.mp located
  simp only [List.length_map, RecoveryState.start] at length
  exact ⟨here, by rw [here, length]; exact valid⟩

/-- Using up the first store of a slot keeps what holds. -/
theorem resolving_consume (kind : ElementKind) (located : origin.initializer? = some position)
    (resolving : Resolving scheme origin position done state)
    (used : (table, index) ∈ scheme.usedSlots origin) (tail : List NodeId)
    {front back : List Entry} {source : Source Int32 Int64} {store : StoreSite}
    (first : firstStore scheme.entries table index = some source)
    (remains : Remains scheme state.memo state.markedFields
      (front ++ .store table index source :: back))
    (taken : (state.initializerCode.removeAll store.nodes).toList =
      (front ++ back).flatMap (Entry.code origin.name)) :
    Resolving scheme origin position done (consume kind state
      ⟨table.owned origin.name, index, tail⟩ store (source.value origin) source.helper?) := by
  obtain ⟨here, valid⟩ := position_lt located resolving
  refine ⟨?_, ?_, ?_, ?_, ?_, ?_, ?_⟩
  · rw [← resolving.frame]
    simp [RecoveryState.frame, consume, RecoveryState.editInitializer]
  · refine ⟨front ++ back, ?_, remains.take⟩
    rw [← taken]
    exact congrArg Listing.toList (Class.codeAt_editCode_self valid)
  · intro number method present different
    obtain ⟨pieces, parts, view, fine⟩ := resolving.bodies number method present different
    refine ⟨pieces, parts, ?_, fun piece member => (fine piece member).mono fun _ _ => ?_⟩
    · rw [codeAt_consume (here ▸ different), view]
    · exact remembered_consume
  · intro number method present different silent
    rw [codeAt_consume (here ▸ different)]
    exact resolving.helpers number method present different silent
  · intro other place value known
    rw [lookup_consume] at known
    split at known
    · rename_i same
      obtain ⟨rfl, rfl⟩ := same
      cases known
      exact ⟨used, source, first, rfl⟩
    · exact resolving.memo other place value known
  · intro other
    rw [markedFields_consume, resolving.fields]
    constructor
    · rintro (rfl | ⟨place, known⟩)
      · exact ⟨index, by simp [lookup_consume]⟩
      · exact ⟨place, remembered_consume known⟩
    · rintro ⟨place, known⟩
      rw [lookup_consume] at known
      split at known
      · rename_i same
        exact .inl same.1
      · exact .inr ⟨place, known⟩
  · intro helper
    rw [markedMethods_consume, resolving.methods]
    constructor
    · rintro (helps | ⟨other, place, source', known, first', helps⟩)
      · exact ⟨table, index, source, by simp [lookup_consume], first, helps⟩
      · exact ⟨other, place, source', remembered_consume known, first', helps⟩
    · rintro ⟨other, place, source', known, first', helps⟩
      rw [lookup_consume] at known
      split at known
      · rename_i same
        obtain ⟨rfl, rfl⟩ := same
        cases first'.symm.trans first
        exact .inl helps
      · exact .inr ⟨other, place, source', known, first', helps⟩

/-- A use of a slot finds the value of the slot. -/
theorem resolve_use (fits : scheme.Fits origin) (located : origin.initializer? = some position)
    (resolving : Resolving scheme origin position done state)
    (declared : table ∈ origin.fields.map Field.key)
    (used : (table, index) ∈ scheme.usedSlots origin) (tail : List NodeId) :
    ∃ after, resolve (scheme.kindOf table) state ⟨table.owned origin.name, index, tail⟩ =
        .ok (scheme.slotValue origin table index, after) ∧
      Resolving scheme origin position done after ∧
      (∀ number ≠ position, after.cls.codeAt number = state.cls.codeAt number) ∧
      (∀ other place, (state.memo.lookup (other, place)).isSome = true →
        (after.memo.lookup (other, place)).isSome = true) ∧
      ((after.memo.lookup (table, index)).isSome = true ∨
        firstStore scheme.entries table index = none) := by
  have name : state.cls.name = origin.name := RecoveryState.frame_name resolving.frame
  simp only [resolve, MemberKey.key_owned, name]
  cases known : state.memo.lookup (table, index) with
  | some value =>
    obtain ⟨_, source, first, rfl⟩ := resolving.memo table index value known
    rw [slotValue_of_first first]
    exact ⟨_, rfl, resolving.of_same rfl rfl rfl rfl rfl rfl, fun _ _ => rfl,
      fun _ _ remembered => remembered, .inl (by simp [known])⟩
  | none =>
    obtain ⟨live, view, remains⟩ := resolving.initializer
    have kinds : ∀ place source, .store table place source ∈ live →
        source.kind = scheme.kindOf table := fun place source member =>
      (suits_entry fits (remains.subset member)).2.1
    simp only
    cases hit : storeAt? state.initializerCode (table.owned origin.name) index
      (scheme.kindOf table) origin.name with
    | none =>
      have missing := firstStore_of_missing view kinds hit
      rw [remains.first table index known] at missing
      have value : scheme.slotValue origin table index = .zero (scheme.kindOf table) := by
        simp [slotValue, missing]
      rw [value]
      exact ⟨_, rfl, resolving.of_same rfl rfl rfl rfl rfl rfl, fun _ _ => rfl,
        fun _ _ remembered => remembered, .inr missing⟩
    | some store =>
      obtain ⟨front, source, back, rfl, none, agrees, taken⟩ := firstStore_of_found view kinds hit
      have first : firstStore scheme.entries table index = some source := by
        rw [← remains.first table index known]
        exact firstStore_of_split none
      have present : (state.cls.field? table).isNone = false := by
        obtain ⟨_, fields, _⟩ :=
          Class.outline_eq_iff.mp (RecoveryState.frame_outline resolving.frame)
        obtain ⟨declaration, member, rfl⟩ := List.mem_map.mp declared
        rw [Option.isNone_eq_false_iff, Class.field?, fields, List.find?_isSome]
        exact ⟨declaration, member, by simp⟩
      have stored := storedValue_eq fits resolving located
        (remains.subset (List.mem_append_right _ List.mem_cons_self)) agrees
      simp only [present, Bool.false_eq_true, ↓reduceIte, stored, slotValue_of_first first]
      have kept := resolving_consume (scheme.kindOf table) located resolving used tail first
        remains taken
      refine ⟨_, rfl, kept, ?_, fun _ _ => remembered_consume, ?_⟩
      · intro number different
        exact codeAt_consume ((position_lt located resolving).1 ▸ different)
      · left
        simp [lookup_consume]

/-! ### One step -/

theorem isConstant_slotValue (scheme : Scheme) (origin : Class) (table : MemberKey)
    (index : Int32) : isConstant (scheme.slotValue origin table index) = true := by
  unfold slotValue
  split
  · rename_i source _
    cases source with
    | int value => rfl
    | long value => rfl
    | string cipher helper onInterface =>
      simp only [Source.value]
      split <;> rfl
  · cases scheme.kindOf table <;> rfl

theorem name_ne_of_other (fits : scheme.Fits origin)
    (located : origin.initializer? = some position) {number : Nat} {method : Method}
    (present : origin.methods[number]? = some method) (outside : number ≠ position) :
    method.name ≠ initializerName := by
  obtain ⟨front, initializer, back, located', single, _⟩ := fits.initializer
  rw [located'.found] at located
  cases located
  rw [located'.split] at present
  rcases Nat.lt_or_gt_of_ne outside with early | late
  · rw [List.getElem?_append_left early] at present
    exact located'.first method (List.mem_of_getElem? present)
  · rw [List.getElem?_append_right (Nat.le_of_lt late), List.getElem?_cons] at present
    rw [if_neg (Nat.sub_ne_zero_of_lt late)] at present
    exact single method (List.mem_of_getElem? present)

/-- Nothing in the initializer loads from an array. -/
theorem arrayLoad_not_mem (owner : String) (live : List Entry) (kind : ElementKind) :
    .arrayLoad kind ∉ live.flatMap (Entry.code owner) := by
  intro member
  obtain ⟨entry, _, inside⟩ := List.mem_flatMap.mp member
  cases entry with
  | allocate size array table => simp [Entry.code, Block.code] at inside
  | store table index source =>
    cases source <;> simp [Entry.code, Block.code, Source.code] at inside
  | other code => simp [Entry.code, Block.code] at inside

/-- A read of one of the class's tables that stands in a method is the tile of a
use that has not been replaced. -/
theorem use_tile {code : Listing Instruction} {tiles : List (Piece × List (NodeId × Instruction))}
    (tiling : Tiling code (Piece.code scheme origin) tiles)
    (admits : ∀ tile ∈ tiles, Admits origin tile.1.part) {field : MemberRef} {kind : ElementKind}
    {node indexId loadId : NodeId} (own : field.owner = origin.name)
    (stands : Stands code
      [(node, .getStatic field), (indexId, .intConst index), (loadId, .arrayLoad kind)]) :
    ∃ front table back, field = table.owned origin.name ∧ kind = scheme.kindOf table ∧
      tiles = front ++ (.raw (.use table index), [(node, .getStatic field),
        (indexId, .intConst index), (loadId, .arrayLoad kind)]) :: back := by
  have held := stands_live stands (node, .getStatic field) List.mem_cons_self
  obtain ⟨front, piece, segment, back, rfl, inside, contents, stands'⟩ := tiling.tile_of_node held
  have listed : .getStatic field ∈ piece.code scheme origin :=
    contents ▸ List.mem_map_of_mem inside
  have admitted := admits (piece, segment) (by simp)
  cases piece with
  | settled table index =>
    have constant := isConstant_slotValue scheme origin table index
    rw [← List.mem_singleton.mp listed] at constant
    cases constant
  | raw part =>
    cases part with
    | other instruction =>
      cases List.mem_singleton.mp listed
      simp [Admits, Piece.part, refersTo, own] at admitted
    | use table place =>
      obtain ⟨first, second, third, rfl⟩ := segment_of_three contents
      simp only [List.mem_cons, Prod.mk.injEq, reduceCtorEq, and_false, List.not_mem_nil, or_false,
        Instruction.getStatic.injEq] at inside
      obtain ⟨rfl, rfl⟩ := inside
      -- both segments are what the window at their first node shows
      have window : code.window 3 node = some _ := window_stands stands
      have window' : code.window 3 node = some _ := window_stands stands'
      have same := window.symm.trans window'
      simp only [Option.some.injEq, List.cons.injEq, Prod.mk.injEq, Instruction.intConst.injEq,
        Instruction.arrayLoad.injEq, and_true, true_and] at same
      obtain ⟨⟨rfl, rfl⟩, rfl, rfl⟩ := same
      exact ⟨front, table, back, rfl, rfl, rfl⟩

theorem read_outside (located : origin.initializer? = some position)
    (resolving : Resolving scheme origin position done state) {number : Nat} {node : NodeId}
    {kind : ElementKind} {site : ReadSite}
    (read : read? (state.cls.codeAt number) node state.cls.name kind = some site) :
    number ≠ position ∧ number < origin.methods.length := by
  obtain ⟨indexId, loadId, stands, _, _⟩ := read?_eq_some.mp read
  have held := stands_live stands (loadId, .arrayLoad kind) (by simp)
  constructor
  · rintro rfl
    obtain ⟨live, view, _⟩ := resolving.initializer
    rw [RecoveryState.initializerCode, (position_lt located resolving).1] at view
    exact arrayLoad_not_mem origin.name live kind (view ▸ Listing.mem_toList.mpr ⟨loadId, held⟩)
  · by_contra missing
    obtain ⟨_, _, declarations⟩ :=
      Class.outline_eq_iff.mp (RecoveryState.frame_outline resolving.frame)
    have length := congrArg List.length declarations
    simp only [List.length_map, RecoveryState.start] at length
    rw [← length] at missing
    rw [Class.codeAt_of_not_lt missing] at held
    cases held

/-- A read that stands in a method is one of its uses. -/
theorem use_of_read (fits : scheme.Fits origin) (located : origin.initializer? = some position)
    (resolving : Resolving scheme origin position done state) {number : Nat} {node : NodeId}
    {kind : ElementKind} {site : ReadSite}
    (read : read? (state.cls.codeAt number) node state.cls.name kind = some site) :
    number ≠ position ∧ ∃ method table, origin.methods[number]? = some method ∧
      site.field = table.owned origin.name ∧ kind = scheme.kindOf table ∧
      ∃ front back : List Piece,
        front.map Piece.part ++ .use table site.index :: back.map Piece.part =
          scheme.parts method.key ∧
        (∀ piece ∈ front ++ back, piece.Fine scheme done state.memo) ∧
        ∀ value, (((state.cls.codeAt number).removeAll site.tail).replace node value).toList =
          front.flatMap (Piece.code scheme origin) ++ [value] ++
            back.flatMap (Piece.code scheme origin) := by
  obtain ⟨outside, valid⟩ := read_outside located resolving read
  obtain ⟨indexId, loadId, stands, own, tail⟩ := read?_eq_some.mp read
  have name : state.cls.name = origin.name := RecoveryState.frame_name resolving.frame
  have present := List.getElem?_eq_getElem valid
  obtain ⟨pieces, parts, view, fine⟩ := resolving.bodies number _ present outside
  obtain ⟨tiles, tiling, rfl⟩ := Tiling.exists_of_toList view
  have admits : ∀ tile ∈ tiles, Admits origin tile.1.part := by
    intro tile member
    refine fits.admits _ (List.getElem_mem valid)
      (name_ne_of_other fits located present outside) _ ?_
    rw [← parts]
    exact List.mem_map_of_mem (List.mem_map_of_mem member)
  obtain ⟨front, table, back, field, same, rfl⟩ :=
    use_tile tiling admits (own.trans name) stands
  refine ⟨outside, _, table, present, field, same, front.map (·.1), back.map (·.1), ?_, ?_, ?_⟩
  · simpa [Piece.part] using parts
  · intro piece member
    apply fine piece
    rw [List.map_append, List.map_cons]
    exact ((List.sublist_cons_self _ _).append_left _).subset member
  · intro value
    have collapsed := tiling.toList_collapse value (Eq.refl _)
    rw [tail]
    simpa only [List.map_cons, List.map_nil] using collapsed

/-- Putting a value in for a use keeps what holds. -/
theorem resolving_edit (located : origin.initializer? = some position)
    (resolving : Resolving scheme origin position done state) {number : Nat} {method : Method}
    {edit : Listing Instruction → Listing Instruction} {pieces : List Piece} (events : Array Event)
    (present : origin.methods[number]? = some method) (outside : number ≠ position)
    (reads : .use table index ∈ scheme.parts method.key)
    (parts : pieces.map Piece.part = scheme.parts method.key)
    (view : (edit (state.cls.codeAt number)).toList = pieces.flatMap (Piece.code scheme origin))
    (fine : ∀ piece ∈ pieces, piece.Fine scheme done state.memo) :
    Resolving scheme origin position done
      { state with cls := state.cls.editCode number edit, events } := by
  obtain ⟨here, _⟩ := position_lt located resolving
  have valid : number < state.cls.methods.length := by
    obtain ⟨later, found, _, _⟩ :=
      Class.exists_of_outline (RecoveryState.frame_outline resolving.frame) present
    exact (List.getElem?_eq_some_iff.mp found).1
  refine ⟨?_, ?_, ?_, ?_, resolving.memo, resolving.fields, resolving.methods⟩
  · rw [← resolving.frame]
    simp [RecoveryState.frame]
  · obtain ⟨live, view, remains⟩ := resolving.initializer
    refine ⟨live, ?_, remains⟩
    rw [← view]
    exact congrArg Listing.toList (Class.codeAt_editCode_ne (here ▸ outside))
  · intro other method' present' outside'
    by_cases same : number = other
    · subst same
      rw [present] at present'
      cases present'
      exact ⟨pieces, parts, by rw [Class.codeAt_editCode_self valid, view], fine⟩
    · obtain ⟨pieces', parts', view', fine'⟩ := resolving.bodies other method' present' outside'
      exact ⟨pieces', parts', by rw [Class.codeAt_editCode_ne same, view'], fine'⟩
  · intro other method' present' outside' silent
    have different : number ≠ other := by
      rintro rfl
      rw [present] at present'
      cases present'
      cases silent _ reads
    rw [Class.codeAt_editCode_ne different]
    exact resolving.helpers other method' present' outside' silent

/-- No step fails, and a step that changes something keeps what holds. -/
theorem step_resolving (fits : scheme.Fits origin) (located : origin.initializer? = some position)
    (resolving : Resolving scheme origin position done state) (kind : ElementKind)
    (place : Place) :
    step kind state place = .skip ∨
      ∃ next, step kind state place = .change next ∧
        Resolving scheme origin position done next := by
  cases read : read? (state.cls.codeAt place.method) place.node state.cls.name kind with
  | none =>
    left
    simp only [step, read]
  | some site =>
    right
    obtain ⟨outside, method, table, present, field, rfl, front, back, parts, fine, collapsed⟩ :=
      use_of_read fits located resolving read
    obtain ⟨field', index, tail⟩ := site
    obtain rfl : field' = table.owned origin.name := field
    have reads : .use table index ∈ scheme.parts method.key := by simp [← parts]
    have member := List.mem_of_getElem? present
    have named := name_ne_of_other fits located present outside
    have used : (table, index) ∈ scheme.usedSlots origin := by
      refine List.mem_flatMap.mpr ⟨method, List.mem_filter.mpr ⟨member, by simpa using named⟩, ?_⟩
      exact List.mem_filterMap.mpr ⟨_, reads, rfl⟩
    obtain ⟨resolved, found, kept, code, grows, remembered⟩ :=
      resolve_use fits located resolving (fits.admits method member named _ reads) used tail
    simp only [step, read, found]
    refine ⟨_, rfl, ?_⟩
    have pieces : (front ++ .settled table index :: back).map Piece.part =
        scheme.parts method.key := by simpa [Piece.part] using parts
    refine resolving_edit located kept _ present outside reads pieces ?_ ?_
    · rw [code place.method outside, collapsed]
      simp [Piece.code]
    · intro piece member
      rw [List.mem_append, List.mem_cons] at member
      rcases member with early | rfl | late
      · exact (fine piece (List.mem_append_left _ early)).mono grows
      · exact remembered
      · exact (fine piece (List.mem_append_right _ late)).mono grows

/-! ### The passes -/

/-- The pass of a kind does not fail, and leaves no use of its kind. -/
theorem run_resolving (fits : scheme.Fits origin) (located : origin.initializer? = some position)
    (resolving : Resolving scheme origin position done state) (options : Options)
    (kind : ElementKind) :
    ((Pass.table kind).run options state).2 = none ∧
      Resolving scheme origin position (fun other => done other ∨ other = kind)
        ((Pass.table kind).run options state).1 := by
  have keepsLog (state : RecoveryState) (event : Event)
      (resolving : Resolving scheme origin position done state) :
      Resolving scheme origin position done (state.log event) :=
    resolving.of_same rfl rfl rfl rfl rfl rfl
  have safe (state : RecoveryState) (resolving : Resolving scheme origin position done state) :
      ((Pass.table kind).scan options state).error = none ∧
        Resolving scheme origin position done ((Pass.table kind).scan options state).state :=
    sweep_safe (Resolving scheme origin position done)
      (fun state place resolving => step_resolving fits located resolving kind place) _ 0 resolving
  have calm := (Pass.table kind).run_safe options _ keepsLog safe resolving
  obtain ⟨last, resolving, settled⟩ := (Pass.table kind).run_settles options _ keepsLog
    (fun state resolving => (safe state resolving).2) resolving calm
  obtain ⟨event, final⟩ := settled.eq
  have still := read?_eq_none_of_still (Pass.table_still settled.1 settled.2.1).2
  refine ⟨calm, ?_⟩
  rw [final]
  refine ⟨resolving.frame, resolving.initializer, ?_, resolving.helpers, resolving.memo,
    resolving.fields, resolving.methods⟩
  intro number method present outside
  obtain ⟨pieces, parts, view, fine⟩ := resolving.bodies number method present outside
  refine ⟨pieces, parts, view, fun piece member => ?_⟩
  have before := fine piece member
  cases piece with
  | settled table index => exact before
  | raw part =>
    cases part with
    | other instruction => trivial
    | use table index =>
      rintro (earlier | same)
      · exact before earlier
      · -- the use stands in the method, so the last walk would have found it
        obtain ⟨front, back, split⟩ := List.mem_iff_append.mp member
        rw [split, List.flatMap_append, List.flatMap_cons, ← List.append_assoc] at view
        obtain ⟨segment, stands, contents⟩ := stands_of_toList view
        obtain ⟨node, indexId, loadId, rfl⟩ := segment_of_three contents
        have name : last.cls.name = origin.name := RecoveryState.frame_name resolving.frame
        have read : read? (last.cls.codeAt number) node last.cls.name (scheme.kindOf table) =
            some ⟨table.owned origin.name, index, [indexId, loadId]⟩ :=
          read?_eq_some.mpr ⟨indexId, loadId, stands, name.symm, rfl⟩
        rw [same, still number node] at read
        cases read

end Scheme

end LiteralRecovery
