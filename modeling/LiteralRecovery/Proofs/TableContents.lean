import LiteralRecovery.Proofs.Tidy

/-! What becomes of the contents of a table. A read at a constant index uses up
the first store of its slot, once; nothing else takes a store out as long as the
table stays declared. So a table that survives has lost one store at most for
each slot that was read, and kept all others. -/
namespace LiteralRecovery

namespace StaticTable

open Listing

variable {kind : ElementKind} {state after : RecoveryState} {site : ReadSite} {value : Instruction}
variable {place : Place} {index : Int32} {segment : List (NodeId × Instruction)}

/-- Finding a value leaves the initializer alone or takes one store out, the
first of a slot that was not taken from before. -/
theorem resolve_takes (found : resolve kind state site = .ok (value, after)) :
    (after.initializerCode = state.initializerCode ∧ after.memo = state.memo) ∨
    ∃ store taken,
      state.memo.lookup (site.field.key, site.index) = none ∧
      after.memo = ((site.field.key, site.index), value) :: state.memo ∧
      storeAt? state.initializerCode site.field site.index kind state.cls.name = some store ∧
      StoreSegment state.cls.name site.field kind store taken ∧
      ∀ field index segment, ConstantStore field index segment →
        Stands state.initializerCode segment →
          segment = taken ∨ Stands after.initializerCode segment := by
  rcases resolve_cases found with ⟨_, rfl⟩ | ⟨_, _, _, rfl⟩ | ⟨fresh, store, helper, hit, _, _, rfl⟩
  · exact .inl ⟨rfl, rfl⟩
  · exact .inl ⟨rfl, rfl⟩
  · obtain ⟨id, stored, _, _⟩ := storeAt?_eq_some.mp hit
    obtain ⟨taken, present, shape, _⟩ := store?_eq_some.mp stored
    refine .inr ⟨store, taken, fresh, rfl, hit, shape, ?_⟩
    intro field index segment other stands
    rcases stores_apart_or_same stands other present shape.constant with apart | same
    · right
      have code : (consume kind state site store value helper).cls =
          state.cls.editCode state.initializer (·.removeAll store.nodes) := rfl
      rw [RecoveryState.initializerCode, code]
      obtain ⟨before, behind, split⟩ := stands
      by_cases valid : state.initializer < state.cls.methods.length
      · change Stands ((state.cls.editCode state.initializer _).codeAt state.initializer) segment
        rw [Class.codeAt_editCode_self valid, ← shape.nodes]
        exact split_removeAll split apart
      · rw [Class.editCode_of_not_lt valid]
        exact ⟨before, behind, split⟩
    · exact .inl same

/-- Putting a value in place of a read takes no store out. -/
theorem stands_replaced {method : Nat} {id indexId loadId : NodeId} {field field' : MemberRef}
    {index' : Int32} (shape : ConstantStore field index segment)
    (read : Stands (state.cls.codeAt method)
      [(id, .getStatic field'), (indexId, .intConst index'), (loadId, .arrayLoad kind)])
    (stands : Stands state.initializerCode segment) :
    Stands ((state.cls.editCode method fun code =>
      (code.removeAll [indexId, loadId]).replace id value).codeAt state.initializer) segment := by
  by_cases here : method = state.initializer
  · subst here
    by_cases valid : state.initializer < state.cls.methods.length
    · rw [Class.codeAt_editCode_self valid]
      have apart := store_apart_from_read stands shape read
      have head := isLive_iff.mpr ⟨_, stands_live read (id, .getStatic field') (by simp)⟩
      have distinct : id ∉ [indexId, loadId] := head_not_mem_of_stands read
      obtain ⟨before, behind, split⟩ := stands
      refine split_collapse split head distinct fun entry member => ?_
      have outside := apart entry member
      simp only [List.mem_cons, not_or] at outside ⊢
      exact outside
    · rwa [Class.editCode_of_not_lt valid]
  · rwa [Class.codeAt_editCode_ne here]

/-! ### Contents along a run -/

/-- The store is the first of its slot, and a read of the slot was replaced, as
the log tells. -/
structure UsedUp (folded : Listing Instruction) (className : String) (key : MemberKey)
    (index : Int32) (segment : List (NodeId × Instruction)) (events : Array Event) : Prop where
  first : ∃ kind site, StoreSegment className (key.owned className) kind site segment ∧
    storeAt? folded (key.owned className) index kind className = some site
  logged : ∃ method value,
    Event.readResolved className (key.owned className) index method value ∈ events

theorem UsedUp.mono {folded : Listing Instruction} {className : String} {key : MemberKey}
    {events events' : Array Event} (used : UsedUp folded className key index segment events)
    (more : ∀ event ∈ events, event ∈ events') :
    UsedUp folded className key index segment events' := by
  obtain ⟨first, method, value, logged⟩ := used
  exact ⟨first, method, value, more _ logged⟩

/-- Every constant store into the table that stood in the folded initializer
still stands, unless it is the one that was taken for its index. -/
def Stocked (folded : Listing Instruction) (className : String) (key : MemberKey)
    (state : RecoveryState) : Prop :=
  ∃ taken : Int32 → Option (List (NodeId × Instruction)), ∀ index segment,
    ConstantStore (key.owned className) index segment → Stands folded segment →
      Stands state.initializerCode segment ∨
        (taken index = some segment ∧ (state.memo.lookup (key, index)).isSome = true ∧
          UsedUp folded className key index segment state.events)

variable {folded : Listing Instruction} {className : String} {key : MemberKey}

/-- While no store of a slot has been used up, the first one left is the first
one there was. -/
theorem first_of_stocked {store : StoreSite} (stocked : Stocked folded className key state)
    (fresh : state.memo.lookup (key, index) = none)
    (hit : storeAt? state.initializerCode (key.owned className) index kind className = some store)
    (shape : StoreSegment className (key.owned className) kind store segment)
    (stands : Stands folded segment) :
    storeAt? folded (key.owned className) index kind className = some store := by
  obtain ⟨taken, kept⟩ := stocked
  obtain ⟨id, stored, atIndex, earliest⟩ := storeAt?_eq_some.mp hit
  obtain ⟨_, _, shape', start⟩ := store?_eq_some.mp stored
  refine storeAt?_eq_some.mpr
    ⟨id, store?_eq_some.mpr ⟨segment, stands, shape, start⟩, atIndex, ?_⟩
  intro earlier below other found same
  obtain ⟨segment', stands', other', start'⟩ := store?_eq_some.mp found
  rcases kept other.index segment' other'.constant stands' with still | ⟨_, known, _⟩
  · exact earliest earlier below other
      (store?_eq_some.mpr ⟨segment', still, other', start'⟩) same
  · rw [same, fresh] at known
    cases known

theorem stocked_of_changes (changed : Changes (step kind) state after)
    (name : state.cls.name = className) (stocked : Stocked folded className key state) :
    Stocked folded className key after := by
  obtain ⟨place, changed⟩ := changed
  obtain ⟨site, value, resolved, event, read, found, logged, rfl⟩ := step_cases changed
  obtain ⟨indexId, loadId, tail, stands⟩ := read_stands_resolved read found
  have frame := resolve_frame found
  have events : resolved.events = state.events := by
    rcases resolve_cases found with ⟨_, rfl⟩ | ⟨_, _, _, rfl⟩ | ⟨_, _, _, _, _, _, rfl⟩ <;> rfl
  have replaced {table : MemberRef} {index : Int32} {segment : List (NodeId × Instruction)}
      (shape : ConstantStore table index segment)
      (present : Stands resolved.initializerCode segment) :
      Stands ((resolved.cls.editCode place.method fun code =>
        (code.removeAll site.tail).replace place.node value).codeAt resolved.initializer)
          segment := by
    rw [tail]
    exact stands_replaced shape stands present
  have more : ∀ event' ∈ state.events, event' ∈ resolved.events.push event := by
    intro event' member
    rw [events]
    simp [member]
  have logs : ∃ method value, Event.readResolved className site.field site.index method value ∈
      resolved.events.push event := by
    rw [← name, ← RecoveryState.frame_name frame]
    exact ⟨_, value, Array.mem_push.mpr (.inr logged.symm)⟩
  obtain ⟨taken, kept⟩ := id stocked
  rcases resolve_takes found with ⟨code, memo⟩ | ⟨store, lost, fresh, memo, hit, shape, others⟩
  · refine ⟨taken, fun index segment shape present => ?_⟩
    rcases kept index segment shape present with still | ⟨used, known, before⟩
    · exact .inl (replaced shape (code ▸ still))
    · exact .inr ⟨used, memo ▸ known, before.mono more⟩
  · obtain ⟨_, _, atIndex, _⟩ := storeAt?_eq_some.mp hit
    refine ⟨fun index => if key = site.field.key ∧ index = site.index then some lost
      else taken index, fun index segment shape' present => ?_⟩
    rcases kept index segment shape' present with still | ⟨used, known, before⟩
    · rcases others _ _ _ shape' still with rfl | stays
      · -- the store that has just been taken is the one of its index from now on
        obtain ⟨table, rfl⟩ := shape'.unique shape.constant
        have same : key = site.field.key := congrArg MemberRef.key table
        rw [name, ← table] at hit
        rw [name, ← table] at shape
        rw [← same] at fresh memo
        rw [← table, ← atIndex] at logs
        refine .inr ⟨if_pos ⟨same, atIndex⟩, ?_, ⟨kind, store, shape, ?_⟩, logs⟩
        · simp [memo, atIndex]
        · rw [atIndex]
          exact first_of_stocked stocked fresh hit shape present
      · exact .inl (replaced shape' stays)
    · have different : ¬ (key = site.field.key ∧ index = site.index) := by
        rintro ⟨rfl, rfl⟩
        rw [fresh] at known
        cases known
      refine .inr ⟨(if_neg different).trans used, ?_, before.mono more⟩
      simp only [memo, List.lookup_cons]
      split
      · rfl
      · exact known

/-- A table pass uses up stores and takes no other out. -/
theorem stocked_run (options : Options) (name : state.cls.name = className)
    (stocked : Stocked folded className key state) :
    Stocked folded className key ((Pass.table kind).run options state).1 := by
  have both := (Pass.table kind).run_keeps options
    (fun later => later.cls.name = className ∧ Stocked folded className key later) ?_ ?_
    ⟨name, stocked⟩
  · exact both.2
  · rintro later event ⟨name, taken, kept⟩
    refine ⟨name, taken, fun index segment shape present => ?_⟩
    rcases kept index segment shape present with still | ⟨used, known, before⟩
    · exact .inl still
    · exact .inr ⟨used, known, before.mono fun event' member => by
        simp [RecoveryState.log, member]⟩
  · rintro later ⟨name, stocked⟩
    refine sweep_keeps
      (fun later => later.cls.name = className ∧ Stocked folded className key later) ?_
      ⟨name, stocked⟩
    rintro before after ⟨name, stocked⟩ changed
    exact ⟨(RecoveryState.frame_name (changes_frame changed)).trans name,
      stocked_of_changes changed name stocked⟩

/-- The passes that fold, and those that follow them. -/
theorem recoveryPasses_eq : recoveryPasses =
    [.fold .long, .fold .int] ++ [ElementKind.int, .long, .reference].map .table := rfl

end StaticTable

/-- The listing of the first static initializer, empty if there is none. -/
def Class.initializerCode (cls : Class) : Listing Instruction :=
  match cls.initializer? with
  | some position => cls.codeAt position
  | none => .empty

theorem InitializerAt.initializerCode {cls : Class} {front back : List Method} {method : Method}
    (located : InitializerAt cls front method back) : cls.initializerCode = method.code := by
  simp [Class.initializerCode, located.found, Class.codeAt_of_split located.split]

namespace StaticTable

/-- A table that is still declared after recovery has kept all its constant
stores as they stood when folding was done, except for at most one at each
index: the first store of a slot of which a read was replaced. -/
theorem surviving_table_keeps_stores (options : Options) (cls : Class) (stats : Stats)
    (position : Nat) (key : MemberKey) (first : cls.initializer? = some position)
    (fine : (recover options cls).result = .ok stats)
    (declared : key ∈ (recover options cls).cls.fields.map Field.key) :
    let folded := (Pass.runAll options [.fold .long, .fold .int]
      (RecoveryState.start cls position)).1.initializerCode
    ∃ taken : Int32 → Option (List (NodeId × Instruction)), ∀ index segment,
      ConstantStore (key.owned cls.name) index segment → Stands folded segment →
        Stands (recover options cls).cls.initializerCode segment ∨
          (taken index = some segment ∧
            UsedUp folded cls.name key index segment (recover options cls).events) := by
  intro folded
  obtain ⟨front, method, back, located, rfl⟩ := initializerAt_of_found first
  obtain ⟨resolved, last, front', method', back', ran, tidy, _, _, final, logged⟩ :=
    Cleanup.recover_tidy located fine
  rw [recoveryPasses_eq] at ran
  obtain ⟨middle, folds, tables⟩ := Pass.runAll_split ran
  have name : middle.cls.name = cls.name := by
    have frame := Pass.runAll_frame options [.fold .long, .fold .int]
      (RecoveryState.start cls front.length)
    rw [folds] at frame
    exact RecoveryState.frame_name frame
  have code : folded = middle.initializerCode := by simp only [folded, folds]
  have stocked : resolved.cls.name = cls.name ∧ Stocked folded cls.name key resolved := by
    have kept := Pass.runAll_keeps options ([ElementKind.int, .long, .reference].map .table)
      (fun later => later.cls.name = cls.name ∧ Stocked folded cls.name key later) ?_
      ⟨name, fun _ => none, fun index segment _ stands => .inl (code ▸ stands)⟩
    · rwa [tables] at kept
    · rintro pass member later ⟨name, stocked⟩
      obtain ⟨kind, _, rfl⟩ := List.mem_map.mp member
      exact ⟨(RecoveryState.frame_name (Pass.run_frame _ options later)).trans name,
        stocked_run options name stocked⟩
  obtain ⟨taken, kept⟩ := stocked.2
  refine ⟨taken, fun index segment shape present => ?_⟩
  rcases kept index segment shape present with still | ⟨used, _, before⟩
  · left
    rw [final, (Cleanup.located_clearLocals tidy.located).initializerCode]
    rw [final] at declared
    exact tidy.contents key declared index segment shape still
  · exact .inr ⟨used, before.mono logged⟩

/-- A class with one table, read once at a constant index and once at a variable
one. -/
def mixedReads : Class :=
  let numbers : MemberRef := ⟨"Mixed", "numbers", "[I"⟩
  .ofMembers "Mixed" [numbers.key]
    [(⟨initializerName, "()V"⟩,
      [.intConst 2, .newArray .int, .putStatic numbers,
       .getStatic numbers, .intConst 0, .intConst 10, .arrayStore .int,
       .getStatic numbers, .intConst 1, .intConst 11, .arrayStore .int,
       .plain (.plain .returnVoid)]),
     (⟨"read", "(I)I"⟩,
      [.getStatic numbers, .intConst 0, .arrayLoad .int, .plain (.plain .pop),
       .getStatic numbers, .plain (.loadShort .int ⟨0, by decide⟩), .arrayLoad .int,
       .plain (.plain .ireturn)])]

/-- The store of 10 at index 0, or of 11 at index 1, in `mixedReads`. -/
def mixedStore (head : NodeId) (index value : Int32) : List (NodeId × Instruction) :=
  [(head, .getStatic ⟨"Mixed", "numbers", "[I"⟩), (head + 1, .intConst index),
   (head + 2, .intConst value), (head + 3, .arrayStore .int)]

theorem mixedReads_keeps_unread :
    (recover ⟨.combine⟩ mixedReads).result = .ok ⟨0, 1, 0, 0, 0, 0, 0, 0, 0⟩ ∧
    ⟨"numbers", "[I"⟩ ∈ (recover ⟨.combine⟩ mixedReads).cls.fields.map Field.key ∧
    Stands (recover ⟨.combine⟩ mixedReads).cls.initializerCode (mixedStore 7 1 11) := by
  have fine : (recover ⟨.combine⟩ mixedReads).result = .ok ⟨0, 1, 0, 0, 0, 0, 0, 0, 0⟩ := rfl
  have declared : ⟨"numbers", "[I"⟩ ∈ (recover ⟨.combine⟩ mixedReads).cls.fields.map Field.key := by
    decide +kernel
  refine ⟨fine, declared, ?_⟩
  obtain ⟨taken, kept⟩ :=
    surviving_table_keeps_stores ⟨.combine⟩ mixedReads _ 0 ⟨"numbers", "[I"⟩ rfl fine declared
  have window : (Pass.runAll ⟨.combine⟩ [.fold .long, .fold .int]
      (RecoveryState.start mixedReads 0)).1.initializerCode.window 4 7 =
        some (mixedStore 7 1 11) := rfl
  rcases kept 1 (mixedStore 7 1 11) (.direct _ _ _ _ _ _ rfl) (stands_of_window window).1 with
    still | ⟨_, _, method, value, logged⟩
  · exact still
  · -- no read at index 1 was replaced
    have silent : ((recover ⟨.combine⟩ mixedReads).events.any fun
        | .readResolved _ _ index _ _ => index = 1
        | _ => false) = false := by decide +kernel
    rw [Array.any_eq_false'] at silent
    exact absurd rfl (silent _ logged)

theorem mixedReads_loses_store :
    (recover ⟨.combine⟩ mixedReads).result = .ok ⟨0, 1, 0, 0, 0, 0, 0, 0, 0⟩ ∧
    ⟨"numbers", "[I"⟩ ∈ (recover ⟨.combine⟩ mixedReads).cls.fields.map Field.key ∧
    ConstantStore ⟨"Mixed", "numbers", "[I"⟩ 0 (mixedStore 3 0 10) ∧
    Stands (Pass.runAll ⟨.combine⟩ [.fold .long, .fold .int]
      (RecoveryState.start mixedReads 0)).1.initializerCode (mixedStore 3 0 10) ∧
    ¬ Stands (recover ⟨.combine⟩ mixedReads).cls.initializerCode (mixedStore 3 0 10) := by
  have window : (Pass.runAll ⟨.combine⟩ [.fold .long, .fold .int]
      (RecoveryState.start mixedReads 0)).1.initializerCode.window 4 3 =
        some (mixedStore 3 0 10) := rfl
  refine ⟨rfl, by decide +kernel, .direct _ _ _ _ _ _ rfl, (stands_of_window window).1, ?_⟩
  intro stands
  have live := stands_live stands (3, .getStatic ⟨"Mixed", "numbers", "[I"⟩) List.mem_cons_self
  cases live

end StaticTable

end LiteralRecovery
