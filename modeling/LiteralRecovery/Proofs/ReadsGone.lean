import LiteralRecovery.Proofs.SecondRun
import LiteralRecovery.Proofs.SlotValues

/-! No read is left behind. Each kind of table is read to the end by a pass of its
own that is not run again, while later passes go on in the same methods. What they
put in place of a read is a long, a string or nothing at all, as long as no table is
read as two kinds; and none of these is part of a read, so that no new one comes
about. Cleanup leaves methods other than the initializer as they are, or takes them
out. -/
namespace LiteralRecovery

/-- A stretch of a list that holds no `value` lies on one side of it. -/
theorem infix_of_infix_append_cons {α : Type} {stretch front back : List α} {value : α}
    (inside : stretch <:+: front ++ value :: back) (absent : value ∉ stretch) :
    stretch <:+: front ∨ stretch <:+: back := by
  obtain ⟨before, after, same⟩ := inside
  rw [List.append_eq_append_iff] at same
  rcases same with ⟨rest, whole, _⟩ | ⟨beyond, whole, tail⟩
  · exact .inl ⟨before, rest, whole.symm⟩
  · cases beyond with
    | nil =>
      left
      exact ⟨before, [], by simpa using whole⟩
    | cons head beyond =>
      obtain ⟨rfl, rfl⟩ := List.cons.inj tail
      rw [List.append_eq_append_iff] at whole
      rcases whole with ⟨rest, _, held⟩ | ⟨rest, _, held⟩
      · exact absurd (by simp [held]) absent
      · cases rest with
        | nil => exact absurd (by rw [← List.nil_append stretch, ← held]; simp) absent
        | cons head rest =>
          obtain ⟨_, rfl⟩ := List.cons.inj held
          exact .inr ⟨rest, after, rfl⟩

/-- Whether a value can stand for an element of a table of the given kind. -/
def ElementKind.holds : ElementKind → Instruction → Bool
  | .int, value => value.int?.isSome
  | .long, value => value.long?.isSome
  | .reference, value => value.string?.isSome || value = .nullConst

namespace StaticTable

open Listing

variable {kind : ElementKind} {entry : Replacement} {past future : List Replacement}

/-- No table is read as two kinds. -/
def OneKind (entries : List Replacement) : Prop :=
  ∀ first ∈ entries, ∀ second ∈ entries, first.site.field.key = second.site.field.key →
    first.kind = second.kind

instance (entries : List Replacement) : Decidable (OneKind entries) :=
  inferInstanceAs (Decidable (∀ first ∈ entries, ∀ second ∈ entries, _ → _))

theorem StoreSegment.holds_stored {className : String} {field : MemberRef} {site : StoreSite}
    {segment : List (NodeId × Instruction)} {cls : Class} {value : Instruction}
    {helper : Option MemberKey} (shape : StoreSegment className field kind site segment)
    (stored : storedValue cls site = .ok (value, helper)) : kind.holds value = true := by
  cases shape with
  | int =>
    cases stored
    rfl
  | long =>
    cases stored
    rfl
  | string =>
    simp only [storedValue] at stored
    split at stored
    · cases stored
      rfl
    · cases stored

theorem holds_zero (kind : ElementKind) : kind.holds (.zero kind) = true := by
  cases kind <;> rfl

/-- Every value of a history is of the kind of its read: it comes from a store of that
kind, or is the default for it, or was found for an earlier read of the table. -/
theorem holds_of_history {options : Options} {cls : Class}
    (oneKind : OneKind (history options cls))
    (split : history options cls = past ++ entry :: future) :
    entry.kind.holds entry.value = true := by
  induction length : past.length using Nat.strong_induction_on generalizing entry past future with
  | _ count ih =>
    obtain ⟨happens, recorded⟩ := history_recorded split
    have follows := (recorded.replace happens).1
    cases taken : taker? past entry.slot with
    | some earlier =>
      rw [origin_of_taker taken] at follows
      have slot : earlier.slot = entry.slot := by
        simp only [taker?, List.find?_eq_some_iff_append, decide_eq_true_eq] at taken
        exact taken.1.1
      obtain ⟨front, back, rfl⟩ := List.append_of_mem (List.mem_of_find?_eq_some taken)
      have shifted : history options cls = front ++ earlier :: (back ++ entry :: future) := by
        simpa using split
      have shorter : front.length < count := by
        rw [← length, List.length_append, List.length_cons]
        omega
      have kinds := oneKind earlier (by simp [split]) entry (by simp [split])
        (congrArg Prod.fst slot)
      rw [follows.1, ← kinds]
      exact ih front.length shorter shifted rfl
    | none =>
      simp only [origin, taken] at follows
      split at follows
      · obtain ⟨_, found, _, _⟩ := follows.first
        obtain ⟨segment, _, shape, _⟩ := store?_eq_some.mp found
        obtain ⟨helper, stored⟩ := follows.stored
        exact shape.holds_stored stored
      · rw [follows.default]
        exact holds_zero entry.kind

/-! ### Reads that stay away -/

/-- Where a stretch gives way to a value that is no part of a read, no read comes about. -/
theorem hasRead_of_collapse {code : Listing Instruction} {id : NodeId} {content value : Instruction}
    {rest : List (NodeId × Instruction)} {className : String}
    (stands : Stands code ((id, content) :: rest))
    (foreign : ∀ field index, value ∉ [.getStatic field, .intConst index, .arrayLoad kind])
    (read : HasRead ((code.removeAll (rest.map (·.1))).replace id value) className kind) :
    HasRead code className kind := by
  obtain ⟨before, behind, split⟩ := stands
  obtain ⟨field, index, own, inside⟩ := read
  refine ⟨field, index, own, ?_⟩
  rw [toList, items_collapse value split, List.map_append, List.map_cons] at inside
  rw [toList, split, List.map_append, List.map_append]
  rcases infix_of_infix_append_cons inside (foreign field index) with early | late
  · exact early.trans ((List.prefix_append _ _).trans (List.prefix_append _ _)).isInfix
  · exact late.trans (List.suffix_append _ _).isInfix

theorem foreign_of_holds {value : Instruction} {kind' : ElementKind}
    (held : kind'.holds value = true) (other : kind' ≠ .int) (field : MemberRef) (index : Int32) :
    value ∉ [.getStatic field, .intConst index, .arrayLoad kind] := by
  intro member
  simp only [List.mem_cons, List.not_mem_nil, or_false] at member
  rcases member with rfl | rfl | rfl
  · cases kind' <;> cases held
  · cases kind' with
    | int => exact other rfl
    | long => cases held
    | reference => cases held
  · cases kind' <;> cases held

/-- A read that is replaced by anything but an int brings no read about: one that is
there afterwards, in a method other than the initializer, was there before. -/
theorem Replacement.Happens.hasRead (happens : entry.Happens)
    (kept : entry.kind.holds entry.value = true) (later : entry.kind ≠ .int) {number : Nat}
    (other : number ≠ entry.before.initializer) {className : String}
    (read : HasRead (entry.after.cls.codeAt number) className kind) :
    HasRead (entry.before.cls.codeAt number) className kind := by
  obtain ⟨resolved, event, found, after⟩ := happens.resolved
  obtain ⟨indexId, loadId, tail, stands⟩ := read_stands_resolved happens.read found
  have same : resolved.cls.codeAt number = entry.before.cls.codeAt number := by
    rcases resolve_cls found with cls | ⟨_, _, _, _, cls⟩
    · rw [cls]
    · rw [cls]
      exact Class.codeAt_editCode_ne (Ne.symm other)
  rw [after] at read
  rw [← same]
  by_cases here : entry.place.method = number
  · subst here
    have valid : entry.place.method < resolved.cls.methods.length := by
      by_contra missing
      have held := stands_live stands _ List.mem_cons_self
      rw [Class.codeAt_of_not_lt missing] at held
      cases held
    apply hasRead_of_collapse stands (foreign_of_holds kept later)
    rw [Class.codeAt_editCode_self valid, tail] at read
    exact read
  · rwa [Class.codeAt_editCode_ne here] at read

/-- Along a run that replaces no read of an int, no read comes about. -/
theorem Runs.hasRead {options : Options} {state final : RecoveryState}
    {entries : List Replacement} (runs : Runs options state entries final)
    (held : ∀ entry ∈ entries, entry.kind.holds entry.value = true ∧ entry.kind ≠ .int)
    {number : Nat} (other : number ≠ state.initializer) {className : String}
    (read : HasRead (final.cls.codeAt number) className kind) :
    HasRead (state.cls.codeAt number) className kind := by
  induction runs with
  | done state => exact read
  | log event _ ih => exact ih held other read
  | @fold state final entries width _ ih =>
    have before := ih held other read
    have same : (Fold.scan width options state).state.cls.codeAt number =
        state.cls.codeAt number :=
      Class.codeAt_editCode_ne (Ne.symm other)
    rwa [same] at before
  | @replace entry final entries happens _ ih =>
    obtain ⟨here, rest⟩ := List.forall_mem_cons.mp held
    have steady := RecoveryState.frame_initializer (changes_frame ⟨_, happens.step⟩)
    exact happens.hasRead here.1 here.2 other (ih rest (steady ▸ other) read)

end StaticTable

/-! ### Pass after pass -/

namespace Pass

open StaticTable (Replacement OneKind)

variable {options : Options} {state middle final : RecoveryState}

theorem kind_of_repeatReplacements {pass : Pass} {bound iteration : Nat} {entry : Replacement}
    (member : entry ∈ pass.repeatReplacements options bound iteration state) :
    pass = .table entry.kind := by
  induction bound generalizing iteration state with
  | zero => cases member
  | succ bound ih =>
    simp only [repeatReplacements, List.mem_append] at member
    rcases member with here | later
    · cases pass with
      | fold width => cases here
      | allocations => cases here
      | table kind =>
        obtain ⟨change, _, found⟩ := List.mem_filterMap.mp here
        simp only [StaticTable.replacement?, Option.bind_eq_bind, Option.bind_eq_some_iff] at found
        obtain ⟨_, _, _, _, same⟩ := found
        cases same
        rfl
    · split at later
      · cases later
      · exact ih later

/-- Reads are replaced by the pass for their kind. -/
theorem kind_of_allReplacements {passes : List Pass} {entry : Replacement}
    (member : entry ∈ allReplacements options passes state) : .table entry.kind ∈ passes := by
  induction passes generalizing state with
  | nil => cases member
  | cons pass rest ih =>
    simp only [allReplacements, List.mem_append] at member
    rcases member with here | later
    · rw [kind_of_repeatReplacements here]
      exact List.mem_cons_self
    · split at later
      · cases later
      · exact List.mem_cons_of_mem _ (ih later)

theorem allReplacements_append {first : List Pass} (rest : List Pass)
    (ran : runAll options first state = (middle, none)) :
    allReplacements options (first ++ rest) state =
      allReplacements options first state ++ allReplacements options rest middle := by
  induction first generalizing state with
  | nil =>
    cases ran
    rfl
  | cons pass first ih =>
    simp only [runAll] at ran
    simp only [List.cons_append, allReplacements]
    cases outcome : pass.run options state with
    | mk later failure =>
      rw [outcome] at ran
      cases failure with
      | some error => cases ran
      | none => simp only [ih ran, List.append_assoc]

theorem run_of_runAll_singleton {pass : Pass} (ran : runAll options [pass] state = (final, none)) :
    pass.run options state = (final, none) := by
  simp only [runAll] at ran
  cases outcome : pass.run options state with
  | mk later failure =>
    rw [outcome] at ran
    cases failure with
    | some error => cases ran
    | none =>
      cases ran
      rfl

/-- The pass for a kind leaves no read of it. -/
theorem not_hasRead_of_run {kind : ElementKind}
    (ran : (Pass.table kind).run options state = (final, none)) (number : Nat) :
    ¬ HasRead (final.cls.codeAt number) final.cls.name kind := by
  obtain ⟨last, _, settled⟩ := (Pass.table kind).run_settles options (fun _ => True)
    (fun _ _ _ => trivial) (fun _ _ => trivial) trivial (by rw [ran])
  rw [ran] at settled
  obtain ⟨event, (same : final = last.log event)⟩ := settled.eq
  have clear := quiet_table_iff.mp (⟨settled.1, settled.2.1⟩ : Quiet (.table kind) options last)
  rw [same, Class.codeAt]
  split
  · rename_i method held
    exact clear method (List.mem_of_getElem? held)
  · rintro ⟨_, _, _, inside⟩
    simp [Listing.toList, Listing.items, Listing.empty] at inside

/-- Once the passes are through, no method but the initializer has a read left: the
passes behind the one for its kind replace no read by an int. -/
theorem not_hasRead_of_recoveryPasses {cls : Class} {position : Nat}
    (found : cls.initializer? = some position) (oneKind : OneKind (history options cls))
    (ran : runAll options recoveryPasses (.start cls position) = (final, none)) {number : Nat}
    (other : number ≠ position) (kind : ElementKind) :
    ¬ HasRead (final.cls.codeAt number) cls.name kind := by
  obtain ⟨first, rest, passes, later⟩ : ∃ first rest,
      recoveryPasses = (first ++ [.table kind]) ++ rest ∧ .table .int ∉ rest ∧
        .allocations ∉ rest := by
    cases kind with
    | int => exact ⟨[.fold .long, .fold .int], [.table .long, .table .reference], rfl, by simp⟩
    | long => exact ⟨[.fold .long, .fold .int, .table .int], [.table .reference], rfl, by simp⟩
    | reference => exact ⟨[.fold .long, .fold .int, .table .int, .table .long], [], rfl, by simp⟩
  have whole : history options cls =
      allReplacements options recoveryPasses (.start cls position) := by
    simp only [history, found]
  rw [passes] at ran whole
  obtain ⟨settled, before, behind⟩ := runAll_split ran
  rw [allReplacements_append rest before] at whole
  have runs := runs_runAll options (fun pass member same => later.2 (same ▸ member)) settled
  rw [behind] at runs
  have held : ∀ entry ∈ allReplacements options rest settled,
      entry.kind.holds entry.value = true ∧ entry.kind ≠ .int := by
    intro entry member
    constructor
    · obtain ⟨past, future, split⟩ := List.append_of_mem member
      rw [split, ← List.append_assoc] at whole
      exact StaticTable.holds_of_history oneKind whole
    · intro int
      have listed := kind_of_allReplacements member
      rw [int] at listed
      exact later.1 listed
  obtain ⟨middle, _, last⟩ := runAll_split before
  have steady := runAll_frame options (first ++ [.table kind]) (.start cls position)
  rw [before] at steady
  have place : settled.initializer = position := RecoveryState.frame_initializer steady
  have name : settled.cls.name = cls.name := RecoveryState.frame_name steady
  intro read
  have early := runs.hasRead held (place ▸ other) read
  exact not_hasRead_of_run (run_of_runAll_singleton last) number (name ▸ early)

end Pass

/-! ### Cleanup -/

/-- What stands beside an element of a list stands at another position. -/
theorem mem_beside_iff {α : Type} {front back : List α} {center other : α} :
    other ∈ front ++ back ↔
      ∃ number, number ≠ front.length ∧ (front ++ center :: back)[number]? = some other := by
  constructor
  · intro member
    rcases List.mem_append.mp member with early | late
    · obtain ⟨number, bound, rfl⟩ := List.mem_iff_getElem.mp early
      refine ⟨number, Nat.ne_of_lt bound, ?_⟩
      rw [List.getElem?_append_left bound, List.getElem?_eq_getElem bound]
    · obtain ⟨number, held⟩ := List.mem_iff_getElem?.mp late
      refine ⟨front.length + (number + 1), by omega, ?_⟩
      rw [List.getElem?_append_right (Nat.le_add_right _ _), Nat.add_sub_cancel_left,
        List.getElem?_cons_succ, held]
  · rintro ⟨number, apart, held⟩
    by_cases early : number < front.length
    · rw [List.getElem?_append_left early] at held
      exact List.mem_append_left _ (List.mem_of_getElem? held)
    · obtain ⟨distance, rfl⟩ : ∃ distance, number = front.length + (distance + 1) :=
        ⟨number - front.length - 1, by omega⟩
      rw [List.getElem?_append_right (Nat.le_add_right _ _), Nat.add_sub_cancel_left,
        List.getElem?_cons_succ] at held
      exact List.mem_append_right _ (List.mem_of_getElem? held)

namespace Cleanup

variable {front back front' back' : List Method} {method : Method} {state : RecoveryState}

/-- A class under cleanup: its initializer stands among some of the methods that were
around it. -/
structure Trimmed (front back : List Method) (cls : Class) (front' : List Method)
    (method : Method) (back' : List Method) : Prop where
  located : InitializerAt cls front' method back'
  before : front'.Sublist front
  behind : back'.Sublist back

section Steps

variable (trimmed : Trimmed front back state.cls front' method back')
variable (here : state.initializer = front'.length)
include trimmed

include here in
theorem Trimmed.edited (edit : Listing Instruction → Listing Instruction) {later : Class}
    (methods : later.methods = (state.cls.editCode state.initializer edit).methods) :
    Trimmed front back later front' { method with code := edit method.code } back' := by
  refine ⟨⟨?_, trimmed.located.named, trimmed.located.first⟩, trimmed.before, trimmed.behind⟩
  rw [methods, here]
  exact Class.methods_editCode_of_split edit trimmed.located.split

include here in
theorem trimmed_removeFields (keys : List MemberKey) :
    ∃ method', Trimmed front back (keys.foldl removeField state).cls front' method' back' := by
  induction keys generalizing state method with
  | nil => exact ⟨method, trimmed⟩
  | cons key keys ih =>
    rcases removeField_cases state key with ⟨_, cls, _, same⟩ | ⟨_, cls, _, same⟩
    · exact ih (cls ▸ trimmed) (same.trans here)
    · exact ih (trimmed.edited here _ (by rw [cls])) (same.trans here)

theorem trimmed_removeHelpers (keys : List MemberKey) :
    ∃ front' back', Trimmed front back (keys.foldl removeHelper state).cls front' method back' := by
  induction keys generalizing state front' back' with
  | nil => exact ⟨front', back', trimmed⟩
  | cons key keys ih =>
    obtain ⟨⟨_, cls⟩ | ⟨named, _, cls⟩, _⟩ := removeHelper_cases state key
    · exact ih (cls ▸ trimmed)
    · have stays : method.key ≠ key := by
        rintro rfl
        exact named trimmed.located.named
      have kept : Trimmed front back (removeHelper state key).cls (front'.filter (·.key ≠ key))
          method (back'.filter (·.key ≠ key)) := by
        refine ⟨⟨?_, trimmed.located.named, ?_⟩, List.filter_sublist.trans trimmed.before,
          List.filter_sublist.trans trimmed.behind⟩
        · rw [cls]
          simp [trimmed.located.split, List.filter_append, stays]
        · exact fun other member => trimmed.located.first other (List.mem_of_mem_filter member)
      exact ih kept

include here in
theorem trimmed_removeMarked :
    ∃ front' method' back', Trimmed front back (removeMarked state).cls front' method' back' ∧
      (removeMarked state).initializer = front'.length := by
  obtain ⟨method', trimmed⟩ := trimmed_removeFields trimmed here state.markedFields.keys
  obtain ⟨front', back', trimmed⟩ := trimmed_removeHelpers trimmed _
  refine ⟨front', method', back', trimmed, ?_⟩
  simp only [removeMarked]
  rw [trimmed.located.found]
  rfl

end Steps

/-- Cleanup leaves every method but the initializer as it is, local variable tables
apart, or takes it out. -/
theorem beside_of_cleaned {options : Options} {cleaned : RecoveryState}
    (located : InitializerAt state.cls front method back) (here : state.initializer = front.length)
    (swept : Pass.allocations.run options (removeMarked state) = (cleaned, none)) {number : Nat}
    {left : Method} (held : (clearLocals cleaned.cls).methods[number]? = some left)
    (other : (clearLocals cleaned.cls).initializer? ≠ some number) :
    ∃ earlier ∈ front ++ back, left = clearMethod earlier := by
  have start : Trimmed front back state.cls front method back := ⟨located, .refl _, .refl _⟩
  obtain ⟨front', method', back', trimmed, place⟩ := trimmed_removeMarked start here
  have last := Pass.allocations.run_keeps options
    (fun later => (∃ method', Trimmed front back later.cls front' method' back') ∧
      later.initializer = front'.length)
    (fun _ _ kept => kept)
    (by
      rintro later ⟨⟨_, trimmed⟩, place⟩
      exact ⟨⟨_, trimmed.edited place _ rfl⟩, place⟩)
    ⟨⟨method', trimmed⟩, place⟩
  rw [swept] at last
  obtain ⟨⟨method', trimmed⟩, _⟩ := last
  rw [(located_clearLocals trimmed.located).found, List.length_map] at other
  rw [methods_clearLocals, List.getElem?_map, trimmed.located.split] at held
  obtain ⟨earlier, found, rfl⟩ := Option.map_eq_some_iff.mp held
  have member := mem_beside_iff.mpr ⟨number, fun same => other (congrArg some same.symm), found⟩
  exact ⟨earlier, (trimmed.before.append trimmed.behind).subset member, rfl⟩

end Cleanup

/-- A read of one of the tables of `className`, at an index that is a constant or is
itself read from a table in this way. -/
inductive NestedRead (className : String) : ElementKind → List Instruction → Prop
  | plain {field : MemberRef} (own : field.owner = className) (index : Int32)
      (kind : ElementKind) :
      NestedRead className kind [.getStatic field, .intConst index, .arrayLoad kind]
  | nested {field : MemberRef} {inner : List Instruction} (own : field.owner = className)
      (deeper : NestedRead className .int inner) (kind : ElementKind) :
      NestedRead className kind (.getStatic field :: inner ++ [.arrayLoad kind])

/-- At the bottom of a nested read there is a read at a constant index. -/
theorem NestedRead.hasRead {className : String} {kind : ElementKind} {read : List Instruction}
    {code : Listing Instruction} (nested : NestedRead className kind read)
    (inside : read <:+: code.toList) : ∃ kind, HasRead code className kind := by
  induction nested with
  | plain own index kind => exact ⟨kind, _, index, own, inside⟩
  | @nested field inner own deeper kind ih =>
    exact ih (List.IsInfix.trans ⟨[.getStatic field], [.arrayLoad kind], rfl⟩ inside)

/-- No read is left behind. A class with a static initializer, none of whose tables is
read as two kinds, comes out of a recovery that does not fail without any read of an
own table at a constant index, in any method but the initializer; nor is there one
left at an index that is itself such a read. -/
theorem recovery_leaves_no_read (options : Options) (cls : Class) (stats : Stats)
    (present : cls.initializer?.isSome = true)
    (fine : (recover options cls).result = .ok stats)
    (oneKind : StaticTable.OneKind (history options cls)) (number : Nat) (method : Method)
    (held : (recover options cls).cls.methods[number]? = some method)
    (other : (recover options cls).cls.initializer? ≠ some number) :
    (∀ kind, ¬ HasRead method.code cls.name kind) ∧
    ∀ kind read, NestedRead cls.name kind read → ¬ read <:+: method.code.toList := by
  have clear : ∀ kind, ¬ HasRead method.code cls.name kind := by
    obtain ⟨position, found⟩ := Option.isSome_iff_exists.mp present
    obtain ⟨resolved, cleaned, ran, swept, final, _, _⟩ := recover_stages found fine
    obtain ⟨front, initial, back, located, rfl⟩ := initializerAt_of_found found
    have frame := Pass.runAll_frame options recoveryPasses (.start cls front.length)
    rw [ran] at frame
    obtain ⟨_, _, declarations⟩ := Class.outline_eq_iff.mp (RecoveryState.frame_outline frame)
    obtain ⟨front', initial', back', located', length, _⟩ := located.edited declarations
    have here := (RecoveryState.frame_initializer frame).trans length.symm
    rw [final] at held other
    obtain ⟨earlier, member, rfl⟩ := Cleanup.beside_of_cleaned located' here swept held other
    obtain ⟨place, apart, found'⟩ := mem_beside_iff.mp member
    rw [← located'.split] at found'
    have code : resolved.cls.codeAt place = earlier.code := by rw [Class.codeAt, found']
    intro kind
    have none := Pass.not_hasRead_of_recoveryPasses found oneKind ran (length ▸ apart) kind
    rwa [code] at none
  refine ⟨clear, fun kind read nested inside => ?_⟩
  obtain ⟨_, left⟩ := nested.hasRead inside
  exact clear _ left

/-- A table of longs that is read at an index from a table of ints, which is read at an
index from that same table. -/
def threeDeep : Class :=
  let steps : MemberRef := ⟨"Deep", "steps", "[I"⟩
  let goals : MemberRef := ⟨"Deep", "goals", "[J"⟩
  .ofMembers "Deep" [steps.key, goals.key]
    [(⟨initializerName, "()V"⟩,
      [.getStatic steps, .intConst 0, .intConst 1, .arrayStore .int,
       .getStatic steps, .intConst 1, .intConst 2, .arrayStore .int,
       .getStatic goals, .intConst 2, .longConst 9, .arrayStore .long,
       .plain (.plain .returnVoid)]),
     (⟨"goal", "()J"⟩,
      [.getStatic goals, .getStatic steps, .getStatic steps, .intConst 0, .arrayLoad .int,
       .arrayLoad .int, .arrayLoad .long, .plain (.plain .lreturn)])]

theorem threeDeep_unread :
    (recover ⟨.combine⟩ threeDeep).result = .ok ⟨0, 2, 1, 0, 0, 0, 2, 0, 0⟩ ∧
    ∃ method, (recover ⟨.combine⟩ threeDeep).cls.methods[1]? = some method ∧
      method.code.toList = [.longConst 9, .plain (.plain .lreturn)] ∧
      ∀ kind, ¬ HasRead method.code "Deep" kind := by
  have fine : (recover ⟨.combine⟩ threeDeep).result = .ok ⟨0, 2, 1, 0, 0, 0, 2, 0, 0⟩ := rfl
  have oneKind : StaticTable.OneKind (history ⟨.combine⟩ threeDeep) := by decide +kernel
  obtain ⟨method, held⟩ : ∃ method,
      (recover ⟨.combine⟩ threeDeep).cls.methods[1]? = some method := ⟨_, rfl⟩
  refine ⟨fine, method, held, ?_, ?_⟩
  · cases held
    rfl
  · exact (recovery_leaves_no_read ⟨.combine⟩ threeDeep _ rfl fine oneKind 1 method held
      (by decide +kernel)).1

/-- A class that reads a table but has no initializer to fill it. -/
def neverFilled : Class :=
  let codes : MemberRef := ⟨"Bare", "codes", "[I"⟩
  .ofMembers "Bare" [codes.key]
    [(⟨"read", "()I"⟩, [.getStatic codes, .intConst 0, .arrayLoad .int, .plain (.plain .ireturn)])]

/-- Without an initializer a class is left as it is, with its reads. -/
theorem reads_stay_without_initializer :
    ¬ ∀ (options : Options) (cls : Class) (stats : Stats),
      (recover options cls).result = .ok stats → StaticTable.OneKind (history options cls) →
      ∀ number method, (recover options cls).cls.methods[number]? = some method →
        (recover options cls).cls.initializer? ≠ some number →
        ∀ kind, ¬ HasRead method.code cls.name kind := by
  intro claim
  refine claim ⟨.combine⟩ neverFilled .zero rfl (by decide +kernel) 0 _ rfl (by decide +kernel) .int
    ⟨⟨"Bare", "codes", "[I"⟩, 0, rfl, [], [.plain (.plain .ireturn)], rfl⟩

end LiteralRecovery
