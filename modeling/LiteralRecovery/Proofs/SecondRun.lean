import LiteralRecovery.Proofs.FoldNormal
import LiteralRecovery.Proofs.TableContents

/-! A second recovery. Every change of a walk is counted, so a run that counts
nothing has changed nothing, and it has found nothing to fold and no read to
replace. The passes run one after the other and not over again: what a later
pass leaves for an earlier one to find is found by the next recovery. -/
namespace LiteralRecovery

/-- All counters taken together. -/
def Stats.total (stats : Stats) : Nat :=
  stats.folded + stats.resolvedInts + stats.resolvedLongs + stats.resolvedStrings +
    stats.defaulted + stats.strippedStores + stats.removedFields + stats.removedMethods +
    stats.removedAllocations

theorem Stats.total_count (kind : ElementKind) (stats : Stats) :
    (StaticTable.count kind stats).total = stats.total + 1 := by
  cases kind <;> simp only [StaticTable.count, total] <;> omega

/-! ### Every change is counted -/

section Counted

variable {σ ε ι : Type} {step : σ → ι → Step σ ε}

/-- What every change raises by one, a walk raises by its number of changes. -/
theorem sweep_counts (measure : σ → Nat)
    (counts : ∀ before after, Changes step before after → measure after = measure before + 1)
    (places : List ι) (state : σ) (count : Nat) :
    measure (sweep step places state count).state + count =
      measure state + (sweep step places state count).changes := by
  refine sweep_tracks (fun later changes => measure later + count = measure state + changes) ?_ rfl
  intro before after changes same changed
  have here := counts before after changed
  omega

theorem sweep_of_skips {places : List ι} {state : σ} (count : Nat)
    (skips : ∀ place ∈ places, step state place = .skip) :
    sweep step places state count = { state, changes := count, error := none } := by
  induction places with
  | nil => rfl
  | cons place rest ih =>
    simp only [sweep, skips place List.mem_cons_self]
    exact ih fun other member => skips other (List.mem_cons_of_mem _ member)

end Counted

theorem StaticTable.changes_count {kind : ElementKind} {state after : RecoveryState}
    (changed : Changes (step kind) state after) :
    after.stats.total = state.stats.total + 1 := by
  obtain ⟨place, changed⟩ := changed
  obtain ⟨site, value, resolved, event, _, found, _, rfl⟩ := step_cases changed
  rcases resolve_cases found with ⟨_, rfl⟩ | ⟨_, _, _, rfl⟩ | ⟨_, store, helper, _, _, _, rfl⟩
  · exact Stats.total_count kind state.stats
  · simp only [Stats.total]
    omega
  · exact Stats.total_count kind state.stats

namespace Pass

variable {pass : Pass} {options : Options} {state final : RecoveryState}

theorem scan_counts (pass : Pass) (options : Options) (state : RecoveryState) :
    (pass.scan options state).state.stats.total =
      state.stats.total + (pass.scan options state).changes := by
  cases pass with
  | fold width =>
    simp only [scan, Fold.scan, RecoveryState.editInitializer, Stats.total]
    omega
  | table kind =>
    have counted := sweep_counts (fun state : RecoveryState => state.stats.total)
      (fun before after (changed : Changes (StaticTable.step kind) before after) =>
        StaticTable.changes_count changed)
      (StaticTable.places state.cls) state 0
    simpa only [scan, StaticTable.scan, Nat.add_zero] using counted
  | allocations =>
    simp only [scan, Cleanup.scan, RecoveryState.editInitializer, Stats.total]
    omega

theorem repeatScan_counts (pass : Pass) (options : Options) (bound iteration : Nat)
    (state : RecoveryState) :
    state.stats.total ≤ (pass.repeatScan options bound iteration state).1.stats.total := by
  refine repeatScan_keeps pass options (fun later => state.stats.total ≤ later.stats.total)
    (fun _ _ above => above) (fun later above => ?_) (Nat.le_refl _)
  have more := pass.scan_counts options later
  omega

/-- The state in which a pass makes its first walk. -/
def started (pass : Pass) (state : RecoveryState) : RecoveryState :=
  state.log (.passStarted state.cls.name pass)

/-- A pass counts at least what its first walk changes. -/
theorem run_counts (pass : Pass) (options : Options) (state : RecoveryState) :
    state.stats.total + (pass.scan options (pass.started state)).changes ≤
      (pass.run options state).1.stats.total := by
  have counted : (pass.scan options (pass.started state)).state.stats.total =
      state.stats.total + (pass.scan options (pass.started state)).changes :=
    pass.scan_counts options (pass.started state)
  have walked : ∀ event, ((pass.scan options (pass.started state)).state.log event).stats.total =
      state.stats.total + (pass.scan options (pass.started state)).changes := fun _ => counted
  rw [run, ← started, repeatScan]
  split
  · exact Nat.le_of_eq counted.symm
  · dsimp only
    split
    · exact Nat.le_of_eq (walked _).symm
    · rw [← walked]
      exact pass.repeatScan_counts options _ _ _

/-- A walk that neither fails nor changes anything. -/
def Quiet (pass : Pass) (options : Options) (state : RecoveryState) : Prop :=
  (pass.scan options state).error = none ∧ (pass.scan options state).changes = 0

theorem Quiet.same (quiet : Quiet pass options state) :
    (pass.scan options state).state = state := by
  cases pass with
  | fold width => exact (fold_still quiet.2).1
  | table kind => exact (table_still quiet.1 quiet.2).1
  | allocations => exact (allocations_still quiet.2).1

/-- A pass whose first walk finds nothing does not make another. -/
theorem run_of_quiet (quiet : Quiet pass options (pass.started state)) :
    ∃ event, pass.run options state = ((pass.started state).log event, none) := by
  have same := quiet.same
  obtain ⟨fine, still⟩ := quiet
  refine ⟨.passScanned (pass.started state).cls.name pass 1 0, ?_⟩
  rw [run, ← started, repeatScan]
  simp only [fine, still, same, if_true]

theorem scan_fine_of_run (calm : (pass.run options state).2 = none) :
    (pass.scan options (pass.started state)).error = none := by
  rw [run, ← started, repeatScan] at calm
  split at calm
  · cases calm
  · assumption

/-- Passes that find nothing one after the other leave nothing but log lines. -/
theorem runAll_of_quiet {passes : List Pass}
    (quiet : ∀ pass ∈ passes, ∀ events, Quiet pass options { state with events }) :
    ∃ events, runAll options passes state = ({ state with events }, none) := by
  induction passes generalizing state with
  | nil => exact ⟨state.events, rfl⟩
  | cons pass rest ih =>
    obtain ⟨event, ran⟩ := run_of_quiet (quiet pass List.mem_cons_self (pass.started state).events)
    obtain ⟨events, others⟩ := @ih ((pass.started state).log event)
      fun other member events => quiet other (List.mem_cons_of_mem _ member) events
    refine ⟨events, ?_⟩
    rw [runAll_cons (by rw [ran]), ran]
    exact others

theorem runAll_counts (options : Options) (passes : List Pass) (state : RecoveryState) :
    state.stats.total ≤ (runAll options passes state).1.stats.total := by
  refine runAll_keeps options passes (fun later => state.stats.total ≤ later.stats.total)
    (fun pass _ later above => ?_) (Nat.le_refl _)
  have more := pass.run_counts options later
  omega

/-- Passes that count nothing have found nothing. -/
theorem quiet_of_runAll {passes : List Pass} (ran : runAll options passes state = (final, none))
    (uncounted : final.stats.total = state.stats.total) :
    (∃ events, final = { state with events }) ∧
      ∀ pass ∈ passes, ∃ events, Quiet pass options { state with events } := by
  induction passes generalizing state with
  | nil =>
    cases ran
    exact ⟨⟨final.events, rfl⟩, by simp⟩
  | cons pass rest ih =>
    have split : runAll options ([pass] ++ rest) state = (final, none) := ran
    obtain ⟨middle, here, others⟩ := runAll_split split
    have calm : (pass.run options state).2 = none := by
      cases failure : (pass.run options state).2 with
      | none => rfl
      | some error =>
        rw [runAll, ← Prod.eta (pass.run options state), failure] at here
        cases here
    have fine := scan_fine_of_run calm
    rw [runAll_cons calm] at here
    cases here
    -- counters never fall: a total that ends where it began stood still in this pass too
    have first := pass.run_counts options state
    have later := runAll_counts options rest (pass.run options state).1
    rw [others, uncounted] at later
    have quiet : Quiet pass options (pass.started state) := ⟨fine, by omega⟩
    obtain ⟨event, ran⟩ := run_of_quiet quiet
    rw [ran] at others
    obtain ⟨⟨events, same⟩, silent⟩ := ih others uncounted
    refine ⟨⟨events, same⟩, fun other member => ?_⟩
    rcases List.mem_cons.mp member with rfl | behind
    · exact ⟨_, quiet⟩
    · exact silent other behind

end Pass

/-! ### What the passes look for -/

/-- A constant expression of the given width that a fold would take. -/
def Foldable (code : Listing Instruction) : Width → Prop
  | .int => ∃ left right op,
      [.intConst left, .intConst right, .bitwise .int op] <:+: code.toList
  | .long => ∃ left right op,
      [.longConst left, .longConst right, .bitwise .long op] <:+: code.toList

/-- A read of one of the tables of `className` at a constant index. -/
def HasRead (code : Listing Instruction) (className : String) (kind : ElementKind) : Prop :=
  ∃ field index, field.owner = className ∧
    [.getStatic field, .intConst index, .arrayLoad kind] <:+: code.toList

/-- Nothing is left for a pass to change: no constant expression in the
initializer, and no constant-index read of the class's tables in any method. -/
structure NothingLeft (cls : Class) : Prop where
  folded : ∀ width, ¬ Foldable cls.initializerCode width
  read : ∀ method ∈ cls.methods, ∀ kind, ¬ HasRead method.code cls.name kind

theorem infix_of_stands {code : Listing Instruction} {segment : List (NodeId × Instruction)}
    (stands : Stands code segment) : segment.map (·.2) <:+: code.toList := by
  obtain ⟨before, after, split⟩ := stands
  exact ⟨before.map (·.2), after.map (·.2), by simp [Listing.toList, split]⟩

theorem foldable_of_change {width : Width} {mode : LongFold} {code after : Listing Instruction}
    (changed : Changes (Fold.step width mode) code after) : Foldable code width := by
  obtain ⟨id, changed⟩ := changed
  obtain ⟨first, second, secondId, opId, op, value, stands, valued, _⟩ :=
    Fold.step_eq_change.mp changed
  have present := infix_of_stands stands
  cases width with
  | int =>
    cases first <;> cases second <;> cases valued
    exact ⟨_, _, op, present⟩
  | long =>
    cases first <;> cases second <;> cases valued
    exact ⟨_, _, op, present⟩

theorem rewrites_of_foldable {width : Width} (mode : LongFold) {code : Listing Instruction}
    (foldable : Foldable code width) : ∃ next, Fold.Rewrites width mode code.toList next := by
  cases width with
  | int =>
    obtain ⟨left, right, op, front, back, same⟩ := foldable
    rw [← same]
    exact ⟨_, .fold front back rfl⟩
  | long =>
    obtain ⟨left, right, op, front, back, same⟩ := foldable
    rw [← same]
    exact ⟨_, .fold front back rfl⟩

namespace Pass

variable {options : Options} {state : RecoveryState}

theorem quiet_fold_iff {width : Width} :
    Quiet (.fold width) options state ↔ ¬ Foldable state.initializerCode width := by
  constructor
  · rintro ⟨_, still⟩ foldable
    obtain ⟨next, rewrites⟩ := rewrites_of_foldable options.longFold foldable
    exact Fold.not_rewrites_of_still (fold_still still).2 next rewrites
  · intro settled
    have skips : ∀ id ∈ state.initializerCode.ids,
        Fold.step width options.longFold state.initializerCode id = .skip := by
      intro id _
      cases found : Fold.step width options.longFold state.initializerCode id with
      | skip => rfl
      | change after => exact absurd (foldable_of_change ⟨id, found⟩) settled
      | stop error => exact absurd found (Fold.step_ne_stop error)
    refine ⟨rfl, ?_⟩
    simp only [scan, Fold.scan, Fold.scanCode, sweep_of_skips 0 skips]

theorem quiet_table_iff {kind : ElementKind} :
    Quiet (.table kind) options state ↔
      ∀ method ∈ state.cls.methods, ¬ HasRead method.code state.cls.name kind := by
  constructor
  · rintro ⟨fine, still⟩ method member ⟨field, index, own, front, back, same⟩
    obtain ⟨position, valid, rfl⟩ := List.mem_iff_getElem.mp member
    obtain ⟨segment, stands, contents⟩ := stands_of_toList same.symm
    obtain ⟨head, indexId, loadId, rfl⟩ := segment_of_three contents
    have none := StaticTable.read?_eq_none_of_still (table_still fine still).2 position head
    have here : state.cls.codeAt position = state.cls.methods[position].code := by
      simp [Class.codeAt, valid]
    have found : StaticTable.read? state.cls.methods[position].code head state.cls.name kind =
        some ⟨field, index, [indexId, loadId]⟩ :=
      StaticTable.read?_eq_some.mpr ⟨indexId, loadId, stands, own, rfl⟩
    rw [here, found] at none
    cases none
  · intro settled
    have skips : ∀ place ∈ StaticTable.places state.cls,
        StaticTable.step kind state place = .skip := by
      intro place _
      cases read : StaticTable.read? (state.cls.codeAt place.method) place.node state.cls.name
          kind with
      | none => simp [StaticTable.step, read]
      | some site =>
        obtain ⟨indexId, loadId, stands, own, _⟩ := StaticTable.read?_eq_some.mp read
        have present := infix_of_stands stands
        rw [Class.codeAt] at present
        split at present
        · rename_i method held
          exact absurd (⟨site.field, site.index, own, present⟩ : HasRead _ _ _)
            (settled method (List.mem_of_getElem? held))
        · simp [Listing.toList, Listing.items, Listing.empty] at present
    have swept : (Pass.table kind).scan options state =
        { state, changes := 0, error := none } := sweep_of_skips 0 skips
    simp [Quiet, swept]

end Pass

/-! ### Cleanup without anything marked -/

namespace Cleanup

theorem total_removeField (state : RecoveryState) (key : MemberKey) :
    state.stats.total ≤ (removeField state key).stats.total := by
  simp only [removeField]
  split
  · exact Nat.le_refl _
  · simp only [RecoveryState.editInitializer, Stats.total]
    omega

theorem total_removeHelper (state : RecoveryState) (key : MemberKey) :
    state.stats.total ≤ (removeHelper state key).stats.total := by
  simp only [removeHelper]
  split
  · exact Nat.le_refl _
  · split
    · exact Nat.le_refl _
    · simp only [Stats.total]
      omega

theorem total_removeMarked (state : RecoveryState) :
    state.stats.total ≤ (removeMarked state).stats.total := by
  have grows (remove : RecoveryState → MemberKey → RecoveryState)
      (one : ∀ state key, state.stats.total ≤ (remove state key).stats.total)
      (keys : List MemberKey) (state : RecoveryState) :
      state.stats.total ≤ (keys.foldl remove state).stats.total := by
    induction keys generalizing state with
    | nil => exact Nat.le_refl _
    | cons key rest ih => exact Nat.le_trans (one state key) (ih (remove state key))
  exact Nat.le_trans (grows _ total_removeField _ state) (grows _ total_removeHelper _ _)

/-- Without removed tables no allocation is out of place. -/
theorem quiet_of_none_removed {options : Options} {state : RecoveryState}
    (kept : state.removedFields = .empty) : Pass.Quiet .allocations options state := by
  have skips : ∀ id ∈ state.initializerCode.ids,
      step (isRemoved state) state.initializerCode id = .skip := by
    intro id _
    cases found : step (isRemoved state) state.initializerCode id with
    | skip => rfl
    | change after =>
      obtain ⟨_, _, field, _, _, _, target, _⟩ := step_eq_change.mp found
      simp [isRemoved, kept, KeySet.contains, KeySet.empty] at target
    | stop error => exact absurd found (step_ne_stop error)
  have swept := sweep_of_skips 0 skips
  refine ⟨rfl, ?_⟩
  exact congrArg Swept.changes swept

theorem clearAttribute_clearAttribute (held : Attribute) :
    clearAttribute (clearAttribute held) = clearAttribute held := by
  cases held <;> simp [clearAttribute]

/-- Local variable tables are gone after the first time. -/
theorem clearLocals_clearLocals (cls : Class) : clearLocals (clearLocals cls) = clearLocals cls := by
  simp [clearLocals, Function.comp_def, clearAttribute_clearAttribute]

end Cleanup

/-! ### The second run -/

section SecondRun

variable {options : Options} {cls : Class} {position : Nat}

theorem recover_of_no_initializer (absent : cls.initializer? = none) :
    recover options cls = { cls, result := .ok .zero, events := #[.noInitializer cls.name] } := by
  rw [recover, absent]

theorem initializerCode_start (found : cls.initializer? = some position) :
    (RecoveryState.start cls position).initializerCode = cls.initializerCode := by
  simp [RecoveryState.initializerCode, RecoveryState.start, Class.initializerCode, found]

/-- Where nothing is left, recovery counts nothing and changes nothing. -/
theorem recover_of_nothingLeft (found : cls.initializer? = some position)
    (nothing : NothingLeft cls) :
    (recover options cls).result = .ok .zero ∧
      (recover options cls).cls = Cleanup.clearLocals cls := by
  have quiet : ∀ pass ∈ recoveryPasses, ∀ events,
      pass.Quiet options { RecoveryState.start cls position with events } := by
    have code := initializerCode_start found
    intro pass member events
    simp only [recoveryPasses, List.mem_cons, List.not_mem_nil, or_false] at member
    rcases member with rfl | rfl | rfl | rfl | rfl
    · exact Pass.quiet_fold_iff.mpr (code ▸ nothing.folded .long)
    · exact Pass.quiet_fold_iff.mpr (code ▸ nothing.folded .int)
    all_goals exact Pass.quiet_table_iff.mpr fun method member => nothing.read method member _
  obtain ⟨events, ran⟩ := Pass.runAll_of_quiet quiet
  have unmarked : Cleanup.removeMarked { RecoveryState.start cls position with events } =
      { RecoveryState.start cls position with events } := by
    simp [Cleanup.removeMarked, RecoveryState.start, KeySet.empty, found]
  have whole := recover_eq found ran
  rw [unmarked] at whole
  have last : Pass.Quiet .allocations options
      (Pass.allocations.started { RecoveryState.start cls position with events }) :=
    Cleanup.quiet_of_none_removed rfl
  obtain ⟨event, cleaned⟩ := Pass.run_of_quiet last
  rw [whole, cleaned]
  exact ⟨rfl, rfl⟩

/-- A recovery that counts nothing had nothing to find. -/
theorem nothingLeft_of_zero (found : cls.initializer? = some position)
    (fine : (recover options cls).result = .ok .zero) : NothingLeft cls := by
  obtain ⟨resolved, cleaned, ran, cleanup, _, counted, _⟩ := recover_stages found fine
  have marked := Cleanup.total_removeMarked resolved
  have last := Pass.run_counts .allocations options (Cleanup.removeMarked resolved)
  rw [cleanup, ← counted] at last
  have none : resolved.stats.total = (RecoveryState.start cls position).stats.total := by
    have zero : Stats.zero.total = 0 := rfl
    have start : (RecoveryState.start cls position).stats.total = 0 := rfl
    omega
  have quiet := (Pass.quiet_of_runAll ran none).2
  have code := initializerCode_start found
  refine ⟨fun width foldable => ?_, fun method member kind => ?_⟩
  · obtain ⟨events, still⟩ := quiet (.fold width) (by cases width <;> simp [recoveryPasses])
    exact Pass.quiet_fold_iff.mp still (code ▸ foldable)
  · obtain ⟨events, still⟩ := quiet (.table kind) (by cases kind <;> simp [recoveryPasses])
    exact Pass.quiet_table_iff.mp still method member

/-- A second recovery with the same options counts nothing and changes nothing
exactly when the first has left nothing behind: no initializer at all, or no
constant expression in it and no constant-index read of a table anywhere. -/
theorem recover_again_idle_iff (options : Options) (cls : Class) (stats : Stats)
    (fine : (recover options cls).result = .ok stats) :
    ((recover options (recover options cls).cls).result = .ok .zero ∧
        (recover options (recover options cls).cls).cls = (recover options cls).cls) ↔
      (recover options cls).cls.initializer? = none ∨ NothingLeft (recover options cls).cls := by
  cases again : (recover options cls).cls.initializer? with
  | none => simp [recover_of_no_initializer again]
  | some position =>
    constructor
    · rintro ⟨zero, _⟩
      exact .inr (nothingLeft_of_zero again zero)
    · rintro (absent | nothing)
      · cases absent
      · obtain ⟨zero, same⟩ := @recover_of_nothingLeft options _ _ again nothing
        refine ⟨zero, same.trans ?_⟩
        cases found : cls.initializer? with
        | none =>
          rw [recover_of_no_initializer found, found] at again
          cases again
        | some first =>
          obtain ⟨_, cleaned, _, _, final, _, _⟩ := recover_stages found fine
          rw [final, Cleanup.clearLocals_clearLocals]

/-- A table with one value that is read back; the rest of the initializer has
nothing to do with it. -/
def readBack : Class :=
  let seed : MemberRef := ⟨"Again", "seed", "[I"⟩
  .ofMembers "Again" [seed.key]
    [(⟨initializerName, "()V"⟩,
      [.intConst 1, .newArray .int, .putStatic seed,
       .getStatic seed, .intConst 0, .intConst 5, .arrayStore .int,
       .plain (.plain .returnVoid)]),
     (⟨"read", "()I"⟩,
      [.getStatic seed, .intConst 0, .arrayLoad .int, .plain (.plain .ireturn)])]

theorem readBack_idle_again :
    (recover ⟨.combine⟩ readBack).result = .ok ⟨0, 1, 0, 0, 0, 0, 1, 0, 1⟩ ∧
    (recover ⟨.combine⟩ readBack).cls.initializer? = some 0 ∧
    (recover ⟨.combine⟩ (recover ⟨.combine⟩ readBack).cls).result = .ok .zero ∧
    NothingLeft (recover ⟨.combine⟩ readBack).cls := by
  have fine : (recover ⟨.combine⟩ readBack).result = .ok ⟨0, 1, 0, 0, 0, 0, 1, 0, 1⟩ := rfl
  have here : (recover ⟨.combine⟩ readBack).cls.initializer? = some 0 := rfl
  have idle : (recover ⟨.combine⟩ (recover ⟨.combine⟩ readBack).cls).result = .ok .zero := rfl
  refine ⟨fine, here, idle, ?_⟩
  rcases (recover_again_idle_iff ⟨.combine⟩ readBack _ fine).mp ⟨idle, rfl⟩ with absent | nothing
  · rw [here] at absent
    cases absent
  · exact nothing

/-- A table with one value that the initializer itself reads back, as part of an
expression. -/
def readInExpression : Class :=
  let seed : MemberRef := ⟨"Again", "seed", "[I"⟩
  .ofMembers "Again" [seed.key]
    [(⟨initializerName, "()V"⟩,
      [.intConst 1, .newArray .int, .putStatic seed,
       .getStatic seed, .intConst 0, .intConst 5, .arrayStore .int,
       .getStatic seed, .intConst 0, .arrayLoad .int, .intConst 3, .bitwise .int .xor,
       .plain (.plain .pop), .plain (.plain .returnVoid)])]

/-- The value that takes the place of the read makes the expression constant,
and only the second run folds it. -/
theorem readInExpression_folds_again :
    (recover ⟨.combine⟩ readInExpression).result = .ok ⟨0, 1, 0, 0, 0, 0, 1, 0, 1⟩ ∧
    (recover ⟨.combine⟩ readInExpression).cls.initializerCode.toList =
      [.intConst 5, .intConst 3, .bitwise .int .xor, .plain (.plain .pop),
       .plain (.plain .returnVoid)] ∧
    (recover ⟨.combine⟩ (recover ⟨.combine⟩ readInExpression).cls).result =
      .ok ⟨1, 0, 0, 0, 0, 0, 0, 0, 0⟩ ∧
    (recover ⟨.combine⟩ (recover ⟨.combine⟩ readInExpression).cls).cls.initializerCode.toList =
      [.intConst 6, .plain (.plain .pop), .plain (.plain .returnVoid)] :=
  ⟨rfl, rfl, rfl, rfl⟩

end SecondRun

end LiteralRecovery
