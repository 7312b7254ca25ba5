import LiteralRecovery.Proofs.TableStep

/-! A pass as a whole. What every walk keeps, a pass keeps; and a pass that
does not fail ends on a walk that changed nothing, since the bound on walks
exceeds what the weight of the class allows. No pass touches the outline of
the class. -/
namespace LiteralRecovery

namespace RecoveryState

/-- What the passes leave alone: the outline of the class, the position of its
initializer and the record of removed tables. -/
def frame (state : RecoveryState) :
    (String × List Field × List (String × String × MemberInfo)) × Nat × KeySet :=
  (state.cls.outline, state.initializer, state.removedFields)

variable {state other : RecoveryState}

theorem frame_outline (same : other.frame = state.frame) : other.cls.outline = state.cls.outline :=
  congrArg (·.1) same

theorem frame_name (same : other.frame = state.frame) : other.cls.name = state.cls.name :=
  congrArg (·.1.1) same

theorem frame_initializer (same : other.frame = state.frame) :
    other.initializer = state.initializer :=
  congrArg (·.2.1) same

theorem frame_removedFields (same : other.frame = state.frame) :
    other.removedFields = state.removedFields :=
  congrArg (·.2.2) same

@[simp] theorem editInitializer_initializerCode (state : RecoveryState) :
    state.editInitializer (fun _ => state.initializerCode) = state := by
  simp [editInitializer, initializerCode]

@[simp] theorem frame_log (state : RecoveryState) (event : Event) :
    (state.log event).frame = state.frame := rfl

end RecoveryState

namespace StaticTable

theorem resolve_frame {kind : ElementKind} {state after : RecoveryState} {site : ReadSite}
    {value : Instruction} (found : resolve kind state site = .ok (value, after)) :
    after.frame = state.frame := by
  rcases resolve_cases found with ⟨_, rfl⟩ | ⟨_, _, _, rfl⟩ | ⟨_, store, helper, _, _, _, rfl⟩
  · rfl
  · rfl
  · simp [RecoveryState.frame, consume, RecoveryState.editInitializer]

theorem changes_frame {kind : ElementKind} {state after : RecoveryState}
    (changed : Changes (step kind) state after) : after.frame = state.frame := by
  obtain ⟨place, changed⟩ := changed
  obtain ⟨site, value, resolved, event, _, found, _, rfl⟩ := step_cases changed
  rw [← resolve_frame found]
  simp [RecoveryState.frame]

theorem changes_thin {kind : ElementKind} {state after : RecoveryState}
    (changed : Changes (step kind) state after) (method : Nat) :
    Listing.Thins (state.cls.codeAt method) (after.cls.codeAt method) := by
  obtain ⟨place, changed⟩ := changed
  obtain ⟨site, value, resolved, event, _, found, _, rfl⟩ := step_cases changed
  have taken : Listing.Thins (state.cls.codeAt method) (resolved.cls.codeAt method) := by
    rcases resolve_cls found with same | ⟨store, segment, _, _, edited⟩
    · rw [same]
      exact .refl _
    · rw [edited]
      exact Class.thins_editCode (Listing.thins_removeAll _ _) method
  refine taken.trans (Class.thins_editCode ?_ method)
  exact (Listing.thins_removeAll _ _).trans (Listing.thins_replace _ _ _)

end StaticTable

/-- The test by which the last pass recognises removed tables. -/
def Cleanup.isRemoved (state : RecoveryState) (field : MemberRef) : Bool :=
  field.owner = state.cls.name ∧ state.removedFields.contains field.key

namespace Pass

variable {pass : Pass} {options : Options} {state : RecoveryState}

/-- A walk makes the class lighter by at least two instructions a change. -/
theorem scan_shrinks (pass : Pass) (options : Options) (state : RecoveryState) :
    (pass.scan options state).state.cls.weight + 2 * (pass.scan options state).changes ≤
      state.cls.weight := by
  cases pass with
  | fold width =>
    apply Class.weight_editCode_add_le
    exact sweep_shrinks Listing.length 2
      (fun before after changed => Nat.le_of_eq (Fold.changes_shrink changed)) _ _ 0
  | table kind =>
    exact sweep_shrinks (fun state : RecoveryState => state.cls.weight) 2
      (fun before after changed => StaticTable.changes_shrink changed) _ state 0
  | allocations =>
    apply Class.weight_editCode_add_le
    refine sweep_shrinks Listing.length 2 (fun before after changed => ?_) _ _ 0
    have shorter := Cleanup.changes_shrink changed
    omega

theorem scan_frame (pass : Pass) (options : Options) (state : RecoveryState) :
    (pass.scan options state).state.frame = state.frame := by
  cases pass with
  | fold width =>
    simp [scan, Fold.scan, RecoveryState.frame, RecoveryState.editInitializer]
  | table kind =>
    exact sweep_keeps (fun later => later.frame = state.frame)
      (fun before after same changed => (StaticTable.changes_frame changed).trans same) rfl
  | allocations =>
    simp [scan, Cleanup.scan, RecoveryState.frame, RecoveryState.editInitializer]

/-- No walk brings a node to life. -/
theorem scan_thins (pass : Pass) (options : Options) (state : RecoveryState) (method : Nat) :
    Listing.Thins (state.cls.codeAt method)
      ((pass.scan options state).state.cls.codeAt method) := by
  cases pass with
  | fold width =>
    refine Class.thins_editCode ?_ method
    exact sweep_keeps (Listing.Thins state.initializerCode)
      (fun before after thins changed => thins.trans (Fold.changes_thin changed)) (.refl _)
  | table kind =>
    exact sweep_keeps
      (fun later => Listing.Thins (state.cls.codeAt method) (later.cls.codeAt method))
      (fun before after thins changed => thins.trans (StaticTable.changes_thin changed method))
      (.refl _)
  | allocations =>
    refine Class.thins_editCode ?_ method
    exact sweep_keeps (Listing.Thins state.initializerCode)
      (fun before after thins changed => thins.trans (Cleanup.changes_thin changed)) (.refl _)

/-- Only a table pass can fail. -/
theorem scan_fine (pass : Pass) (options : Options) (state : RecoveryState)
    (plain : ∀ kind, pass ≠ .table kind) : (pass.scan options state).error = none := by
  cases pass with
  | fold width => rfl
  | table kind => exact absurd rfl (plain kind)
  | allocations => rfl

/-- The last walk of a pass, which found nothing more to change. -/
def Settled (pass : Pass) (options : Options) (last final : RecoveryState) : Prop :=
  (pass.scan options last).error = none ∧ (pass.scan options last).changes = 0 ∧
    ∃ event, final = (pass.scan options last).state.log event

/-- A walk of folds without changes leaves the state alone and finds no place to
fold at. -/
theorem fold_still {width : Width} {last : RecoveryState}
    (still : ((Pass.fold width).scan options last).changes = 0) :
    ((Pass.fold width).scan options last).state = last ∧
      ∀ id ∈ last.initializerCode.ids,
        Fold.step width options.longFold last.initializerCode id = .skip := by
  obtain ⟨same, skipped⟩ := sweep_still
    (sweep_fine (fun _ _ error => Fold.step_ne_stop error) last.initializerCode.ids
      last.initializerCode 0) still
  refine ⟨?_, skipped⟩
  have code : (Fold.scanCode width options.longFold last.initializerCode).state =
    last.initializerCode := same
  have none : (Fold.scanCode width options.longFold last.initializerCode).changes = 0 := still
  simp only [scan, Fold.scan, code, none, Nat.add_zero,
    RecoveryState.editInitializer_initializerCode]

theorem allocations_still {last : RecoveryState}
    (still : (Pass.allocations.scan options last).changes = 0) :
    (Pass.allocations.scan options last).state = last ∧
      ∀ id ∈ last.initializerCode.ids,
        Cleanup.step (Cleanup.isRemoved last) last.initializerCode id = .skip := by
  obtain ⟨same, skipped⟩ := sweep_still
    (sweep_fine (fun _ _ error => Cleanup.step_ne_stop error) last.initializerCode.ids
      last.initializerCode 0) still
  refine ⟨?_, skipped⟩
  simp only [scan, Cleanup.scan] at still ⊢
  rw [still]
  simp only [same, Nat.add_zero, RecoveryState.editInitializer_initializerCode]

theorem table_still {kind : ElementKind} {last : RecoveryState}
    (fine : ((Pass.table kind).scan options last).error = none)
    (still : ((Pass.table kind).scan options last).changes = 0) :
    ((Pass.table kind).scan options last).state = last ∧
      ∀ place ∈ StaticTable.places last.cls, StaticTable.step kind last place = .skip :=
  sweep_still fine still

/-- A pass that has settled leaves the state of its last walk. -/
theorem Settled.eq {last final : RecoveryState} (settled : Settled pass options last final) :
    ∃ event, final = last.log event := by
  obtain ⟨fine, still, event, rfl⟩ := settled
  refine ⟨event, congrArg (RecoveryState.log · event) ?_⟩
  cases pass with
  | fold width => exact (fold_still still).1
  | table kind => exact (table_still fine still).1
  | allocations => exact (allocations_still still).1

section Run

variable (pass : Pass) (options : Options) (keeps : RecoveryState → Prop)
variable (keepsLog : ∀ state event, keeps state → keeps (state.log event))
variable (keepsScan : ∀ state, keeps state → keeps (pass.scan options state).state)
include keepsLog keepsScan

theorem repeatScan_keeps {bound iteration : Nat} (start : keeps state) :
    keeps (pass.repeatScan options bound iteration state).1 := by
  induction bound generalizing iteration state with
  | zero => exact start
  | succ bound ih =>
    have scanned := keepsScan state start
    simp only [repeatScan]
    split
    · exact scanned
    · split
      · exact keepsLog _ _ scanned
      · exact ih (keepsLog _ _ scanned)

/-- While the bound exceeds half the weight, a pass ends on a walk without
changes. -/
theorem repeatScan_settles {bound iteration : Nat} (enough : state.cls.weight < 2 * bound)
    (start : keeps state) (fine : (pass.repeatScan options bound iteration state).2 = none) :
    ∃ last, keeps last ∧
      Settled pass options last (pass.repeatScan options bound iteration state).1 := by
  induction bound generalizing iteration state with
  | zero => omega
  | succ bound ih =>
    have shrinks := pass.scan_shrinks options state
    simp only [repeatScan] at fine ⊢
    split at fine
    · cases fine
    · rename_i good
      split at fine
      · rename_i still
        rw [if_pos still]
        exact ⟨state, start, good, still, _, rfl⟩
      · rename_i moved
        rw [if_neg moved]
        refine ih ?_ (keepsLog _ _ (keepsScan state start)) fine
        simp only [RecoveryState.log]
        omega

theorem run_keeps (start : keeps state) : keeps (pass.run options state).1 :=
  repeatScan_keeps pass options keeps keepsLog keepsScan (keepsLog _ _ start)

theorem run_settles (start : keeps state) (fine : (pass.run options state).2 = none) :
    ∃ last, keeps last ∧ Settled pass options last (pass.run options state).1 :=
  repeatScan_settles pass options keeps keepsLog keepsScan (by omega) (keepsLog _ _ start) fine

end Run

theorem run_frame (pass : Pass) (options : Options) (state : RecoveryState) :
    (pass.run options state).1.frame = state.frame :=
  pass.run_keeps options (fun later => later.frame = state.frame) (fun _ _ same => same)
    (fun later same => (pass.scan_frame options later).trans same) rfl

theorem run_thins (pass : Pass) (options : Options) (state : RecoveryState) (method : Nat) :
    Listing.Thins (state.cls.codeAt method) ((pass.run options state).1.cls.codeAt method) :=
  pass.run_keeps options
    (fun later => Listing.Thins (state.cls.codeAt method) (later.cls.codeAt method))
    (fun _ _ thins => thins)
    (fun later thins => thins.trans (pass.scan_thins options later method)) (.refl _)

/-- A pass does not fail while an invariant rules failure out. -/
theorem run_safe (pass : Pass) (options : Options) (keeps : RecoveryState → Prop)
    (keepsLog : ∀ state event, keeps state → keeps (state.log event))
    (safe : ∀ state, keeps state →
      (pass.scan options state).error = none ∧ keeps (pass.scan options state).state)
    (start : keeps state) : (pass.run options state).2 = none := by
  have repeated (bound iteration : Nat) (state : RecoveryState) (start : keeps state) :
      (pass.repeatScan options bound iteration state).2 = none := by
    induction bound generalizing iteration state with
    | zero => rfl
    | succ bound ih =>
      obtain ⟨fine, kept⟩ := safe state start
      simp only [repeatScan, fine]
      split
      · rfl
      · exact ih _ _ (keepsLog _ _ kept)
  exact repeated _ _ _ (keepsLog _ _ start)

theorem run_fine (pass : Pass) (options : Options) (state : RecoveryState)
    (plain : ∀ kind, pass ≠ .table kind) : (pass.run options state).2 = none :=
  pass.run_safe options (fun _ => True) (fun _ _ _ => trivial)
    (fun state _ => ⟨scan_fine pass options state plain, trivial⟩) trivial

/-- A walk of folds leaves the listing it has folded, also where there is no
initializer to put it into. -/
theorem initializerCode_fold_scan (width : Width) (options : Options) (state : RecoveryState) :
    ((Pass.fold width).scan options state).state.initializerCode =
      (Fold.scanCode width options.longFold state.initializerCode).state := by
  by_cases valid : state.initializer < state.cls.methods.length
  · exact Class.codeAt_editCode_self valid
  · have empty : state.initializerCode = .empty := Class.codeAt_of_not_lt valid
    have same : ((Pass.fold width).scan options state).state.initializerCode =
        state.initializerCode := by
      change (state.cls.editCode state.initializer fun _ => _).codeAt state.initializer = _
      rw [Class.editCode_of_not_lt valid]
      rfl
    rw [same, empty]
    rfl

/-- A folding pass takes the listing of the initializer through a chain of
folds. -/
theorem fold_run_reaches (width : Width) (options : Options) (state : RecoveryState) :
    Relation.ReflTransGen (Changes (Fold.step width options.longFold)) state.initializerCode
      ((Pass.fold width).run options state).1.initializerCode := by
  refine (Pass.fold width).run_keeps options (fun later => Relation.ReflTransGen _
    state.initializerCode later.initializerCode) (fun _ _ reached => reached) ?_ .refl
  intro later reached
  rw [initializerCode_fold_scan]
  exact reached.trans (sweep_reaches _ _ _ 0)

/-- After a folding pass there is nothing left to fold. -/
theorem fold_run_still (width : Width) (options : Options) (state : RecoveryState) :
    ∀ id ∈ ((Pass.fold width).run options state).1.initializerCode.ids,
      Fold.step width options.longFold ((Pass.fold width).run options state).1.initializerCode id =
        .skip := by
  obtain ⟨last, _, settled⟩ := (Pass.fold width).run_settles options (fun _ => True)
    (fun _ _ _ => trivial) (fun _ _ => trivial) trivial
    ((Pass.fold width).run_fine options state (by simp))
  obtain ⟨event, final⟩ := settled.eq
  rw [final]
  exact (fold_still settled.2.1).2

/-- What every pass of a list keeps, all of them together keep. -/
theorem runAll_keeps (options : Options) (passes : List Pass) (keeps : RecoveryState → Prop)
    (kept : ∀ pass ∈ passes, ∀ state, keeps state → keeps (pass.run options state).1)
    (start : keeps state) : keeps (runAll options passes state).1 := by
  induction passes generalizing state with
  | nil => exact start
  | cons pass rest ih =>
    have here := kept pass List.mem_cons_self state start
    simp only [runAll]
    split
    · rename_i later error outcome
      rwa [outcome] at here
    · rename_i later outcome
      rw [outcome] at here
      exact ih (fun other member => kept other (List.mem_cons_of_mem _ member)) here

theorem runAll_cons {rest : List Pass} (calm : (pass.run options state).2 = none) :
    runAll options (pass :: rest) state = runAll options rest (pass.run options state).1 := by
  rw [runAll]
  split
  · rename_i outcome
    rw [outcome] at calm
    cases calm
  · rename_i outcome
    rw [outcome]

theorem runAll_split {first rest : List Pass} {final : RecoveryState}
    (ran : runAll options (first ++ rest) state = (final, none)) :
    ∃ middle, runAll options first state = (middle, none) ∧
      runAll options rest middle = (final, none) := by
  induction first generalizing state with
  | nil => exact ⟨state, rfl, ran⟩
  | cons pass first ih =>
    simp only [List.cons_append, runAll] at ran ⊢
    split at ran
    · cases ran
    · exact ih ran

theorem runAll_frame (options : Options) (passes : List Pass) (state : RecoveryState) :
    (runAll options passes state).1.frame = state.frame :=
  runAll_keeps options passes (fun later => later.frame = state.frame)
    (fun pass _ later same => (pass.run_frame options later).trans same) rfl

theorem runAll_thins (options : Options) (passes : List Pass) (state : RecoveryState)
    (method : Nat) :
    Listing.Thins (state.cls.codeAt method)
      ((runAll options passes state).1.cls.codeAt method) :=
  runAll_keeps options passes
    (fun later => Listing.Thins (state.cls.codeAt method) (later.cls.codeAt method))
    (fun pass _ later thins => thins.trans (pass.run_thins options later method)) (.refl _)

end Pass

/-- Once the passes are through, nothing can fail any more. -/
theorem recover_eq {options : Options} {cls : Class} {initializer : Nat} {resolved : RecoveryState}
    (first : cls.initializer? = some initializer)
    (ran : Pass.runAll options recoveryPasses (RecoveryState.start cls initializer) =
      (resolved, none)) :
    let cleaned := (Pass.allocations.run options (Cleanup.removeMarked resolved)).1
    recover options cls =
      { cls := Cleanup.clearLocals cleaned.cls
        result := .ok cleaned.stats
        events := cleaned.events } := by
  have calm := Pass.allocations.run_fine options (Cleanup.removeMarked resolved) (by simp)
  simp only [recover, first, recoverFrom, ran]
  generalize Pass.allocations.run options (Cleanup.removeMarked resolved) = outcome at calm
  obtain ⟨cleaned, failure⟩ := outcome
  cases calm
  rfl

/-- A successful recovery, taken apart: the state when all constants are back,
and the state when the scaffold is gone. -/
theorem recover_stages {options : Options} {cls : Class} {initializer : Nat} {stats : Stats}
    (first : cls.initializer? = some initializer)
    (fine : (recover options cls).result = .ok stats) :
    ∃ resolved cleaned,
      Pass.runAll options recoveryPasses (RecoveryState.start cls initializer) = (resolved, none) ∧
      Pass.allocations.run options (Cleanup.removeMarked resolved) = (cleaned, none) ∧
      (recover options cls).cls = Cleanup.clearLocals cleaned.cls ∧
      stats = cleaned.stats ∧ (recover options cls).events = cleaned.events := by
  cases outcome : Pass.runAll options recoveryPasses (RecoveryState.start cls initializer) with
  | mk resolved failure =>
    cases failure with
    | some error => simp [recover, first, recoverFrom, outcome] at fine
    | none =>
      have calm := Pass.allocations.run_fine options (Cleanup.removeMarked resolved) (by simp)
      have whole := recover_eq first outcome
      cases cleanup : Pass.allocations.run options (Cleanup.removeMarked resolved) with
      | mk cleaned failure =>
        rw [cleanup] at calm whole
        cases calm
        rw [whole] at fine ⊢
        exact ⟨resolved, cleaned, rfl, cleanup, rfl, (Except.ok.inj fine).symm, rfl⟩

end LiteralRecovery
