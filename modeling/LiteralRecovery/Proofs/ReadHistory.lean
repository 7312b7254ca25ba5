import LiteralRecovery.Proofs.TableContents

/-! The history of a recovery: every read that was replaced, in the order of the
run, with the states around it. It is taken down along the passes as they run, walk
by walk. Between two replaced reads there are only walks of folds and log lines, so
that whatever these keep is known at any point of a run from the reads that came
before. -/
namespace LiteralRecovery

/-- The changes of a walk, each with the states before and after it. -/
def sweepChanges {σ ε ι : Type} (step : σ → ι → Step σ ε) : List ι → σ → List (σ × ι × σ)
  | [], _ => []
  | place :: rest, state =>
    match step state place with
    | .skip => sweepChanges step rest state
    | .change next => (state, place, next) :: sweepChanges step rest next
    | .stop _ => []

namespace StaticTable

/-- A read that was replaced. -/
structure Replacement where
  kind : ElementKind
  place : Place
  site : ReadSite
  value : Instruction
  /-- The state in which the read was found. -/
  before : RecoveryState
  /-- The state with the value in place of the read. -/
  after : RecoveryState

/-- The read behind a change of a walk: what was found at the place, and what
stands there now. -/
def replacement? (kind : ElementKind) (change : RecoveryState × Place × RecoveryState) :
    Option Replacement := do
  let (before, place, after) := change
  let site ← read? (before.cls.codeAt place.method) place.node before.cls.name kind
  let value ← (after.cls.codeAt place.method).get? place.node
  return { kind, place, site, value, before, after }

end StaticTable

namespace Pass

open StaticTable (Replacement replacement?)

/-- The reads that one walk replaces. -/
def replacements (pass : Pass) (state : RecoveryState) : List Replacement :=
  match pass with
  | .table kind =>
    (sweepChanges (StaticTable.step kind) (StaticTable.places state.cls) state).filterMap
      (replacement? kind)
  | .fold _ | .allocations => []

/-- The reads that a repeated pass replaces. -/
def repeatReplacements (pass : Pass) (options : Options) :
    (bound : Nat) → (iteration : Nat) → RecoveryState → List Replacement
  | 0, _, _ => []
  | bound + 1, iteration, state =>
    let swept := pass.scan options state
    pass.replacements state ++
      if swept.error.isSome ∨ swept.changes = 0 then []
      else pass.repeatReplacements options bound (iteration + 1)
        (swept.state.log (.passScanned swept.state.cls.name pass iteration swept.changes))

@[inherit_doc repeatReplacements]
def runReplacements (pass : Pass) (options : Options) (state : RecoveryState) : List Replacement :=
  let state := state.log (.passStarted state.cls.name pass)
  pass.repeatReplacements options (state.cls.weight / 2 + 1) 1 state

/-- The reads that passes replace one after the other. -/
def allReplacements (options : Options) : List Pass → RecoveryState → List Replacement
  | [], _ => []
  | pass :: rest, state =>
    pass.runReplacements options state ++
      match pass.run options state with
      | (_, some _) => []
      | (state, none) => allReplacements options rest state

end Pass

/-- All reads that recovery replaces in a class. -/
def history (options : Options) (cls : Class) : List StaticTable.Replacement :=
  match cls.initializer? with
  | some position => Pass.allReplacements options recoveryPasses (.start cls position)
  | none => []

namespace StaticTable

/-- What a replaced read did: it was found, a value was found for it, and the value
was put in its place. -/
structure Replacement.Happens (entry : Replacement) : Prop where
  step : StaticTable.step entry.kind entry.before entry.place = .change entry.after
  read : read? (entry.before.cls.codeAt entry.place.method) entry.place.node
    entry.before.cls.name entry.kind = some entry.site
  shows : (entry.after.cls.codeAt entry.place.method).get? entry.place.node = some entry.value

/-- A stretch of a run that brings constants back, from one state to another, with
the reads that were replaced in it. -/
inductive Runs (options : Options) :
    RecoveryState → List Replacement → RecoveryState → Prop where
  | done (state : RecoveryState) : Runs options state [] state
  | log {state final : RecoveryState} {entries : List Replacement} (event : Event)
      (rest : Runs options (state.log event) entries final) : Runs options state entries final
  | fold {state final : RecoveryState} {entries : List Replacement} (width : Width)
      (rest : Runs options (Fold.scan width options state).state entries final) :
      Runs options state entries final
  | replace {entry : Replacement} {final : RecoveryState} {entries : List Replacement}
      (happens : entry.Happens) (rest : Runs options entry.after entries final) :
      Runs options entry.before (entry :: entries) final

variable {options : Options} {state next final : RecoveryState} {entry : Replacement}
variable {entries past future : List Replacement} {kind : ElementKind} {place : Place}

/-! ### One replaced read -/

/-- The change of a step again: the value that was found stands at the place
afterwards. -/
theorem step_shows (changed : step kind state place = .change next) :
    ∃ site value resolved event,
      read? (state.cls.codeAt place.method) place.node state.cls.name kind = some site ∧
      resolve kind state site = .ok (value, resolved) ∧
      next = { resolved with
        cls := resolved.cls.editCode place.method fun code =>
          (code.removeAll site.tail).replace place.node value
        events := resolved.events.push event } ∧
      (next.cls.codeAt place.method).get? place.node = some value := by
  obtain ⟨site, value, resolved, event, read, found, _, rfl⟩ := step_cases changed
  obtain ⟨indexId, loadId, tail, stands⟩ := read_stands_resolved read found
  have held := stands_live stands _ List.mem_cons_self
  have live : ((resolved.cls.codeAt place.method).removeAll site.tail).isLive place.node =
      true := by
    rw [tail, Listing.isLive_removeAll]
    exact ⟨head_not_mem_of_stands stands, Listing.isLive_iff.mpr ⟨_, held⟩⟩
  have valid : place.method < resolved.cls.methods.length := by
    by_contra missing
    rw [Class.codeAt_of_not_lt missing] at held
    cases held
  refine ⟨site, value, resolved, event, read, found, rfl, ?_⟩
  rw [Class.codeAt_editCode_self valid, Listing.get?_replace live, if_pos rfl]

/-- The state in which a value was found for the read, and the edit that put it in. -/
theorem Replacement.Happens.resolved (happens : entry.Happens) :
    ∃ resolved event,
      resolve entry.kind entry.before entry.site = .ok (entry.value, resolved) ∧
      entry.after = { resolved with
        cls := resolved.cls.editCode entry.place.method fun code =>
          (code.removeAll entry.site.tail).replace entry.place.node entry.value
        events := resolved.events.push event } := by
  obtain ⟨site, value, resolved, event, read, found, after, shows⟩ := step_shows happens.step
  cases happens.read.symm.trans read
  cases happens.shows.symm.trans shows
  exact ⟨resolved, event, found, after⟩

/-- Every change of a table walk is a read that was replaced. -/
theorem replacement?_of_change (changed : step kind state place = .change next) :
    ∃ entry, replacement? kind (state, place, next) = some entry ∧ entry.Happens ∧
      entry.before = state ∧ entry.after = next := by
  obtain ⟨site, value, _, _, read, _, _, shows⟩ := step_shows changed
  refine ⟨⟨kind, place, site, value, state, next⟩, ?_, ⟨changed, read, shows⟩, rfl, rfl⟩
  simp [replacement?, read, shows]

/-! ### Stretches of a run -/

theorem Runs.append (first : Runs options state past next)
    (second : Runs options next future final) :
    Runs options state (past ++ future) final := by
  induction first with
  | done state => exact second
  | log event _ ih => exact .log event (ih second)
  | fold width _ ih => exact .fold width (ih second)
  | replace happens _ ih => exact .replace happens (ih second)

/-- A stretch can be cut at every read. -/
theorem Runs.cut (runs : Runs options state (past ++ entry :: future) final) :
    Runs options state past entry.before ∧ entry.Happens ∧
      Runs options entry.after future final := by
  generalize whole : past ++ entry :: future = entries at runs
  induction runs generalizing past with
  | done state => simp at whole
  | log event _ ih =>
    obtain ⟨first, rest⟩ := ih whole
    exact ⟨.log event first, rest⟩
  | fold width _ ih =>
    obtain ⟨first, rest⟩ := ih whole
    exact ⟨.fold width first, rest⟩
  | replace happens rest ih =>
    cases past with
    | nil =>
      cases whole
      exact ⟨.done _, happens, rest⟩
    | cons earlier past =>
      obtain ⟨rfl, tail⟩ := List.cons.inj whole
      obtain ⟨first, rest⟩ := ih tail
      exact ⟨.replace happens first, rest⟩

theorem runs_sweep (options : Options) (kind : ElementKind) (places : List Place)
    (state : RecoveryState) (count : Nat) :
    Runs options state ((sweepChanges (step kind) places state).filterMap (replacement? kind))
      (sweep (step kind) places state count).state := by
  induction places generalizing state count with
  | nil => exact .done state
  | cons place rest ih =>
    cases found : step kind state place with
    | skip => simpa only [sweepChanges, sweep, found] using ih state count
    | stop error => simpa only [sweepChanges, sweep, found] using .done state
    | change next =>
      obtain ⟨entry, known, happens, rfl, rfl⟩ := replacement?_of_change found
      simpa only [sweepChanges, sweep, found, List.filterMap_cons_some known] using
        .replace happens (ih entry.after (count + 1))

end StaticTable

namespace Pass

open StaticTable (Runs)

variable {pass : Pass} (recovers : pass ≠ .allocations) (options : Options)
include recovers

theorem runs_scan (state : RecoveryState) :
    Runs options state (pass.replacements state) (pass.scan options state).state := by
  cases pass with
  | fold width => exact .fold width (.done _)
  | table kind => exact StaticTable.runs_sweep options kind _ state 0
  | allocations => exact absurd rfl recovers

theorem runs_repeatScan (bound iteration : Nat) (state : RecoveryState) :
    Runs options state (pass.repeatReplacements options bound iteration state)
      (pass.repeatScan options bound iteration state).1 := by
  induction bound generalizing iteration state with
  | zero => exact .done state
  | succ bound ih =>
    refine (runs_scan recovers options state).append ?_
    simp only [repeatScan]
    cases failed : (pass.scan options state).error with
    | some error => simpa using .done _
    | none =>
      simp only [Option.isSome_none, Bool.false_eq_true, false_or]
      split
      · exact .log _ (.done _)
      · exact .log _ (ih _ _)

theorem runs_run (state : RecoveryState) :
    Runs options state (pass.runReplacements options state) (pass.run options state).1 :=
  .log _ (runs_repeatScan recovers options _ _ _)

omit recovers in
/-- The passes that bring constants back replace the reads of their history, and do
nothing else but fold and write the log. -/
theorem runs_runAll {passes : List Pass} (recover : ∀ pass ∈ passes, pass ≠ .allocations)
    (state : RecoveryState) :
    Runs options state (allReplacements options passes state) (runAll options passes state).1 := by
  induction passes generalizing state with
  | nil => exact .done state
  | cons pass rest ih =>
    have here := runs_run (recover pass List.mem_cons_self) options state
    simp only [allReplacements, runAll]
    cases outcome : pass.run options state with
    | mk later failure =>
      rw [outcome] at here
      refine here.append ?_
      cases failure with
      | some error => exact .done later
      | none => exact ih (fun other member => recover other (List.mem_cons_of_mem _ member)) later

end Pass

/-- The history of a class is that of the whole run of its recovery passes. -/
theorem runs_history (options : Options) {cls : Class} {position : Nat}
    (found : cls.initializer? = some position) :
    StaticTable.Runs options (.start cls position) (history options cls)
      (Pass.runAll options recoveryPasses (.start cls position)).1 := by
  simp only [history, found]
  exact Pass.runs_runAll options (by simp [recoveryPasses]) _

end LiteralRecovery
