import LiteralRecovery.Proofs.ConstantValues
import LiteralRecovery.Proofs.CursorWalk
import LiteralRecovery.Proofs.Untouched

/-! What a table scan leaves behind when it fails. The scan is told once more as an
action that marks, removes, remembers and counts in place, each change as soon as its
turn comes, so that a change made before a check would show in the state that a failure
leaves. The two agree: a read is refused before anything is done for it. Which reads are
refused, and why, depends on what the class declares, and a class that declares all that
it names as its own fails nowhere. -/
namespace LiteralRecovery

open StaticTable (isConstant)

/-- An action on the state of a recovery. What it did before it failed stays done. -/
abbrev RecoveryM := ExceptT RecoveryError (StateM RecoveryState)

theorem run_modify {σ ε : Type} (change : σ → σ) (before : σ) :
    (modify change : ExceptT ε (StateM σ) Unit) before = (.ok (), change before) := rfl

theorem Class.editCode_id (cls : Class) (position : Nat) :
    cls.editCode position (fun code => code) = cls := by
  have same : cls.methods.modify position (fun m => m) = cls.methods := List.modify_id _ _
  exact congrArg (fun methods => ({ cls with methods } : Class)) same

theorem Class.editCode_editCode (cls : Class) (position : Nat)
    (first second : Listing Instruction → Listing Instruction) :
    (cls.editCode position first).editCode position second =
      cls.editCode position (second ∘ first) := by
  simp only [editCode, List.modify_modify_eq]
  rfl

/-- What a walk returns: the number of changes, or its error. -/
def Swept.outcome {σ ε : Type} (swept : Swept σ ε) : Except ε Nat :=
  match swept.error with
  | some error => .error error
  | none => .ok swept.changes

section Outcome

variable {σ ε : Type} {swept : Swept σ ε} {after : σ}

theorem Swept.outcome_eq_ok {changes : Nat} :
    (swept.outcome, swept.state) = (.ok changes, after) ↔ swept = ⟨after, changes, none⟩ := by
  obtain ⟨state, count, failure⟩ := swept
  cases failure <;> simp [outcome, and_comm]

theorem Swept.outcome_eq_error {error : ε} :
    (swept.outcome, swept.state) = (.error error, after) ↔
      ∃ changes, swept = ⟨after, changes, some error⟩ := by
  obtain ⟨state, count, failure⟩ := swept
  cases failure <;> simp [outcome, and_comm]

end Outcome

/-- A walk fails at a place, in the state that the walk over the places before it has
left. -/
theorem sweep_eq_error {σ ε ι : Type} {step : σ → ι → Step σ ε} {places : List ι} {state : σ}
    {count changes : Nat} {after : σ} {error : ε} :
    sweep step places state count = ⟨after, changes, some error⟩ ↔
      ∃ past place rest, places = past ++ place :: rest ∧
        sweep step past state count = ⟨after, changes, none⟩ ∧ step after place = .stop error := by
  constructor
  · intro failed
    -- the walk goes on from the state and the count of the place it has passed
    induction places generalizing state count with
    | nil => cases failed
    | cons here places ih =>
      cases found : step state here with
      | skip =>
        rw [sweep, found] at failed
        obtain ⟨past, place, rest, rfl, walked, stopped⟩ := ih failed
        exact ⟨here :: past, place, rest, rfl, by simpa only [sweep, found] using walked, stopped⟩
      | change next =>
        rw [sweep, found] at failed
        obtain ⟨past, place, rest, rfl, walked, stopped⟩ := ih failed
        exact ⟨here :: past, place, rest, rfl, by simpa only [sweep, found] using walked, stopped⟩
      | stop error =>
        rw [sweep, found] at failed
        cases failed
        exact ⟨[], here, places, rfl, rfl, found⟩
  · rintro ⟨past, place, rest, rfl, walked, stopped⟩
    rw [sweep_append, walked]
    simp [sweep, stopped]

namespace StaticTable

/-! ### A scan that works in place -/

/-- Takes nodes out of a method, one at a time. -/
def dropNodes (number : Nat) (nodes : List NodeId) : RecoveryM Unit :=
  nodes.forM fun node => modify fun state =>
    { state with cls := state.cls.editCode number (·.remove node) }

/-- The value of a store. Its helper is marked on the way. -/
def unmaskInPlace (store : StoreSite) : RecoveryM Instruction := do
  match store.value, store.helper with
  | .stringConst cipher, some helper =>
    let cls := (← get).cls
    match cls.method? helper.key with
    | some method =>
      modify fun state => { state with markedMethods := state.markedMethods.insert helper.key }
      return .stringConst (Cipher.decrypt cls.name helper.name method.code cipher)
    | none => throw (.undeclaredHelper helper)
  | value, _ => return value

/-- Uses up a store: its table is marked, its nodes go, and its value is kept. -/
def consumeInPlace (kind : ElementKind) (site : ReadSite) (store : StoreSite)
    (value : Instruction) : RecoveryM Unit := do
  modify fun state => { state with markedFields := state.markedFields.insert site.field.key }
  dropNodes (← get).initializer store.nodes
  modify fun state => { state with memo := ((site.field.key, site.index), value) :: state.memo }
  modify fun state => { state with stats := count kind state.stats }

/-- The value of a read, with every change made as soon as its turn comes. -/
def resolveInPlace (kind : ElementKind) (site : ReadSite) : RecoveryM Instruction := do
  let state ← get
  match state.memo.lookup (site.field.key, site.index) with
  | some value =>
    modify fun state => { state with stats := count kind state.stats }
    return value
  | none =>
    match storeAt? state.initializerCode site.field site.index kind state.cls.name with
    | none =>
      modify fun state => { state with stats.defaulted := state.stats.defaulted + 1 }
      return .zero kind
    | some store =>
      if (state.cls.field? site.field.key).isNone then throw (.undeclaredField site.field)
      else
        let value ← unmaskInPlace store
        consumeInPlace kind site store value
        return value

/-- Replaces the read at a place, and says whether there was one. -/
def replaceInPlace (kind : ElementKind) (place : Place) : RecoveryM Bool := do
  let state ← get
  match read? (state.cls.codeAt place.method) place.node state.cls.name kind with
  | none => return false
  | some site =>
    let value ← resolveInPlace kind site
    modify fun state =>
      let method := (state.cls.methods[place.method]?.map (·.signature)).getD ""
      state.log (.readResolved state.cls.name site.field site.index method value)
    dropNodes place.method site.tail
    modify fun state =>
      { state with cls := state.cls.editCode place.method (·.replace place.node value) }
    return true

/-- Replaces the reads at the given places, and counts on from `resolved`. -/
def walkInPlace (kind : ElementKind) : List Place → (resolved : Nat) → RecoveryM Nat
  | [], resolved => return resolved
  | place :: rest, resolved => do
    if ← replaceInPlace kind place then walkInPlace kind rest (resolved + 1)
    else walkInPlace kind rest resolved

/-- A scan of all methods. -/
def scanInPlace (kind : ElementKind) : RecoveryM Nat := do
  walkInPlace kind (places (← get).cls) 0

theorem dropNodes_run (number : Nat) (nodes : List NodeId) (state : RecoveryState) :
    dropNodes number nodes state =
      (.ok (), { state with cls := state.cls.editCode number (·.removeAll nodes) }) := by
  induction nodes generalizing state with
  | nil =>
    have same : state.cls.editCode number (fun code => code.removeAll []) = state.cls := by
      exact Class.editCode_id state.cls number
    rw [same]
    rfl
  | cons node nodes ih =>
    have rest := ih { state with cls := state.cls.editCode number (·.remove node) }
    rw [Class.editCode_editCode] at rest
    exact rest

theorem unmaskInPlace_run (store : StoreSite) (state : RecoveryState) :
    unmaskInPlace store state =
      match storedValue state.cls store with
      | .ok (value, helper) =>
        (.ok value, { state with
          markedMethods := helper.elim state.markedMethods state.markedMethods.insert })
      | .error error => (.error error, state) := by
  obtain ⟨nodes, index, value, helper⟩ := store
  cases helper with
  | none => cases value <;> rfl
  | some helper =>
    cases value with
    | stringConst cipher =>
      simp only [unmaskInPlace, storedValue, run_get_bind]
      cases state.cls.method? helper.key <;> rfl
    | _ => rfl

theorem consumeInPlace_run (kind : ElementKind) (site : ReadSite) (store : StoreSite)
    (value : Instruction) (helper : Option MemberKey) (state : RecoveryState) :
    consumeInPlace kind site store value { state with
        markedMethods := helper.elim state.markedMethods state.markedMethods.insert } =
      (.ok (), consume kind state site store value helper) := by
  unfold consumeInPlace
  rw [run_bind]
  simp only [run_bind, dropNodes_run]
  rfl

theorem resolveInPlace_run (kind : ElementKind) (site : ReadSite) (state : RecoveryState) :
    resolveInPlace kind site state =
      match resolve kind state site with
      | .ok (value, after) => (.ok value, after)
      | .error error => (.error error, state) := by
  rw [resolveInPlace, resolve, run_get_bind]
  cases state.memo.lookup (site.field.key, site.index) with
  | some value => rfl
  | none =>
    cases storeAt? state.initializerCode site.field site.index kind state.cls.name with
    | none => rfl
    | some store =>
      cases (state.cls.field? site.field.key).isNone with
      | true => rfl
      | false =>
        simp only [Bool.false_eq_true, if_false, run_bind, unmaskInPlace_run]
        cases storedValue state.cls store with
        | error error => rfl
        | ok stored => simp only [consumeInPlace_run]; rfl

theorem replaceInPlace_run (kind : ElementKind) (place : Place) (state : RecoveryState) :
    replaceInPlace kind place state =
      match step kind state place with
      | .skip => (.ok false, state)
      | .change after => (.ok true, after)
      | .stop error => (.error error, state) := by
  rw [replaceInPlace, step, run_get_bind]
  cases read? (state.cls.codeAt place.method) place.node state.cls.name kind with
  | none => rfl
  | some site =>
    simp only [run_bind, resolveInPlace_run]
    cases resolve kind state site with
    | error error => rfl
    | ok found =>
      obtain ⟨value, resolved⟩ := found
      simp only [run_modify, dropNodes_run, Class.editCode_editCode]
      rfl

theorem walkInPlace_run (kind : ElementKind) (places : List Place) (resolved : Nat)
    (state : RecoveryState) :
    walkInPlace kind places resolved state =
      ((sweep (step kind) places state resolved).outcome,
        (sweep (step kind) places state resolved).state) := by
  induction places generalizing resolved state with
  | nil => rfl
  | cons place rest ih =>
    rw [walkInPlace, run_bind, replaceInPlace_run, sweep]
    cases step kind state place with
    | skip => exact ih resolved state
    | change after => exact ih (resolved + 1) after
    | stop error => rfl

/-- A walk that fails has completed the places before the one at fault, and that is all
it has done. -/
theorem walkInPlace_eq_error {kind : ElementKind} {places : List Place} {count : Nat}
    {state after : RecoveryState} {error : RecoveryError} :
    walkInPlace kind places count state = (.error error, after) ↔
      ∃ past place rest resolved, places = past ++ place :: rest ∧
        walkInPlace kind past count state = (.ok resolved, after) ∧
        step kind after place = .stop error := by
  constructor
  · intro failed
    rw [walkInPlace_run] at failed
    obtain ⟨resolved, whole⟩ := Swept.outcome_eq_error.mp failed
    obtain ⟨past, place, rest, split, walked, stopped⟩ := sweep_eq_error.mp whole
    refine ⟨past, place, rest, resolved, split, ?_, stopped⟩
    rw [walkInPlace_run]
    exact Swept.outcome_eq_ok.mpr walked
  · rintro ⟨past, place, rest, resolved, split, walked, stopped⟩
    rw [walkInPlace_run] at walked ⊢
    refine Swept.outcome_eq_error.mpr ⟨resolved, sweep_eq_error.mpr ?_⟩
    exact ⟨past, place, rest, split, Swept.outcome_eq_ok.mp walked, stopped⟩

theorem scanInPlace_run (kind : ElementKind) (state : RecoveryState) :
    scanInPlace kind state = ((scan kind state).outcome, (scan kind state).state) := by
  rw [scanInPlace, run_get_bind, walkInPlace_run]
  rfl

/-! ### Why a read is refused -/

/-- The store that a read comes upon: the first one of its slot that is left. -/
def FirstStore (kind : ElementKind) (state : RecoveryState) (site : ReadSite)
    (store : StoreSite) : Prop :=
  ∃ id, store? state.initializerCode id site.field kind state.cls.name = some store ∧
    store.index = site.index ∧
    ∀ above < id, ∀ other,
      store? state.initializerCode above site.field kind state.cls.name = some other →
        other.index ≠ site.index

/-- A read gets no value, and an error says why. Its slot has none on record and has a
store, but the table is not declared; or the table is, and the helper of the store is
not. -/
inductive Refused (kind : ElementKind) (state : RecoveryState) (site : ReadSite) :
    RecoveryError → Prop
  | table {store : StoreSite}
      (fresh : state.memo.lookup (site.field.key, site.index) = none)
      (first : FirstStore kind state site store)
      (undeclared : state.cls.field? site.field.key = none) :
      Refused kind state site (.undeclaredField site.field)
  | helper {store : StoreSite} {helper : MemberRef}
      (fresh : state.memo.lookup (site.field.key, site.index) = none)
      (first : FirstStore kind state site store)
      (declared : (state.cls.field? site.field.key).isSome = true)
      (through : store.helper = some helper)
      (undeclared : state.cls.method? helper.key = none) :
      Refused kind state site (.undeclaredHelper helper)

variable {kind : ElementKind} {state : RecoveryState} {site : ReadSite} {store : StoreSite}
variable {error : RecoveryError}

/-- Only the string in a store needs a helper. -/
theorem storedValue_eq_error (first : FirstStore kind state site store) :
    storedValue state.cls store = .error error ↔
      ∃ helper, store.helper = some helper ∧ state.cls.method? helper.key = none ∧
        error = .undeclaredHelper helper := by
  obtain ⟨id, found, _, _⟩ := first
  obtain ⟨segment, _, shape, _⟩ := store?_eq_some.mp found
  cases shape with
  | int => simp [storedValue]
  | long => simp [storedValue]
  | string head indexId valueId callId storeId index cipher helper onInterface own =>
    simp only [storedValue]
    cases declared : state.cls.method? helper.key <;> simp [declared, eq_comm]

theorem resolve_eq_error :
    resolve kind state site = .error error ↔ Refused kind state site error := by
  constructor
  · intro failed
    unfold resolve at failed
    -- neither the memo nor the default fails, so that there is a store
    split at failed
    · cases failed
    · rename_i fresh
      split at failed
      · cases failed
      · rename_i store hit
        have first : FirstStore kind state site store := storeAt?_eq_some.mp hit
        split at failed
        · rename_i undeclared
          cases failed
          exact .table fresh first (by simpa using undeclared)
        · rename_i declared
          split at failed
          · rename_i error' refused
            cases failed
            obtain ⟨helper, through, missing, rfl⟩ := (storedValue_eq_error first).mp refused
            have known : (state.cls.field? site.field.key).isSome = true := by
              simpa [Option.isSome_iff_ne_none] using declared
            exact .helper fresh first known through missing
          · cases failed
  · intro refused
    unfold resolve
    cases refused with
    | table fresh first undeclared =>
      simp [fresh, storeAt?_eq_some.mpr first, undeclared]
    | helper fresh first declared through undeclared =>
      have stored := (storedValue_eq_error first).mpr ⟨_, through, undeclared, rfl⟩
      simp [fresh, storeAt?_eq_some.mpr first, Option.isSome_iff_ne_none.mp declared, stored]

theorem step_eq_stop {place : Place} :
    step kind state place = .stop error ↔
      ∃ site, read? (state.cls.codeAt place.method) place.node state.cls.name kind = some site ∧
        Refused kind state site error := by
  unfold step
  cases read? (state.cls.codeAt place.method) place.node state.cls.name kind with
  | none => simp
  | some site =>
    simp only [Option.some.injEq, exists_eq_left', ← resolve_eq_error]
    cases resolve kind state site <;> simp

end StaticTable

/-! ### Classes that lack nothing -/

/-- What a node holds has been there all along, unless it is a constant. -/
theorem Listing.Touches.held {may : Instruction → Bool} {earlier later : Listing Instruction}
    {id : NodeId} {instruction : Instruction} (touches : Touches may earlier later)
    (now : later.get? id = some instruction) (plain : isConstant instruction = false) :
    earlier.get? id = some instruction := by
  rcases touches id with same | ⟨_, _, _, constant⟩
  · rwa [← same]
  · rw [constant instruction now] at plain
    cases plain

namespace Class

variable {cls : Class} {number : Nat} {id : NodeId} {instruction : Instruction}

/-- What a class declares is a matter of its outline. -/
theorem field?_of_outline {cls' : Class} (same : cls'.outline = cls.outline) (key : MemberKey) :
    cls'.field? key = cls.field? key := by
  rw [field?, field?, (outline_eq_iff.mp same).2.1]

theorem isSome_method?_of_outline {cls' : Class} (same : cls'.outline = cls.outline)
    (key : MemberKey) : (cls'.method? key).isSome = (cls.method? key).isSome := by
  have listed (cls : Class) :
      (cls.method? key).isSome = true ↔ key ∈ cls.methods.map Method.key := by
    simp [method?, List.find?_isSome]
  rw [Bool.eq_iff_iff, listed, listed,
    Method.map_key_of_declarations (outline_eq_iff.mp same).2.2]

theorem mem_instructions_of_get? (held : (cls.codeAt number).get? id = some instruction) :
    instruction ∈ cls.instructions := by
  unfold codeAt at held
  split at held
  · rename_i method present
    exact List.mem_flatMap.mpr
      ⟨method, List.mem_of_getElem? present, Listing.mem_toList.mpr ⟨id, held⟩⟩
  · cases held

/-- Every own field that is read is declared, and so is every own method that the static
initializer calls. -/
structure DeclaresOwn (cls : Class) : Prop where
  fields : ∀ field, .getStatic field ∈ cls.instructions → field.owner = cls.name →
    (cls.field? field.key).isSome = true
  methods : ∀ position, cls.initializer? = some position → ∀ target onInterface,
    .invokeStatic target onInterface ∈ (cls.codeAt position).toList → target.owner = cls.name →
      (cls.method? target.key).isSome = true

end Class

namespace Pass

variable {options : Options} {cls : Class} {position : Nat} {state : RecoveryState}
variable {declared : List MemberKey}

/-- In a class that declares what is its own, no read is refused at any point of a run. -/
theorem Spares.not_refused (spares : Spares (.start cls position) declared state)
    (complete : cls.DeclaresOwn) (located : cls.initializer? = some position) {kind : ElementKind}
    {place : StaticTable.Place} {site : StaticTable.ReadSite} {error : RecoveryError}
    (read : StaticTable.read? (state.cls.codeAt place.method) place.node state.cls.name kind =
      some site) : ¬ StaticTable.Refused kind state site error := by
  have outline : state.cls.outline = cls.outline := RecoveryState.frame_outline spares.frame
  have name : state.cls.name = cls.name := RecoveryState.frame_name spares.frame
  intro refused
  cases refused with
  | table fresh first undeclared =>
    obtain ⟨_, _, stands, own, _⟩ := StaticTable.read?_eq_some.mp read
    -- no pass puts in a `getstatic`, so that the read was there at the start
    have held := (spares.touches place.method).held (stands_live stands _ List.mem_cons_self) rfl
    have known := complete.fields site.field (Class.mem_instructions_of_get? held) (own.trans name)
    rw [← Class.field?_of_outline outline, undeclared] at known
    cases known
  | @helper store helper fresh first declared through undeclared =>
    obtain ⟨id, found, _, _⟩ := first
    obtain ⟨segment, stands, shape, _⟩ := StaticTable.store?_eq_some.mp found
    cases shape with
    | int => cases through
    | long => cases through
    | string head indexId valueId callId storeId index cipher helper onInterface own =>
      cases through
      have here : state.initializer = position := RecoveryState.frame_initializer spares.frame
      have now := stands_live stands (callId, .invokeStatic helper onInterface) (by simp)
      rw [RecoveryState.initializerCode, here] at now
      have held := (spares.touches position).held now rfl
      have known := complete.methods position located helper onInterface
        (Listing.mem_toList.mpr ⟨callId, held⟩) (own.trans name)
      rw [← Class.isSome_method?_of_outline outline, undeclared] at known
      cases known

/-- Nor does a walk fail there: the state it would fail in is one of that run. -/
theorem Spares.scan_fine (spares : Spares (.start cls position) declared state)
    (complete : cls.DeclaresOwn) (located : cls.initializer? = some position) (pass : Pass)
    (recovers : pass ≠ .allocations) : (pass.scan options state).error = none := by
  have later : Spares (.start cls position) declared (pass.scan options state).state :=
    spares.scan pass recovers
  cases pass with
  | fold width => rfl
  | allocations => rfl
  | table kind =>
    -- a walk that fails ends in the very state in which the read was refused
    by_contra failed
    obtain ⟨error, failed⟩ := Option.ne_none_iff_exists'.mp failed
    have whole : ∃ changes, StaticTable.scan kind state =
        ⟨(StaticTable.scan kind state).state, changes, some error⟩ :=
      ⟨_, by rw [← failed]; rfl⟩
    obtain ⟨_, whole⟩ := whole
    obtain ⟨_, place, _, _, _, stopped⟩ := sweep_eq_error.mp whole
    obtain ⟨site, read, refused⟩ := StaticTable.step_eq_stop.mp stopped
    exact later.not_refused complete located read refused

theorem runAll_safe {passes : List Pass} (keeps : RecoveryState → Prop)
    (safe : ∀ pass ∈ passes, ∀ state, keeps state →
      (pass.run options state).2 = none ∧ keeps (pass.run options state).1)
    (start : keeps state) : (runAll options passes state).2 = none := by
  induction passes generalizing state with
  | nil => rfl
  | cons pass rest ih =>
    obtain ⟨calm, kept⟩ := safe pass List.mem_cons_self state start
    rw [runAll_cons calm]
    exact ih (fun other member => safe other (List.mem_cons_of_mem _ member)) kept

end Pass

/-- Nothing fails in a class that declares what is its own. -/
theorem recover_of_declaresOwn {cls : Class} (options : Options) (complete : cls.DeclaresOwn) :
    ∃ stats, (recover options cls).result = .ok stats := by
  cases located : cls.initializer? with
  | none => exact ⟨.zero, by simp only [recover, located]⟩
  | some position =>
    have calm : (Pass.runAll options recoveryPasses (.start cls position)).2 = none := by
      refine Pass.runAll_safe (Pass.Spares (.start cls position) []) ?_
        ⟨rfl, fun _ member => absurd member List.not_mem_nil, fun _ => .refl _ _⟩
      intro pass member state spares
      have recovers : pass ≠ .allocations := by
        rintro rfl
        simp [recoveryPasses] at member
      refine ⟨pass.run_safe options _ ?_ ?_ spares, pass.run_keeps options _ ?_ ?_ spares⟩
      · exact fun _ _ spares => ⟨spares.frame, spares.remembers, spares.touches⟩
      · exact fun _ spares =>
          ⟨spares.scan_fine complete located pass recovers, spares.scan pass recovers⟩
      · exact fun _ _ spares => ⟨spares.frame, spares.remembers, spares.touches⟩
      · exact fun _ spares => spares.scan pass recovers
    exact ⟨_, congrArg Recovered.result (recover_eq located (Prod.ext rfl calm))⟩

/-- A scan that fails has done all that comes before the read at fault and nothing for
that read, and its error says what the class lacks. -/
theorem scans_fail_cleanly :
    (∀ kind state, StaticTable.scanInPlace kind state =
      ((StaticTable.scan kind state).outcome, (StaticTable.scan kind state).state)) ∧
    (∀ kind state error after,
      StaticTable.scanInPlace kind state = (.error error, after) ↔
        ∃ past place rest resolved site,
          StaticTable.places state.cls = past ++ place :: rest ∧
          StaticTable.walkInPlace kind past 0 state = (.ok resolved, after) ∧
          StaticTable.read? (after.cls.codeAt place.method) place.node after.cls.name kind =
            some site ∧
          StaticTable.Refused kind after site error) ∧
    ∀ options cls, cls.DeclaresOwn → ∃ stats, (recover options cls).result = .ok stats := by
  refine ⟨StaticTable.scanInPlace_run, fun kind state error after => ?_,
    fun options cls => recover_of_declaresOwn options⟩
  rw [StaticTable.scanInPlace, run_get_bind, StaticTable.walkInPlace_eq_error]
  simp only [StaticTable.step_eq_stop]
  constructor
  · rintro ⟨past, place, rest, resolved, split, walked, site, read, refused⟩
    exact ⟨past, place, rest, resolved, site, split, walked, read, refused⟩
  · rintro ⟨past, place, rest, resolved, site, split, walked, read, refused⟩
    exact ⟨past, place, rest, resolved, split, walked, site, read, refused⟩

/-- A table of two strings, stored through the helpers `open` and `force`, of which the
class declares those it is given. -/
def strongbox (helpers : List String) : Class :=
  let texts : MemberRef := ⟨"Strongbox", "texts", "[Ljava/lang/String;"⟩
  let descriptor := "(Ljava/lang/String;)Ljava/lang/String;"
  .ofMembers "Strongbox" [texts.key]
    ([(⟨initializerName, "()V"⟩,
       [.getStatic texts, .intConst 0, .stringConst ⟨[17]⟩,
        .invokeStatic ⟨"Strongbox", "open", descriptor⟩ false, .arrayStore .reference,
        .getStatic texts, .intConst 1, .stringConst ⟨[19]⟩,
        .invokeStatic ⟨"Strongbox", "force", descriptor⟩ false, .arrayStore .reference,
        .plain (.plain .returnVoid)]),
      (⟨"read", "()V"⟩,
       [.getStatic texts, .intConst 0, .arrayLoad .reference, .plain (.plain .pop),
        .getStatic texts, .intConst 1, .arrayLoad .reference, .plain (.plain .pop),
        .plain (.plain .returnVoid)])] ++
     helpers.map fun name => (⟨name, descriptor⟩, [.plain (.plain .areturn)]))

theorem strongbox_declaresOwn : (strongbox ["open", "force"]).DeclaresOwn := by
  constructor
  · intro field member _
    have texts : field = ⟨"Strongbox", "texts", "[Ljava/lang/String;"⟩ := by
      simpa [strongbox, Class.instructions, Class.ofMembers] using member
    subst texts
    decide
  · intro position found target onInterface member _
    have first : (strongbox ["open", "force"]).initializer? = some 0 := by decide +kernel
    cases first.symm.trans found
    have listed : target = ⟨"Strongbox", "open", "(Ljava/lang/String;)Ljava/lang/String;"⟩ ∧
          onInterface = false ∨
        target = ⟨"Strongbox", "force", "(Ljava/lang/String;)Ljava/lang/String;"⟩ ∧
          onInterface = false := by
      simpa [strongbox, Class.codeAt, Class.ofMembers] using member
    rcases listed with ⟨rfl, _⟩ | ⟨rfl, _⟩ <;> decide

theorem strongbox_fails_cleanly :
    (∃ after past place rest,
      StaticTable.scanInPlace .reference (.start (strongbox ["open"]) 0) =
        (.error (.undeclaredHelper
          ⟨"Strongbox", "force", "(Ljava/lang/String;)Ljava/lang/String;"⟩), after) ∧
      StaticTable.places (strongbox ["open"]) = past ++ place :: rest ∧
      (∃ resolved, StaticTable.walkInPlace .reference past 0 (.start (strongbox ["open"]) 0) =
        (.ok resolved, after)) ∧
      after.stats = { Stats.zero with resolvedStrings := 1 }) ∧
    ∃ stats, (recover ⟨.combine⟩ (strongbox ["open", "force"])).result = .ok stats := by
  obtain ⟨agrees, fails, fine⟩ := scans_fail_cleanly
  constructor
  · have failed : (StaticTable.scan .reference (.start (strongbox ["open"]) 0)).error =
        some (.undeclaredHelper
          ⟨"Strongbox", "force", "(Ljava/lang/String;)Ljava/lang/String;"⟩) := by
      decide +kernel
    have run := agrees .reference (.start (strongbox ["open"]) 0)
    rw [Swept.outcome, failed] at run
    obtain ⟨past, place, rest, resolved, _, split, walked, _⟩ := (fails _ _ _ _).mp run
    exact ⟨_, past, place, rest, run, split, ⟨resolved, walked⟩, by decide +kernel⟩
  · exact fine _ _ strongbox_declaresOwn

end LiteralRecovery
