import LiteralRecovery.Proofs.Neighbours
import LiteralRecovery.Proofs.PassRun

/-! Walks by cursor. A cursor stands at a live node and then moves to the node
that follows it by then, in a listing that each step may thin out before it,
behind it and under it. Numbers only grow on the way, so that a walk comes to its
end. It stops at the nodes of the listing as it was at the start, as far as they
are still alive when it gets there; so it is the walk over a list of nodes taken
at the start, which finds the others dead and passes them over. -/
namespace LiteralRecovery

section Cursor

open Listing

variable {α σ ε : Type} {view : σ → Listing α} {step : σ → NodeId → Step σ ε}
variable {cursor : Option NodeId} {state : σ} {changes : Nat} {visited : List NodeId}
variable {swept : Swept σ ε}

/-- A walk with the nodes its cursor stood at and its outcome. -/
inductive CursorWalk (view : σ → Listing α) (step : σ → NodeId → Step σ ε) :
    Option NodeId → σ → Nat → List NodeId → Swept σ ε → Prop
  | finished (state : σ) (changes : Nat) :
      CursorWalk view step none state changes [] { state, changes, error := none }
  | skip {id : NodeId} {state : σ} {changes : Nat} {visited : List NodeId} {swept : Swept σ ε}
      (quiet : step state id = .skip)
      (later : CursorWalk view step ((view state).next id) state changes visited swept) :
      CursorWalk view step (some id) state changes (id :: visited) swept
  | change {id : NodeId} {state after : σ} {changes : Nat} {visited : List NodeId}
      {swept : Swept σ ε} (changed : step state id = .change after)
      (later : CursorWalk view step ((view after).next id) after (changes + 1) visited swept) :
      CursorWalk view step (some id) state changes (id :: visited) swept
  | stop {id : NodeId} {state : σ} {error : ε} (changes : Nat)
      (failed : step state id = .stop error) :
      CursorWalk view step (some id) state changes [id] { state, changes, error := some error }

theorem Listing.lt_of_next {list : Listing α} {id following : NodeId}
    (leads : list.next id = some following) : id < following := by
  obtain ⟨_, _, found⟩ := next_iff.mp leads
  exact (liveFrom_eq_some.mp found).2.1

theorem Listing.liveFrom_of_gap {list : Listing α} {bound target : NodeId} (inside : bound ≤ target)
    (gap : ∀ between, bound ≤ between → between < target → list.isLive between = false) :
    list.liveFrom bound = list.liveFrom target := by
  refine Option.ext fun node => ?_
  rw [liveFrom_eq_some, liveFrom_eq_some]
  constructor
  · rintro ⟨live, above, clear⟩
    have behind : target ≤ node := by
      by_contra under
      rw [gap node above (Nat.lt_of_not_le under)] at live
      cases live
    exact ⟨live, behind, fun between beyond => clear between (Nat.le_trans inside beyond)⟩
  · rintro ⟨live, above, clear⟩
    refine ⟨live, Nat.le_trans inside above, fun between beyond under => ?_⟩
    by_cases early : between < target
    · exact gap between beyond early
    · exact clear between (Nat.le_of_not_lt early) under

/-- What follows a node is the same question while it is alive and once it is gone. -/
theorem Listing.Thins.next_eq {before after : Listing α} {id : NodeId} (thins : Thins before after)
    (live : before.isLive id = true) : after.next id = after.liveFrom (id + 1) := by
  refine next_of_open (thins.size ▸ lt_size_of_live live) fun shut => ?_
  rw [dead_of_closed ((thins.closed id).mp shut)] at live
  cases live

/-- The cursor never goes back behind where it started. -/
theorem CursorWalk.above (walk : CursorWalk view step cursor state changes visited swept)
    {bound : NodeId} (starts : ∀ start, cursor = some start → bound ≤ start) :
    ∀ id ∈ visited, bound ≤ id := by
  induction walk generalizing bound with
  | finished => exact fun id member => absurd member List.not_mem_nil
  | @skip id state changes visited swept quiet later ih =>
    have here := starts id rfl
    rintro other (_ | ⟨_, member⟩)
    · exact here
    · exact ih (fun start leads => Nat.le_trans here (Nat.le_of_lt (lt_of_next leads))) other member
  | @change id state after changes visited swept changed later ih =>
    have here := starts id rfl
    rintro other (_ | ⟨_, member⟩)
    · exact here
    · exact ih (fun start leads => Nat.le_trans here (Nat.le_of_lt (lt_of_next leads))) other member
  | stop changes failed => simpa using starts _ rfl

/-- From one node to the next the number grows, whatever the step did. -/
theorem CursorWalk.ascending (walk : CursorWalk view step cursor state changes visited swept) :
    visited.Pairwise (· < ·) := by
  induction walk with
  | finished => exact .nil
  | skip quiet later ih =>
    exact List.pairwise_cons.mpr ⟨later.above fun start leads => lt_of_next leads, ih⟩
  | change changed later ih =>
    exact List.pairwise_cons.mpr ⟨later.above fun start leads => lt_of_next leads, ih⟩
  | stop => exact List.pairwise_singleton _ _

/-- There is only one walk from a state. -/
theorem CursorWalk.unique (walk : CursorWalk view step cursor state changes visited swept)
    {visited' : List NodeId} {swept' : Swept σ ε}
    (other : CursorWalk view step cursor state changes visited' swept') :
    visited' = visited ∧ swept' = swept := by
  induction walk generalizing visited' swept' with
  | finished =>
    cases other
    exact ⟨rfl, rfl⟩
  | skip quiet later ih =>
    cases other with
    | skip _ later' =>
      obtain ⟨rfl, rfl⟩ := ih later'
      exact ⟨rfl, rfl⟩
    | change changed _ =>
      rw [quiet] at changed
      cases changed
    | stop _ failed =>
      rw [quiet] at failed
      cases failed
  | change changed later ih =>
    cases other with
    | skip quiet _ =>
      rw [changed] at quiet
      cases quiet
    | change changed' later' =>
      rw [changed] at changed'
      cases changed'
      obtain ⟨rfl, rfl⟩ := ih later'
      exact ⟨rfl, rfl⟩
    | stop _ failed =>
      rw [changed] at failed
      cases failed
  | stop _ failed =>
    cases other with
    | skip quiet _ =>
      rw [failed] at quiet
      cases quiet
    | change changed _ =>
      rw [failed] at changed
      cases changed
    | stop _ failed' =>
      rw [failed] at failed'
      cases failed'
      exact ⟨rfl, rfl⟩

section Snapshot

variable (thins : ∀ state id after, step state id = .change after → Thins (view state) (view after))
variable (dead : ∀ state id, (view state).isLive id = false → step state id = .skip)
include thins dead

/-- The walk over a list of nodes is the walk by cursor, as long as the list has
all nodes that are alive from `bound` on. -/
theorem walks_sweep {ids : List NodeId} {bound : NodeId} (state : σ) (changes : Nat)
    (sorted : ids.Pairwise (· < ·)) (above : ∀ id ∈ ids, bound ≤ id)
    (listed : ∀ id, bound ≤ id → (view state).isLive id = true → id ∈ ids) :
    ∃ visited, CursorWalk view step ((view state).liveFrom bound) state changes visited
      (sweep step ids state changes) := by
  induction ids generalizing bound state changes with
  | nil =>
    have none : (view state).liveFrom bound = none := by
      refine liveFrom_eq_none.mpr fun node beyond => ?_
      by_contra live
      exact absurd (listed node beyond (by simpa using live)) List.not_mem_nil
    rw [none]
    exact ⟨[], .finished state changes⟩
  | cons id rest ih =>
    obtain ⟨before, ordered⟩ := List.pairwise_cons.mp sorted
    -- what is alive from `bound` on, `id` apart, comes behind `id`
    have behind (later : σ) (thinner : Thins (view state) (view later)) (node : NodeId)
        (beyond : id + 1 ≤ node) (live : (view later).isLive node = true) : node ∈ rest := by
      have under : bound ≤ node :=
        Nat.le_trans (above id List.mem_cons_self) (Nat.le_of_succ_le beyond)
      rcases List.mem_cons.mp (listed node under (thinner.live node live)) with rfl | member
      · exact absurd beyond (Nat.lt_irrefl _)
      · exact member
    have gap : ∀ between, bound ≤ between → between < id → (view state).isLive between = false := by
      intro between beyond under
      by_contra live
      rcases List.mem_cons.mp (listed between beyond (by simpa using live)) with rfl | member
      · exact Nat.lt_irrefl _ under
      · exact Nat.lt_asymm under (before between member)
    cases live : (view state).isLive id with
    | false =>
      have same : (view state).liveFrom bound = (view state).liveFrom (id + 1) := by
        refine liveFrom_of_gap (Nat.le_succ_of_le (above id List.mem_cons_self)) ?_
        intro between beyond under
        rcases Nat.eq_or_lt_of_le (Nat.le_of_lt_succ under) with rfl | early
        · exact live
        · exact gap between beyond early
      rw [same, sweep, dead state id live]
      exact ih state changes ordered before (behind state (.refl _))
    | true =>
      have here : (view state).liveFrom bound = some id :=
        liveFrom_eq_some.mpr ⟨live, above id List.mem_cons_self, gap⟩
      rw [here]
      cases found : step state id with
      | skip =>
        obtain ⟨visited, walk⟩ := ih state changes ordered before (behind state (.refl _))
        rw [← next_of_live live] at walk
        exact ⟨id :: visited, by simpa only [sweep, found] using .skip found walk⟩
      | change after =>
        have thinner := thins state id after found
        obtain ⟨visited, walk⟩ := ih after (changes + 1) ordered before (behind after thinner)
        rw [← thinner.next_eq live] at walk
        exact ⟨id :: visited, by simpa only [sweep, found] using .change found walk⟩
      | stop error =>
        exact ⟨[id], by simpa only [sweep, found] using .stop changes found⟩

end Snapshot

end Cursor

section Sweep

variable {σ ε ι κ : Type} {step : σ → ι → Step σ ε}

theorem sweep_append (front back : List ι) (state : σ) (changes : Nat) :
    sweep step (front ++ back) state changes =
      if (sweep step front state changes).error.isSome then sweep step front state changes
      else sweep step back (sweep step front state changes).state
        (sweep step front state changes).changes := by
  induction front generalizing state changes with
  | nil => rfl
  | cons place front ih =>
    cases found : step state place with
    | skip => simpa only [List.cons_append, sweep, found] using ih state changes
    | change after => simpa only [List.cons_append, sweep, found] using ih after (changes + 1)
    | stop error => simp [sweep, found]

theorem sweep_map (places : List κ) (locate : κ → ι) (state : σ) (changes : Nat) :
    sweep step (places.map locate) state changes =
      sweep (fun state place => step state (locate place)) places state changes := by
  induction places generalizing state changes with
  | nil => rfl
  | cons place places ih =>
    cases found : step state (locate place) with
    | skip => simpa only [List.map_cons, sweep, found] using ih state changes
    | change after => simpa only [List.map_cons, sweep, found] using ih after (changes + 1)
    | stop error => simp only [List.map_cons, sweep, found]

end Sweep

/-! ### The walks of the passes -/

theorem Fold.step_of_dead {width : Width} {mode : LongFold} (code : Listing Instruction)
    (id : NodeId) (dead : code.isLive id = false) : Fold.step width mode code id = .skip := by
  cases found : Fold.step width mode code id with
  | skip => rfl
  | change after =>
    obtain ⟨first, _, _, _, _, _, stands, _⟩ := Fold.step_eq_change.mp found
    rw [Listing.isLive_iff.mpr ⟨first, stands_live stands _ List.mem_cons_self⟩] at dead
    cases dead
  | stop error => exact absurd found (Fold.step_ne_stop error)

theorem Cleanup.step_of_dead {isTarget : MemberRef → Bool} (code : Listing Instruction)
    (id : NodeId) (dead : code.isLive id = false) : Cleanup.step isTarget code id = .skip := by
  cases found : Cleanup.step isTarget code id with
  | skip => rfl
  | change after =>
    obtain ⟨size, _, _, _, _, stands, _⟩ := Cleanup.step_eq_change.mp found
    rw [Listing.isLive_iff.mpr ⟨_, stands_live stands _ List.mem_cons_self⟩] at dead
    cases dead
  | stop error => exact absurd found (Cleanup.step_ne_stop error)

namespace StaticTable

theorem step_of_dead {kind : ElementKind} {state : RecoveryState} {place : Place}
    (dead : (state.cls.codeAt place.method).isLive place.node = false) :
    step kind state place = .skip := by
  unfold step
  cases read : read? (state.cls.codeAt place.method) place.node state.cls.name kind with
  | none => rfl
  | some site =>
    obtain ⟨_, _, stands, _⟩ := read?_eq_some.mp read
    rw [Listing.isLive_iff.mpr ⟨_, stands_live stands _ List.mem_cons_self⟩] at dead
    cases dead

/-- Walk order: method by method, and by node inside a method. -/
def Place.Precedes (early late : Place) : Prop :=
  early.method < late.method ∨ early.method = late.method ∧ early.node < late.node

/-- A walk by cursor through one method after the other, each from the first node
it has by then. -/
inductive MethodsWalk (kind : ElementKind) :
    List Nat → RecoveryState → Nat → List Place → Swept RecoveryState RecoveryError → Prop
  | finished (state : RecoveryState) (changes : Nat) :
      MethodsWalk kind [] state changes [] { state, changes, error := none }
  | through {number : Nat} {numbers : List Nat} {state : RecoveryState} {changes : Nat}
      {nodes : List NodeId} {walked : Swept RecoveryState RecoveryError} {places : List Place}
      {swept : Swept RecoveryState RecoveryError}
      (walk : CursorWalk (fun state => state.cls.codeAt number)
        (fun state node => step kind state ⟨number, node⟩) (state.cls.codeAt number).first state
        changes nodes walked)
      (fine : walked.error = none)
      (later : MethodsWalk kind numbers walked.state walked.changes places swept) :
      MethodsWalk kind (number :: numbers) state changes (nodes.map (Place.mk number) ++ places)
        swept
  | failed {number : Nat} {numbers : List Nat} {state : RecoveryState} {changes : Nat}
      {nodes : List NodeId} {walked : Swept RecoveryState RecoveryError}
      (walk : CursorWalk (fun state => state.cls.codeAt number)
        (fun state node => step kind state ⟨number, node⟩) (state.cls.codeAt number).first state
        changes nodes walked)
      (failure : walked.error.isSome = true) :
      MethodsWalk kind (number :: numbers) state changes (nodes.map (Place.mk number)) walked

section Methods

variable {kind : ElementKind} {numbers : List Nat} {state : RecoveryState} {changes : Nat}
variable {places : List Place} {swept : Swept RecoveryState RecoveryError}

theorem MethodsWalk.unique (walk : MethodsWalk kind numbers state changes places swept)
    {places' : List Place} {swept' : Swept RecoveryState RecoveryError}
    (other : MethodsWalk kind numbers state changes places' swept') :
    places' = places ∧ swept' = swept := by
  induction walk generalizing places' swept' with
  | finished =>
    cases other
    exact ⟨rfl, rfl⟩
  | through walk fine later ih =>
    cases other with
    | through walk' fine' later' =>
      obtain ⟨rfl, rfl⟩ := walk.unique walk'
      obtain ⟨rfl, rfl⟩ := ih later'
      exact ⟨rfl, rfl⟩
    | failed walk' failure =>
      obtain ⟨rfl, rfl⟩ := walk.unique walk'
      rw [fine] at failure
      cases failure
  | failed walk failure =>
    cases other with
    | through walk' fine later' =>
      obtain ⟨rfl, rfl⟩ := walk.unique walk'
      rw [fine] at failure
      cases failure
    | failed walk' failure' =>
      obtain ⟨rfl, rfl⟩ := walk.unique walk'
      exact ⟨rfl, rfl⟩

theorem MethodsWalk.inside (walk : MethodsWalk kind numbers state changes places swept) :
    ∀ place ∈ places, place.method ∈ numbers := by
  induction walk with
  | finished => simp
  | through walk fine later ih =>
    intro place member
    rcases List.mem_append.mp member with here | there
    · obtain ⟨node, _, rfl⟩ := List.mem_map.mp here
      exact List.mem_cons_self
    · exact List.mem_cons_of_mem _ (ih place there)
  | failed walk failure =>
    intro place member
    obtain ⟨node, _, rfl⟩ := List.mem_map.mp member
    exact List.mem_cons_self

theorem precedes_of_ascending {nodes : List NodeId} (ascending : nodes.Pairwise (· < ·))
    (number : Nat) : (nodes.map (Place.mk number)).Pairwise Place.Precedes :=
  List.pairwise_map.mpr (ascending.imp fun less => .inr ⟨rfl, less⟩)

theorem MethodsWalk.ascending (walk : MethodsWalk kind numbers state changes places swept)
    (sorted : numbers.Pairwise (· < ·)) : places.Pairwise Place.Precedes := by
  induction walk with
  | finished => exact .nil
  | through walk fine later ih =>
    obtain ⟨first, rest⟩ := List.pairwise_cons.mp sorted
    refine List.pairwise_append.mpr ⟨precedes_of_ascending walk.ascending _, ih rest, ?_⟩
    intro early here late there
    obtain ⟨node, _, rfl⟩ := List.mem_map.mp here
    exact .inl (first late.method (later.inside late there))
  | failed walk failure => exact precedes_of_ascending walk.ascending _

theorem walks_method (kind : ElementKind) {origin : RecoveryState} (number : Nat)
    (state : RecoveryState) (changes : Nat)
    (thins : Listing.Thins (origin.cls.codeAt number) (state.cls.codeAt number)) :
    ∃ nodes, CursorWalk (fun state => state.cls.codeAt number)
      (fun state node => step kind state ⟨number, node⟩) (state.cls.codeAt number).first state
      changes nodes (sweep (fun state node => step kind state ⟨number, node⟩)
        (origin.cls.codeAt number).ids state changes) :=
  walks_sweep (fun _ _ _ changed => changes_thin ⟨_, changed⟩ number)
    (fun _ _ dead => step_of_dead dead) state changes (origin.cls.codeAt number).ids_ascending
    (fun node _ => Nat.zero_le node)
    fun node _ live => Listing.mem_ids.mpr (thins.live node live)

/-- The walk over places noted at the start is the walk by cursor. -/
theorem walks_methods (kind : ElementKind) {origin : RecoveryState} (numbers : List Nat)
    (state : RecoveryState) (changes : Nat)
    (thins : ∀ number, Listing.Thins (origin.cls.codeAt number) (state.cls.codeAt number)) :
    ∃ places, MethodsWalk kind numbers state changes places
      (sweep (step kind) (numbers.flatMap fun number =>
        (origin.cls.codeAt number).ids.map (Place.mk number)) state changes) := by
  induction numbers generalizing state changes with
  | nil => exact ⟨[], .finished state changes⟩
  | cons number numbers ih =>
    obtain ⟨nodes, walk⟩ := walks_method kind number state changes (thins number)
    rw [List.flatMap_cons, sweep_append, sweep_map]
    split
    · rename_i failure
      exact ⟨_, .failed walk failure⟩
    · rename_i fine
      have thinner (other : Nat) : Listing.Thins (origin.cls.codeAt other)
          ((sweep (fun state node => step kind state ⟨number, node⟩)
            (origin.cls.codeAt number).ids state changes).state.cls.codeAt other) := by
        refine sweep_keeps (fun later : RecoveryState =>
          Listing.Thins (origin.cls.codeAt other) (later.cls.codeAt other)) ?_ (thins other)
        rintro before after kept ⟨node, changed⟩
        exact kept.trans (changes_thin ⟨_, changed⟩ other)
      obtain ⟨places, later⟩ := ih _ _ thinner
      exact ⟨_, .through walk (by simpa using fine) later⟩

theorem places_eq (cls : Class) :
    StaticTable.places cls = (List.range cls.methods.length).flatMap fun number =>
      (cls.codeAt number).ids.map (Place.mk number) := by
  have located : ∀ entry ∈ cls.methods.zipIdx,
      entry.1.code.ids.map (Place.mk entry.2) =
        (cls.codeAt entry.2).ids.map (Place.mk entry.2) := by
    intro entry listed
    have held := List.mem_zipIdx_iff_getElem?.mp listed
    rw [Class.codeAt, held]
  have numbers : List.range cls.methods.length = cls.methods.zipIdx.map Prod.snd := by
    rw [List.zipIdx_map_snd, List.range_eq_range']
  rw [numbers, List.flatMap_map]
  exact List.flatMap_congr located

end Methods

end StaticTable

/-- One walk of a pass by cursor: the folds and the last pass stay in the initializer,
a table pass goes through all methods. -/
inductive Pass.Scans (options : Options) (state : RecoveryState) :
    Pass → List StaticTable.Place → Swept RecoveryState RecoveryError → Prop
  | fold (width : Width) {nodes : List NodeId} {swept : Swept (Listing Instruction) RecoveryError}
      (walk : CursorWalk (fun code => code) (Fold.step width options.longFold)
        state.initializerCode.first state.initializerCode 0 nodes swept) :
      Scans options state (.fold width) (nodes.map (.mk state.initializer))
        { state :=
            { state.editInitializer (fun _ => swept.state) with
              stats := { state.stats with folded := state.stats.folded + swept.changes } }
          changes := swept.changes
          error := none }
  | table (kind : ElementKind) {places : List StaticTable.Place}
      {swept : Swept RecoveryState RecoveryError}
      (walk : StaticTable.MethodsWalk kind (List.range state.cls.methods.length) state 0 places
        swept) :
      Scans options state (.table kind) places swept
  | allocations {nodes : List NodeId} {swept : Swept (Listing Instruction) RecoveryError}
      (walk : CursorWalk (fun code => code) (Cleanup.step (Cleanup.isRemoved state))
        state.initializerCode.first state.initializerCode 0 nodes swept) :
      Scans options state .allocations (nodes.map (.mk state.initializer))
        { state :=
            { state.editInitializer (fun _ => swept.state) with
              stats := { state.stats with
                removedAllocations := state.stats.removedAllocations + swept.changes } }
          changes := swept.changes
          error := none }

namespace Pass

variable {options : Options} {state : RecoveryState} {pass : Pass}

theorem walks_listing
    (step : Listing Instruction → NodeId → Step (Listing Instruction) RecoveryError)
    (thins : ∀ code id after, step code id = .change after → Listing.Thins code after)
    (dead : ∀ code id, code.isLive id = false → step code id = .skip)
    (code : Listing Instruction) :
    ∃ nodes, CursorWalk (fun code => code) step code.first code 0 nodes
      (sweep step code.ids code 0) :=
  walks_sweep thins dead code 0 code.ids_ascending
    (fun node _ => Nat.zero_le node) fun _ _ live => Listing.mem_ids.mpr live

/-- Every walk comes to an end, in the state that the pass says. -/
theorem scans (pass : Pass) (options : Options) (state : RecoveryState) :
    ∃ visited, Scans options state pass visited (pass.scan options state) := by
  cases pass with
  | fold width =>
    obtain ⟨nodes, walk⟩ := walks_listing (Fold.step width options.longFold)
      (fun _ _ _ changed => Fold.changes_thin ⟨_, changed⟩) Fold.step_of_dead
      state.initializerCode
    exact ⟨_, .fold width walk⟩
  | table kind =>
    obtain ⟨places, walk⟩ := StaticTable.walks_methods kind
      (List.range state.cls.methods.length) state 0 fun _ => .refl _
    rw [← StaticTable.places_eq] at walk
    exact ⟨places, .table kind walk⟩
  | allocations =>
    obtain ⟨nodes, walk⟩ := walks_listing (Cleanup.step (Cleanup.isRemoved state))
      (fun _ _ _ changed => Cleanup.changes_thin ⟨_, changed⟩) Cleanup.step_of_dead
      state.initializerCode
    exact ⟨_, .allocations walk⟩

theorem Scans.unique {visited visited' : List StaticTable.Place}
    {swept swept' : Swept RecoveryState RecoveryError}
    (walk : Scans options state pass visited swept)
    (other : Scans options state pass visited' swept') : visited' = visited ∧ swept' = swept := by
  cases walk with
  | fold width walk =>
    cases other with
    | fold _ walk' =>
      obtain ⟨rfl, rfl⟩ := walk.unique walk'
      exact ⟨rfl, rfl⟩
  | table kind walk =>
    cases other with
    | table _ walk' => exact walk.unique walk'
  | allocations walk =>
    cases other with
    | allocations walk' =>
      obtain ⟨rfl, rfl⟩ := walk.unique walk'
      exact ⟨rfl, rfl⟩

theorem Scans.ascending {visited : List StaticTable.Place}
    {swept : Swept RecoveryState RecoveryError} (walk : Scans options state pass visited swept) :
    visited.Pairwise StaticTable.Place.Precedes := by
  cases walk with
  | fold width walk => exact StaticTable.precedes_of_ascending walk.ascending _
  | table kind walk => exact walk.ascending List.pairwise_lt_range
  | allocations walk => exact StaticTable.precedes_of_ascending walk.ascending _

end Pass

end LiteralRecovery
