import LiteralRecovery.Proofs.CursorWalk
import Mathlib.Data.List.Perm.Subperm

/-! Every pass comes to an end. No walk makes a method longer, and the number of
instructions that go is known to the last one: two for a fold, three for an
allocation, two for a read and four or five more for the store it used up. So a
pass repeats its walk no more often than half the instructions of the class
allow, and one time more to see that nothing is left. -/
namespace LiteralRecovery

/-- A listing that is thinned out gets no longer. -/
theorem Listing.Thins.length_le {α : Type} {before after : Listing α}
    (thins : Thins before after) : after.length ≤ before.length := by
  have fewer : after.ids ⊆ before.ids := fun id member =>
    mem_ids.mpr (thins.live id (mem_ids.mp member))
  have shorter := (List.subperm_of_subset after.ids_nodup fewer).length_le
  rwa [ids, ids, List.length_map, List.length_map] at shorter

theorem dead_of_removed (cls : Class) (position : Nat) {nodes : List NodeId} {id : NodeId}
    (member : id ∈ nodes) :
    ((cls.editCode position (·.removeAll nodes)).codeAt position).isLive id = false := by
  by_cases valid : position < cls.methods.length
  · rw [Class.codeAt_editCode_self valid]
    refine Bool.eq_false_iff.mpr fun live => ?_
    exact ((Listing.isLive_removeAll nodes).mp live).1 member
  · rw [Class.editCode_of_not_lt valid, Class.codeAt_of_not_lt valid]
    rfl

namespace StaticTable

variable {kind : ElementKind} {state after start : RecoveryState} {place : Place}

/-- Number of instructions of a store. -/
def storeSize : ElementKind → Nat
  | .int | .long => 4
  | .reference => 5

theorem StoreSegment.length {className : String} {field : MemberRef} {site : StoreSite}
    {segment : List (NodeId × Instruction)}
    (shape : StoreSegment className field kind site segment) :
    site.nodes.length = storeSize kind ∧ segment.length = storeSize kind := by
  cases shape <;> exact ⟨rfl, rfl⟩

/-- A read that is replaced takes two instructions with it, and those of its store if
it is the first of its slot. -/
theorem change_drops (changed : step kind state place = .change after) :
    (after.memo = state.memo ∧ after.cls.weight + 2 = state.cls.weight) ∨
    ∃ store : StoreSite, store.nodes.length = storeSize kind ∧
      (∀ id ∈ store.nodes, state.initializerCode.isLive id = true) ∧
      (∀ id ∈ store.nodes, after.initializerCode.isLive id = false) ∧
      after.memo.length = state.memo.length + 1 ∧
      after.cls.weight + 2 + storeSize kind = state.cls.weight := by
  obtain ⟨site, value, resolved, event, read, found, _, rfl⟩ := step_cases changed
  obtain ⟨indexId, loadId, tail, stands⟩ := read_stands_resolved read found
  have collapsed : (resolved.cls.editCode place.method fun code =>
      (code.removeAll site.tail).replace place.node value).weight + 2 = resolved.cls.weight := by
    apply Class.weight_editCode_add_eq
    have shorter := length_collapse value stands
    simpa only [tail, List.map_cons, List.map_nil, List.length_cons, List.length_nil,
      Nat.zero_add, Nat.reduceAdd] using shorter
  rcases resolve_cases found with ⟨_, rfl⟩ | ⟨_, _, _, rfl⟩ | ⟨_, store, helper, hit, _, _, rfl⟩
  · exact .inl ⟨rfl, collapsed⟩
  · exact .inl ⟨rfl, collapsed⟩
  · right
    obtain ⟨id, stored, _, _⟩ := storeAt?_eq_some.mp hit
    obtain ⟨segment, present, shape, _⟩ := store?_eq_some.mp stored
    obtain ⟨size, length⟩ := shape.length
    have live : ∀ id ∈ store.nodes, state.initializerCode.isLive id = true := by
      intro id member
      rw [← shape.nodes] at member
      obtain ⟨entry, inside, rfl⟩ := List.mem_map.mp member
      exact Listing.isLive_iff.mpr ⟨_, stands_live present entry inside⟩
    refine ⟨store, size, live, ?_, rfl, ?_⟩
    · intro id member
      by_contra alive
      have edited : Listing.Thins ((consume kind state site store value helper).initializerCode)
          (((consume kind state site store value helper).cls.editCode place.method fun code =>
            (code.removeAll site.tail).replace place.node value).codeAt state.initializer) :=
        Class.thins_editCode ((Listing.thins_removeAll _ _).trans (Listing.thins_replace _ _ _)) _
      have still := edited.live id (eq_true_of_ne_false alive)
      exact Bool.false_ne_true
        ((dead_of_removed state.cls state.initializer member).symm.trans still)
    · have taken := length_remove_segment present
      rw [shape.nodes, length] at taken
      have lighter : (state.cls.editCode state.initializer (·.removeAll store.nodes)).weight +
          storeSize kind = state.cls.weight :=
        Class.weight_editCode_add_eq taken
      exact (congrArg (· + storeSize kind) collapsed).trans lighter

/-- What a walk of a table pass has taken since `start`: two instructions a change and
the stores in `consumed`, which were there and are there no more. -/
structure Drained (kind : ElementKind) (start : RecoveryState) (consumed : List StoreSite)
    (state : RecoveryState) (changes : Nat) : Prop where
  weight : state.cls.weight + 2 * changes + storeSize kind * consumed.length = start.cls.weight
  memo : state.memo.length = start.memo.length + consumed.length
  size : ∀ site ∈ consumed, site.nodes.length = storeSize kind
  live : ∀ site ∈ consumed, ∀ id ∈ site.nodes, start.initializerCode.isLive id = true
  gone : ∀ site ∈ consumed, ∀ id ∈ site.nodes, state.initializerCode.isLive id = false
  apart : (consumed.map (·.nodes)).Pairwise List.Disjoint

theorem initializerCode_thins (changed : step kind state place = .change after) :
    Listing.Thins state.initializerCode after.initializerCode := by
  have same := RecoveryState.frame_initializer (changes_frame ⟨place, changed⟩)
  rw [RecoveryState.initializerCode, RecoveryState.initializerCode, same]
  exact changes_thin ⟨place, changed⟩ state.initializer

theorem Drained.step {consumed : List StoreSite} {changes : Nat}
    (thins : Listing.Thins start.initializerCode state.initializerCode)
    (drained : Drained kind start consumed state changes)
    (changed : StaticTable.step kind state place = .change after) :
    ∃ consumed', Drained kind start consumed' after (changes + 1) := by
  have thinner := initializerCode_thins changed
  have stays : ∀ site ∈ consumed, ∀ id ∈ site.nodes, after.initializerCode.isLive id = false := by
    intro site member id inside
    by_contra alive
    have still := thinner.live id (by simpa using alive)
    rw [drained.gone site member id inside] at still
    cases still
  have before := drained.weight
  rcases change_drops changed with ⟨memo, lighter⟩ | ⟨store, size, live, gone, memo, lighter⟩
  · refine ⟨consumed, ?_, memo ▸ drained.memo, drained.size, drained.live, stays, drained.apart⟩
    omega
  · refine ⟨store :: consumed, ?_, ?_, ?_, ?_, ?_, ?_⟩
    · rw [List.length_cons, Nat.mul_add (storeSize kind)]
      omega
    · rw [memo, drained.memo, List.length_cons]
      omega
    · exact List.forall_mem_cons.mpr ⟨size, drained.size⟩
    · exact List.forall_mem_cons.mpr
        ⟨fun id member => thins.live id (live id member), drained.live⟩
    · exact List.forall_mem_cons.mpr ⟨gone, stays⟩
    · -- what is used up now was alive, what was used up before was not
      rw [List.map_cons, List.pairwise_cons]
      refine ⟨fun nodes member id inside inside' => ?_, drained.apart⟩
      obtain ⟨site, earlier, rfl⟩ := List.mem_map.mp member
      have dead := drained.gone site earlier id inside'
      rw [live id inside] at dead
      cases dead

theorem drained_scan (kind : ElementKind) (state : RecoveryState) :
    ∃ consumed, Drained kind state consumed (scan kind state).state (scan kind state).changes := by
  refine (sweep_tracks (fun (later : RecoveryState) changes =>
    Listing.Thins state.initializerCode later.initializerCode ∧
      ∃ consumed, Drained kind state consumed later changes) ?_ ?_).2
  · rintro before after changes ⟨thins, consumed, drained⟩ ⟨place, changed⟩
    exact ⟨thins.trans (initializerCode_thins changed), drained.step thins changed⟩
  · exact ⟨.refl _, [], by simp, by simp, by simp, by simp, by simp, .nil⟩

end StaticTable

namespace Pass

/-- What a walk takes, to the last instruction. -/
def Sheds (pass : Pass) (state : RecoveryState) (swept : Swept RecoveryState RecoveryError) :
    Prop :=
  match pass with
  | .fold _ => swept.state.cls.weight + 2 * swept.changes = state.cls.weight
  | .table kind => ∃ consumed, StaticTable.Drained kind state consumed swept.state swept.changes
  | .allocations => swept.state.cls.weight + 3 * swept.changes = state.cls.weight

/-- A walk over one listing takes the same number of instructions each time. -/
theorem sweep_sheds {step : Listing Instruction → NodeId → Step (Listing Instruction) RecoveryError}
    {drop : Nat} (sheds : ∀ before after, Changes step before after →
      after.length + drop = before.length) (code : Listing Instruction) :
    (sweep step code.ids code 0).state.length + drop * (sweep step code.ids code 0).changes =
      code.length := by
  refine sweep_tracks
    (fun (later : Listing Instruction) changes => later.length + drop * changes = code.length) ?_ rfl
  intro before after changes same changed
  have here := sheds before after changed
  rw [Nat.mul_succ]
  omega

theorem scan_sheds (pass : Pass) (options : Options) (state : RecoveryState) :
    pass.Sheds state (pass.scan options state) := by
  cases pass with
  | fold width =>
    apply Class.weight_editCode_add_eq
    exact sweep_sheds (fun _ _ changed => Fold.changes_shrink changed) state.initializerCode
  | table kind => exact StaticTable.drained_scan kind state
  | allocations =>
    apply Class.weight_editCode_add_eq
    exact sweep_sheds (fun _ _ changed => Cleanup.changes_shrink changed) state.initializerCode

/-- The repetition of a pass, with the outcome of every walk. It goes on for as long
as a walk changes something and does not fail. -/
inductive Loops (pass : Pass) (options : Options) : Nat → RecoveryState →
    List (Swept RecoveryState RecoveryError) → RecoveryState × Option RecoveryError → Prop
  | failed {iteration : Nat} {state : RecoveryState} {visited : List StaticTable.Place}
      {swept : Swept RecoveryState RecoveryError} {error : RecoveryError}
      (walk : Scans options state pass visited swept) (failure : swept.error = some error) :
      Loops pass options iteration state [swept] (swept.state, some error)
  | settled {iteration : Nat} {state : RecoveryState} {visited : List StaticTable.Place}
      {swept : Swept RecoveryState RecoveryError} (walk : Scans options state pass visited swept)
      (fine : swept.error = none) (still : swept.changes = 0) :
      Loops pass options iteration state [swept]
        (swept.state.log (.passScanned swept.state.cls.name pass iteration swept.changes), none)
  | again {iteration : Nat} {state : RecoveryState} {visited : List StaticTable.Place}
      {swept : Swept RecoveryState RecoveryError}
      {scans : List (Swept RecoveryState RecoveryError)}
      {outcome : RecoveryState × Option RecoveryError}
      (walk : Scans options state pass visited swept) (fine : swept.error = none)
      (moved : swept.changes ≠ 0)
      (later : Loops pass options (iteration + 1)
        (swept.state.log (.passScanned swept.state.cls.name pass iteration swept.changes))
        scans outcome) :
      Loops pass options iteration state (swept :: scans) outcome

variable {pass : Pass} {options : Options} {iteration : Nat} {state : RecoveryState}

theorem Loops.unique {scans scans' : List (Swept RecoveryState RecoveryError)}
    {outcome outcome' : RecoveryState × Option RecoveryError}
    (loop : Loops pass options iteration state scans outcome)
    (other : Loops pass options iteration state scans' outcome') :
    scans' = scans ∧ outcome' = outcome := by
  induction loop generalizing scans' outcome' with
  | failed walk failure =>
    cases other with
    | failed walk' failure' =>
      obtain ⟨_, rfl⟩ := walk.unique walk'
      cases failure.symm.trans failure'
      exact ⟨rfl, rfl⟩
    | settled walk' fine' _ =>
      obtain ⟨_, rfl⟩ := walk.unique walk'
      cases failure.symm.trans fine'
    | again walk' fine' _ _ =>
      obtain ⟨_, rfl⟩ := walk.unique walk'
      cases failure.symm.trans fine'
  | settled walk fine still =>
    cases other with
    | failed walk' failure' =>
      obtain ⟨_, rfl⟩ := walk.unique walk'
      cases fine.symm.trans failure'
    | settled walk' _ _ =>
      obtain ⟨_, rfl⟩ := walk.unique walk'
      exact ⟨rfl, rfl⟩
    | again walk' _ moved' _ =>
      obtain ⟨_, rfl⟩ := walk.unique walk'
      exact absurd still moved'
  | again walk fine moved later ih =>
    cases other with
    | failed walk' failure' =>
      obtain ⟨_, rfl⟩ := walk.unique walk'
      cases fine.symm.trans failure'
    | settled walk' _ still' =>
      obtain ⟨_, rfl⟩ := walk.unique walk'
      exact absurd still' moved
    | again walk' _ _ later' =>
      obtain ⟨_, rfl⟩ := walk.unique walk'
      obtain ⟨rfl, rfl⟩ := ih later'
      exact ⟨rfl, rfl⟩

/-- While the bound exceeds half the weight, it is not what ends the repetition. -/
theorem loops_repeatScan (pass : Pass) (options : Options) (bound iteration : Nat)
    (state : RecoveryState) (enough : state.cls.weight < 2 * bound) :
    ∃ scans, Loops pass options iteration state scans
      (pass.repeatScan options bound iteration state) ∧ scans.length ≤ bound := by
  induction bound generalizing iteration state with
  | zero => omega
  | succ bound ih =>
    obtain ⟨visited, walk⟩ := pass.scans options state
    have shrinks := pass.scan_shrinks options state
    simp only [repeatScan]
    split
    · rename_i error failure
      exact ⟨_, .failed walk failure, by simp⟩
    · rename_i fine
      split
      · rename_i still
        exact ⟨_, .settled walk fine still, by simp⟩
      · rename_i moved
        have lighter : (pass.scan options state).state.cls.weight < 2 * bound := by omega
        obtain ⟨scans, later, few⟩ := ih (iteration + 1) ((pass.scan options state).state.log
          (.passScanned _ pass iteration _)) lighter
        exact ⟨_, .again walk fine moved later, by simpa using few⟩

/-- Every pass ends. Each walk goes by a cursor that only moves on, is the only one
there is and comes out where the pass says; it makes no method longer and takes
exactly what its changes account for. The repetition of walks is the only one there is,
too, comes out where the pass says, and is over after at most one walk more than half
the instructions of the class. -/
theorem passes_end (pass : Pass) (options : Options) (state : RecoveryState) :
    (∃ visited : List StaticTable.Place, visited.Pairwise StaticTable.Place.Precedes ∧
      ∀ visited' swept, Scans options state pass visited' swept ↔
        visited' = visited ∧ swept = pass.scan options state) ∧
    (∀ number, ((pass.scan options state).state.cls.codeAt number).length ≤
      (state.cls.codeAt number).length) ∧
    (pass.scan options state).state.cls.weight + 2 * (pass.scan options state).changes ≤
      state.cls.weight ∧
    pass.Sheds state (pass.scan options state) ∧
    ∃ scans : List (Swept RecoveryState RecoveryError),
      (∀ scans' outcome,
        Loops pass options 1 (state.log (.passStarted state.cls.name pass)) scans' outcome ↔
          scans' = scans ∧ outcome = pass.run options state) ∧
      scans.length ≤ state.cls.weight / 2 + 1 := by
  refine ⟨?_, fun number => (pass.scan_thins options state number).length_le,
    pass.scan_shrinks options state, pass.scan_sheds options state, ?_⟩
  · obtain ⟨visited, walk⟩ := pass.scans options state
    refine ⟨visited, walk.ascending, fun visited' swept => ⟨walk.unique, ?_⟩⟩
    rintro ⟨rfl, rfl⟩
    exact walk
  · have enough : state.cls.weight < 2 * (state.cls.weight / 2 + 1) := by omega
    obtain ⟨scans, loop, few⟩ := loops_repeatScan pass options (state.cls.weight / 2 + 1) 1
      (state.log (.passStarted state.cls.name pass)) enough
    refine ⟨scans, fun scans' outcome => ⟨loop.unique, ?_⟩, few⟩
    rintro ⟨rfl, rfl⟩
    exact loop

end Pass

end LiteralRecovery
