import LiteralRecovery.Proofs.ReadOrder
import Mathlib.Data.List.Forall2
import Mathlib.Data.List.Perm.Basic

/-! A walk of a table pass visits one method after the other. Steps in
different methods are made in either order, so the walk may visit the methods
in any order: it fails in all of them or in none, and otherwise ends in the
same state. -/
namespace LiteralRecovery

/-! ### Actions that may fail, in either order -/

section Exchange

variable {σ ι : Type} {keeps : σ → Prop} {step : σ → ι → Option σ} {places places' : List ι}
variable {state after : σ}

theorem foldlM_keeps
    (kept : ∀ before place after, keeps before → step before place = some after → keeps after)
    (start : keeps state) (done : places.foldlM step state = some after) : keeps after := by
  induction places generalizing state with
  | nil =>
    cases done
    exact start
  | cons place rest ih =>
    rw [List.foldlM_cons] at done
    obtain ⟨next, here, others⟩ := Option.bind_eq_some_iff.mp done
    exact ih (kept state place next start here) others

/-- What is exchanged with every step is exchanged with the whole run. -/
theorem exchange_foldlM {act : σ → Option σ}
    (kept : ∀ before place after, keeps before → step before place = some after → keeps after)
    (exchange : ∀ place ∈ places, ∀ state, keeps state →
      (act state).bind (step · place) = (step state place).bind act)
    (start : keeps state) :
    (act state).bind (places.foldlM step ·) = (places.foldlM step state).bind act := by
  induction places generalizing state with
  | nil => simp
  | cons place rest ih =>
    have later : ∀ next, step state place = some next →
        (act next).bind (rest.foldlM step ·) = (rest.foldlM step next).bind act :=
      fun next here => ih (fun other member => exchange other (List.mem_cons_of_mem _ member))
        (kept state place next start here)
    calc (act state).bind (fun next => (place :: rest).foldlM step next)
        = ((act state).bind (step · place)).bind (rest.foldlM step ·) := by
          simp only [List.foldlM_cons, Option.bind_eq_bind, Option.bind_assoc]
      _ = (step state place).bind fun next => (act next).bind (rest.foldlM step ·) := by
          rw [exchange place List.mem_cons_self state start, Option.bind_assoc]
      _ = (step state place).bind fun next => (rest.foldlM step next).bind act :=
          Option.bind_congr later
      _ = ((place :: rest).foldlM step state).bind act := by
          simp only [List.foldlM_cons, Option.bind_eq_bind, Option.bind_assoc]

/-- Steps that are exchanged pairwise are made in any order. -/
theorem foldlM_perm
    (kept : ∀ before place after, keeps before → step before place = some after → keeps after)
    (exchange : ∀ one two, one ≠ two → ∀ state, keeps state →
      (step state one).bind (step · two) = (step state two).bind (step · one))
    (perm : places.Perm places') (distinct : places.Nodup) (start : keeps state) :
    places.foldlM step state = places'.foldlM step state := by
  induction perm generalizing state with
  | nil => rfl
  | cons place _ ih =>
    rw [List.foldlM_cons, List.foldlM_cons]
    exact Option.bind_congr fun next here =>
      ih (List.nodup_cons.mp distinct).2 (kept state place next start here)
  | swap one two rest =>
    have different : two ≠ one := by
      rintro rfl
      exact (List.nodup_cons.mp distinct).1 List.mem_cons_self
    have pair := exchange two one different state start
    simp only [List.foldlM_cons, Option.bind_eq_bind, ← Option.bind_assoc, pair]
  | trans first _ ih ih' =>
    exact (ih distinct start).trans (ih' (first.nodup_iff.mp distinct) start)

theorem foldlM_flatMap {κ : Type} (keys : List κ) (block : κ → List ι) (state : σ) :
    (keys.flatMap block).foldlM step state =
      keys.foldlM (fun state key => (block key).foldlM step state) state := by
  induction keys generalizing state with
  | nil => rfl
  | cons key rest ih =>
    rw [List.flatMap_cons, List.foldlM_append, List.foldlM_cons]
    exact Option.bind_congr fun next _ => ih next

end Exchange

/-! ### Walks by key -/

namespace KeyedState

open StaticTable

variable {home : MemberKey} {kind : ElementKind} {state : KeyedState}

/-- The nodes of the given methods, one method after the other. -/
def spots (state : KeyedState) (keys : List MemberKey) : List (MemberKey × NodeId) :=
  keys.flatMap fun key => (state.codeOf key).ids.map fun node => (key, node)

/-- The methods may be visited in any order. -/
theorem walk_perm {keys keys' : List MemberKey} (perm : keys.Perm keys') (distinct : keys.Nodup)
    (tame : Tame home state) :
    (state.spots keys).foldlM (advance home kind) state =
      (state.spots keys').foldlM (advance home kind) state := by
  have kept : ∀ before spot after, Tame home before →
      advance home kind before spot = some after → Tame home after :=
    fun before spot after start done => tame_advance start done
  -- one step is exchanged with all steps in another method
  have single (spot : MemberKey × NodeId) (key : MemberKey) (different : spot.1 ≠ key)
      (nodes : List NodeId) (before : KeyedState) (start : Tame home before) :
      (advance home kind before spot).bind
          ((nodes.map fun node => (key, node)).foldlM (advance home kind) ·) =
        ((nodes.map fun node => (key, node)).foldlM (advance home kind) before).bind
          (advance home kind · spot) := by
    refine @exchange_foldlM _ _ (Tame home) _ _ before (advance home kind · spot) kept ?_ start
    intro other member later ready
    obtain ⟨node, _, rfl⟩ := List.mem_map.mp member
    exact advance_comm ready different
  rw [spots, spots, foldlM_flatMap, foldlM_flatMap]
  refine foldlM_perm (fun before key after start done => foldlM_keeps kept start done) ?_ perm
    distinct tame
  intro one two different before start
  refine @exchange_foldlM _ _ (Tame home) _ _ before (List.foldlM (advance home kind) · _) kept ?_
    start
  intro spot member later ready
  obtain ⟨node, _, rfl⟩ := List.mem_map.mp member
  exact (single (two, node) one (Ne.symm different) _ later ready).symm

end KeyedState

/-- The initializer is where it was as long as the keys are. -/
theorem Seated.of_keys {home : MemberKey} {state other : RecoveryState}
    (seated : Seated home state)
    (keys : other.cls.methods.map Method.key = state.cls.methods.map Method.key)
    (initializer : other.initializer = state.initializer) : Seated home other := by
  obtain ⟨method, held, key⟩ := seated.initializer
  have there := congrArg (·[state.initializer]?) keys
  simp only [List.getElem?_map, held, Option.map_some] at there
  obtain ⟨now, here, named⟩ := Option.map_eq_some_iff.mp there
  exact ⟨keys ▸ seated.distinct, now, initializer ▸ here, named.trans key⟩

theorem RecoveryState.frame_keys {state other : RecoveryState} (same : other.frame = state.frame) :
    other.cls.methods.map Method.key = state.cls.methods.map Method.key :=
  Method.map_key_of_declarations (Class.outline_eq_iff.mp (frame_outline same)).2.2

theorem Seated.of_frame {home : MemberKey} {state other : RecoveryState}
    (seated : Seated home state) (same : other.frame = state.frame) : Seated home other :=
  seated.of_keys (RecoveryState.frame_keys same) (RecoveryState.frame_initializer same)

namespace StaticTable

open KeyedState

variable {home : MemberKey} {kind : ElementKind} {state : RecoveryState}

/-- A place and the same node told by the key of its method. -/
def SameNode (keys : List MemberKey) (place : Place) (spot : MemberKey × NodeId) : Prop :=
  keys[place.method]? = some spot.1 ∧ place.node = spot.2

theorem sameNode_places {cls : Class} :
    List.Forall₂ (SameNode (cls.methods.map Method.key)) (places cls)
      (cls.methods.flatMap fun method => method.code.ids.map fun node => (method.key, node)) := by
  have numbered (methods : List Method) (start : Nat) (keys : List MemberKey)
      (here : ∀ index, keys[start + index]? = (methods.map Method.key)[index]?) :
      List.Forall₂ (SameNode keys)
        ((methods.zipIdx start).flatMap fun entry =>
          entry.1.code.ids.map fun node => ⟨entry.2, node⟩)
        (methods.flatMap fun method => method.code.ids.map fun node => (method.key, node)) := by
    induction methods generalizing start with
    | nil => exact .nil
    | cons method rest ih =>
      rw [List.zipIdx_cons, List.flatMap_cons, List.flatMap_cons]
      refine List.rel_append ?_ (ih (start + 1) fun index => ?_)
      · rw [List.forall₂_map_left_iff, List.forall₂_map_right_iff, List.forall₂_same]
        intro node _
        exact ⟨by simpa using here 0, rfl⟩
      · have next := here (index + 1)
        simpa [Nat.add_assoc, Nat.add_comm 1] using next
  exact numbered cls.methods 0 _ (by simp)

/-- A walk over places is a run over the same nodes told by key. -/
theorem foldlM_advance {places : List Place} {spots : List (MemberKey × NodeId)}
    (same : List.Forall₂ (SameNode (state.cls.methods.map Method.key)) places spots)
    (seated : Seated home state) (changes : Nat) :
    spots.foldlM (advance home kind) state.keyed =
      if (sweep (step kind) places state changes).error.isNone then
        some (sweep (step kind) places state changes).state.keyed
      else none := by
  generalize keysEq : state.cls.methods.map Method.key = keys at same
  induction same generalizing state changes with
  | nil => rfl
  | @cons place spot rest others here _ ih =>
    obtain ⟨key, node⟩ := spot
    obtain ⟨found, rfl⟩ := here
    rw [← keysEq, List.getElem?_map] at found
    obtain ⟨method, held, rfl⟩ := Option.map_eq_some_iff.mp found
    have moved := @advance_keyed home kind state place method seated held
    rw [List.foldlM_cons, moved]
    cases stepped : step kind state place with
    | skip => simpa [Step.after?, sweep, stepped] using ih seated changes keysEq
    | stop error => simp [Step.after?, sweep, stepped]
    | change next =>
      have frame := changes_frame ⟨place, stepped⟩
      have keys' := RecoveryState.frame_keys frame
      simpa [Step.after?, sweep, stepped] using
        ih (seated.of_frame frame) (changes + 1) (keys'.trans keysEq)

/-- One walk of a table pass, told by key. -/
theorem walk_keyed (seated : Seated home state) :
    (state.keyed.spots (state.cls.methods.map Method.key)).foldlM (advance home kind)
        state.keyed =
      if (scan kind state).error.isNone then some (scan kind state).state.keyed else none := by
  have spots : state.keyed.spots (state.cls.methods.map Method.key) =
      state.cls.methods.flatMap fun method =>
        method.code.ids.map fun node => (method.key, node) := by
    rw [KeyedState.spots, List.flatMap_map]
    refine List.flatMap_congr fun method member => ?_
    obtain ⟨position, held⟩ := List.getElem?_of_mem member
    rw [RecoveryState.codeOf_keyed seated.distinct held, Class.codeAt, held]
  rw [spots]
  exact foldlM_advance sameNode_places seated 0

end StaticTable

end LiteralRecovery
