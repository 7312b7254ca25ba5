import LiteralRecovery.Proofs.Edit
import LiteralRecovery.Proofs.Shapes
import Mathlib.Logic.Relation

/-! Walks and their repetition. One walk is a chain of changes, a walk that
counts none has found nothing to change, and every change takes out at least
two instructions. So the bound on the number of walks is never what ends a
pass: a pass without an error ends on a walk that found nothing. -/
namespace LiteralRecovery

section Sweep

variable {σ ε ι : Type} {step : σ → ι → Step σ ε} {places : List ι} {state : σ} {count : Nat}

/-- One change of a walk, at whatever place. -/
def Changes (step : σ → ι → Step σ ε) (before after : σ) : Prop :=
  ∃ place, step before place = .change after

theorem sweep_reaches (step : σ → ι → Step σ ε) (places : List ι) (state : σ) (count : Nat) :
    Relation.ReflTransGen (Changes step) state (sweep step places state count).state := by
  induction places generalizing state count with
  | nil => exact .refl
  | cons place rest ih =>
    cases found : step state place with
    | skip => simpa only [sweep, found] using ih state count
    | change next => simpa only [sweep, found] using .head ⟨place, found⟩ (ih next (count + 1))
    | stop error => simpa only [sweep, found] using .refl

/-- What every change keeps, a walk keeps. -/
theorem sweep_keeps (keeps : σ → Prop)
    (kept : ∀ before after, keeps before → Changes step before after → keeps after)
    (start : keeps state) : keeps (sweep step places state count).state := by
  have chain := sweep_reaches step places state count
  generalize (sweep step places state count).state = final at chain
  induction chain with
  | refl => exact start
  | tail _ changed ih => exact kept _ _ ih changed

/-- The same of what is kept along with the number of changes. -/
theorem sweep_tracks (tracks : σ → Nat → Prop)
    (tracked : ∀ before after count, tracks before count → Changes step before after →
      tracks after (count + 1))
    (start : tracks state count) :
    tracks (sweep step places state count).state (sweep step places state count).changes := by
  induction places generalizing state count with
  | nil => exact start
  | cons place rest ih =>
    cases found : step state place with
    | skip => simpa only [sweep, found] using ih start
    | change next =>
      simpa only [sweep, found] using ih (tracked state next count start ⟨place, found⟩)
    | stop error => simpa only [sweep, found] using start

theorem le_sweep_changes (step : σ → ι → Step σ ε) (places : List ι) (state : σ) (count : Nat) :
    count ≤ (sweep step places state count).changes :=
  sweep_tracks (fun _ changes => count ≤ changes) (fun _ _ _ below _ => Nat.le_succ_of_le below)
    (Nat.le_refl _)

/-- A walk does not fail while an invariant rules failure out. -/
theorem sweep_safe (keeps : σ → Prop)
    (safe : ∀ state place, keeps state →
      step state place = .skip ∨ ∃ next, step state place = .change next ∧ keeps next)
    (places : List ι) (count : Nat) (start : keeps state) :
    (sweep step places state count).error = none ∧ keeps (sweep step places state count).state := by
  induction places generalizing state count with
  | nil => exact ⟨rfl, start⟩
  | cons place rest ih =>
    rcases safe state place start with skipped | ⟨next, changed, kept⟩
    · simpa only [sweep, skipped] using ih count start
    · simpa only [sweep, changed] using ih (count + 1) kept

theorem sweep_fine (calm : ∀ state place error, step state place ≠ .stop error)
    (places : List ι) (state : σ) (count : Nat) : (sweep step places state count).error = none := by
  refine (sweep_safe (fun _ => True) (fun state place _ => ?_) places count trivial).1
  cases found : step state place with
  | skip => exact .inl rfl
  | change next => exact .inr ⟨next, rfl, trivial⟩
  | stop error => exact absurd found (calm state place error)

/-- A walk that counts nothing and does not fail has skipped every place. -/
theorem sweep_still (fine : (sweep step places state count).error = none)
    (still : (sweep step places state count).changes = count) :
    (sweep step places state count).state = state ∧ ∀ place ∈ places, step state place = .skip := by
  induction places with
  | nil => exact ⟨rfl, by simp⟩
  | cons place rest ih =>
    cases found : step state place with
    | skip =>
      simp only [sweep, found] at fine still ⊢
      obtain ⟨same, skipped⟩ := ih fine still
      exact ⟨same, by simpa [found] using skipped⟩
    | change next =>
      have more := le_sweep_changes step rest next (count + 1)
      simp only [sweep, found] at still
      omega
    | stop error => simp [sweep, found] at fine

/-- What every change lowers by `drop`, a walk lowers by as much per change. -/
theorem sweep_shrinks (measure : σ → Nat) (drop : Nat)
    (shrinks : ∀ before after, Changes step before after → measure after + drop ≤ measure before)
    (places : List ι) (state : σ) (count : Nat) :
    measure (sweep step places state count).state +
      drop * (sweep step places state count).changes ≤ measure state + drop * count := by
  refine sweep_tracks
    (fun later changes => measure later + drop * changes ≤ measure state + drop * count) ?_
    (Nat.le_refl _)
  intro before after changes above changed
  have here := shrinks before after changed
  rw [Nat.mul_succ]
  omega

end Sweep

/-! ### Every change takes out two instructions, and brings none to life -/

section Shrinks

variable {code : Listing Instruction} {id : NodeId}

theorem length_collapse {content : Instruction} {rest : List (NodeId × Instruction)}
    (value : Instruction) (stands : Stands code ((id, content) :: rest)) :
    ((code.removeAll (rest.map (·.1))).replace id value).length + rest.length = code.length := by
  obtain ⟨before, after, split⟩ := stands
  simp only [Listing.length, Listing.items_collapse value split, split, List.length_append,
    List.length_cons]
  omega

theorem length_remove_segment {segment : List (NodeId × Instruction)}
    (stands : Stands code segment) :
    (code.removeAll (segment.map (·.1))).length + segment.length = code.length := by
  obtain ⟨before, after, split⟩ := stands
  simp only [Listing.length, Listing.items_removeAll_segment split, split, List.length_append]
  omega

theorem Fold.step_eq_change {width : Width} {mode : LongFold} {after : Listing Instruction} :
    Fold.step width mode code id = .change after ↔
      ∃ first second secondId opId op value,
        Stands code [(id, first), (secondId, second), (opId, .bitwise width op)] ∧
          Fold.value? width mode op first second = some value ∧
          after = (code.removeAll [secondId, opId]).replace id value := by
  unfold Fold.step
  constructor
  · intro changed
    split at changed
    · rename_i value operands found
      obtain ⟨first, second, secondId, opId, op, stands, valued, rfl⟩ :=
        Fold.match?_eq_some.mp found
      cases changed
      exact ⟨first, second, secondId, opId, op, value, stands, valued, rfl⟩
    · cases changed
  · rintro ⟨first, second, secondId, opId, op, value, stands, valued, rfl⟩
    rw [Fold.match?_eq_some.mpr ⟨first, second, secondId, opId, op, stands, valued, rfl⟩]

theorem Fold.step_ne_stop {width : Width} {mode : LongFold} (error : RecoveryError) :
    Fold.step width mode code id ≠ .stop error := by
  unfold Fold.step
  split <;> simp

theorem Fold.changes_shrink {width : Width} {mode : LongFold} {after : Listing Instruction}
    (changed : Changes (Fold.step width mode) code after) : after.length + 2 = code.length := by
  obtain ⟨id, changed⟩ := changed
  obtain ⟨first, second, secondId, opId, op, value, stands, _, rfl⟩ :=
    Fold.step_eq_change.mp changed
  have shorter := length_collapse value stands
  simpa only [List.map_cons, List.map_nil, List.length_cons, List.length_nil, Nat.zero_add,
    Nat.reduceAdd] using shorter

theorem Fold.changes_thin {width : Width} {mode : LongFold} {after : Listing Instruction}
    (changed : Changes (Fold.step width mode) code after) : Listing.Thins code after := by
  obtain ⟨id, changed⟩ := changed
  obtain ⟨_, _, _, _, _, _, _, _, rfl⟩ := Fold.step_eq_change.mp changed
  exact (Listing.thins_removeAll _ _).trans (Listing.thins_replace _ _ _)

theorem Cleanup.step_eq_change {isTarget : MemberRef → Bool} {after : Listing Instruction} :
    Cleanup.step isTarget code id = .change after ↔
      ∃ size kind field newId putId,
        Stands code [(id, .intConst size), (newId, .newArray kind), (putId, .putStatic field)] ∧
          isTarget field = true ∧ after = code.removeAll [id, newId, putId] := by
  unfold Cleanup.step
  constructor
  · intro changed
    split at changed
    · rename_i nodes found
      obtain ⟨size, kind, field, newId, putId, stands, target, rfl⟩ :=
        Cleanup.allocation?_eq_some.mp found
      cases changed
      exact ⟨size, kind, field, newId, putId, stands, target, rfl⟩
    · cases changed
  · rintro ⟨size, kind, field, newId, putId, stands, target, rfl⟩
    rw [Cleanup.allocation?_eq_some.mpr
      ⟨size, kind, field, newId, putId, stands, target, rfl⟩]

theorem Cleanup.step_ne_stop {isTarget : MemberRef → Bool} (error : RecoveryError) :
    Cleanup.step isTarget code id ≠ .stop error := by
  unfold Cleanup.step
  split <;> simp

theorem Cleanup.changes_shrink {isTarget : MemberRef → Bool} {after : Listing Instruction}
    (changed : Changes (Cleanup.step isTarget) code after) : after.length + 3 = code.length := by
  obtain ⟨id, changed⟩ := changed
  obtain ⟨size, kind, field, newId, putId, stands, _, rfl⟩ := Cleanup.step_eq_change.mp changed
  have shorter := length_remove_segment stands
  simpa only [List.map_cons, List.map_nil, List.length_cons, List.length_nil, Nat.zero_add,
    Nat.reduceAdd] using shorter

theorem Cleanup.changes_thin {isTarget : MemberRef → Bool} {after : Listing Instruction}
    (changed : Changes (Cleanup.step isTarget) code after) : Listing.Thins code after := by
  obtain ⟨id, changed⟩ := changed
  obtain ⟨_, _, _, _, _, _, _, rfl⟩ := Cleanup.step_eq_change.mp changed
  exact Listing.thins_removeAll _ _

end Shrinks

end LiteralRecovery
