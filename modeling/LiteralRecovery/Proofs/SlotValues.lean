import LiteralRecovery.Proofs.ReadHistory

/-! One slot, one store, one value. The first read of a slot that finds a store uses
it up, and every read of the slot after that gets the value of that store, whatever
the method, the walk or the pass. The reads before a read tell where its value comes
from: the memo holds what they say and nothing else, and the counters follow. -/
namespace LiteralRecovery

namespace StaticTable

namespace Replacement

/-- The table and the index that were read. -/
def slot (entry : Replacement) : MemberKey × Int32 := (entry.site.field.key, entry.site.index)

/-- The first store of the slot that was left in the initializer when the read was
replaced. -/
def firstStore? (entry : Replacement) : Option StoreSite :=
  storeAt? entry.before.initializerCode entry.site.field entry.site.index entry.kind
    entry.before.cls.name

/-- A class with the value in place of the read. -/
def putInto (entry : Replacement) (cls : Class) : Class :=
  cls.editCode entry.place.method fun code =>
    (code.removeAll entry.site.tail).replace entry.place.node entry.value

/-- The read used up a store, the first one that matched the slot, and got its
value. -/
structure Takes (entry : Replacement) (store : StoreSite) : Prop where
  first : ∃ id,
    store? entry.before.initializerCode id entry.site.field entry.kind entry.before.cls.name =
      some store ∧ store.index = entry.site.index ∧
    ∀ above < id, ∀ other,
      store? entry.before.initializerCode above entry.site.field entry.kind
        entry.before.cls.name = some other → other.index ≠ entry.site.index
  stored : ∃ helper, storedValue entry.before.cls store = .ok (entry.value, helper)
  cls : entry.after.cls = entry.putInto (entry.before.cls.editCode entry.before.initializer
    (·.removeAll store.nodes))

/-- The read was replaced, and nothing else was touched. -/
def Leaves (entry : Replacement) : Prop := entry.after.cls = entry.putInto entry.before.cls

/-- There was no store for the read, and it got the default. -/
structure Misses (entry : Replacement) : Prop where
  none : ∀ id store,
    store? entry.before.initializerCode id entry.site.field entry.kind entry.before.cls.name =
      some store → store.index ≠ entry.site.index
  default : entry.value = .zero entry.kind
  leaves : entry.Leaves

end Replacement

/-- The first of some reads to find a store for a slot. -/
def taker? (past : List Replacement) (slot : MemberKey × Int32) : Option Replacement :=
  past.find? fun earlier => earlier.slot = slot ∧ earlier.firstStore?.isSome

/-- Where the value of a read comes from. -/
inductive Origin where
  | taken (store : StoreSite)
  | repeated (value : Instruction)
  | missing
deriving DecidableEq

def Origin.isMissing : Origin → Bool
  | .missing => true
  | _ => false

/-- Where the value of a read comes from, given the reads replaced before it. -/
def origin (past : List Replacement) (entry : Replacement) : Origin :=
  match taker? past entry.slot with
  | some earlier => .repeated earlier.value
  | none =>
    match entry.firstStore? with
    | some store => .taken store
    | none => .missing

/-- The same for one read after the other. -/
def origins (past : List Replacement) : List Replacement → List Origin
  | [] => []
  | entry :: rest => origin past entry :: origins (past ++ [entry]) rest

/-- The read did what its origin says. -/
def Replacement.Follows (entry : Replacement) : Origin → Prop
  | .taken store => entry.Takes store
  | .repeated value => entry.value = value ∧ entry.Leaves
  | .missing => entry.Misses

end StaticTable

namespace Stats

/-- The reads that got a stored value, of whatever kind. -/
def resolved (stats : Stats) : Nat :=
  stats.resolvedInts + stats.resolvedLongs + stats.resolvedStrings

/-- The counters are those of the given reads. -/
structure Tallies (stats : Stats) (entries : List StaticTable.Replacement) : Prop where
  resolved : stats.resolved = (StaticTable.origins [] entries).countP (!·.isMissing)
  defaulted : stats.defaulted = (StaticTable.origins [] entries).countP (·.isMissing)

theorem resolved_count (kind : ElementKind) (stats : Stats) :
    (StaticTable.count kind stats).resolved = stats.resolved + 1 := by
  cases kind <;> simp only [StaticTable.count, resolved] <;> omega

theorem defaulted_count (kind : ElementKind) (stats : Stats) :
    (StaticTable.count kind stats).defaulted = stats.defaulted := by
  cases kind <;> rfl

end Stats

namespace StaticTable

variable {past entries : List Replacement} {entry earlier : Replacement}

/-! ### What the reads before tell -/

private theorem taker?_concat (past : List Replacement) (entry : Replacement)
    (slot : MemberKey × Int32) :
    taker? (past ++ [entry]) slot = (taker? past slot).or
      (if entry.slot = slot ∧ entry.firstStore?.isSome then some entry else none) := by
  simp only [taker?, List.find?_append, List.find?_singleton, decide_eq_true_eq]

/-- A read takes no store if one was taken before, or if there is none. -/
theorem taker?_concat_idle
    (idle : (taker? past entry.slot).isSome = true ∨ entry.firstStore? = none)
    (slot : MemberKey × Int32) : taker? (past ++ [entry]) slot = taker? past slot := by
  rw [taker?_concat]
  rcases idle with settled | none
  · by_cases same : entry.slot = slot
    · obtain ⟨earlier, found⟩ := Option.isSome_iff_exists.mp (same ▸ settled)
      rw [found, Option.some_or]
    · rw [if_neg fun both => same both.1, Option.or_none]
  · rw [if_neg (by simp [none]), Option.or_none]

/-- Otherwise it is the one that took the store of its slot. -/
theorem taker?_concat_taken {store : StoreSite} (fresh : taker? past entry.slot = none)
    (found : entry.firstStore? = some store) (slot : MemberKey × Int32) :
    taker? (past ++ [entry]) slot = if slot = entry.slot then some entry else taker? past slot := by
  rw [taker?_concat]
  by_cases same : slot = entry.slot
  · subst same
    rw [fresh, if_pos ⟨rfl, by simp [found]⟩, if_pos rfl, Option.none_or]
  · rw [if_neg fun both => same both.1.symm, if_neg same, Option.or_none]

theorem origins_append (past entries more : List Replacement) :
    origins past (entries ++ more) = origins past entries ++ origins (past ++ entries) more := by
  induction entries generalizing past with
  | nil => simp [origins]
  | cons entry rest ih => simp [origins, ih]

/-- Once a store was found for a slot, the origin of its reads is settled. -/
theorem origin_of_taker (found : taker? past entry.slot = some earlier) :
    origin past entry = .repeated earlier.value := by
  simp only [origin, found]

/-- The counters move with the origin of the next read. -/
theorem tallies_concat {stats stats' : Stats} (tallies : stats.Tallies past)
    (resolved : stats'.resolved =
      stats.resolved + (if (origin past entry).isMissing then 0 else 1))
    (defaulted : stats'.defaulted =
      stats.defaulted + (if (origin past entry).isMissing then 1 else 0)) :
    stats'.Tallies (past ++ [entry]) := by
  constructor
  · rw [resolved, tallies.resolved, origins_append, List.countP_append]
    cases missing : (origin past entry).isMissing <;> simp [origins, missing]
  · rw [defaulted, tallies.defaulted, origins_append, List.countP_append]
    simp [origins]

/-! ### Memo and counters along a run -/

/-- The memo holds the value of every slot that a store was found for, and the
counters are right. -/
structure Recorded (past : List Replacement) (state : RecoveryState) : Prop where
  memo : ∀ slot, state.memo.lookup slot = (taker? past slot).map (·.value)
  tallies : state.stats.Tallies past

/-- A replaced read has the origin that the reads before it tell, and is on record
from then on. -/
theorem Recorded.replace (recorded : Recorded past entry.before) (happens : entry.Happens) :
    entry.Follows (origin past entry) ∧ Recorded (past ++ [entry]) entry.after := by
  obtain ⟨resolved, event, found, after⟩ := happens.resolved
  have known := recorded.memo entry.slot
  rcases resolve_cases found with ⟨hit, rfl⟩ | ⟨fresh, none, default, rfl⟩ |
    ⟨fresh, store, helper, first, _, stored, rfl⟩
  · -- on record: an earlier read took the store
    obtain ⟨earlier, taker, value⟩ := Option.map_eq_some_iff.mp (known.symm.trans hit)
    have settled := origin_of_taker taker
    refine ⟨?_, fun slot => ?_, ?_⟩
    · rw [settled]
      exact ⟨value.symm, congrArg RecoveryState.cls after⟩
    · rw [taker?_concat_idle (.inl (by simp [taker])), ← recorded.memo, after]
    · rw [after]
      refine tallies_concat recorded.tallies ?_ ?_
      · simp [settled, Origin.isMissing, Stats.resolved_count]
      · simp [settled, Origin.isMissing, Stats.defaulted_count]
  · -- not on record, and no store to take
    have unknown := Option.map_eq_none_iff.mp (known.symm.trans fresh)
    have missing : origin past entry = .missing := by
      simp only [origin, unknown, Replacement.firstStore?, none]
    refine ⟨?_, fun slot => ?_, ?_⟩
    · rw [missing]
      exact ⟨storeAt?_eq_none.mp none, default, congrArg RecoveryState.cls after⟩
    · rw [taker?_concat_idle (.inr none), ← recorded.memo, after]
    · rw [after]
      exact tallies_concat recorded.tallies (by simp [missing, Origin.isMissing, Stats.resolved])
        (by simp [missing, Origin.isMissing])
  · -- not on record, and this read is the one to take the store
    have unknown := Option.map_eq_none_iff.mp (known.symm.trans fresh)
    have taken : origin past entry = .taken store := by
      simp only [origin, unknown, Replacement.firstStore?, first]
    refine ⟨?_, fun slot => ?_, ?_⟩
    · rw [taken]
      exact ⟨storeAt?_eq_some.mp first, ⟨helper, stored⟩, congrArg RecoveryState.cls after⟩
    · rw [taker?_concat_taken unknown first, after]
      change List.lookup slot ((entry.slot, entry.value) :: entry.before.memo) = _
      rw [List.lookup_cons]
      by_cases same : slot = entry.slot
      · simp [same]
      · rw [beq_false_of_ne same, if_neg same]
        exact recorded.memo slot
    · rw [after]
      refine tallies_concat recorded.tallies ?_ ?_
      · simp [taken, Origin.isMissing, consume, RecoveryState.editInitializer,
          Stats.resolved_count]
      · simp [taken, Origin.isMissing, consume, RecoveryState.editInitializer,
          Stats.defaulted_count]

theorem Runs.recorded {options : Options} {state final : RecoveryState}
    (runs : Runs options state entries final) (recorded : Recorded past state) :
    Recorded (past ++ entries) final := by
  induction runs generalizing past with
  | done state => simpa using recorded
  | log event _ ih => exact ih ⟨recorded.memo, recorded.tallies⟩
  | fold width _ ih =>
    exact ih ⟨recorded.memo, recorded.tallies.resolved, recorded.tallies.defaulted⟩
  | @replace entry _ _ happens _ ih =>
    simpa using ih (recorded.replace happens).2

theorem recorded_start (cls : Class) (initializer : Nat) : Recorded [] (.start cls initializer) :=
  ⟨fun _ => rfl, rfl, rfl⟩

/-- After a read that found a store, its slot has a value for good. -/
theorem taker?_of_follows (follows : entry.Follows (origin past entry))
    (found : entry.firstStore?.isSome = true) (between : List Replacement) :
    ∃ taker, taker? (past ++ entry :: between) entry.slot = some taker ∧
      taker.value = entry.value := by
  have split : taker? (past ++ entry :: between) entry.slot =
      (taker? past entry.slot).or (some entry) := by
    rw [taker?, List.find?_append, List.find?_cons_of_pos (by simp [found])]
    rfl
  cases before : taker? past entry.slot with
  | none => exact ⟨entry, by rw [split, before, Option.none_or], rfl⟩
  | some taker =>
    rw [origin_of_taker before] at follows
    exact ⟨taker, by rw [split, before, Option.some_or], follows.1.symm⟩

end StaticTable

namespace Cleanup

variable {state : RecoveryState} {entries : List StaticTable.Replacement}

theorem tallies_removeField (tallies : state.stats.Tallies entries) (key : MemberKey) :
    (removeField state key).stats.Tallies entries := by
  simp only [removeField]
  split <;> exact ⟨tallies.resolved, tallies.defaulted⟩

theorem tallies_removeHelper (tallies : state.stats.Tallies entries) (key : MemberKey) :
    (removeHelper state key).stats.Tallies entries := by
  simp only [removeHelper]
  split
  · exact tallies
  · split <;> exact ⟨tallies.resolved, tallies.defaulted⟩

/-- Cleanup counts no reads. -/
theorem tallies_removeMarked (tallies : state.stats.Tallies entries) :
    (removeMarked state).stats.Tallies entries := by
  refine List.foldlRecOn (motive := fun state => state.stats.Tallies entries) _ removeHelper ?_
    fun state tallies key _ => tallies_removeHelper tallies key
  exact List.foldlRecOn (motive := fun state => state.stats.Tallies entries) _ removeField tallies
    fun state tallies key _ => tallies_removeField tallies key

end Cleanup

/-- The counters of a successful recovery are those of the reads it replaced. -/
theorem recover_tallies {options : Options} {cls : Class} {stats : Stats} {position : Nat}
    (found : cls.initializer? = some position) (fine : (recover options cls).result = .ok stats)
    {entries : List StaticTable.Replacement}
    (tallies : (Pass.runAll options recoveryPasses (.start cls position)).1.stats.Tallies entries) :
    stats.Tallies entries := by
  obtain ⟨resolved, cleaned, ran, swept, _, rfl, _⟩ := recover_stages found fine
  rw [ran] at tallies
  have last := Pass.allocations.run_keeps options (fun state => state.stats.Tallies entries)
    (fun _ _ kept => kept) (fun _ kept => ⟨kept.resolved, kept.defaulted⟩)
    (Cleanup.tallies_removeMarked tallies)
  rwa [swept] at last

open StaticTable (Replacement Recorded Runs origin)

/-- What the reads before tell is true of every read of a history. -/
theorem history_recorded {options : Options} {cls : Class} {past future : List Replacement}
    {entry : Replacement} (split : history options cls = past ++ entry :: future) :
    entry.Happens ∧ Recorded past entry.before := by
  cases found : cls.initializer? with
  | none => simp [history, found] at split
  | some position =>
    have runs := runs_history options found
    rw [split] at runs
    obtain ⟨before, happens, _⟩ := runs.cut
    exact ⟨happens, before.recorded (StaticTable.recorded_start cls position)⟩

/-- Every read that is replaced gets its value in the way that the reads before it
tell: the first one of a slot to find a store takes the first that matches, and no
other read of the slot takes one; every later read of the slot gets the same value,
and none of them the default. At every point the counters are the numbers of reads
that got a stored value and of those that got none. -/
theorem slots_keep_one_value (options : Options) (cls : Class) :
    (∀ past entry future, history options cls = past ++ entry :: future →
      entry.Happens ∧ entry.Follows (origin past entry) ∧ entry.before.stats.Tallies past) ∧
    (∀ past entry between later future,
      history options cls = past ++ entry :: (between ++ later :: future) →
      entry.firstStore?.isSome = true → later.slot = entry.slot →
        origin (past ++ entry :: between) later = .repeated entry.value ∧
        later.value = entry.value ∧ later.Leaves) ∧
    (∀ position, cls.initializer? = some position →
      Runs options (.start cls position) (history options cls)
        (Pass.runAll options recoveryPasses (.start cls position)).1 ∧
      (Pass.runAll options recoveryPasses (.start cls position)).1.stats.Tallies
        (history options cls)) ∧
    ∀ stats, (recover options cls).result = .ok stats → stats.Tallies (history options cls) := by
  have final {position : Nat} (found : cls.initializer? = some position) :
      (Pass.runAll options recoveryPasses (.start cls position)).1.stats.Tallies
        (history options cls) :=
    ((runs_history options found).recorded (StaticTable.recorded_start cls position)).tallies
  refine ⟨?_, ?_, fun position found => ⟨runs_history options found, final found⟩,
    fun stats fine => ?_⟩
  · intro past entry future split
    obtain ⟨happens, recorded⟩ := history_recorded split
    exact ⟨happens, (recorded.replace happens).1, recorded.tallies⟩
  · intro past entry between later future split hit same
    obtain ⟨happens, recorded⟩ := history_recorded split
    have follows := (recorded.replace happens).1
    obtain ⟨taker, taken, value⟩ := StaticTable.taker?_of_follows follows hit between
    rw [← same] at taken
    have settled := StaticTable.origin_of_taker taken
    have shifted : history options cls = (past ++ entry :: between) ++ later :: future := by
      simpa using split
    obtain ⟨happens', recorded'⟩ := history_recorded shifted
    have follows' := (recorded'.replace happens').1
    rw [settled, value] at follows' ⊢
    exact ⟨rfl, follows'⟩
  · cases found : cls.initializer? with
    | none =>
      simp only [recover, found] at fine
      cases fine
      simp only [history, found]
      exact ⟨rfl, rfl⟩
    | some position => exact recover_tallies found fine (final found)

/-- A table with two stores of one slot, which is read twice, and none of another,
which is read as well. -/
def rereads : Class :=
  let codes : MemberRef := ⟨"Reread", "codes", "[I"⟩
  .ofMembers "Reread" [codes.key]
    [(⟨initializerName, "()V"⟩,
      [.intConst 2, .newArray .int, .putStatic codes,
       .getStatic codes, .intConst 0, .intConst 7, .arrayStore .int,
       .getStatic codes, .intConst 0, .intConst 9, .arrayStore .int,
       .plain (.plain .returnVoid)]),
     (⟨"first", "()I"⟩,
      [.getStatic codes, .intConst 0, .arrayLoad .int, .plain (.plain .ireturn)]),
     (⟨"second", "()I"⟩,
      [.getStatic codes, .intConst 1, .arrayLoad .int, .plain (.plain .pop),
       .getStatic codes, .intConst 0, .arrayLoad .int, .plain (.plain .ireturn)])]

theorem rereads_share_one_store :
    StaticTable.origins [] (history ⟨.combine⟩ rereads) =
      [.taken ⟨[3, 4, 5, 6], 0, .intConst 7, none⟩, .missing, .repeated (.intConst 7)] ∧
    (recover ⟨.combine⟩ rereads).result = .ok ⟨0, 2, 0, 0, 1, 1, 1, 0, 1⟩ ∧
    (⟨0, 2, 0, 0, 1, 1, 1, 0, 1⟩ : Stats).Tallies (history ⟨.combine⟩ rereads) := by
  have fine : (recover ⟨.combine⟩ rereads).result = .ok ⟨0, 2, 0, 0, 1, 1, 1, 0, 1⟩ := rfl
  exact ⟨by decide +kernel, fine, (slots_keep_one_value ⟨.combine⟩ rereads).2.2.2 _ fine⟩

end LiteralRecovery
