import LiteralRecovery.Proofs.FailedScans
import LiteralRecovery.Proofs.SlotValues

/-! Whose tables are read. A read counts as one of the class's own by the owner it
names, and a class may name itself as the owner of a field that it inherits. Only the
stores ask whether the class declares the table: what they give away, the memo
included, comes from declared tables alone. A read that finds no store gets the
default unasked, so that a table of another class is read as zero or null. -/
namespace LiteralRecovery

namespace StaticTable

variable {cls : Class} {past entries : List Replacement} {entry : Replacement}

/-- The table that was read is one that the class declares. -/
def Replacement.isDeclared (cls : Class) (entry : Replacement) : Bool :=
  (cls.field? entry.site.field.key).isSome

/-- The class declares what it did, and every table with a value on record. -/
structure Grounded (cls : Class) (state : RecoveryState) : Prop where
  outline : state.cls.outline = cls.outline
  memo : ∀ slot value, state.memo.lookup slot = some value → (cls.field? slot.1).isSome = true

theorem grounded_start (cls : Class) (initializer : Nat) :
    Grounded cls (.start cls initializer) :=
  ⟨rfl, fun _ _ known => by cases known⟩

namespace Grounded

variable {state : RecoveryState}

/-- A read of a table that is not declared finds neither a value on record nor a
store. -/
theorem declared_or_missing (grounded : Grounded cls entry.before)
    (recorded : Recorded past entry.before) (happens : entry.Happens) :
    entry.isDeclared cls = true ∨ origin past entry = .missing := by
  obtain ⟨_, _, found, _⟩ := happens.resolved
  rcases resolve_cases found with ⟨hit, _⟩ | ⟨fresh, none, _⟩ | ⟨_, _, _, _, declared, _⟩
  · exact .inl (grounded.memo _ _ hit)
  · have unknown := Option.map_eq_none_iff.mp ((recorded.memo entry.slot).symm.trans fresh)
    right
    simp only [origin, unknown, Replacement.firstStore?, none]
  · left
    rwa [Class.field?_of_outline grounded.outline] at declared

/-- A store that is used up puts its own table on record, which is declared. -/
theorem replace (grounded : Grounded cls entry.before) (happens : entry.Happens) :
    Grounded cls entry.after := by
  have outline : entry.after.cls.outline = cls.outline :=
    (RecoveryState.frame_outline (changes_frame ⟨_, happens.step⟩)).trans grounded.outline
  refine ⟨outline, fun slot value known => ?_⟩
  obtain ⟨resolved, event, found, after⟩ := happens.resolved
  rw [after] at known
  rcases resolve_cases found with ⟨_, rfl⟩ | ⟨_, _, _, rfl⟩ | ⟨_, _, _, _, declared, _, rfl⟩
  · exact grounded.memo slot value known
  · exact grounded.memo slot value known
  · -- the one slot that is new on record is that of the read
    rw [Class.field?_of_outline grounded.outline] at declared
    obtain ⟨table, index⟩ := slot
    simp only [lookup_consume] at known
    split at known
    · rename_i same
      rwa [same.1]
    · exact grounded.memo (table, index) value known

end Grounded

theorem Runs.grounded {options : Options} {state final : RecoveryState}
    (runs : Runs options state entries final) (grounded : Grounded cls state) :
    Grounded cls final := by
  induction runs with
  | done state => exact grounded
  | log event _ ih => exact ih ⟨grounded.outline, grounded.memo⟩
  | @fold state _ _ width _ ih =>
    have outline := RecoveryState.frame_outline (Pass.scan_frame (.fold width) options state)
    exact ih ⟨outline.trans grounded.outline, grounded.memo⟩
  | replace happens _ ih => exact ih (grounded.replace happens)

/-- Reads that can only have got the default are no more than those that did. -/
theorem countP_le_missing (judge : Replacement → Bool)
    (judged : ∀ front entry back, entries = front ++ entry :: back → judge entry = true →
      origin (past ++ front) entry = .missing) :
    entries.countP judge ≤ (origins past entries).countP (·.isMissing) := by
  induction entries generalizing past with
  | nil => exact Nat.le_refl _
  | cons entry rest ih =>
    -- the reads behind are judged with this one among those before them
    have later : rest.countP judge ≤ (origins (past ++ [entry]) rest).countP (·.isMissing) := by
      refine ih fun front other back split holds => ?_
      have shifted := judged (entry :: front) other back (by rw [split, List.cons_append]) holds
      rwa [List.append_cons] at shifted
    have here : judge entry = true → (origin past entry).isMissing = true := by
      intro holds
      have missing := judged [] entry rest rfl holds
      rw [List.append_nil] at missing
      rw [missing]
      rfl
    simp only [origins, List.countP_cons]
    by_cases holds : judge entry = true
    · rw [if_pos holds, if_pos (here holds)]
      omega
    · rw [if_neg holds]
      omega

end StaticTable

open StaticTable (Replacement Runs origin)

/-- Every read of a history is of a declared table or has found no store. -/
theorem history_declared_or_missing {options : Options} {cls : Class}
    {past future : List Replacement} {entry : Replacement}
    (split : history options cls = past ++ entry :: future) :
    entry.site.field.owner = cls.name ∧
      (entry.isDeclared cls = true ∨ origin past entry = .missing) := by
  obtain ⟨happens, recorded⟩ := history_recorded split
  cases found : cls.initializer? with
  | none => simp [history, found] at split
  | some position =>
    have runs := runs_history options found
    rw [split] at runs
    have grounded := runs.cut.1.grounded (StaticTable.grounded_start cls position)
    obtain ⟨_, _, _, own, _⟩ := StaticTable.read?_eq_some.mp happens.read
    exact ⟨own.trans (Class.outline_eq_iff.mp grounded.outline).1,
      grounded.declared_or_missing recorded happens⟩

theorem recover_counts {options : Options} {cls : Class} {stats : Stats}
    (fine : (recover options cls).result = .ok stats) : stats.Tallies (history options cls) := by
  cases found : cls.initializer? with
  | none =>
    simp only [recover, found] at fine
    cases fine
    simp only [history, found]
    exact ⟨rfl, rfl⟩
  | some position =>
    exact recover_tallies found fine
      ((runs_history options found).recorded (StaticTable.recorded_start cls position)).tallies

/-- A stored value, taken from its store or from the memo, only ever stands for a read
of a table that the class declares. The other reads that are replaced name the class as
owner of a table it does not declare; they get the default, nothing else changes for
them, and the counter of defaults covers them. A recovery without defaults replaces no
read of such a table. -/
theorem only_declared_tables_give_values (options : Options) (cls : Class) :
    (∀ position, cls.initializer? = some position →
      Runs options (.start cls position) (history options cls)
        (Pass.runAll options recoveryPasses (.start cls position)).1) ∧
    (∀ past entry future, history options cls = past ++ entry :: future →
      entry.Happens ∧ entry.site.field.owner = cls.name ∧
      (entry.isDeclared cls = true ∨ origin past entry = .missing ∧ entry.Misses)) ∧
    ∀ stats, (recover options cls).result = .ok stats →
      (history options cls).countP (!·.isDeclared cls) ≤ stats.defaulted ∧
      (stats.defaulted = 0 → ∀ entry ∈ history options cls, entry.isDeclared cls = true) := by
  refine ⟨fun position => runs_history options, fun past entry future split => ?_,
    fun stats fine => ?_⟩
  · obtain ⟨happens, recorded⟩ := history_recorded split
    obtain ⟨own, declared | missing⟩ := history_declared_or_missing split
    · exact ⟨happens, own, .inl declared⟩
    · have follows := (recorded.replace happens).1
      rw [missing] at follows
      exact ⟨happens, own, .inr ⟨missing, follows⟩⟩
  · have covered : (history options cls).countP (!·.isDeclared cls) ≤ stats.defaulted := by
      rw [(recover_counts fine).defaulted]
      refine StaticTable.countP_le_missing _ fun front entry back split undeclared => ?_
      obtain ⟨_, declared | missing⟩ := history_declared_or_missing split
      · simp [declared] at undeclared
      · exact missing
    refine ⟨covered, fun none entry member => ?_⟩
    rw [none, Nat.le_zero, List.countP_eq_zero] at covered
    simpa using covered entry member

/-- A class with a table of its own, and a method that reads the given tables under the
name of the class. -/
def heir (tables : List String) : Class :=
  let table (name : String) : MemberRef := ⟨"Heir", name, "[I"⟩
  .ofMembers "Heir" [(table "own").key]
    [(⟨initializerName, "()V"⟩,
      [.getStatic (table "own"), .intConst 0, .intConst 7, .arrayStore .int,
       .plain (.plain .returnVoid)]),
     (⟨"read", "()V"⟩,
      tables.flatMap (fun name =>
        [.getStatic (table name), .intConst 0, .arrayLoad .int, .plain (.plain .pop)]) ++
      [.plain (.plain .returnVoid)])]

theorem heir_own_table_only :
    (∀ entry ∈ history ⟨.combine⟩ (heir ["own", "own"]),
      entry.isDeclared (heir ["own", "own"]) = true) ∧
    (history ⟨.combine⟩ (heir ["own", "own"])).length = 2 ∧
    (history ⟨.combine⟩ (heir ["own", "inherited"])).countP
      (!·.isDeclared (heir ["own", "inherited"])) ≤ 1 := by
  have fine : (recover ⟨.combine⟩ (heir ["own", "own"])).result = .ok ⟨0, 2, 0, 0, 0, 0, 1, 0, 0⟩ :=
    rfl
  have fine' : (recover ⟨.combine⟩ (heir ["own", "inherited"])).result =
      .ok ⟨0, 1, 0, 0, 1, 0, 1, 0, 0⟩ := rfl
  exact ⟨((only_declared_tables_give_values _ _).2.2 _ fine).2 rfl, by decide +kernel,
    ((only_declared_tables_give_values _ _).2.2 _ fine').1⟩

/-- A read of an inherited table is lost: it becomes zero, and recovery succeeds. -/
theorem heir_reads_zero :
    (heir ["inherited"]).field? ⟨"inherited", "[I"⟩ = none ∧
    ((heir ["inherited"]).codeAt 1).toList =
      [.getStatic ⟨"Heir", "inherited", "[I"⟩, .intConst 0, .arrayLoad .int,
        .plain (.plain .pop), .plain (.plain .returnVoid)] ∧
    (recover ⟨.combine⟩ (heir ["inherited"])).result = .ok { Stats.zero with defaulted := 1 } ∧
    ((recover ⟨.combine⟩ (heir ["inherited"])).cls.codeAt 1).toList =
      [.intConst 0, .plain (.plain .pop), .plain (.plain .returnVoid)] ∧
    ∃ entry ∈ history ⟨.combine⟩ (heir ["inherited"]),
      entry.isDeclared (heir ["inherited"]) = false := by
  refine ⟨by decide +kernel, by decide +kernel, rfl, by decide +kernel, ?_⟩
  have found : (history ⟨.combine⟩ (heir ["inherited"])).any
      (!·.isDeclared (heir ["inherited"])) = true := by decide +kernel
  simpa [List.any_eq_true] using found

end LiteralRecovery
