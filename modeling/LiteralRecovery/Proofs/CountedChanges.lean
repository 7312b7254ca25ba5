import LiteralRecovery.Proofs.SecondRun
import LiteralRecovery.Run.ArchiveRun
import Mathlib.Algebra.Order.BigOperators.Group.List
import Mathlib.Algebra.Order.Group.Nat

/-! The counters tell whether anything was rewritten. Every step of a recovery
that raises a counter makes the class smaller by at least as much, and no step
makes it larger. So a class that comes out as it went in was not counted on at
all; and a recovery that counted nothing has found nothing to change. What is
done with the bytes of a class rests on that. -/
namespace LiteralRecovery

theorem Listing.length_toList {α : Type} (list : Listing α) : list.toList.length = list.length :=
  List.length_map _

namespace Class

/-- How much there is of a class: fields, methods and live instructions. -/
def bulk (cls : Class) : Nat := cls.fields.length + cls.methods.length + cls.weight

/-- The members of a class: its fields, and its methods with their instructions. -/
def contents (cls : Class) : List MemberKey × List (MemberKey × List Instruction) :=
  (cls.fields.map Field.key, cls.methods.map fun method => (method.key, method.code.toList))

theorem bulk_eq_of_contents {cls later : Class} (same : later.contents = cls.contents) :
    later.bulk = cls.bulk := by
  obtain ⟨fields, methods⟩ := Prod.mk.inj same
  have declared := congrArg List.length fields
  have defined := congrArg List.length methods
  have codes := congrArg (List.map fun entry => entry.2.length) methods
  simp only [List.length_map] at declared defined
  simp only [List.map_map, Function.comp_def, Listing.length_toList] at codes
  rw [bulk, bulk, weight_eq_sum, weight_eq_sum, declared, defined, codes]

theorem contents_eq_of_clearLocals {cls later : Class}
    (same : Cleanup.clearLocals later = Cleanup.clearLocals cls) :
    later.contents = cls.contents := by
  have fields := congrArg (fun cleared : Class => cleared.fields.map Field.key) same
  have methods := congrArg (fun cleared : Class =>
    cleared.methods.map fun method => (method.key, method.code.toList)) same
  simp only [Cleanup.clearLocals, List.map_map] at fields methods
  exact Prod.ext fields methods

theorem weight_withFields (cls : Class) (fields : List Field) :
    { cls with fields }.weight = cls.weight := rfl

/-- Methods that go take their code with them. -/
theorem weight_le_of_sublist {cls : Class} {kept : List Method} (fewer : kept.Sublist cls.methods) :
    { cls with methods := kept }.weight ≤ cls.weight := by
  rw [weight_eq_sum, weight_eq_sum]
  exact (fewer.map _).sum_le_sum (by simp)

end Class

/-- Nodes that are taken out make the listing shorter by as many as there are
different live ones among them. -/
theorem Listing.length_removeAll_add_le {α : Type} {list : Listing α} {nodes some : List NodeId}
    (distinct : some.Nodup) (live : ∀ id ∈ some, list.isLive id = true) (taken : some ⊆ nodes) :
    (list.removeAll nodes).length + some.length ≤ list.length := by
  have split := list.items.length_eq_length_filter_add fun entry => decide (entry.1 ∉ nodes)
  have inside : some ⊆ ((list.items.filter fun entry => !decide (entry.1 ∉ nodes)).map (·.1)) := by
    intro id member
    obtain ⟨content, held⟩ := isLive_iff.mp (live id member)
    refine List.mem_map.mpr ⟨(id, content), List.mem_filter.mpr ⟨mem_items.mpr held, ?_⟩, rfl⟩
    simpa using taken member
  have fits := (List.subperm_of_subset distinct inside).length_le
  rw [List.length_map] at fits
  rw [length, length, items_removeAll]
  omega

/-! ### Nothing is counted that does not go -/

/-- What was counted, and what is left. -/
def RecoveryState.ledger (state : RecoveryState) : Nat := state.stats.total + state.cls.bulk

theorem Pass.scan_ledger (pass : Pass) (options : Options) (state : RecoveryState) :
    (pass.scan options state).state.ledger ≤ state.ledger := by
  have counted := pass.scan_counts options state
  have shrinks := pass.scan_shrinks options state
  obtain ⟨_, fields, declarations⟩ :=
    Class.outline_eq_iff.mp (RecoveryState.frame_outline (pass.scan_frame options state))
  have methods := congrArg List.length declarations
  simp only [List.length_map] at methods
  simp only [RecoveryState.ledger, Class.bulk, fields, methods]
  omega

theorem Pass.run_ledger (pass : Pass) (options : Options) (state : RecoveryState) :
    (pass.run options state).1.ledger ≤ state.ledger :=
  pass.run_keeps options (fun later => later.ledger ≤ state.ledger) (fun _ _ below => below)
    (fun later below => Nat.le_trans (pass.scan_ledger options later) below) (Nat.le_refl _)

theorem Pass.runAll_ledger (options : Options) (passes : List Pass) (state : RecoveryState) :
    (runAll options passes state).1.ledger ≤ state.ledger :=
  runAll_keeps options passes (fun later => later.ledger ≤ state.ledger)
    (fun pass _ later below => Nat.le_trans (pass.run_ledger options later) below) (Nat.le_refl _)

namespace Cleanup

/-- A table takes at least the first node of each of its stores with it. -/
theorem length_strip (code : Listing Instruction) (field : MemberRef) (className : String) :
    (code.removeAll ((stores code field className).flatMap (·.nodes))).length +
      (stores code field className).length ≤ code.length := by
  have heads := scaffoldIds_nodup code field className
  rw [scaffoldIds, List.nodup_append] at heads
  have first : ∀ id ∈ (stores code field className).map (·.nodes.headD 0),
      code.isLive id = true ∧ id ∈ (stores code field className).flatMap (·.nodes) := by
    intro id member
    obtain ⟨site, counted, rfl⟩ := List.mem_map.mp member
    obtain ⟨id, kind, hit⟩ := mem_stores.mp counted
    obtain ⟨_, _, _, start⟩ := StaticTable.store?_eq_some.mp hit
    have head : site.nodes.headD 0 = id := by rw [List.headD_eq_head?_getD, start, Option.getD_some]
    rw [head]
    exact ⟨StaticTable.live_of_store? hit,
      List.mem_flatMap.mpr ⟨site, counted, List.mem_of_mem_head? start⟩⟩
  have fits := Listing.length_removeAll_add_le heads.1 (fun id member => (first id member).1)
    fun id member => (first id member).2
  rwa [List.length_map] at fits

theorem removeField_ledger (state : RecoveryState) (key : MemberKey) :
    (removeField state key).ledger ≤ state.ledger := by
  simp only [removeField]
  split
  · exact Nat.le_refl _
  · generalize (⟨state.cls.name, key.name, key.descriptor⟩ : MemberRef) = table
    have lighter : (state.cls.editCode state.initializer (·.removeAll
        ((stores state.initializerCode table state.cls.name).flatMap (·.nodes)))).weight +
        (stores state.initializerCode table state.cls.name).length ≤ state.cls.weight :=
      Class.weight_editCode_add_le (length_strip state.initializerCode table state.cls.name)
    have shorter : (state.cls.fields.filter (·.key ≠ key)).length ≤ state.cls.fields.length :=
      List.length_filter_le _ _
    simp only [RecoveryState.ledger, RecoveryState.editInitializer, Class.bulk,
      Stats.total, Class.length_methods_editCode, Class.fields_editCode, Class.weight_withFields]
    omega

theorem removeHelper_ledger (state : RecoveryState) (key : MemberKey) :
    (removeHelper state key).ledger ≤ state.ledger := by
  simp only [removeHelper]
  split
  · exact Nat.le_refl _
  · split
    · exact Nat.le_refl _
    · have fewer : (state.cls.methods.filter (·.key ≠ key)).Sublist state.cls.methods :=
        List.filter_sublist
      have lighter := Class.weight_le_of_sublist fewer
      have shorter := fewer.length_le
      simp only [RecoveryState.ledger, Class.bulk, Stats.total] at lighter ⊢
      omega

theorem foldl_ledger {remove : RecoveryState → MemberKey → RecoveryState}
    (lowers : ∀ state key, (remove state key).ledger ≤ state.ledger) (keys : List MemberKey)
    (state : RecoveryState) : (keys.foldl remove state).ledger ≤ state.ledger := by
  induction keys generalizing state with
  | nil => exact Nat.le_refl _
  | cons key keys ih => exact Nat.le_trans (ih (remove state key)) (lowers state key)

theorem removeMarked_ledger (state : RecoveryState) :
    (removeMarked state).ledger ≤ state.ledger :=
  Nat.le_trans (foldl_ledger removeHelper_ledger _ _) (foldl_ledger removeField_ledger _ _)

theorem bulk_clearLocals (cls : Class) : (clearLocals cls).bulk = cls.bulk :=
  Class.bulk_eq_of_contents (Class.contents_eq_of_clearLocals (clearLocals_clearLocals cls))

end Cleanup

section Recover

variable {options : Options} {cls : Class} {stats : Stats}

/-- All that was counted is gone from the class. -/
theorem recover_ledger (fine : (recover options cls).result = .ok stats) :
    stats.total + (recover options cls).cls.bulk ≤ cls.bulk := by
  cases found : cls.initializer? with
  | none =>
    rw [recover_of_no_initializer found] at fine ⊢
    cases fine
    exact Nat.le_of_eq (Nat.zero_add _)
  | some position =>
    obtain ⟨resolved, cleaned, ran, swept, final, counted, _⟩ := recover_stages found fine
    have passes := Pass.runAll_ledger options recoveryPasses (RecoveryState.start cls position)
    have marked := Cleanup.removeMarked_ledger resolved
    have last := Pass.allocations.run_ledger options (Cleanup.removeMarked resolved)
    rw [ran] at passes
    rw [swept] at last
    rw [final, Cleanup.bulk_clearLocals, counted]
    calc cleaned.ledger ≤ (Cleanup.removeMarked resolved).ledger := last
      _ ≤ resolved.ledger := marked
      _ ≤ (RecoveryState.start cls position).ledger := passes
      _ = cls.bulk := Nat.zero_add _

theorem Stats.isZero_iff_total (stats : Stats) : stats.isZero = true ↔ stats.total = 0 := by
  obtain ⟨_, _, _, _, _, _, _, _, _⟩ := stats
  simp only [isZero, zero, total, decide_eq_true_eq, mk.injEq]
  omega

/-- A recovery that counted nothing did nothing but drop local variable tables. -/
theorem recover_of_zero (fine : (recover options cls).result = .ok stats)
    (nothing : stats.isZero = true) :
    Cleanup.clearLocals (recover options cls).cls = Cleanup.clearLocals cls := by
  have zero : stats = .zero := of_decide_eq_true nothing
  cases found : cls.initializer? with
  | none => rw [recover_of_no_initializer found]
  | some position =>
    rw [(recover_of_nothingLeft found (nothingLeft_of_zero found (zero ▸ fine))).2,
      Cleanup.clearLocals_clearLocals]

theorem isZero_iff_same_contents (fine : (recover options cls).result = .ok stats) :
    stats.isZero = true ↔ (recover options cls).cls.contents = cls.contents := by
  constructor
  · intro nothing
    exact Class.contents_eq_of_clearLocals (recover_of_zero fine nothing)
  · intro same
    have ledger := recover_ledger fine
    rw [Class.bulk_eq_of_contents same] at ledger
    exact (Stats.isZero_iff_total stats).mpr (by omega)

end Recover

/-! ### What becomes of the bytes -/

/-- A class is reported as unchanged, without new bytes, if it can be decoded and
recovered and nothing was counted. -/
theorem processClass_unchanged_iff {options : Options} {name : String} {data : Bytes} :
    (processClass options name data).outcome = .unchanged ↔
      ∃ cls stats, Class.decode data = .ok cls ∧ (recover options cls).result = .ok stats ∧
        stats.isZero = true := by
  unfold processClass
  split
  · simp_all
  · rename_i cls decoded
    dsimp only
    split
    · simp_all
    · rename_i stats fine
      split
      · rename_i nothing
        exact ⟨fun _ => ⟨cls, stats, decoded, fine, nothing⟩, fun _ => rfl⟩
      · rename_i counted
        constructor
        · intro same
          split at same <;> cases same
        · rintro ⟨_, _, decoded', fine', nothing⟩
          cases decoded.symm.trans decoded'
          cases fine.symm.trans fine'
          exact absurd nothing counted

theorem processClass_bytes_of_unchanged {options : Options} {name : String} {data : Bytes}
    (unchanged : (processClass options name data).outcome = .unchanged) :
    (processClass options name data).bytes = none := by
  obtain ⟨cls, stats, decoded, fine, nothing⟩ := processClass_unchanged_iff.mp unchanged
  simp [processClass, decoded, fine, nothing]

/-- Nothing is counted exactly when nothing was rewritten: the counters are all
zero if and only if fields, methods and instructions are the ones that went in,
and then only local variable tables may be gone. So a class is reported as unchanged
exactly when recovery leaves it so, and it is then passed on byte by byte, on its
own or in an archive. -/
theorem counts_nothing_iff_unchanged (options : Options) :
    (∀ cls stats, (recover options cls).result = .ok stats →
      (stats.isZero = true ↔ (recover options cls).cls.contents = cls.contents) ∧
      (stats.isZero = true →
        Cleanup.clearLocals (recover options cls).cls = Cleanup.clearLocals cls)) ∧
    ∀ name data,
      ((processClass options name data).outcome = .unchanged ↔
        ∃ cls stats, Class.decode data = .ok cls ∧ (recover options cls).result = .ok stats ∧
          (recover options cls).cls.contents = cls.contents) ∧
      ((processClass options name data).outcome = .unchanged →
        (processClass options name data).bytes = none ∧
        (processFile options name data).data = data ∧
        ∀ entry : ArchiveEntry, entry.name = name → entry.data = data →
          entry.withResult (entry.process options) = entry) := by
  refine ⟨fun cls stats fine => ⟨isZero_iff_same_contents fine, recover_of_zero fine⟩,
    fun name data => ⟨?_, fun unchanged => ?_⟩⟩
  · rw [processClass_unchanged_iff]
    constructor
    · rintro ⟨cls, stats, decoded, fine, nothing⟩
      exact ⟨cls, stats, decoded, fine, (isZero_iff_same_contents fine).mp nothing⟩
    · rintro ⟨cls, stats, decoded, fine, same⟩
      exact ⟨cls, stats, decoded, fine, (isZero_iff_same_contents fine).mpr same⟩
  · have none := processClass_bytes_of_unchanged unchanged
    refine ⟨none, ?_, ?_⟩
    · simp only [processFile]
      split
      · rw [none, Option.getD_none]
      · rfl
    · rintro entry rfl rfl
      simp only [ArchiveEntry.process]
      split
      · rw [ArchiveEntry.withResult, none]
      · rfl

/-- The file of a class `A` whose static initializer pushes a number and drops
it. -/
def idleFile : Bytes :=
  [0xCA, 0xFE, 0xBA, 0xBE, 0, 0, 0, 52, 0, 6, 1, 0, 1, 65, 7, 0, 1,
   1, 0, 8, 60, 99, 108, 105, 110, 105, 116, 62, 1, 0, 3, 40, 41, 86, 1, 0, 4, 67, 111, 100, 101,
   0, 32, 0, 2, 0, 0, 0, 0, 0, 0, 0, 1, 0, 8, 0, 3, 0, 4, 0, 1,
   0, 5, 0, 0, 0, 15, 0, 1, 0, 0, 0, 0, 0, 3, 8, 87, 177, 0, 0, 0, 0, 0, 0]

/-- The idle class is passed on as it is; a class with a table that is read back
is not what it was. -/
theorem idleFile_unchanged :
    (processClass ⟨.combine⟩ "A.class" idleFile).outcome = .unchanged ∧
    (processFile ⟨.combine⟩ "A.class" idleFile).data = idleFile ∧
    (recover ⟨.combine⟩ readBack).result = .ok ⟨0, 1, 0, 0, 0, 0, 1, 0, 1⟩ ∧
    (recover ⟨.combine⟩ readBack).cls.contents ≠ readBack.contents := by
  obtain ⟨counted, processed⟩ := counts_nothing_iff_unchanged ⟨.combine⟩
  have unchanged : (processClass ⟨.combine⟩ "A.class" idleFile).outcome = .unchanged := by
    decide +kernel
  have fine : (recover ⟨.combine⟩ readBack).result = .ok ⟨0, 1, 0, 0, 0, 0, 1, 0, 1⟩ := rfl
  refine ⟨unchanged, ((processed _ _).2 unchanged).2.1, fine, fun same => ?_⟩
  have zero := (counted readBack _ fine).1.mpr same
  simp [Stats.isZero, Stats.zero] at zero

end LiteralRecovery
