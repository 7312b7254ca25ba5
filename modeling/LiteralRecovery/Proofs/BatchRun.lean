import LiteralRecovery.CommandLine.Session
import LiteralRecovery.Proofs.ArchiveReadBack
import LiteralRecovery.Proofs.ClassRoundTrip
import LiteralRecovery.Proofs.CountedChanges
import Mathlib.Data.List.Induction

/-! Runs over many entries. Every entry is handled on its own, so what one of them
holds makes no difference to the others; it is passed on and reported in its place,
and the totals add up. A class file on its own fares like the only entry of an
archive. What a run over an archive has written is read as what became of its entries. -/
namespace LiteralRecovery

/-! ### What becomes of an entry -/

/-- Whether a run looks into the entry. -/
def ArchiveEntry.HoldsClass (entry : ArchiveEntry) : Prop :=
  entry.isDirectory = false ∧ Grammar.looksLikeClass entry.data = true

/-- The ways of an entry through a run: what is reported, and the data that is
passed on. -/
inductive ArchiveEntry.Fares (options : Options) (entry : ArchiveEntry) : Outcome → Bytes → Prop
  | copied (other : ¬ entry.HoldsClass) : entry.Fares options .copied entry.data
  | unreadable {error : ClassError} (held : entry.HoldsClass)
      (decoded : Class.decode entry.data = .error error) :
      entry.Fares options (.skipped error.message) entry.data
  | unrecovered {cls : Class} {error : RecoveryError} (held : entry.HoldsClass)
      (decoded : Class.decode entry.data = .ok cls)
      (fault : (recover options cls).result = .error error) :
      entry.Fares options (.failed error.message) entry.data
  | unchanged {cls : Class} {stats : Stats} (held : entry.HoldsClass)
      (decoded : Class.decode entry.data = .ok cls)
      (fine : (recover options cls).result = .ok stats) (nothing : stats.isZero = true) :
      entry.Fares options .unchanged entry.data
  | unwritten {cls : Class} {stats : Stats} {error : EncodeError} (held : entry.HoldsClass)
      (decoded : Class.decode entry.data = .ok cls)
      (fine : (recover options cls).result = .ok stats) (counted : stats.isZero = false)
      (fault : (recover options cls).cls.encode.1 = .error error) :
      entry.Fares options (.failed error.message) entry.data
  | transformed {cls : Class} {stats : Stats} {data : Bytes} (held : entry.HoldsClass)
      (decoded : Class.decode entry.data = .ok cls)
      (fine : (recover options cls).result = .ok stats) (counted : stats.isZero = false)
      (written : (recover options cls).cls.encode.1 = .ok data) :
      entry.Fares options (.transformed stats) data

/-- Neither the outcome of a class nor its new bytes depend on the name it has in
messages. -/
theorem processClass_rename (options : Options) (name name' : String) (data : Bytes) :
    (processClass options name data).outcome = (processClass options name' data).outcome ∧
      (processClass options name data).bytes = (processClass options name' data).bytes := by
  unfold processClass
  cases Class.decode data with
  | error error => exact ⟨rfl, rfl⟩
  | ok cls =>
    dsimp only
    cases (recover options cls).result with
    | error error => exact ⟨rfl, rfl⟩
    | ok stats =>
      dsimp only
      split
      · exact ⟨rfl, rfl⟩
      · cases (recover options cls).cls.encode.1 <;> exact ⟨rfl, rfl⟩

namespace ArchiveEntry

variable {options : Options} {entry : ArchiveEntry} {outcome : Outcome} {data : Bytes}

theorem process_of_holdsClass (held : entry.HoldsClass) :
    entry.process options = processClass options entry.name entry.data := by
  rw [process, held.1, held.2]
  rfl

theorem process_of_not_holdsClass (other : ¬ entry.HoldsClass) :
    entry.process options = ⟨.copied, none, #[]⟩ := by
  rw [process, if_neg]
  simpa [HoldsClass] using other

/-- An entry's data after a run is its new bytes, or what it was. -/
theorem withResult_eq (entry : ArchiveEntry) (processed : Processed) :
    entry.withResult processed = { entry with data := processed.bytes.getD entry.data } := by
  rw [withResult]
  split <;> simp_all

/-- A run takes every entry one of the ways there are. -/
theorem process_fares (options : Options) (entry : ArchiveEntry) :
    entry.Fares options (entry.process options).outcome
      ((entry.process options).bytes.getD entry.data) := by
  by_cases held : entry.HoldsClass
  · rw [process_of_holdsClass held, processClass]
    split
    · rename_i error decoded
      exact .unreadable held decoded
    · rename_i cls decoded
      dsimp only
      split
      · rename_i error fault
        exact .unrecovered held decoded fault
      · rename_i stats fine
        split
        · rename_i nothing
          exact .unchanged held decoded fine nothing
        · rename_i counted
          rw [Bool.not_eq_true] at counted
          split
          · rename_i data written
            exact .transformed held decoded fine counted written
          · rename_i error fault
            exact .unwritten held decoded fine counted fault
  · rw [process_of_not_holdsClass held]
    exact .copied held

namespace Fares

theorem data_eq (fares : entry.Fares options outcome data)
    (others : ∀ stats, outcome ≠ .transformed stats) : data = entry.data := by
  cases fares with
  | transformed _ _ _ _ _ => exact absurd rfl (others _)
  | copied _ | unreadable _ _ | unrecovered _ _ _ | unchanged _ _ _ _ | unwritten _ _ _ _ _ => rfl

theorem copied_iff (fares : entry.Fares options outcome data) :
    outcome = .copied ↔ ¬ entry.HoldsClass := by
  cases fares with
  | copied other => exact iff_of_true rfl other
  | unreadable held _ | unrecovered held _ _ | unchanged held _ _ _ | unwritten held _ _ _ _
  | transformed held _ _ _ _ => exact iff_of_false nofun (not_not_intro held)

end Fares

end ArchiveEntry

/-- What holds of an entry, what is passed on for it and what is reported. -/
structure Handled (options : Options) (entry output : ArchiveEntry) (report : EntryReport) :
    Prop where
  named : report.name = entry.name
  /-- Only the data of an entry may be new. -/
  kept : output = { entry with data := output.data }
  fares : entry.Fares options report.outcome output.data
  /-- New data is reported as such. -/
  reported : output.data ≠ entry.data → ∃ stats, report.outcome = .transformed stats
  /-- New data is that of the recovered class. -/
  transformed : ∀ stats, report.outcome = .transformed stats → ∃ cls,
    Class.decode entry.data = .ok cls ∧ (recover options cls).result = .ok stats ∧
      stats.isZero = false ∧ (recover options cls).cls.encode.1 = .ok output.data
  copied : report.outcome = .copied ↔
    entry.isDirectory = true ∨ Grammar.looksLikeClass entry.data = false

theorem ArchiveEntry.process_handled (options : Options) (entry : ArchiveEntry) :
    Handled options entry (entry.withResult (entry.process options))
      ⟨entry.name, (entry.process options).outcome⟩ := by
  rw [withResult_eq]
  have fares := process_fares options entry
  refine ⟨rfl, rfl, fares, fun differs => ?_, fun stats same => ?_, ?_⟩
  · by_contra others
    exact differs (fares.data_eq fun stats same => others ⟨stats, same⟩)
  · dsimp only at same ⊢
    rw [same] at fares
    cases fares with
    | transformed held decoded fine counted written =>
      exact ⟨_, decoded, fine, counted, written⟩
  · rw [fares.copied_iff, HoldsClass, not_and_or, Bool.not_eq_false, Bool.not_eq_true]

/-- The data of a transformed entry is that of a class file that reads as the recovered
class. -/
theorem Handled.rereads {options : Options} {entry output : ArchiveEntry} {report : EntryReport}
    {stats : Stats} (handled : Handled options entry output report)
    (outcome : report.outcome = .transformed stats) :
    ∃ cls file again, Class.decode entry.data = .ok cls ∧
      (recover options cls).result = .ok stats ∧ file.encode? = some output.data ∧
      Class.ofFile file = .ok again ∧ (recover options cls).cls.Rereads again := by
  obtain ⟨cls, decoded, fine, -, written⟩ := handled.transformed stats outcome
  obtain ⟨file, again, bytes, back, same⟩ :=
    Class.encode_rereads decoded (recover_edits fine) written
  exact ⟨cls, file, again, decoded, fine, bytes, back, same⟩

/-! ### Totals -/

/-- Sums of all counters. -/
def Stats.sum (all : List Stats) : Stats where
  folded := (all.map (·.folded)).sum
  resolvedInts := (all.map (·.resolvedInts)).sum
  resolvedLongs := (all.map (·.resolvedLongs)).sum
  resolvedStrings := (all.map (·.resolvedStrings)).sum
  defaulted := (all.map (·.defaulted)).sum
  strippedStores := (all.map (·.strippedStores)).sum
  removedFields := (all.map (·.removedFields)).sum
  removedMethods := (all.map (·.removedMethods)).sum
  removedAllocations := (all.map (·.removedAllocations)).sum

theorem Stats.sum_concat (all : List Stats) (last : Stats) :
    sum (all ++ [last]) = (sum all).add last := by
  simp [sum, add]

/-- Outcomes by name. -/
inductive OutcomeKind where
  | transformed | unchanged | copied | skipped | failed
deriving DecidableEq

namespace Outcome

def kind : Outcome → OutcomeKind
  | .transformed _ => .transformed
  | .unchanged => .unchanged
  | .copied => .copied
  | .skipped _ => .skipped
  | .failed _ => .failed

/-- The counters of a transformed class. -/
def stats? : Outcome → Option Stats
  | .transformed stats => some stats
  | _ => none

end Outcome

namespace Totals

/-- How many outcomes of a kind there were. -/
def countOf (totals : Totals) : OutcomeKind → Nat
  | .transformed => totals.transformed
  | .unchanged => totals.unchanged
  | .copied => totals.copied
  | .skipped => totals.skipped
  | .failed => totals.failed

/-- The totals are those of the outcomes. -/
structure Account (totals : Totals) (outcomes : List Outcome) : Prop where
  entries : totals.entries = outcomes.length
  counted : ∀ kind, totals.countOf kind = (outcomes.map Outcome.kind).count kind
  copied : totals.entries = totals.copied + totals.classes
  classes : totals.classes =
    totals.transformed + totals.unchanged + totals.skipped + totals.failed
  stats : totals.stats = .sum (outcomes.filterMap Outcome.stats?)

variable {totals : Totals} {outcomes : List Outcome}

theorem countOf_add (totals : Totals) (outcome : Outcome) (kind : OutcomeKind) :
    (totals.add outcome).countOf kind =
      totals.countOf kind + if outcome.kind = kind then 1 else 0 := by
  cases outcome <;> cases kind <;> rfl

theorem Account.add (account : totals.Account outcomes) (outcome : Outcome) :
    (totals.add outcome).Account (outcomes ++ [outcome]) := by
  obtain ⟨entries, counted, copied, classes, stats⟩ := account
  refine ⟨?_, fun kind => ?_, ?_, ?_, ?_⟩
  · rw [List.length_append, List.length_singleton, ← entries]
    cases outcome <;> rfl
  · rw [countOf_add, counted, List.map_append, List.count_append, List.map_singleton,
      List.count_singleton]
    simp only [beq_iff_eq]
  · cases outcome <;> simp only [Totals.add] <;> omega
  · cases outcome <;> simp only [Totals.add] <;> omega
  · rw [List.filterMap_append]
    cases outcome with
    | transformed latest =>
      exact (congrArg (Stats.add · latest) stats).trans (Stats.sum_concat _ latest).symm
    | unchanged | copied | skipped _ | failed _ =>
      exact stats.trans (congrArg Stats.sum (List.append_nil _).symm)

theorem account_ofOutcomes (outcomes : List Outcome) : (ofOutcomes outcomes).Account outcomes := by
  induction outcomes using List.reverseRecOn with
  | nil => exact ⟨rfl, fun kind => by cases kind <;> rfl, rfl, rfl, rfl⟩
  | append_singleton before last ih =>
    rw [ofOutcomes, List.foldl_concat]
    exact ih.add last

end Totals

/-! ### Runs over entries -/

/-- The entries of a run are those it was given, each of them handled, and what the
run reports is what became of them. -/
structure Batch (options : Options) (entries : List ArchiveEntry) (run : ArchiveRun) : Prop where
  names : run.entries.map (·.name) = entries.map (·.name)
  order : run.summary.reports.map (·.name) = entries.map (·.name)
  handled : ∀ (index : Nat) entry, entries[index]? = some entry → ∃ output report,
    run.entries[index]? = some output ∧ run.summary.reports[index]? = some report ∧
      Handled options entry output report
  totals : run.summary.totals.Account (run.summary.reports.map (·.outcome))

theorem processArchive_batch (options : Options) (entries : List ArchiveEntry) :
    Batch options entries (processArchive options entries) where
  names := by simp [processArchive, ArchiveEntry.withResult_eq]
  order := by simp [processArchive]
  handled := by
    intro index entry here
    refine ⟨_, _, ?_, ?_, entry.process_handled options⟩
    · simp [processArchive, here]
    · simp [processArchive, here]
  totals := Totals.account_ofOutcomes _

/-- Entries side by side make no difference to each other. -/
theorem processArchive_append (options : Options) (front back : List ArchiveEntry) :
    (processArchive options (front ++ back)).entries =
        (processArchive options front).entries ++ (processArchive options back).entries ∧
      (processArchive options (front ++ back)).summary.reports =
        (processArchive options front).summary.reports ++
          (processArchive options back).summary.reports := by
  simp [processArchive]

/-- A class file on its own fares like the only entry of an archive, whatever
their names. -/
theorem processFile_eq_processArchive (options : Options) (name : String) {entry : ArchiveEntry}
    (file : entry.isDirectory = false) :
    (processArchive options [entry]).entries =
        [{ entry with data := (processFile options name entry.data).data }] ∧
      (processArchive options [entry]).summary.reports.map (·.outcome) =
        (processFile options name entry.data).summary.reports.map (·.outcome) := by
  obtain ⟨outcome, bytes⟩ := processClass_rename options entry.name name entry.data
  simp only [processArchive, processFile, ArchiveEntry.withResult_eq, List.map_cons, List.map_nil]
  by_cases looks : Grammar.looksLikeClass entry.data = true
  · rw [ArchiveEntry.process_of_holdsClass ⟨file, looks⟩, if_pos looks, bytes, outcome]
    exact ⟨rfl, rfl⟩
  · rw [ArchiveEntry.process_of_not_holdsClass fun held => looks held.2, if_neg looks]
    exact ⟨rfl, rfl⟩

/-- What a run makes of entries that were read fits if names are not too long and there is
room. -/
theorem Zip.fits_processArchive {options : Options} {data : Bytes} {others : Zip.Unpacker}
    {entries : List ArchiveEntry} (read : Zip.read data others = .ok entries)
    (titles : ∀ entry ∈ entries, (Zip.title entry).length < 0x10000)
    (room : (Zip.write (processArchive options entries).entries).length < 0x100000000) :
    Zip.Fits (processArchive options entries).entries := by
  obtain ⟨distinct, directories, few⟩ := Zip.read_shape read
  refine ⟨(processArchive_batch options entries).names ▸ distinct, ?_, ?_, ?_, room⟩
  · simpa [processArchive, ArchiveEntry.withResult_eq] using directories
  · simpa [processArchive, ArchiveEntry.withResult_eq, Zip.title] using titles
  · simpa [processArchive] using few

/-! ### Runs against a host -/

namespace CommandLine

variable {σ : Type} {host : Host (StateM σ)} {filter : LogFilter} {options : Options}
variable {input output : String} {before after : σ} {summary : Summary}

/-- A run that ends with a write succeeds exactly if the write does. -/
theorem yields_deliver {data : Bytes} {value : Summary} {error : RunError} {events : List Event} :
    Yields (do
      logEvents host filter events
      unless ← host.writeFile output data do throw error
      return value) before summary after ↔
    summary = value ∧ ∃ ready, Yields (logEvents host filter events) before () ready ∧
      host.writeFile output data ready = (true, after) := by
  rw [yields_bind]
  constructor
  · rintro ⟨_, ready, logs, rest⟩
    obtain ⟨written, _, writes, rest⟩ := yields_bind.mp rest
    cases written with
    | false => cases rest
    | true =>
      obtain ⟨rfl, rfl⟩ := yields_pure.mp rest
      exact ⟨rfl, ready, logs, yields_lift.mp writes⟩
  · rintro ⟨rfl, ready, logs, writes⟩
    exact ⟨(), ready, logs, yields_bind.mpr ⟨true, after, yields_lift.mpr writes, rfl⟩⟩

/-- The host first gives `taken` for the input; then, with the events logged, it
writes `given` as the output. -/
def Delivers (host : Host (StateM σ)) (filter : LogFilter) (input output : String)
    (before after : σ) (taken : Bytes) (events : List Event) (given : Bytes) : Prop :=
  ∃ between ready, host.readFile input before = (.ok taken, between) ∧
    Yields (logEvents host filter events) between () ready ∧
    host.writeFile output given ready = (true, after)

theorem yields_runArchive :
    Yields (runArchive host filter options input output) before summary after ↔
      ∃ data entries run, Zip.read data host.unpacker = .ok entries ∧
        run = processArchive options entries ∧ summary = run.summary ∧
        Delivers host filter input output before after data run.events (Zip.write run.entries) := by
  constructor
  · intro yields
    obtain ⟨found, between, reads, rest⟩ := yields_bind.mp yields
    rw [yields_lift] at reads
    cases found with
    | error fault => cases fault <;> cases rest
    | ok data =>
      simp only [pure_bind] at rest
      cases held : Zip.read data host.unpacker with
      | error fault =>
        rw [held] at rest
        cases fault <;> cases rest
      | ok entries =>
        rw [held] at rest
        obtain ⟨same, ready, logs, writes⟩ := yields_deliver.mp rest
        exact ⟨data, entries, _, held, rfl, same, between, ready, reads, logs, writes⟩
  · rintro ⟨data, entries, _, held, rfl, same, between, ready, reads, logs, writes⟩
    refine yields_bind.mpr ⟨.ok data, between, yields_lift.mpr reads, ?_⟩
    simp only [pure_bind, held]
    exact yields_deliver.mpr ⟨same, ready, logs, writes⟩

theorem yields_runClassFile :
    Yields (runClassFile host filter options input output) before summary after ↔
      ∃ data run, run = processFile options input data ∧ summary = run.summary ∧
        Delivers host filter input output before after data run.events run.data := by
  constructor
  · intro yields
    obtain ⟨found, between, reads, rest⟩ := yields_bind.mp yields
    rw [yields_lift] at reads
    cases found with
    | error fault => cases rest
    | ok data =>
      obtain ⟨same, ready, logs, writes⟩ := yields_deliver.mp rest
      exact ⟨data, _, rfl, same, between, ready, reads, logs, writes⟩
  · rintro ⟨data, _, rfl, same, between, ready, reads, logs, writes⟩
    exact yields_bind.mpr ⟨.ok data, between, yields_lift.mpr reads,
      yields_deliver.mpr ⟨same, ready, logs, writes⟩⟩

end CommandLine

open CommandLine

/-- The archive that a run writes is read as what became of the entries, in their order. -/
theorem runArchive_reads_back {σ : Type} {host : Host (StateM σ)} {filter : LogFilter}
    {options : Options} {input output : String} {before after : σ} {summary : Summary}
    (yields : Yields (runArchive host filter options input output) before summary after) :
    ∃ data entries given, Zip.read data host.unpacker = .ok entries ∧
      Delivers host filter input output before after data (processArchive options entries).events
        given ∧
      ((∀ entry ∈ entries, (Zip.title entry).length < 0x10000) → given.length < 0x100000000 →
        ∀ others, ∃ again, Zip.read given others = .ok again ∧ Zip.write again = given ∧
          ∀ (index : Nat) entry, entries[index]? = some entry → ∃ processed report,
            again[index]? = some (Zip.restored processed) ∧
            summary.reports[index]? = some report ∧ Handled options entry processed report) := by
  obtain ⟨data, entries, _, read, rfl, rfl, delivers⟩ := yields_runArchive.mp yields
  refine ⟨data, entries, _, read, delivers, fun titles room others => ?_⟩
  have fits := Zip.fits_processArchive read titles room
  refine ⟨_, Zip.read_write fits others, Zip.write_restored _, fun index entry here => ?_⟩
  obtain ⟨processed, report, there, reported, handled⟩ :=
    (processArchive_batch options entries).handled index entry here
  exact ⟨processed, report, by rw [List.getElem?_map, there]; rfl, reported, handled⟩

/-- A run passes on one entry for each it was given, in their order and handled as
it should be, and reports what became of them. An entry makes no difference to
those before and behind it, and a class file on its own has the outcome and the data
that it has as the only entry of an archive. Against a host a run succeeds exactly
if the input can be read and what it passes on can be written. -/
theorem runs_handle_entries_alone (options : Options) :
    (∀ entries, Batch options entries (processArchive options entries)) ∧
    (∀ front entry back, ∃ output report,
      (processArchive options (front ++ entry :: back)).entries =
        (processArchive options front).entries ++
          output :: (processArchive options back).entries ∧
      (processArchive options (front ++ entry :: back)).summary.reports =
        (processArchive options front).summary.reports ++
          report :: (processArchive options back).summary.reports) ∧
    (∀ name (entry : ArchiveEntry), entry.isDirectory = false →
      (processArchive options [entry]).entries =
        [{ entry with data := (processFile options name entry.data).data }] ∧
      (processArchive options [entry]).summary.reports.map (·.outcome) =
        (processFile options name entry.data).summary.reports.map (·.outcome)) ∧
    ∀ {σ : Type} (host : Host (StateM σ)) filter input output before summary after,
      (Yields (runArchive host filter options input output) before summary after ↔
        ∃ data entries run, Zip.read data host.unpacker = .ok entries ∧
          run = processArchive options entries ∧ summary = run.summary ∧
          Delivers host filter input output before after data run.events
            (Zip.write run.entries)) ∧
      (Yields (runClassFile host filter options input output) before summary after ↔
        ∃ data run, run = processFile options input data ∧ summary = run.summary ∧
          Delivers host filter input output before after data run.events run.data) := by
  refine ⟨processArchive_batch options, fun front entry back => ?_,
    fun name entry file => processFile_eq_processArchive options name file,
    fun _ _ _ _ _ _ _ => ⟨yields_runArchive, yields_runClassFile⟩⟩
  obtain ⟨outputs, reports⟩ := processArchive_append options front (entry :: back)
  exact ⟨_, _, outputs, reports⟩

section Mixed

/-- A host with room for one file, which goes by every name. -/
def slotHost : Host (StateM Bytes) where
  pathExists _ := return true
  readFile _ := return .ok (← get)
  writeFile _ data := do
    set data
    return true
  print _ := return ()
  complain _ := return ()
  elapsed := return "0"
  unpacker := Zip.noUnpacker

theorem yields_logEvents_slotHost (filter : LogFilter) (events : List Event) (slot : Bytes) :
    Yields (logEvents slotHost filter events) slot () slot := by
  unfold logEvents
  induction events.filter filter.admits with
  | nil => rfl
  | cons event events ih => exact yields_bind.mpr ⟨(), slot, yields_lift.mpr rfl, ih⟩

/-- The file of a class `A` with the given code in its static initializer. -/
def codeFile (code : Bytes) : Bytes :=
  [0xCA, 0xFE, 0xBA, 0xBE, 0, 0, 0, 52, 0, 6, 1, 0, 1, 65, 7, 0, 1,
   1, 0, 8, 60, 99, 108, 105, 110, 105, 116, 62, 1, 0, 3, 40, 41, 86, 1, 0, 4, 67, 111, 100, 101,
   0, 32, 0, 2, 0, 0, 0, 0, 0, 0, 0, 1, 0, 8, 0, 3, 0, 4, 0, 1,
   0, 5, 0, 0, 0, 12 + code.length.toUInt8, 0, 2, 0, 0, 0, 0, 0, code.length.toUInt8] ++ code ++
  [0, 0, 0, 0, 0, 0]

/-- A class that works out a number, once with the expression and once with the
number in its place. -/
def busyFile : Bytes := codeFile [8, 6, 130, 87, 177]

@[inherit_doc busyFile]
def foldedFile : Bytes := codeFile [16, 6, 87, 177]

def busyEntry : ArchiveEntry := ⟨"A.class", false, true, some 0o644, busyFile⟩

@[inherit_doc foldedFile]
def foldedEntry : ArchiveEntry := ⟨"A.class", false, true, some 0o644, foldedFile⟩

/-- A directory, and a file that begins like a class and ends too soon. -/
def dullEntries : List ArchiveEntry :=
  [⟨"d/", true, true, some 0o755, []⟩,
   ⟨"d/B.class", false, true, some 0o644, [0xCA, 0xFE, 0xBA, 0xBE, 0, 0, 0, 52, 0, 9]⟩]

/-- What is reported of them. -/
def dullSummary : Summary :=
  ⟨[⟨"d/", .copied⟩, ⟨"d/B.class", .skipped
    "failed to parse class file bytes: not the structure of a class file"⟩]⟩

def busySummary : Summary := ⟨[⟨"A.class", .transformed ⟨1, 0, 0, 0, 0, 0, 0, 0, 0⟩⟩]⟩

theorem read_mixed (others : Zip.Unpacker) {entry : ArchiveEntry}
    (held : entry ∈ [busyEntry, foldedEntry]) :
    Zip.read (Zip.write (dullEntries ++ [entry])) others = .ok (dullEntries ++ [entry]) := by
  simp only [List.mem_cons, List.not_mem_nil, or_false] at held
  have fits : Zip.Fits (dullEntries ++ [entry]) := by
    rcases held with rfl | rfl <;>
      exact ⟨by decide, by decide, by decide +kernel, by decide, by decide +kernel⟩
  refine Zip.read_write_self fits others ?_
  rcases held with rfl | rfl <;> decide

/-- The archive is written as it was read but for the class in it, and is read as it was
written; the class is recovered alone and among the other entries, and the broken file
shows in the totals. -/
theorem mixed_handled_alone :
    (∃ data entries run, Zip.read data slotHost.unpacker = .ok entries ∧
      run = processArchive ⟨.combine⟩ entries ∧ dullSummary = run.summary ∧
      Delivers slotHost ⟨[], none⟩ "a.jar" "b.jar" (Zip.write dullEntries) (Zip.write dullEntries)
        data run.events (Zip.write run.entries)) ∧
    Yields (runArchive slotHost ⟨[], none⟩ ⟨.combine⟩ "a.jar" "b.jar")
      (Zip.write (dullEntries ++ [busyEntry])) ⟨dullSummary.reports ++ busySummary.reports⟩
      (Zip.write (dullEntries ++ [foldedEntry])) ∧
    Zip.read (Zip.write (dullEntries ++ [foldedEntry])) slotHost.unpacker =
      .ok (dullEntries ++ [foldedEntry]) ∧
    (∃ data run, run = processFile ⟨.combine⟩ "A.class" data ∧ busySummary = run.summary ∧
      Delivers slotHost ⟨[], none⟩ "A.class" "A.class" busyFile foldedFile data run.events
        run.data) ∧
    (processArchive ⟨.combine⟩ [busyEntry]).entries = [foldedEntry] ∧
    (∃ output report,
      (processArchive ⟨.combine⟩ (dullEntries ++ [busyEntry])).entries[2]? = some output ∧
      (processArchive ⟨.combine⟩ (dullEntries ++ [busyEntry])).summary.reports[2]? =
        some report ∧
      Handled ⟨.combine⟩ busyEntry output report) ∧
    (processArchive ⟨.combine⟩ (dullEntries ++ [busyEntry])).summary.totals =
      ⟨3, 2, 1, 0, 1, 1, 0, ⟨1, 0, 0, 0, 0, 0, 0, 0, 0⟩⟩ := by
  obtain ⟨batch, _, alone, runs⟩ := runs_handle_entries_alone ⟨.combine⟩
  have archive : Yields (runArchive slotHost ⟨[], none⟩ ⟨.combine⟩ "a.jar" "b.jar")
      (Zip.write dullEntries) dullSummary (Zip.write dullEntries) := by
    change @Eq (Except RunError Summary × Bytes) _ _
    decide +kernel
  have file : Yields (runClassFile slotHost ⟨[], none⟩ ⟨.combine⟩ "A.class" "A.class") busyFile
      busySummary foldedFile := by
    change @Eq (Except RunError Summary × Bytes) _ _
    decide +kernel
  have outputs : (processArchive ⟨.combine⟩ (dullEntries ++ [busyEntry])).entries =
      dullEntries ++ [foldedEntry] := by decide +kernel
  have data : (processFile ⟨.combine⟩ "A.class" busyFile).data = foldedFile := by decide +kernel
  refine ⟨(runs slotHost _ _ _ _ _ _).1.mp archive, ?_, read_mixed _ (.tail _ (.head _)),
    (runs slotHost _ _ _ _ _ _).2.mp file, ?_,
    (batch (dullEntries ++ [busyEntry])).handled 2 busyEntry rfl, by decide +kernel⟩
  · refine (runs slotHost _ _ _ _ _ _).1.mpr ⟨_, _, _, read_mixed _ (.head _), rfl, ?_, ?_⟩
    · decide +kernel
    · rw [outputs]
      exact ⟨_, _, rfl, yields_logEvents_slotHost _ _ _, rfl⟩
  · rw [foldedEntry, ← data]
    exact (alone "A.class" busyEntry rfl).1

end Mixed

end LiteralRecovery
