import LiteralRecovery.Archive.Entry
import LiteralRecovery.Run.Summary

/-! A run over an archive or over a single class file. Every entry is processed
on its own; an entry whose class was not transformed stays as it was. -/
namespace LiteralRecovery

/-- Entries after a run, in input order, with the report and the log. -/
structure ArchiveRun where
  entries : List ArchiveEntry
  summary : Summary
  events : List Event

namespace ArchiveEntry

/-- Processes one entry. Only files that look like a class are looked into. -/
def process (options : Options) (entry : ArchiveEntry) : Processed :=
  if !entry.isDirectory && Grammar.looksLikeClass entry.data then
    processClass options entry.name entry.data
  else { outcome := .copied, bytes := none, events := #[] }

/-- The entry with its new bytes, if there are any. -/
def withResult (entry : ArchiveEntry) (processed : Processed) : ArchiveEntry :=
  match processed.bytes with
  | some data => { entry with data }
  | none => entry

end ArchiveEntry

/-- Processes all entries of an archive. -/
def processArchive (options : Options) (entries : List ArchiveEntry) : ArchiveRun :=
  let results := entries.map fun entry => (entry, entry.process options)
  { entries := results.map fun (entry, processed) => entry.withResult processed
    summary := ⟨results.map fun (entry, processed) => ⟨entry.name, processed.outcome⟩⟩
    events := results.flatMap fun (_, processed) => processed.events.toList }

/-- A class file after a run, with the report and the log. -/
structure FileRun where
  data : Bytes
  summary : Summary
  events : List Event

/-- Processes a single class file. -/
def processFile (options : Options) (name : String) (data : Bytes) : FileRun :=
  let processed : Processed :=
    if Grammar.looksLikeClass data then processClass options name data
    else { outcome := .copied, bytes := none, events := #[.notAClass name] }
  { data := processed.bytes.getD data
    summary := ⟨[⟨name, processed.outcome⟩]⟩
    events := processed.events.toList }

end LiteralRecovery
