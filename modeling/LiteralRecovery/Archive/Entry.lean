import LiteralRecovery.Bytes

/-! Members of an archive, free of the container format. -/
namespace LiteralRecovery

/-- A file or directory in an archive. -/
structure ArchiveEntry where
  name : String
  isDirectory : Bool
  /-- Kept without compression. -/
  stored : Bool
  /-- Permission bits, where the archive has any. -/
  permissions : Option Nat
  data : Bytes
deriving DecidableEq

/-- Why an archive could not be read. -/
inductive ArchiveError where
  | unreadable
  | damagedEntry (name : String)
deriving DecidableEq

namespace ArchiveEntry

/-- A name that ends in a slash, of either kind, is a directory's. -/
def isDirectoryName (name : String) : Bool :=
  match name.toList.getLast? with
  | some c => c = '/' || c = '\\'
  | none => false

end ArchiveEntry

end LiteralRecovery
