import LiteralRecovery.CommandLine.Session

/-! Files held in memory, for runs without a file system. A path is resolved
from the one top folder; a file can only be created in a folder that exists. -/
namespace LiteralRecovery.CommandLine

/-- A path as its parts. -/
abbrev Location := List String

/-- Files and folders by location; the top folder is always there, and so are
those above it. -/
structure Drive where
  files : List (Location × Bytes)
  folders : List Location

namespace Drive

def empty : Drive := ⟨[], []⟩

def isFolder (drive : Drive) (location : Location) : Bool :=
  location.all (· = "..") || drive.folders.contains location

def file? (drive : Drive) (location : Location) : Option Bytes := drive.files.lookup location

/-- The longest name a file can have, in bytes. -/
def maxNameLength : Nat := 255

/-- Follows the parts of a path. Whatever is passed through has to be a folder,
and the way up from the top leads to folders with nothing in them. -/
def follow (drive : Drive) : Location → List String → Option Location
  | here, [] => some here
  | here, part :: rest =>
    if !drive.isFolder here || maxNameLength < part.utf8ByteSize then none
    else if part = "" || part = "." then drive.follow here rest
    else if part = ".." && here.getLast?.any (· ≠ "..") then drive.follow here.dropLast rest
    else drive.follow (here ++ [part]) rest

/-- The location a path names, whether or not there is something. Absolute paths
name none. -/
def locate (drive : Drive) (path : String) : Option Location :=
  if path.startsWith "/" then none else drive.follow [] (path.splitOn "/")

/-- Makes a folder, and those it lies in. -/
def addFolder (drive : Drive) (location : Location) : Drive :=
  let parents := (List.range location.length).map fun count => location.take (count + 1)
  { drive with folders := parents ++ drive.folders }

/-- Puts a file at a location, in place of one that is there. -/
def addFile (drive : Drive) (location : Location) (data : Bytes) : Drive :=
  { drive with files := (location, data) :: drive.files.filter (·.1 ≠ location) }

/-- The location of a path that exists. -/
def found? (drive : Drive) (path : String) : Option Location :=
  (drive.locate path).filter fun location =>
    drive.isFolder location || (drive.file? location).isSome

def read (drive : Drive) (path : String) : Except ReadFault Bytes :=
  match drive.found? path with
  | some location =>
    match drive.file? location with
    | some data => .ok data
    | none => .error .cannotRead
  | none => .error .cannotOpen

/-- The drive with the file written, if it can be. -/
def write? (drive : Drive) (path : String) (data : Bytes) : Option Drive := do
  let location ← drive.locate path
  if drive.isFolder location then none else return drive.addFile location data

end Drive

/-- A drive, with what was written to the two streams. -/
structure Desk where
  drive : Drive
  output : String
  errors : String

/-- The host that a desk is. -/
def Desk.host (elapsed : String) : Host (StateM Desk) where
  pathExists path := do return ((← get).drive.found? path).isSome
  readFile path := do return (← get).drive.read path
  writeFile path data := do
    match (← get).drive.write? path data with
    | some drive =>
      modify fun desk => { desk with drive }
      return true
    | none => return false
  print text := modify fun desk => { desk with output := desk.output ++ text }
  complain text := modify fun desk => { desk with errors := desk.errors ++ text }
  elapsed := return elapsed
  unpacker := Zip.noUnpacker

end LiteralRecovery.CommandLine
