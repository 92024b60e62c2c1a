/-
A directory tree with symbolic links.

Pathnames are followed name by name: `..` goes to the parent of the
directory that was reached, a link goes on with its target, and every
name but the last has to lead to a directory. Files can be made in
directories that are there; directories cannot.
-/
import Inlay.FileSystem.Basic
import Inlay.Pathname

namespace Inlay

/-- The names from the root to a place, the last one first. -/
abbrev DiskPath := List (List Char)

/-- What is found under a name in a directory. -/
inductive DiskEntry where
  | file (data : String)
  /-- A symbolic link with the pathname it stands for. -/
  | link (target : List Char)
  | directory
  deriving DecidableEq, Repr

structure Disk where
  entries : List (DiskPath × DiskEntry)
  workingDirectory : DiskPath

/-- Where a pathname leads. -/
inductive Disk.Found where
  | file (path : DiskPath) (data : String)
  | directory (path : DiskPath)
  /-- Nothing is there, but the directory it would be in is. -/
  | absent (path : DiskPath)
  | nowhere

namespace Disk

/-- The entry at a place. -/
def entry? (d : Disk) (path : DiskPath) : Option DiskEntry :=
  if path.isEmpty then some .directory else d.entries.lookup path

/-- How many links a pathname may lead through. -/
def maxLinks : Nat := 40

/-- Where names lead from a directory. -/
def follow (d : Disk) (links : Nat) (here : DiskPath) (names : List (List Char)) : Found :=
  match names with
  | [] => .directory here
  | name :: rest =>
      if name = ['.', '.'] then follow d links here.tail rest
      else if !Pathname.isName name then follow d links here rest
      else
        match d.entry? (name :: here) with
        | some .directory => follow d links (name :: here) rest
        | some (.file data) => if rest.isEmpty then .file (name :: here) data else .nowhere
        | some (.link target) =>
            match links with
            | 0 => .nowhere
            | links + 1 =>
                let start := if Pathname.isAbsolute target then [] else here
                follow d links start (Pathname.pieces target ++ rest)
        | none => if rest.isEmpty then .absent (name :: here) else .nowhere
termination_by (links, names.length)

/-- Where a pathname leads. -/
def find (d : Disk) (path : String) : Found :=
  let cs := path.toList
  if cs.isEmpty then .nowhere
  else
    d.follow maxLinks (if Pathname.isAbsolute cs then [] else d.workingDirectory)
      (Pathname.pieces cs)

/-- The absolute pathname of a place. -/
def text (path : DiskPath) : String :=
  String.ofList ('/' :: Pathname.join path.reverse)

-- == making

/-- The directories above a place. -/
def parents : DiskPath → List DiskPath
  | [] => []
  | _ :: above => above :: parents above

/-- Adds an entry and the directories it is in. -/
def add (d : Disk) (path : DiskPath) (entry : DiskEntry) : Disk :=
  let missing := (parents path).filter fun p => (d.entry? p).isNone
  { d with entries := d.entries ++ missing.map (·, .directory) ++ [(path, entry)] }

/-- The disk with nothing but a working directory. -/
def empty (workingDirectory : DiskPath) : Disk :=
  (⟨[], workingDirectory⟩ : Disk).add workingDirectory .directory

/-- The place of a pathname, taken by its names alone. -/
def place (d : Disk) (path : String) : DiskPath :=
  ((⟨true, d.workingDirectory⟩ : Pathname.Normal).enter path.toList).names

/-- Stores a file in the place of what was there. -/
def put (d : Disk) (path : DiskPath) (data : String) : Disk :=
  { d with entries := d.entries.filter (·.1 != path) ++ [(path, .file data)] }

/-- The files below the working directory that can be read, links
included, with their places relative to it. -/
def contents (d : Disk) : List (String × String) :=
  (d.entries.filter fun (path, _) => d.workingDirectory.isSuffixOf path).filterMap
    fun (path, _) =>
      match d.find (text path) with
      | .file _ data =>
          let names := path.take (path.length - d.workingDirectory.length)
          some (String.ofList (Pathname.join names.reverse), data)
      | _ => none

-- == operations

def read (d : Disk) (path : String) : Except Error String :=
  match d.find path with
  | .file _ data => .ok data
  | .directory _ => .error (.read path "Is a directory")
  | .absent _ | .nowhere => .error (.read path "No such file or directory")

def write (d : Disk) (path data : String) : Except Error Disk :=
  match d.find path with
  | .file place _ | .absent place => .ok (d.put place data)
  | .directory _ => .error (.write path "Is a directory")
  | .nowhere => .error (.write path "No such file or directory")

def realpath? (d : Disk) (path : String) : Option String :=
  match d.find path with
  | .file place _ | .directory place => some (text place)
  | .absent _ | .nowhere => none

def isFile (d : Disk) (path : String) : Bool :=
  match d.find path with
  | .file .. => true
  | _ => false

instance : FileSystem Disk where
  read := read
  write := write
  realpath? := realpath?
  isFile := isFile
  workingDirectory d := text d.workingDirectory
  nameCount d := (maxLinks + 1) * d.entries.length

end Disk

end Inlay
