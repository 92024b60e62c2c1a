/-
What is known of the files of the machine.

A snapshot holds the files that were looked at and the files that are to
be written. Reading a file that was not looked at fails in a way that
tells so; whoever runs a computation on a snapshot can look at the file
then and run it again.
-/
import Inlay.FileSystem.Basic

namespace Inlay

/-- What was seen under a pathname: the data of a file or why there is
none, and the pathname without links. -/
structure Sight where
  data : Except String String
  real : Option String

structure Snapshot where
  workingDirectory : String
  seen : List (String × Sight)
  /-- What is to be written, in order. -/
  written : List (String × String)

namespace Snapshot

/-- Why a file cannot be read that was not looked at. -/
def unseen : String := "not looked at"

def read (s : Snapshot) (path : String) : Except Error String :=
  match s.seen.lookup path with
  | some ⟨.ok data, _⟩ => .ok data
  | some ⟨.error reason, _⟩ => .error (.read path reason)
  | none => .error (.read path unseen)

def write (s : Snapshot) (path data : String) : Snapshot :=
  { s with
    seen := Entries.insert path ⟨.ok data, (s.seen.lookup path).bind (·.real)⟩ s.seen
    written := s.written ++ [(path, data)] }

/-- Adds what was seen under a pathname. -/
def look (s : Snapshot) (path : String) (sight : Sight) : Snapshot :=
  { s with seen := Entries.insert path sight s.seen }

instance : FileSystem Snapshot where
  read := read
  write s path data := .ok (s.write path data)
  realpath? s path := (s.seen.lookup path).bind (·.real)
  isFile s path := (s.read path).toBool
  workingDirectory := workingDirectory
  nameCount s := s.seen.length

end Snapshot

end Inlay
