/-
Files in memory.

Files are held by their absolute pathnames. A link stands for another
file, and links are followed once.
-/
import Inlay.FileSystem.Basic
import Inlay.Pathname

namespace Inlay

/-- Files in memory, and links by the pathname they stand at. -/
structure Memory where
  files : List (String × String)
  links : List (String × String)
  /-- Where relative pathnames start. -/
  workingDirectory : String := "/"
  deriving DecidableEq, Repr

namespace Memory

def empty : Memory where
  files := []
  links := []

/-- The absolute pathname of a file. -/
def absolute (m : Memory) (path : String) : String :=
  Pathname.resolveFrom m.workingDirectory [path]

/-- The pathname that an absolute pathname stands for. -/
def follow (m : Memory) (path : String) : String := (m.links.lookup path).getD path

/-- Where the file of a pathname is stored. -/
def target (m : Memory) (path : String) : String := m.follow (m.absolute path)

/-- Stores a file under its own name, also if that is the name of a
link. -/
def insert (m : Memory) (path data : String) : Memory :=
  { m with files := Entries.insert (m.absolute path) data m.files }

def link (m : Memory) (path target : String) : Memory :=
  { m with links := Entries.insert (m.absolute path) (m.absolute target) m.links }

def get? (m : Memory) (path : String) : Option String := m.files.lookup (m.target path)

/-- Stores a file where its pathname leads to. -/
def write (m : Memory) (path data : String) : Memory :=
  { m with files := Entries.insert (m.target path) data m.files }

def realpath? (m : Memory) (path : String) : Option String :=
  if Entries.contains (m.target path) m.files then some (m.target path) else none

/-- The pathnames of all stored files, in the order they were added. -/
def paths (m : Memory) : List String := m.files.map (·.1)

/-- The absolute pathnames that files can be read by. -/
def names (m : Memory) : List String := m.paths ++ m.links.map (·.1)

def read (m : Memory) (path : String) : Except Error String :=
  match m.get? path with
  | some data => .ok data
  | none => .error (.read path "no such file")

instance : FileSystem Memory where
  read := read
  write m path data := .ok (m.write path data)
  realpath? := realpath?
  isFile m path := (m.get? path).isSome
  workingDirectory := workingDirectory
  nameCount m := m.names.length

end Memory

end Inlay
