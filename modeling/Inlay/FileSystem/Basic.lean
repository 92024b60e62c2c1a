/-
File systems.

A file system is a value: writing gives the file system with the file in
it.
-/
import Inlay.Error

namespace Inlay

class FileSystem (σ : Type) where
  read : σ → String → Except Error String
  write : σ → String → String → Except Error σ
  /-- The pathname of a file without links in it, if the file is there. -/
  realpath? : σ → String → Option String
  /-- Whether a pathname leads to a file. -/
  isFile : σ → String → Bool
  /-- The directory that relative pathnames start from. -/
  workingDirectory : σ → String
  /-- A bound on the names of files, links to directories apart. -/
  nameCount : σ → Nat

end Inlay
