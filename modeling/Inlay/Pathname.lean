/-
Names of files.

A pathname is names with slashes between them; a slash in front makes it
absolute. Empty names and `.` mean nothing, and `..` goes one name back.
`resolveFrom` puts pathnames behind one another, each relative to the one
before it, and gives the normal form. `directory` and `base?` take a pathname
as it is written, without going back at `..`.
-/

namespace Inlay.Pathname

-- == pieces

/-- The texts between the slashes. -/
def pieces : List Char → List (List Char)
  | [] => [[]]
  | '/' :: rest => [] :: pieces rest
  | c :: rest =>
      match pieces rest with
      | [] => [[c]]
      | piece :: more => (c :: piece) :: more

/-- Texts with slashes between them. -/
def join (names : List (List Char)) : List Char := List.intercalate ['/'] names

/-- Whether a piece names something: it is neither empty nor `.`. -/
def isName (piece : List Char) : Bool := !piece.isEmpty && piece != ['.']

def isAbsolute (path : List Char) : Bool := path.head? == some '/'

-- == normal form

/-- A pathname in normal form: whether it starts with a slash, and its
names, the last one first. -/
structure Normal where
  absolute : Bool
  names : List (List Char)
  deriving DecidableEq, Repr

namespace Normal

/-- The pathname with one more piece behind it. -/
def push (p : Normal) (piece : List Char) : Normal :=
  if piece = ['.', '.'] then { p with names := p.names.tail }
  else if isName piece then { p with names := piece :: p.names }
  else p

/-- A pathname read relative to `p`. -/
def enter (p : Normal) (path : List Char) : Normal :=
  let start : Normal := if isAbsolute path then ⟨true, []⟩ else p
  (pieces path).foldl push start

/-- The text of the pathname. -/
def text (p : Normal) : List Char :=
  let names := join p.names.reverse
  if p.absolute then '/' :: names else names

end Normal

def normalize (path : List Char) : Normal := (⟨false, []⟩ : Normal).enter path

/-- A pathname with a segment behind it. An absolute segment takes its
place. -/
def extend (path segment : List Char) : List Char :=
  if isAbsolute segment then segment
  else if path = [] ∨ path.getLast? = some '/' then path ++ segment
  else path ++ '/' :: segment

/-- The pathname of the last segment, each segment relative to the one
before it, the first one relative to `base`. -/
def resolveFrom (base : String) (segments : List String) : String :=
  let joined := segments.foldl (fun path segment => extend path segment.toList) base.toList
  String.ofList (normalize joined).text

-- == parts

/-- The front of a pathname that no piece is taken from: the slash of an
absolute one, or a `.` at the start. -/
def front (path : List Char) : List Char :=
  match path with
  | '/' :: _ => ['/']
  | ['.'] => ['.']
  | '.' :: '/' :: _ => ['.']
  | _ => []

/-- The pieces behind the front, the last one first, beginning with one
that names something. -/
def namesBack (path : List Char) : List (List Char) :=
  (pieces (path.drop (front path).length)).reverse.dropWhile (!isName ·)

/-- The directory that holds what a pathname names. -/
def directory (path : String) : String :=
  let path := path.toList
  let front := front path
  match namesBack path with
  | [] => if isAbsolute path then "/" else "."
  | _ :: before =>
      let parent := front ++ join (before.dropWhile (!isName ·)).reverse
      if parent.isEmpty then "." else String.ofList parent

/-- The last name of a pathname, `none` if it ends with `..` or names
nothing. -/
def base? (path : String) : Option String :=
  match namesBack path.toList with
  | [] => none
  | name :: _ => if name = ['.', '.'] then none else some (String.ofList name)

end Inlay.Pathname
