/-
Techs: the formats of files.

A tech turns the text of a file into a tree whose root is a program.
Scripts can be generated from trees again, the other formats can only be
read. A registry finds the tech for a file by the suffixes of its name,
the longest first.
-/
import Inlay.Error
import Inlay.Pathname
import Inlay.Script.Generate
import Inlay.Script.Parse

namespace Inlay

inductive Tech where
  /-- A script. -/
  | js
  /-- A file that holds one expression, which is the only top level
  node. -/
  | json
  /-- Any text. Its only top level node is the string literal with that
  text. -/
  | txt
  deriving DecidableEq, Repr

namespace Tech

/-- The error of a text that is no script. -/
def syntaxError (text : List Char) (source : Option String) (e : Script.SyntaxError) :
    Error :=
  let point := (LineTable.ofText text).point e.index
  .parse ⟨source, e.index, point.line, point.column + 1⟩ e.cause

/-- The tree of a text that is a string literal by itself. -/
def plainText (text : List Char) (source : Option String) : Tree :=
  let span : Span := ⟨0, Text.bytes text⟩
  let loc := (LineTable.ofText text).location span source
  let node (kind : Kind) (props : List (String × Field Node)) : Node :=
    { Node.bare kind props with range := some span, loc := some loc }
  let literal := node .literal [("value", Field.ofString (String.ofList text))]
  ⟨node .program [("body", .nodes [literal])], []⟩

/-- The tree of a file's text. `source` is recorded in every node. -/
def parse (tech : Tech) (text : String) (source : Option String) : Except Error Tree :=
  let cs := text.toList
  match tech with
  | .js => (Script.parse cs source).mapError (syntaxError cs source)
  | .json => (Script.parseExpression cs source).mapError (syntaxError cs source)
  | .txt => .ok (plainText cs source)

/-- The code of a tree with its source map. -/
def generate (tech : Tech) (indented : Bool) (t : Tree) : Except Error Script.Generated :=
  match tech with
  | .js => (Script.generate indented t).mapError .generate
  | .json | .txt => .error (.generate .parseOnly)

/-- The code of a tree alone. -/
def generateCode (tech : Tech) (indented : Bool) (t : Tree) : Except Error String :=
  match tech with
  | .js => (Script.generateCode indented t).mapError .generate
  | .json | .txt => .error (.generate .parseOnly)

/-- The source map for the code of a tree alone. -/
def generateMap (tech : Tech) (indented : Bool) (t : Tree) : Except Error SourceMap :=
  match tech with
  | .js => (Script.generateMap indented t).mapError .generate
  | .json | .txt => .error (.generate .parseOnly)

end Tech

/-- Techs by name, and suffixes that stand for a name. -/
structure Registry where
  techs : List (String × Tech)
  aliases : List (String × String)

namespace Registry

def empty : Registry := ⟨[], []⟩

/-- Adds a tech, in the place of one of the same name. -/
def register (r : Registry) (name : String) (tech : Tech) : Registry :=
  { r with techs := Entries.insert name tech r.techs }

/-- The registry with a tech of each format. -/
def builtin : Registry :=
  ((empty.register "js" .js).register "json" .json).register "txt" .txt

/-- Lets a suffix stand for the name of a tech. -/
def addAlias (r : Registry) (suffix target : String) : Except Error Registry :=
  if Entries.contains target r.techs then
    .ok { r with aliases := Entries.insert suffix target r.aliases }
  else .error (.missingTech target)

/-- The tech that a name or a suffix stands for. -/
def get? (r : Registry) (name : String) : Option Tech :=
  r.techs.lookup ((r.aliases.lookup name).getD name)

def names (r : Registry) : List String := r.techs.map (·.1)

/-- The suffixes of a name, from behind each of its dots, the longest
first. -/
def suffixes : List Char → List (List Char)
  | [] => []
  | '.' :: rest => rest :: suffixes rest
  | _ :: rest => suffixes rest

/-- The longest suffix of a file's name that stands for a tech, else the
default if it does. -/
def lookupName (r : Registry) (file : String) (default : Option String) : Option String :=
  let base := (Pathname.base? file).getD file
  match ((suffixes base.toList).map String.ofList).find? fun s => (r.get? s).isSome with
  | some suffix => some suffix
  | none => default.filter fun name => (r.get? name).isSome

/-- The tech for a file. -/
def lookup (r : Registry) (file : String) (default : Option String) : Option Tech :=
  (r.lookupName file default).bind r.get?

end Registry

end Inlay
