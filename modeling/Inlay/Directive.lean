/-
Inclusion directives.

A directive is a text `marker:include:path` with any blanks around it. It
stands in a block comment, or it is the value of a string literal; a
literal takes the file as plain text.
-/
import Inlay.Text.Basic
import Inlay.Tree.Basic

namespace Inlay

/-- A request to include a file. -/
structure Directive where
  /-- The pathname as written, relative to the file with the directive. -/
  path : String
  /-- The tech that the form of the directive asks for. -/
  tech : Option String
  /-- The comment that holds the directive. -/
  comment : Option Comment
  range : Option Span
  start : Option Point
  deriving DecidableEq, Repr

namespace Directive

/-- The marker when none is configured. -/
def defaultMarker : String := "borschik"

/-- What follows `key` in a text that has only blanks before it. -/
def behind (key : List Char) (cs : List Char) : Option (List Char) :=
  if key.isPrefixOf cs then some (cs.drop key.length)
  else
    match cs with
    | [] => none
    | c :: rest => if Text.isWhiteSpace c then behind key rest else none

/-- The path of a text that is a directive. -/
def path? (marker text : String) : Option String := do
  let rest ← behind (marker ++ ":include:").toList text.toList
  let path := Text.trimRight rest
  if path.contains '\n' then none else some (String.ofList path)

/-- The directive in a block comment. -/
def ofComment? (marker : String) (c : Comment) : Option Directive :=
  match c.kind with
  | .line => none
  | .block =>
      (path? marker c.value).map fun path =>
        { path, tech := none, comment := some c, range := c.range
          start := c.loc.map (·.start) }

/-- The directives among comments, in order. -/
def ofComments (marker : String) (comments : List Comment) : List Directive :=
  comments.filterMap (ofComment? marker)

/-- The directives among the comments that lie in a range. -/
def within (marker : String) (range : Span) (comments : List Comment) : List Directive :=
  ofComments marker (comments.filter fun c => c.range.any range.contains)

/-- The directive that is the value of a string literal. -/
def ofLiteral? (marker : String) (n : Node) : Option Directive := do
  let value ← n.stringValue?
  let path ← path? marker value
  return { path, tech := some "txt", comment := none, range := n.range, start := n.start? }

end Directive

end Inlay
