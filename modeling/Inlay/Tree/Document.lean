/-
Syntax trees as documents.

A node is an object: its `type`, its properties in order, then `range`,
`loc`, `leadingComments` and `trailingComments` as far as it has them;
the root carries the comment store as `comments`. A hole is `null`.

Reading decides by shape alone what a property is: an object with a
string `type` is a node, an array of such objects (with holes, if the
property is `elements`) is a list of nodes, everything else is data.
-/
import Inlay.Json.Reader
import Inlay.Json.Writer
import Inlay.Tree.Basic

namespace Inlay

/-- Why a value is no syntax tree. -/
inductive DocumentError where
  /-- The text is not JSON. -/
  | notJson
  | rootNotObject
  | nodeNotObject
  | noType
  /-- The reserved member is not of its form. -/
  | malformed (key : String)
  /-- The property has to be a list of nodes. -/
  | notNodeList (kind : Kind) (key : String)
  deriving DecidableEq, Repr

def DocumentError.message : DocumentError → String
  | notJson => "json"
  | rootNotObject => "expected an object at the document root"
  | nodeNotObject => "expected an object node"
  | noType => "node without a string `type`"
  | malformed key => "`" ++ key ++ "`"
  | notNodeList kind key =>
      "`" ++ kind.name ++ "." ++ key ++ "` must be a list of nodes"

-- == writing

def Point.toJson (p : Point) : Json :=
  .obj [("line", .ofNat p.line), ("column", .ofNat p.column)]

def Span.toJson (s : Span) : Json := .arr [.ofNat s.start, .ofNat s.stop]

def Location.toJson (l : Location) : Json :=
  .obj [("start", l.start.toJson), ("end", l.stop.toJson),
    ("source", .ofString? l.source)]

def CommentKind.name : CommentKind → String
  | .block => "Block"
  | .line => "Line"

/-- An entry for a value that may be missing. -/
def optionalEntry {α : Type} (key : String) (toJson : α → Json) :
    Option α → List (String × Json)
  | some a => [(key, toJson a)]
  | none => []

def Comment.toJson (c : Comment) : Json :=
  .obj ([("type", .str c.kind.name), ("value", .str c.value)]
    ++ optionalEntry "range" Span.toJson c.range
    ++ optionalEntry "loc" Location.toJson c.loc)

/-- An entry for a list of comments, if there are any. -/
def commentsEntry (key : String) (cs : List Comment) : List (String × Json) :=
  if cs.isEmpty then [] else [(key, .arr (cs.map Comment.toJson))]

namespace Node

/-- The document of a node, given those of its properties. -/
def encode (kind : Kind) (props : List (String × Json)) (range : Option Span)
    (loc : Option Location) (leading trailing : List Comment) : Json :=
  if kind = .elision then .null
  else
    .obj (("type", .str kind.name) :: props
      ++ optionalEntry "range" Span.toJson range
      ++ optionalEntry "loc" Location.toJson loc
      ++ commentsEntry "leadingComments" leading
      ++ commentsEntry "trailingComments" trailing)

mutual
/-- The document of a node. -/
def toJson : Node → Json
  | ⟨kind, props, range, loc, leading, trailing⟩ =>
      encode kind (jsonOfProps props) range loc leading trailing

def jsonOfProps : List (String × Field Node) → List (String × Json)
  | [] => []
  | (key, .node n) :: rest => (key, n.toJson) :: jsonOfProps rest
  | (key, .nodes ns) :: rest => (key, .arr (jsonOfNodes ns)) :: jsonOfProps rest
  | (key, .data j) :: rest => (key, j) :: jsonOfProps rest

def jsonOfNodes : List Node → List Json
  | [] => []
  | n :: rest => n.toJson :: jsonOfNodes rest
end

end Node

/-- The document of a tree. -/
def Tree.toJson (t : Tree) : Json :=
  match t.root.toJson with
  | .obj members =>
      .obj (members ++ [("comments", .arr (t.comments.map Comment.toJson))])
  | j => j

/-- The text of a tree's document. -/
def Tree.document (t : Tree) (pretty : Bool) : String :=
  if pretty then t.toJson.indented else t.toJson.compact

-- == reading

/-- The values of a record's fields: by name from an object, by position
from an array no longer than the record. A field stands at most once. -/
def record? (keys : List String) : Json → Option (List (Option Json))
  | .obj members =>
      if keys.all fun key => (members.filter (·.1 == key)).length ≤ 1 then
        some (keys.map (members.lookup ·))
      else none
  | .arr items =>
      if items.length ≤ keys.length then
        some (items.map some ++ List.replicate (keys.length - items.length) none)
      else none
  | _ => none

/-- A field that may be missing or `null`. -/
def optional? {α : Type} (read : Json → Option α) : Option Json → Option (Option α)
  | none | some .null => some none
  | some j => (read j).map some

def Span.ofJson? : Json → Option Span
  | .arr [a, b] => do return ⟨← a.nat?, ← b.nat?⟩
  | _ => none

def Point.ofJson? (j : Json) : Option Point := do
  match ← record? ["line", "column"] j with
  | [some line, some column] => return ⟨← line.nat?, ← column.nat?⟩
  | _ => none

def Location.ofJson? (j : Json) : Option Location := do
  match ← record? ["start", "end", "source"] j with
  | [some start, some stop, source] =>
      return ⟨← Point.ofJson? start, ← Point.ofJson? stop,
        ← optional? Json.string? source⟩
  | _ => none

def CommentKind.ofName? (name : String) : Option CommentKind :=
  if name = "Block" then some .block
  else if name = "Line" then some .line
  else none

/-- A kind of comment: its name, or an object with its name as the only
key and `null` as the value. -/
def CommentKind.ofJson? : Json → Option CommentKind
  | .str name => ofName? name
  | .obj [(name, .null)] => ofName? name
  | _ => none

def Comment.ofJson? (j : Json) : Option Comment := do
  match ← record? ["type", "value", "range", "loc"] j with
  | [some kind, some value, range, loc] =>
      return ⟨← CommentKind.ofJson? kind, ← value.string?,
        ← optional? Span.ofJson? range, ← optional? Location.ofJson? loc⟩
  | _ => none

def commentsOfJson? (j : Json) : Option (List Comment) := do
  (← j.items?).mapM Comment.ofJson?

/-- The value of a reserved member, `none` when it is missing or
`null`. -/
def reserved {α : Type} (key : String) (read : Json → Option α)
    (members : List (String × Json)) : Except DocumentError (Option α) :=
  match optional? read (members.lookup key) with
  | some value => .ok value
  | none => .error (.malformed key)

/-- The members that are no properties. -/
def reservedKeys : List String :=
  ["type", "range", "loc", "leadingComments", "trailingComments"]

/-- Whether a value has the shape of a node. -/
def isNodeJson (j : Json) : Bool := ((j.get? "type").map Json.isString).getD false

/-- A node with given properties and the reserved members of its object:
the properties are computed once the reserved members are known to be
well formed. -/
def Node.assemble (members : List (String × Json))
    (props : Except DocumentError (List (String × Field Node))) :
    Except DocumentError Node := do
  let kind ← match members.lookup "type" with
    | some (.str name) => pure (Kind.ofName name)
    | _ => throw .noType
  let range ← reserved "range" Span.ofJson? members
  let loc ← reserved "loc" Location.ofJson? members
  let leading ← reserved "leadingComments" commentsOfJson? members
  let trailing ← reserved "trailingComments" commentsOfJson? members
  let node : Node :=
    { kind, props := ← props, range, loc
      leading := leading.getD [], trailing := trailing.getD [] }
  match kind.listKey with
  | some key =>
      if (node.children? key).isSome then pure node
      else throw (.notNodeList kind key)
  | none => pure node

namespace Node

mutual
/-- The properties among an object's members. -/
def propsOfMembers :
    List (String × Json) → Except DocumentError (List (String × Field Node))
  | [] => .ok []
  | (key, j) :: rest =>
      if reservedKeys.contains key then propsOfMembers rest
      else do
        let field ← fieldOfJson key j
        let fields ← propsOfMembers rest
        pure ((key, field) :: fields)

/-- A property, by the shape of its value. -/
def fieldOfJson (key : String) : Json → Except DocumentError (Field Node)
  | .obj members =>
      if isNodeJson (.obj members) then
        .node <$> assemble members (propsOfMembers members)
      else .ok (.data (.obj members))
  | .arr items =>
      if items.all fun j => isNodeJson j || (key == "elements" && j.isNull) then
        .nodes <$> ofItems items
      else .ok (.data (.arr items))
  | j => .ok (.data j)

/-- The nodes of a list; `null` is a hole. -/
def ofItems : List Json → Except DocumentError (List Node)
  | [] => .ok []
  | .obj members :: rest => do
      let n ← assemble members (propsOfMembers members)
      let ns ← ofItems rest
      pure (n :: ns)
  | _ :: rest => do
      let ns ← ofItems rest
      pure (hole :: ns)
end

/-- The node of an object's members. -/
def ofMembers (members : List (String × Json)) : Except DocumentError Node :=
  assemble members (propsOfMembers members)

/-- The node a document describes. -/
def ofJson : Json → Except DocumentError Node
  | .obj members => ofMembers members
  | _ => .error .nodeNotObject

end Node

namespace Tree

/-- The tree a document describes. -/
def ofJson : Json → Except DocumentError Tree
  | .obj members => do
      let comments ← reserved "comments" commentsOfJson? members
      let root ← Node.ofMembers (Entries.erase "comments" members)
      pure ⟨root, comments.getD []⟩
  | _ => .error .rootNotObject

/-- The tree a document's text describes. -/
def ofDocument (text : String) : Except DocumentError Tree :=
  match Json.ofText? text with
  | some j => ofJson j
  | none => .error .notJson

end Tree

end Inlay
