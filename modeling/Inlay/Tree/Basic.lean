/-
Syntax trees.

A node has a kind, properties in traversal order, and where it stands in
its source. A property is a child node, a list of child nodes, or plain
data. Comments hang on the nodes they stand before or behind; a tree
also keeps all comments of its file in one flat store.
-/
import Inlay.Json.Basic
import Inlay.Position
import Inlay.Tree.Kind

namespace Inlay

inductive CommentKind where
  | block
  | line
  deriving DecidableEq, Repr

/-- A comment. Its text stands without the delimiters. -/
structure Comment where
  kind : CommentKind
  value : String
  range : Option Span
  loc : Option Location
  deriving DecidableEq, Repr

/-- The value of a property, over the type of nodes. -/
inductive Field (α : Type) where
  | node (n : α)
  | nodes (ns : List α)
  | data (j : Json)

/-- A node of a syntax tree. -/
structure Node where
  kind : Kind
  props : List (String × Field Node)
  range : Option Span
  loc : Option Location
  leading : List Comment
  trailing : List Comment

/-- The properties of a node with their names. -/
abbrev Node.Props : Type := List (String × Field Node)

/-- A file's syntax tree with the flat store of its comments. -/
structure Tree where
  root : Node
  comments : List Comment

namespace Field

/-- A property that is a node or `null`. -/
def ofNode? : Option Node → Field Node
  | some n => .node n
  | none => .data .null

/-- A property that is a string. -/
def ofString (s : String) : Field Node := .data (.str s)

/-- A property that is a truth value. -/
def ofBool (b : Bool) : Field Node := .data (.bool b)

end Field

namespace Node

/-- A node that stands nowhere and has no comments. -/
def bare (kind : Kind) (props : List (String × Field Node)) : Node :=
  { kind, props, range := none, loc := none, leading := [], trailing := [] }

instance : Inhabited Node := ⟨bare .elision []⟩

/-- The hole of an array literal. -/
def hole : Node := bare .elision []

-- == properties

def get? (n : Node) (key : String) : Option (Field Node) := n.props.lookup key

/-- The child node under `key`. -/
def child? (n : Node) (key : String) : Option Node :=
  match n.get? key with
  | some (.node c) => some c
  | _ => none

/-- The child list under `key`. -/
def children? (n : Node) (key : String) : Option (List Node) :=
  match n.get? key with
  | some (.nodes cs) => some cs
  | _ => none

/-- The plain data under `key`. -/
def data? (n : Node) (key : String) : Option Json :=
  match n.get? key with
  | some (.data j) => some j
  | _ => none

def string? (n : Node) (key : String) : Option String :=
  (n.data? key).bind Json.string?

/-- The truth value under `key`; anything else counts as false. -/
def flag (n : Node) (key : String) : Bool :=
  ((n.data? key).bind Json.bool?).getD false

def set (n : Node) (key : String) (value : Field Node) : Node :=
  { n with props := Entries.insert key value n.props }

/-- The value of a string literal. -/
def stringValue? (n : Node) : Option String :=
  if n.kind = .literal then n.string? "value" else none

/-- The file the node was read from. -/
def source? (n : Node) : Option String := n.loc.bind (·.source)

/-- Where the node starts. -/
def start? (n : Node) : Option Point := n.loc.map (·.start)

-- == traversal

mutual
/-- The nodes of the subtree, each before its children. -/
def preorder : Node → List Node
  | ⟨kind, props, range, loc, leading, trailing⟩ =>
      ⟨kind, props, range, loc, leading, trailing⟩ :: preorderOfProps props

def preorderOfProps : List (String × Field Node) → List Node
  | [] => []
  | (_, .node n) :: rest => n.preorder ++ preorderOfProps rest
  | (_, .nodes ns) :: rest => preorderOfNodes ns ++ preorderOfProps rest
  | (_, .data _) :: rest => preorderOfProps rest

def preorderOfNodes : List Node → List Node
  | [] => []
  | n :: rest => n.preorder ++ preorderOfNodes rest
end

-- == comments

mutual
/-- The subtree with the first occurrence of a comment gone from each
node's leading and trailing comments. -/
def eraseComment (c : Comment) : Node → Node
  | ⟨kind, props, range, loc, leading, trailing⟩ =>
      ⟨kind, eraseCommentInProps c props, range, loc, leading.erase c, trailing.erase c⟩

def eraseCommentInProps (c : Comment) :
    List (String × Field Node) → List (String × Field Node)
  | [] => []
  | (key, .node n) :: rest =>
      (key, .node (n.eraseComment c)) :: eraseCommentInProps c rest
  | (key, .nodes ns) :: rest =>
      (key, .nodes (eraseCommentInNodes c ns)) :: eraseCommentInProps c rest
  | (key, .data j) :: rest => (key, .data j) :: eraseCommentInProps c rest

def eraseCommentInNodes (c : Comment) : List Node → List Node
  | [] => []
  | n :: rest => n.eraseComment c :: eraseCommentInNodes c rest
end

/-- How many comment lists of the subtree hold `c`. -/
def commentLists (c : Comment) (n : Node) : Nat :=
  (n.preorder.flatMap fun m => [m.leading, m.trailing]).countP (c ∈ ·)

end Node

namespace Tree

/-- The top level nodes. -/
def body (t : Tree) : List Node := (t.root.children? "body").getD []

/-- The tree without a comment: its first occurrence in the store and in
the comment lists of every node is dropped. -/
def eraseComment (t : Tree) (c : Comment) : Tree :=
  ⟨t.root.eraseComment c, t.comments.erase c⟩

/-- How many occurrences `eraseComment` drops. -/
def commentCount (t : Tree) (c : Comment) : Nat :=
  (if c ∈ t.comments then 1 else 0) + t.root.commentLists c

end Tree

end Inlay
