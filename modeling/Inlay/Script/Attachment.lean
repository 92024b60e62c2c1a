/-
Comments and the nodes they belong to.

A comment leads the outermost node that starts with the first token behind the
comment. If no node starts there, it trails the outermost node that ends with
the last token before it. The root takes no comments; a comment that neither
leads nor trails a node is in the flat store alone. Nodes and comments are
located by their ranges first.
-/
import Inlay.Script.Token
import Inlay.Tree.Path

namespace Inlay

-- == locations

namespace Comment

/-- The comment with the location of its range. -/
def locate (table : LineTable) (source : Option String) (c : Comment) : Comment :=
  { c with loc := c.range.map (table.location · source) }

end Comment

namespace Node

mutual
/-- The subtree with each node at the location of its range. -/
def locate (table : LineTable) (source : Option String) : Node → Node
  | ⟨kind, props, range, _, leading, trailing⟩ =>
      ⟨kind, locateProps table source props, range,
        range.map (table.location · source), leading, trailing⟩

def locateProps (table : LineTable) (source : Option String) :
    List (String × Field Node) → List (String × Field Node)
  | [] => []
  | (key, .node n) :: rest =>
      (key, .node (n.locate table source)) :: locateProps table source rest
  | (key, .nodes ns) :: rest =>
      (key, .nodes (locateNodes table source ns)) :: locateProps table source rest
  | (key, .data j) :: rest => (key, .data j) :: locateProps table source rest

def locateNodes (table : LineTable) (source : Option String) : List Node → List Node
  | [] => []
  | n :: rest => n.locate table source :: locateNodes table source rest
end

end Node

namespace Script

-- == neighbours

/-- Where the first token behind a range starts. -/
def startBehind (tokens : List Span) (range : Span) : Option Nat :=
  (tokens.find? (range.stop ≤ ·.start)).map (·.start)

/-- Where the last token before a range ends. -/
def endBefore (tokens : List Span) (range : Span) : Option Nat :=
  (tokens.takeWhile (·.stop ≤ range.start)).getLast?.map (·.stop)

/-- The path to the first of the places that starts at an offset. -/
def pathStarting (places : List (Path × Node)) (offset : Nat) : Option Path :=
  (places.find? fun place => place.2.range.any (·.start == offset)).map (·.1)

/-- The path to the first of the places that ends at an offset. -/
def pathEnding (places : List (Path × Node)) (offset : Nat) : Option Path :=
  (places.find? fun place => place.2.range.any (·.stop == offset)).map (·.1)

-- == attachment

/-- A node that takes a comment, and the side it takes it on. -/
inductive Host where
  | leading (path : Path)
  | trailing (path : Path)

/-- The node that takes a comment of the given range. -/
def host? (places : List (Path × Node)) (tokens : List Span) (range : Span) : Option Host :=
  match (startBehind tokens range).bind (pathStarting places) with
  | some path => some (.leading path)
  | none => ((endBefore tokens range).bind (pathEnding places)).map .trailing

/-- The tree with a comment on the node that takes it. -/
def attach (places : List (Path × Node)) (tokens : List Span) (root : Node) (c : Comment) :
    Node :=
  match c.range.bind (host? places tokens) with
  | some (.leading path) =>
      root.modifyAt (fun n => { n with leading := n.leading ++ [c] }) path
  | some (.trailing path) =>
      root.modifyAt (fun n => { n with trailing := n.trailing ++ [c] }) path
  | none => root

/-- The tree with all comments on the nodes that take them. -/
def attachAll (tokens : List Span) (comments : List Comment) (root : Node) : Node :=
  let places := root.places.tail
  comments.foldl (attach places tokens) root

end Script

end Inlay
