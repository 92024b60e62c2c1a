/-
Paths into a tree.

A step goes from a node to a child: to the single child under a key, or to an
item of the list under a key. `Node.at?` follows a path, `Node.modifyAt`
changes the node it leads to and nothing else, and `Node.places` lists all
nodes with their paths, each node before its children. When nodes are
inserted into a list that a path runs through, the path has to move along
(`Path.shift`).
-/
import Inlay.Tree.Basic

namespace Inlay

/-- A step from a node to a child. A single child has no index. -/
structure Step where
  key : String
  index : Option Nat
  deriving DecidableEq, Repr

/-- The steps from the root to a node. -/
abbrev Path := List Step

namespace Field

/-- The child node that an index selects. -/
def item? : Field Node → Option Nat → Option Node
  | .node n, none => some n
  | .nodes ns, some i => ns[i]?
  | _, _ => none

/-- Changes the child node that an index selects. -/
def modifyItem (index : Option Nat) (f : Node → Node) : Field Node → Field Node
  | .node n => if index.isNone then .node (f n) else .node n
  | .nodes ns =>
      match index with
      | some i => .nodes (ns.modify i f)
      | none => .nodes ns
  | .data j => .data j

/-- Changes a list of child nodes. -/
def modifyList (f : List Node → List Node) : Field Node → Field Node
  | .nodes ns => .nodes (f ns)
  | other => other

end Field

namespace Node

-- == one child

/-- The child that a step leads to. -/
def step? (n : Node) (s : Step) : Option Node := (n.get? s.key).bind (·.item? s.index)

/-- The node with the child that a step leads to changed. -/
def modifyStep (s : Step) (f : Node → Node) (n : Node) : Node :=
  { n with props := Entries.modify s.key (Field.modifyItem s.index f) n.props }

/-- The node with the child list under `key` changed. -/
def modifyList (key : String) (f : List Node → List Node) (n : Node) : Node :=
  { n with props := Entries.modify key (Field.modifyList f) n.props }

-- == whole paths

/-- The node that a path leads to. -/
def at? : Node → Path → Option Node
  | n, [] => some n
  | n, s :: path => (n.step? s).bind (·.at? path)

/-- The tree with the node that a path leads to changed. -/
def modifyAt (f : Node → Node) : Path → Node → Node
  | [], n => f n
  | s :: path, n => n.modifyStep s (modifyAt f path)

mutual
/-- All nodes of the subtree with their paths, each before its
children. -/
def places : Node → List (Path × Node)
  | ⟨kind, props, range, loc, leading, trailing⟩ =>
      ([], ⟨kind, props, range, loc, leading, trailing⟩) :: placesOfProps props

def placesOfProps : List (String × Field Node) → List (Path × Node)
  | [] => []
  | (key, .node n) :: rest =>
      n.places.map (fun place => (⟨key, none⟩ :: place.1, place.2)) ++ placesOfProps rest
  | (key, .nodes ns) :: rest => placesOfNodes key 0 ns ++ placesOfProps rest
  | (_, .data _) :: rest => placesOfProps rest

def placesOfNodes (key : String) (index : Nat) : List Node → List (Path × Node)
  | [] => []
  | n :: rest =>
      n.places.map (fun place => (⟨key, some index⟩ :: place.1, place.2)) ++
        placesOfNodes key (index + 1) rest
end

end Node

-- == insertions

/-- `count` nodes went to position `at` of the list `key` that belongs to
the node `depth` steps from the root. -/
structure Insertion where
  depth : Nat
  key : String
  position : Nat
  count : Nat
  deriving DecidableEq, Repr

/-- The step behind an insertion into the list it leads into. -/
def Step.shift (i : Insertion) (s : Step) : Step :=
  if s.key = i.key then
    { s with index := s.index.map fun n => if i.position ≤ n then n + i.count else n }
  else s

/-- The path to the node that `path` led to before an insertion. -/
def Path.shift (i : Insertion) (path : Path) : Path := path.modify i.depth (Step.shift i)

end Inlay
