/-
Placing nodes into a tree.

A placement says where nodes go relative to the node at a path. It is not
always possible: only a single object, array or literal may stand in for
another one, and programs and blocks take statements only, into their `body`.
Nodes that go before or behind the node at the path land in the nearest list
of the given name that the path runs through; the path moves along.
-/
import Inlay.Tree.Path

namespace Inlay

/-- Where nodes go relative to a node. -/
inductive Placement where
  /-- In the place of the node. -/
  | replace
  /-- To the end of a list of the node. -/
  | into (key : String)
  /-- Into the nearest list above, before the item that leads to the
  node. -/
  | before (key : String)
  /-- Like `before`, but behind that item. -/
  | after (key : String)
  deriving DecidableEq, Repr

namespace Splice

/-- Whether a node of the kind can have the nodes in the list `key`. -/
def accepts (kind : Kind) (key : String) (nodes : List Node) : Bool :=
  !kind.isContainer || (key == "body" && nodes.all (!·.kind.isAtomic))

/-- How many steps down the path the nearest node above its end stands
that has a list `key`. -/
def ownerDepth? (root : Node) (path : Path) (key : String) : Option Nat :=
  (List.range path.length).reverse.find? fun depth =>
    ((root.at? (path.take depth)).bind (·.children? key)).isSome

/-- A list with nodes at a position. -/
def insertAt (position : Nat) (nodes : List Node) (list : List Node) : List Node :=
  list.take position ++ nodes ++ list.drop position

/-- The tree with the node at the path replaced. -/
def replace? (nodes : List Node) (root : Node) (path : Path) : Option Node := do
  let target ← root.at? path
  match nodes with
  | [node] =>
      if target.kind.isAtomic && node.kind.isAtomic then
        some (root.modifyAt (fun _ => node) path)
      else none
  | _ => none

/-- The tree with nodes at the end of a list of the node at the path. -/
def append? (key : String) (nodes : List Node) (root : Node) (path : Path) :
    Option Node := do
  let target ← root.at? path
  let _ ← target.children? key
  if !target.kind.isAtomic && accepts target.kind key nodes then
    some (root.modifyAt (·.modifyList key (· ++ nodes)) path)
  else none

/-- Where nodes are inserted beside the item that leads to the node at
the path: before it, or `offset` items further. -/
def position? (key : String) (offset count : Nat) (root : Node) (path : Path) :
    Option Insertion := do
  let depth ← ownerDepth? root path key
  let crossing ← path[depth]?
  let index ← crossing.index
  if crossing.key = key then some ⟨depth, key, index + offset, count⟩ else none

/-- The tree with nodes inserted beside the item that leads to the node at
the path, and the path to that node; `none` if they cannot stand there, or
if the list ends before that place. -/
def insert? (key : String) (offset : Nat) (nodes : List Node) (root : Node) (path : Path) :
    Option (Node × Path) := do
  let insertion ← position? key offset nodes.length root path
  let owner ← root.at? (path.take insertion.depth)
  let list ← owner.children? key
  if accepts owner.kind key nodes ∧ insertion.position ≤ list.length then
    let change (n : Node) : Node := n.modifyList key (insertAt insertion.position nodes)
    some (root.modifyAt change (path.take insertion.depth), path.shift insertion)
  else none

/-- The tree with nodes inserted at a position of the list `key` that
belongs to the node `depth` steps down the path, and the path to the node
that it led to; `none` if there is no such position. -/
def insertOnPath? (depth : Nat) (key : String) (position : Nat) (nodes : List Node)
    (root : Node) (path : Path) : Option (Node × Path) := do
  let owner ← root.at? (path.take depth)
  let list ← owner.children? key
  if depth ≤ path.length ∧ position ≤ list.length then
    let change (n : Node) : Node := n.modifyList key (insertAt position nodes)
    some (root.modifyAt change (path.take depth),
      path.shift ⟨depth, key, position, nodes.length⟩)
  else none

end Splice

/-- The tree with nodes placed relative to the node at the path, and the
path to that node; `none` if the nodes cannot stand there. -/
def Placement.splice? (p : Placement) (nodes : List Node) (root : Node) (path : Path) :
    Option (Node × Path) :=
  match p with
  | .replace => (Splice.replace? nodes root path).map (·, path)
  | .into key => (Splice.append? key nodes root path).map (·, path)
  | .before key => Splice.insert? key 0 nodes root path
  | .after key => Splice.insert? key 1 nodes root path

end Inlay
