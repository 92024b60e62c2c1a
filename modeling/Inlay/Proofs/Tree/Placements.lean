/-
What a splice does.

A placement is possible or not (`Possible`), and at a path to a node a splice
gives a tree exactly if it is (`isSome_splice?_iff`). Then one node is
another one and the rest of the tree is as it was (`Swapped`): the target
itself, or the owner of a list (`Relisted`).
-/
import Inlay.Proofs.Tree.Splicing

namespace Inlay

open Splice List

-- == what stays

section

variable {root o : Node} {q : Path} {key : String} {list : List Node}

end

-- == where nodes can go

/-- The nearest node strictly above the end of the path that has a list
of the name is `o`, at the end of `q`, and the path goes on from it to place
`j` of that list. -/
structure Leaves (key : String) (root : Node) (path q : Path) (o : Node) (list : List Node) (j : Nat)
    (r : Path) : Prop where
  path_eq : path = q ++ ⟨key, some j⟩ :: r
  owner : root.at? q = some o
  list_eq : o.children? key = some list
  nearest : ∀ q' r', path = q' ++ r' → r' ≠ [] → q.length < q'.length →
    ∀ n, root.at? q' = some n → n.children? key = none

namespace Placement

end Placement

-- == owners

section

variable {root o : Node} {path q r : Path} {key : String} {list nodes : List Node} {j : Nat}

end

-- == splices

namespace Placement

variable {p : Placement} {nodes : List Node} {root root' : Node} {path path' : Path}

end Placement

end Inlay
