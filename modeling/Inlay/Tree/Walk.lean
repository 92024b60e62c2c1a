/-
Walks over a tree that changes on the way.

A walk enters each node before its children and leaves it after them. The
visitor may change the whole tree at every stop: the walk keeps only the
path to the current node and, for each level, a cursor that says which
child comes next. A visitor that inserts into a list the path runs through
shifts the path; nodes inserted ahead of the cursor are visited later,
those behind it never, and no node twice.

A visitor has a budget, which has to shrink whenever it changes the tree,
so that the walk ends.
-/
import Inlay.Tree.Measure
import Inlay.Tree.Path

namespace Inlay

namespace Walk

-- == cursors

/-- The next child of a node: a property, counted from zero, and an item
of its list. Behind a single child the item is one. -/
structure Cursor where
  prop : Nat
  item : Nat
  deriving DecidableEq, Repr

namespace Cursor

def start : Cursor := ⟨0, 0⟩

/-- The first child at or behind an item of the first of the properties,
and the cursor at it. -/
def seek (prop item : Nat) : List (String × Field Node) → Option (Step × Cursor)
  | [] => none
  | (key, .node _) :: rest =>
      if item = 0 then some (⟨key, none⟩, ⟨prop, 0⟩) else seek (prop + 1) 0 rest
  | (key, .nodes ns) :: rest =>
      if item < ns.length then some (⟨key, some item⟩, ⟨prop, item⟩)
      else seek (prop + 1) 0 rest
  | (_, .data _) :: rest => seek (prop + 1) 0 rest

/-- The next child of a node, and the cursor at it. -/
def next? (c : Cursor) (n : Node) : Option (Step × Cursor) :=
  seek c.prop c.item (n.props.drop c.prop)

/-- The cursor behind the child of a step. The step has the index that
the child has now. -/
def behind (c : Cursor) (s : Step) : Cursor :=
  { c with item := s.index.elim 1 (· + 1) }

end Cursor

-- == visits

/-- What a visitor sees and changes: what it remembers, the tree, and the
path to the current node. -/
structure Visit (σ : Type) where
  memory : σ
  tree : Tree
  path : Path

/-- A visitor. Its budget pays for changes of the tree. -/
structure Visitor (σ ε : Type) where
  enter : Visit σ → Except ε (Visit σ)
  leave : Visit σ → Except ε (Visit σ)
  budget : σ → Nat

/-- A walk between two stops. The cursors belong to the nodes on the path,
the current node first; there are none when the walk is over. -/
structure State (σ : Type) where
  visit : Visit σ
  cursors : List Cursor

variable {σ ε : Type}

/-- The cursors behind the child that was left through the last step of
its path. -/
def resume (path : Path) : List Cursor → List Cursor
  | [] => []
  | c :: above =>
      match path.getLast? with
      | some s => c.behind s :: above
      | none => c :: above

/-- One stop: into the next child, or out of the current node. -/
def step (v : Visitor σ ε) (current : Cursor) (above : List Cursor) (visit : Visit σ) :
    Except ε (State σ) :=
  match (visit.tree.root.at? visit.path).bind current.next? with
  | some (s, cursor) => do
      let visit ← v.enter { visit with path := visit.path ++ [s] }
      return ⟨visit, Cursor.start :: cursor :: above⟩
  | none => do
      let visit ← v.leave visit
      return ⟨{ visit with path := visit.path.dropLast }, resume visit.path above⟩

/-- How many stops a walk takes at most while nothing changes. -/
def bound (s : State σ) : Nat := 2 * s.visit.tree.root.size + s.cursors.length

/-- The walk from a state, with at most `stops` stops up to the next
change. `changed` takes the walk on from there, with what is left of the
budget. -/
def runToChange (v : Visitor σ ε) (changed : Nat → State σ → Except ε (State σ))
    (budget : Nat) : Nat → State σ → Except ε (State σ)
  | 0, s => .ok s
  | stops + 1, s =>
      match s.cursors with
      | [] => .ok s
      | current :: above =>
          match step v current above s.visit with
          | .error e => .error e
          | .ok next =>
              if v.budget next.visit.memory < budget then
                changed (v.budget next.visit.memory) next
              else runToChange v changed budget stops next

/-- The walk from a state, with at most `changes` changes. -/
def runChanging (v : Visitor σ ε) : Nat → Nat → Nat → State σ → Except ε (State σ)
  | 0, budget, stops, s => runToChange v (fun _ s => .ok s) budget stops s
  | changes + 1, budget, stops, s =>
      runToChange v (fun left next => runChanging v changes left (bound next) next) budget stops s

/-- The walk from a state, with at most `stops` stops up to the next
change and changes worth at most `budget`. -/
def run (v : Visitor σ ε) (budget stops : Nat) (s : State σ) : Except ε (State σ) :=
  runChanging v budget budget stops s

end Walk

/-- Walks a tree from its root. The result is the visitor's memory and
the tree as the visitor left it. -/
def Tree.walk {σ ε : Type} (v : Walk.Visitor σ ε) (memory : σ) (t : Tree) :
    Except ε (σ × Tree) := do
  let visit ← v.enter ⟨memory, t, []⟩
  let start : Walk.State σ := ⟨visit, [Walk.Cursor.start]⟩
  let last ← Walk.run v (v.budget visit.memory) (Walk.bound start) start
  return (last.visit.memory, last.visit.tree)

end Inlay
