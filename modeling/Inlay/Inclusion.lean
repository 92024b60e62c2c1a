/-
Inclusion.

A walk over a tree resolves its directives. At each node, in this order:
a string literal that is a directive becomes the text of the file; a
directive inside an empty list of the node puts the file's nodes into the
list, or in the place of an empty object or array; the directives that
lead the node put them before it, those that trail it behind it. The
included file is resolved by itself first, with pathnames relative to its
own directory, and the comment with the directive is gone afterwards.
-/
import Inlay.Directive
import Inlay.Tech
import Inlay.Tree.Splice
import Inlay.Tree.Walk

namespace Inlay

-- == pathnames

/-- The file that is being resolved, and the directories of the files
that led to it. -/
structure Context where
  /-- The file: as it was given, or as the directive names it. -/
  sourcePath : Option String
  /-- The directories of the including files, the outermost first. -/
  sourceChain : List String
  /-- The same from the real path of the outermost file on. -/
  realChain : Option (List String)
  deriving DecidableEq, Repr

namespace Context

/-- The context of the outermost file. -/
def start (sourcePath realPath : Option String) : Context where
  sourcePath := sourcePath
  sourceChain := [Pathname.directory (sourcePath.getD "")]
  realChain := realPath.map fun path => [Pathname.directory path]

/-- The context of a file that is included as `path`. -/
def descend (c : Context) (path : String) : Context where
  sourcePath := some path
  sourceChain := c.sourceChain ++ [Pathname.directory path]
  realChain := c.realChain.map (· ++ [Pathname.directory path])

/-- The absolute pathname of a file that is included as `path`. -/
def locate (c : Context) (workingDirectory path : String) : String :=
  Pathname.resolveFrom workingDirectory (c.realChain.getD c.sourceChain ++ [path])

end Context

-- == inclusion

/-- What files are found and read with. -/
structure Library where
  techs : Registry
  /-- The tech of files whose suffixes have none. -/
  defaultTech : Option String
  marker : String
  workingDirectory : String
  read : String → Except Error String

namespace Inclusion

/-- The visit of a node; the memory counts the directives that are still
to come. -/
abbrev Visit := Walk.Visit Nat

/-- Where a directive stands in its file. -/
def place (file : Option String) (d : Directive) : Place :=
  let start := d.start.getD ⟨0, 0⟩
  ⟨file, (d.range.map (·.start)).getD 0, start.line, start.column + 1⟩

/-- The tech that a directive's file is read with. -/
def techFor (lib : Library) (d : Directive) : Except Error Tech :=
  match (d.tech.bind lib.techs.get?).or (lib.techs.lookup d.path lib.defaultTech) with
  | some tech => .ok tech
  | none => .error (.missingTech d.path)

/-- The top level nodes of a directive's file. -/
def fetch (lib : Library) (inner : Context → Tree → Except Error Tree) (c : Context)
    (d : Directive) : Except Error (List Node) := do
  let tech ← techFor lib d
  let text ← lib.read (c.locate lib.workingDirectory d.path)
  let tree ← tech.parse text (some d.path)
  let tree ← inner (c.descend d.path) tree
  return tree.body

/-- Puts the nodes of a directive's file into the tree. -/
def insert (lib : Library) (inner : Context → Tree → Except Error Tree) (c : Context)
    (p : Placement) (v : Visit) (d : Directive) : Except Error Visit := do
  let nodes ← fetch lib inner c d
  match p.splice? nodes v.tree.root v.path with
  | none => .error (.validity (place c.sourcePath d))
  | some (root, path) =>
      let tree : Tree := { v.tree with root }
      let tree := d.comment.elim tree tree.eraseComment
      return ⟨v.memory - 1, tree, path⟩

/-- The directives in an empty list of the current node. The node has to
come from the file that is being resolved, for the offsets of the comment
store are those of that file. -/
def inEmptyList (lib : Library) (host : Option String) (v : Visit) (key : String) :
    Option (Placement × List Directive) := do
  let node ← v.tree.root.at? v.path
  let range ← node.range
  if node.source? = host ∧ (node.children? key).any List.isEmpty then
    let p := if node.kind.isAtomic then Placement.replace else .into key
    some (p, Directive.within lib.marker range v.tree.comments)
  else none

/-- Resolves the directives of the current node. -/
def enter (lib : Library) (inner : Context → Tree → Except Error Tree) (c : Context)
    (v : Visit) : Except Error Visit := do
  let host := v.tree.root.source?
  let all (p : Placement) (ds : List Directive) (v : Visit) : Except Error Visit :=
    ds.foldlM (insert lib inner c p) v
  let here (v : Visit) : Option Node := v.tree.root.at? v.path
  let literal := (here v).bind (Directive.ofLiteral? lib.marker)
  let v ← all .replace literal.toList v
  let v ← lendableKeys.foldlM
    (fun v key =>
      match inEmptyList lib host v key with
      | some (p, ds) => all p ds v
      | none => .ok v)
    v
  let leading := (here v).elim [] (·.leading)
  let v ← all (.before "body") (Directive.ofComments lib.marker leading) v
  let trailing := (here v).elim [] (·.trailing)
  all (.after "body") (Directive.ofComments lib.marker trailing).reverse v

/-- How many directives a tree has. -/
def directiveCount (marker : String) (t : Tree) : Nat :=
  let inNode (n : Node) : List Directive :=
    (Directive.ofLiteral? marker n).toList
      ++ Directive.ofComments marker n.leading
      ++ Directive.ofComments marker n.trailing
  (t.root.preorder.flatMap inNode ++ Directive.ofComments marker t.comments).length

/-- The visitor that resolves directives, with `inner` for the files it
includes. -/
def visitor (lib : Library) (inner : Context → Tree → Except Error Tree) (c : Context) :
    Walk.Visitor Nat Error where
  enter := enter lib inner c
  leave := .ok
  budget := id

/-- Resolves the directives of a tree, with `inner` for the files it
includes. -/
def resolveWith (lib : Library) (inner : Context → Tree → Except Error Tree) (c : Context)
    (t : Tree) : Except Error Tree := do
  let (_, tree) ← t.walk (visitor lib inner c) (directiveCount lib.marker t)
  return tree

end Inclusion

/-- Resolves the directives of a tree and of all files it includes, which
may be nested up to the given depth. -/
def resolve (lib : Library) : Nat → Context → Tree → Except Error Tree
  | 0 =>
      Inclusion.resolveWith lib fun c _ =>
        .error (.read (c.sourcePath.getD "") "included by itself")
  | depth + 1 => Inclusion.resolveWith lib (resolve lib depth)

end Inlay
