/-
Nodes that have code.

What the code of a node looks up depends on the kind of the node only, and
of a child it is enough to know the kind. So the needs of all kinds fit into
a table (`wants`), and a tree is fit for code if it meets it node by node
(`Writable`). A role is what a child is written as.
-/
import Inlay.Proofs.Script.Lookups
import Inlay.Proofs.Script.Seats

namespace Inlay.Script

-- == roles

/-- What a child stands for in the code of its parent. -/
inductive Role where
  | expression
  /-- An expression or a hole. -/
  | element
  | statement
  /-- A statement, or an expression that stands for itself. -/
  | item
  /-- Declarations or an expression in the head of a loop. -/
  | loopHead
  | block
  | declarator
  | handler
  | switchCase
  | property
  /-- The function of an accessor. -/
  | method
  deriving DecidableEq

/-- Whether a node of the kind can have the role. -/
def Role.admits (kind : Kind) : Role → Bool
  | expression => isExpression kind
  | element => isExpression kind || kind == .elision
  | statement => kind.isStatement
  | item => kind.isStatement || isExpression kind
  | loopHead => isExpression kind || kind == .variableDeclaration
  | block => kind == .blockStatement
  | declarator => kind == .variableDeclarator
  | handler => kind == .catchClause
  | switchCase => kind == .switchCase
  | property => kind == .property
  | method => kind == .functionExpression

/-- Atomic nodes have the same roles. -/
theorem Role.admits_of_isAtomic {a b : Kind} (ha : a.isAtomic = true) (hb : b.isAtomic = true)
    {role : Role} (h : role.admits a = true) : role.admits b = true := by
  cases a <;> cases ha <;> cases b <;> cases hb <;> cases role <;> first | rfl | cases h

/-- What the code of a node looks for under a key. -/
inductive Want where
  | child (role : Role)
  | optional (role : Role)
  | list (role : Role)
  | text
  deriving DecidableEq

/-- Whether the node has under the key what is looked for. -/
def Want.isMet (n : Node) (key : String) : Want → Bool
  | child role => (n.child? key).any (role.admits ·.kind)
  | optional role => (n.child? key).all (role.admits ·.kind)
  | list role => (n.children? key).any (·.all (role.admits ·.kind))
  | text => (n.string? key).isSome

/-- The children that are found. -/
@[simp] def Want.found (n : Node) (key : String) : Want → List Node
  | child _ | optional _ => (n.child? key).toList
  | list _ => (n.children? key).getD []
  | text => []

/-- What the code of a node of the kind looks for. -/
def wants : Kind → List (String × Want)
  | .program | .blockStatement => [("body", .list .item)]
  | .expressionStatement => [("expression", .child .expression)]
  | .variableDeclaration => [("declarations", .list .declarator)]
  | .variableDeclarator => [("id", .child .expression), ("init", .optional .expression)]
  | .functionDeclaration | .functionExpression =>
      [("id", .optional .expression), ("params", .list .expression), ("body", .child .block)]
  | .returnStatement | .throwStatement => [("argument", .optional .expression)]
  | .breakStatement | .continueStatement => [("label", .optional .expression)]
  | .labeledStatement => [("label", .child .expression), ("body", .child .statement)]
  | .withStatement => [("object", .child .expression), ("body", .child .statement)]
  | .ifStatement =>
      [("test", .child .expression), ("consequent", .child .statement),
       ("alternate", .optional .statement)]
  | .forStatement =>
      [("init", .optional .loopHead), ("test", .optional .expression),
       ("update", .optional .expression), ("body", .child .statement)]
  | .forInStatement =>
      [("left", .child .loopHead), ("right", .child .expression), ("body", .child .statement)]
  | .whileStatement | .doWhileStatement =>
      [("test", .child .expression), ("body", .child .statement)]
  | .tryStatement =>
      [("block", .child .block), ("handler", .optional .handler), ("finalizer", .optional .block)]
  | .catchClause => [("param", .child .expression), ("body", .child .block)]
  | .switchStatement => [("discriminant", .child .expression), ("cases", .list .switchCase)]
  | .switchCase => [("test", .optional .expression), ("consequent", .list .statement)]
  | .sequenceExpression => [("expressions", .list .expression)]
  | .assignmentExpression => [("left", .child .expression), ("right", .child .expression)]
  | .conditionalExpression =>
      [("test", .child .expression), ("consequent", .child .expression),
       ("alternate", .child .expression)]
  | .logicalExpression | .binaryExpression =>
      [("operator", .text), ("left", .child .expression), ("right", .child .expression)]
  | .unaryExpression | .updateExpression => [("operator", .text), ("argument", .child .expression)]
  | .callExpression | .newExpression =>
      [("callee", .child .expression), ("arguments", .list .expression)]
  | .memberExpression => [("object", .child .expression), ("property", .child .expression)]
  | .arrayExpression => [("elements", .list .element)]
  | .objectExpression => [("properties", .list .property)]
  | .property => [("key", .child .expression), ("value", .child .expression)]
  | .identifier => [("name", .text)]
  | .emptyStatement | .debuggerStatement | .thisExpression | .literal | .elision | .other _ => []

theorem ne_raw_of_mem_wants {kind : Kind} {key : String} {want : Want}
    (h : (key, want) ∈ wants kind) : key ≠ "raw" := by
  rintro rfl
  cases kind <;> simp [wants] at h

/-- Whether the property is a getter or a setter. -/
def isGetterOrSetter (n : Node) : Bool :=
  let kind := (n.string? "kind").getD "init"
  kind == "get" || kind == "set"

/-- The node has all that is looked for. -/
def Meets (n : Node) : List (String × Want) → Prop
  | [] => True
  | want :: rest => want.2.isMet n want.1 = true ∧ Meets n rest

theorem meets_iff {n : Node} {ws : List (String × Want)} :
    Meets n ws ↔ ∀ want ∈ ws, want.2.isMet n want.1 = true := by
  induction ws with
  | nil => simp [Meets]
  | cons want rest ih => rw [Meets, ih, List.forall_mem_cons]

/-- What the code of a node needs of it. -/
@[mk_iff]
structure Writable (n : Node) : Prop where
  wants : Meets n (wants n.kind)
  literal : n.kind = .literal → (Code.literal n).toBool = true
  accessor : n.kind = .property → isGetterOrSetter n = true →
    (Want.child .method).isMet n "value" = true

end Inlay.Script
