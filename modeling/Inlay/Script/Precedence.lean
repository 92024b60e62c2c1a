/-
How tightly expressions bind.

An expression that binds less tightly than its place requires stands in
parentheses. Two more rules need a look into an expression: a statement
must not begin with the brace of an object or the word `function`, and
the callee of `new` must not contain a call.
-/
import Inlay.Tree.Measure

namespace Inlay

namespace Script

-- == levels

namespace Level

/-! The levels, loosest first. -/

def sequence : Nat := 0
def assignment : Nat := 1
def conditional : Nat := 2
def logicalOr : Nat := 3
def logicalAnd : Nat := 4
def bitwiseOr : Nat := 5
def bitwiseXor : Nat := 6
def bitwiseAnd : Nat := 7
def equality : Nat := 8
def relational : Nat := 9
def shift : Nat := 10
def additive : Nat := 11
def multiplicative : Nat := 12
def unary : Nat := 13
def update : Nat := 14
def call : Nat := 15
def new : Nat := 16
def member : Nat := 17
def primary : Nat := 18

/-- The level of an operator between two operands. -/
def ofOperator (operator : String) : Nat :=
  if operator = "||" then logicalOr
  else if operator = "&&" then logicalAnd
  else if operator = "|" then bitwiseOr
  else if operator = "^" then bitwiseXor
  else if operator = "&" then bitwiseAnd
  else if operator ∈ ["==", "!=", "===", "!=="] then equality
  else if operator ∈ ["<", ">", "<=", ">=", "in", "instanceof"] then relational
  else if operator ∈ ["<<", ">>", ">>>"] then shift
  else if operator ∈ ["+", "-"] then additive
  else multiplicative

/-- The level of an expression. -/
def ofNode (n : Node) : Nat :=
  match n.kind with
  | .sequenceExpression => sequence
  | .assignmentExpression => assignment
  | .conditionalExpression => conditional
  | .logicalExpression | .binaryExpression => ofOperator ((n.string? "operator").getD "")
  | .unaryExpression => unary
  | .updateExpression => if n.flag "prefix" then unary else update
  | .callExpression => call
  | .newExpression => new
  | .memberExpression => member
  | _ => primary

end Level

-- == inner looks

/-- The node whose code an expression's code starts with, if it is not
the expression's own. -/
def first? (n : Node) : Option Node :=
  match n.kind with
  | .callExpression => n.child? "callee"
  | .memberExpression => n.child? "object"
  | .binaryExpression | .logicalExpression | .assignmentExpression => n.child? "left"
  | .conditionalExpression => n.child? "test"
  | .sequenceExpression => (n.children? "expressions").bind List.head?
  | .updateExpression => if n.flag "prefix" then none else n.child? "argument"
  | _ => none

theorem size_lt_of_first? {n c : Node} (h : first? n = some c) : c.size < n.size := by
  unfold first? at h
  split at h
  case h_5 | h_3 | h_4 | h_6 | h_1 | h_2 => exact Node.size_lt_of_child? h
  case h_7 =>
    obtain ⟨cs, hcs, hc⟩ := Option.bind_eq_some_iff.1 h
    have := Node.sizeOfNodes_lt_of_children? hcs
    cases cs with
    | nil => cases hc
    | cons a rest =>
      cases hc
      simp only [Node.sizeOfNodes] at this
      omega
  case h_8 =>
    split at h
    · cases h
    · exact Node.size_lt_of_child? h
  case h_9 => cases h

/-- The innermost node that an expression's code starts with. -/
def leftmost (n : Node) : Node :=
  match _h : first? n with
  | some c => leftmost c
  | none => n
termination_by n.size
decreasing_by exact size_lt_of_first? ‹_›

/-- Whether an expression has to be in parentheses to be a statement. -/
def startsLikeStatement (n : Node) : Bool :=
  match (leftmost n).kind with
  | .objectExpression | .functionExpression => true
  | _ => false

/-- Whether the callee of `new` has a call in it that would take the
arguments. -/
def hasCall (n : Node) : Bool :=
  match n.kind with
  | .callExpression => true
  | .memberExpression =>
      match _h : n.child? "object" with
      | some c => hasCall c
      | none => false
  | _ => false
termination_by n.size
decreasing_by exact Node.size_lt_of_child? ‹_›

/-- Whether a node is a number. -/
def isNumber (n : Node) : Bool :=
  n.kind == .literal &&
    match n.data? "value" with
    | some (.num _) => true
    | _ => false

/-- Whether a node of the kind can stand where a statement does, as the
expression it is. -/
def isExpression : Kind → Bool
  | .identifier | .literal | .thisExpression | .arrayExpression | .objectExpression
  | .functionExpression | .unaryExpression | .updateExpression | .binaryExpression
  | .logicalExpression | .assignmentExpression | .conditionalExpression
  | .callExpression | .newExpression | .memberExpression | .sequenceExpression => true
  | _ => false

end Script

end Inlay
