/-
The kinds of syntax nodes.

The kinds are those of ESTree documents for scripts; a kind of any other
name is carried along uninterpreted. `elision` is the hole of an array
literal, which documents write as `null`.
-/

namespace Inlay

/-- What a syntax node is. -/
inductive Kind where
  | program
  | blockStatement
  | emptyStatement
  | expressionStatement
  | variableDeclaration
  | variableDeclarator
  | functionDeclaration
  | functionExpression
  | returnStatement
  | ifStatement
  | forStatement
  | forInStatement
  | whileStatement
  | doWhileStatement
  | breakStatement
  | continueStatement
  | throwStatement
  | tryStatement
  | catchClause
  | switchStatement
  | switchCase
  | debuggerStatement
  | identifier
  | literal
  | thisExpression
  | arrayExpression
  | objectExpression
  | property
  | unaryExpression
  | updateExpression
  | binaryExpression
  | logicalExpression
  | assignmentExpression
  | conditionalExpression
  | callExpression
  | newExpression
  | memberExpression
  | sequenceExpression
  | labeledStatement
  | withStatement
  | elision
  | other (name : String)
  deriving DecidableEq, Repr

namespace Kind

/-- The kinds that have a meaning of their own, with their names. -/
def known : List (Kind × String) :=
  [ (program, "Program"),
    (blockStatement, "BlockStatement"),
    (emptyStatement, "EmptyStatement"),
    (expressionStatement, "ExpressionStatement"),
    (variableDeclaration, "VariableDeclaration"),
    (variableDeclarator, "VariableDeclarator"),
    (functionDeclaration, "FunctionDeclaration"),
    (functionExpression, "FunctionExpression"),
    (returnStatement, "ReturnStatement"),
    (ifStatement, "IfStatement"),
    (forStatement, "ForStatement"),
    (forInStatement, "ForInStatement"),
    (whileStatement, "WhileStatement"),
    (doWhileStatement, "DoWhileStatement"),
    (breakStatement, "BreakStatement"),
    (continueStatement, "ContinueStatement"),
    (throwStatement, "ThrowStatement"),
    (tryStatement, "TryStatement"),
    (catchClause, "CatchClause"),
    (switchStatement, "SwitchStatement"),
    (switchCase, "SwitchCase"),
    (debuggerStatement, "DebuggerStatement"),
    (identifier, "Identifier"),
    (literal, "Literal"),
    (thisExpression, "ThisExpression"),
    (arrayExpression, "ArrayExpression"),
    (objectExpression, "ObjectExpression"),
    (property, "Property"),
    (unaryExpression, "UnaryExpression"),
    (updateExpression, "UpdateExpression"),
    (binaryExpression, "BinaryExpression"),
    (logicalExpression, "LogicalExpression"),
    (assignmentExpression, "AssignmentExpression"),
    (conditionalExpression, "ConditionalExpression"),
    (callExpression, "CallExpression"),
    (newExpression, "NewExpression"),
    (memberExpression, "MemberExpression"),
    (sequenceExpression, "SequenceExpression"),
    (labeledStatement, "LabeledStatement"),
    (withStatement, "WithStatement"),
    (elision, "Elision") ]

/-- The name a document gives the kind. -/
def name : Kind → String
  | other name => name
  | kind => (known.lookup kind).getD ""

/-- The kind of a name. -/
def ofName (name : String) : Kind :=
  match known.find? (·.2 == name) with
  | some (kind, _) => kind
  | none => other name

/-- Whether the kind has a meaning of its own. -/
def isKnown : Kind → Bool
  | other _ => false
  | _ => true

/-- Objects, arrays and literals. Only another atomic node may take the
place of one, and none may stand in a statement list. -/
def isAtomic : Kind → Bool
  | objectExpression | arrayExpression | literal => true
  | _ => false

/-- The kinds whose `body` holds statements. -/
def isContainer : Kind → Bool
  | program | blockStatement => true
  | _ => false

/-- The property that has to hold a list of nodes. -/
def listKey : Kind → Option String
  | program | blockStatement => some "body"
  | arrayExpression => some "elements"
  | objectExpression => some "properties"
  | _ => none

end Kind

/-- The properties that may receive included nodes. -/
def lendableKeys : List String := ["body", "elements", "properties"]

end Inlay
