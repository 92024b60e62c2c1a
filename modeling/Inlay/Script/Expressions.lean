/-
The grammar of expressions.

The rules call each other in a circle, but every way around the circle
takes at least one token. So each rule here is a plain function of the
rules for what follows its first token, a `Rules` record; `Grammar` ties
the knot with one level of rules for every token left.

A list of items is read by a rule that takes one item and leaves the
rest of the list to the next level.
-/
import Inlay.Script.Cursor
import Inlay.Script.Literal

namespace Inlay.Script

/-- The rules by which a construct goes on behind its first token. -/
structure Rules (m : Type → Type) where
  /-- The statements of a file. -/
  program : m (List Node)
  statement : m Node
  /-- The statements up to a closing brace, which is taken. -/
  block : m (List Node)
  /-- The statements of a `case`. -/
  caseBody : m (List Node)
  /-- The cases up to a closing brace, which is taken. -/
  cases : m (List Node)
  declarators : m (List Node)
  /-- The parameters up to a closing parenthesis, which is taken. -/
  params : m (List Node)
  expression : m Node
  /-- The expressions behind commas. -/
  sequence : m (List Node)
  assignment : m Node
  /-- Operands joined by operators of at least the given strength. -/
  binary : Nat → m Node
  /-- The operators behind a left operand that starts at an offset. -/
  binaryTail : Nat → Nat → Node → m Node
  unary : m Node
  /-- The calls and members behind an expression. -/
  callTail : Nat → Node → m Node
  /-- The members behind an expression. -/
  memberTail : Nat → Node → m Node
  newExpression : m Node
  /-- The arguments up to a closing parenthesis, which is taken. -/
  arguments : m (List Node)
  /-- The elements up to a closing bracket, which is taken. -/
  elements : m (List Node)
  /-- The properties up to a closing brace, which is taken. -/
  properties : m (List Node)

namespace Rules

open Rule

variable {m : Type → Type} [Parsing m]

-- == identifiers

/-- Any word, as allowed behind a point and as a key. -/
def identifierName : m Node := do
  let token ← peek
  if token.kind == .word then
    let _ ← next
    finish token.span.start .identifier [("name", .ofString token.text)]
  else unexpected token

/-- A word that is not reserved. -/
def identifier : m Node := do
  let token ← peek
  if token.kind == .word && !isReserved token.text then identifierName
  else unexpected token

-- == functions

/-- A block: its statements between braces. -/
def blockStatement (r : Rules m) : m Node := do
  let start := (← expect "\x7b").span.start
  let body ← r.block
  finish start .blockStatement [("body", .nodes body)]

/-- The parameters of a function and its body. -/
def functionRest (r : Rules m) (kind : Kind) (id : Option Node) (start : Nat) :
    m Node := do
  let _ ← expect "("
  let params ← r.params
  let body ← inFunction r.blockStatement
  finish start kind [("id", .ofNode? id), ("params", .nodes params), ("body", .node body)]

/-- A function. Only an expression may go without a name. -/
def function (r : Rules m) (kind : Kind) : m Node := do
  let start := (← expect "function").span.start
  let id ←
    if (← atToken "(") && kind == .functionExpression then pure none
    else some <$> identifier
  r.functionRest kind id start

/-- One parameter and the ones behind it. -/
def paramsRule (r : Rules m) : m (List Node) := do
  if ← eat ")" then return []
  let param ← identifier
  if !(← atToken ")") then
    let _ ← expect ","
  return param :: (← r.params)

-- == literals

def literal (value : Json) (raw : String) (start : Nat) : m Node :=
  finish start .literal [("value", .data value), ("raw", .ofString raw)]

/-- A regular expression, split at its last slash. -/
def regexLiteral (raw : String) (start : Nat) : m Node :=
  let reversed := raw.toList.tail.reverse
  let flags := (reversed.takeWhile (· != '/')).reverse
  let pattern := (reversed.dropWhile (· != '/')).tail.reverse
  finish start .literal
    [("value", .data (.obj [])), ("raw", .ofString raw),
     ("regex", .data (.obj
       [("pattern", .str (String.ofList pattern)), ("flags", .str (String.ofList flags))]))]

/-- A number, a string or a regular expression. -/
def literalToken (token : Token) : m Node := do
  let start := token.span.start
  match token.kind with
  | .number =>
      let _ ← next
      match numberValue? token.text with
      | some value => literal value.toJson token.text start
      | none => fail start .illegal
  | .string =>
      let _ ← next
      match unquote? token.text with
      | some value => literal (.str value) token.text start
      | none => fail start .invalidEscape
  | .regex =>
      let _ ← next
      regexLiteral token.text start
  | _ => unexpected token

-- == arrays and objects

def array (r : Rules m) : m Node := do
  let start := (← expect "[").span.start
  let elements ← withIn true r.elements
  finish start .arrayExpression [("elements", .nodes elements)]

/-- The key of a property: a string, a number or any word. -/
def propertyKey : m Node := do
  let token ← peek
  match token.kind with
  | .string | .number => literalToken token
  | .word => identifierName
  | _ => unexpected token

/-- A key and a value, or an accessor. -/
def property (r : Rules m) : m Node := do
  let token ← peek
  let start := token.span.start
  let isAccessor :=
    token.kind == .word && (token.text == "get" || token.text == "set")
      && !(← peekSecond).is ":"
  if isAccessor then
    let _ ← next
    let key ← propertyKey
    let functionStart := (← peek).span.start
    let value ← r.functionRest .functionExpression none functionStart
    finish start .property
      [("key", .node key), ("value", .node value), ("kind", .ofString token.text)]
  else
    let key ← propertyKey
    let _ ← expect ":"
    let value ← r.assignment
    finish start .property
      [("key", .node key), ("value", .node value), ("kind", .ofString "init")]

/-- One property and the ones behind it. -/
def propertiesRule (r : Rules m) : m (List Node) := do
  if ← eat "\x7d" then return []
  let property ← r.property
  if !(← atToken "\x7d") then
    let _ ← expect ","
  return property :: (← r.properties)

def object (r : Rules m) : m Node := do
  let start := (← expect "\x7b").span.start
  let properties ← withIn true r.properties
  finish start .objectExpression [("properties", .nodes properties)]

-- == primary and calls

/-- An expression in parentheses. The node does not span them. -/
def parenthesized (r : Rules m) : m Node := do
  let _ ← expect "("
  let expression ← withIn true r.expression
  let _ ← expect ")"
  return expression

def primary (r : Rules m) : m Node := do
  let token ← peek
  let start := token.span.start
  match token.kind with
  | .word =>
      if token.text == "function" then r.function .functionExpression
      else if token.text == "this" then
        let _ ← next
        finish start .thisExpression []
      else if token.text == "null" then
        let _ ← next
        literal .null token.text start
      else if token.text == "true" || token.text == "false" then
        let _ ← next
        literal (.bool (token.text == "true")) token.text start
      else identifier
  | .punct =>
      if token.text == "(" then r.parenthesized
      else if token.text == "[" then r.array
      else if token.text == "\x7b" then r.object
      else unexpected token
  | _ => literalToken token

/-- Arguments in parentheses. -/
def argumentList (r : Rules m) : m (List Node) := do
  let _ ← expect "("
  withIn true r.arguments

/-- `.name` or `[expression]` behind an object. -/
def member (r : Rules m) (start : Nat) (object : Node) : m Node := do
  if ← eat "." then
    let property ← identifierName
    finish start .memberExpression
      [("computed", .ofBool false), ("object", .node object), ("property", .node property)]
  else
    let _ ← expect "["
    let property ← withIn true r.expression
    let _ ← expect "]"
    finish start .memberExpression
      [("computed", .ofBool true), ("object", .node object), ("property", .node property)]

/-- The calls and members behind an expression that starts at an
offset. -/
def callTailRule (r : Rules m) (start : Nat) (expression : Node) : m Node := do
  let token ← peek
  if token.is "(" then
    let arguments ← r.argumentList
    let call ← finish start .callExpression
      [("callee", .node expression), ("arguments", .nodes arguments)]
    r.callTail start call
  else if token.is "." || token.is "[" then
    let member ← r.member start expression
    r.callTail start member
  else return expression

/-- The members behind the callee of a `new`. -/
def memberTailRule (r : Rules m) (start : Nat) (expression : Node) : m Node := do
  let token ← peek
  if token.is "." || token.is "[" then
    let member ← r.member start expression
    r.memberTail start member
  else return expression

/-- `new` with a callee and, if there are any, its arguments. -/
def newExpressionRule (r : Rules m) : m Node := do
  let start := (← expect "new").span.start
  let callee ← if ← atToken "new" then r.newExpression else r.primary
  let calleeStart := (callee.range.map (·.start)).getD start
  let callee ← r.memberTailRule calleeStart callee
  let arguments ← if ← atToken "(" then r.argumentList else pure []
  finish start .newExpression [("callee", .node callee), ("arguments", .nodes arguments)]

/-- A primary expression with its calls and members. -/
def callMember (r : Rules m) : m Node := do
  let start := (← peek).span.start
  let expression ← if ← atToken "new" then r.newExpressionRule else r.primary
  r.callTailRule start expression

-- == operators

/-- Whether a node may be assigned to. -/
def isTarget (n : Node) : Bool := n.kind == .identifier || n.kind == .memberExpression

def isPrefixOperator (token : Token) : Bool :=
  match token.kind with
  | .punct => ["!", "~", "+", "-"].contains token.text
  | .word => ["typeof", "void", "delete"].contains token.text
  | _ => false

def isUpdateOperator (token : Token) : Bool := token.is "++" || token.is "--"

def unaryRule (r : Rules m) : m Node := do
  let token ← peek
  let start := token.span.start
  if isPrefixOperator token then
    let _ ← next
    let argument ← r.unary
    finish start .unaryExpression
      [("operator", .ofString token.text), ("argument", .node argument),
       ("prefix", .ofBool true)]
  else if isUpdateOperator token then
    let _ ← next
    let argument ← r.unary
    if isTarget argument then
      finish start .updateExpression
        [("operator", .ofString token.text), ("argument", .node argument),
         ("prefix", .ofBool true)]
    else fail start .updateTarget
  else
    let expression ← r.callMember
    let token ← peek
    if isUpdateOperator token && !token.newlineBefore then
      if isTarget expression then
        let _ ← next
        finish start .updateExpression
          [("operator", .ofString token.text), ("argument", .node expression),
           ("prefix", .ofBool false)]
      else fail token.span.start .updateTarget
    else return expression

/-- The strength of a binary operator; a stronger one binds tighter. -/
def strength? (operator : String) (allowIn : Bool) : Option Nat :=
  match operator with
  | "||" => some 1
  | "&&" => some 2
  | "|" => some 3
  | "^" => some 4
  | "&" => some 5
  | "==" | "!=" | "===" | "!==" => some 6
  | "in" => if allowIn then some 7 else none
  | "<" | ">" | "<=" | ">=" | "instanceof" => some 7
  | "<<" | ">>" | ">>>" => some 8
  | "+" | "-" => some 9
  | "*" | "/" | "%" => some 10
  | _ => none

/-- The strength of the operator that a token is. -/
def operatorStrength? (token : Token) (allowIn : Bool) : Option Nat :=
  if token.kind == .punct || token.kind == .word then strength? token.text allowIn
  else none

/-- The kind of expression that a binary operator makes. -/
def binaryKind (operator : String) : Kind :=
  if operator == "||" || operator == "&&" then .logicalExpression else .binaryExpression

/-- The operators of at least strength `least` behind a left operand.
Operators of one strength join to the left. -/
def binaryTailRule (r : Rules m) (start least : Nat) (left : Node) : m Node := do
  let token ← peek
  match operatorStrength? token (← read).allowIn with
  | some strength =>
      if strength < least then return left
      else
        let _ ← next
        let right ← r.binary (strength + 1)
        let joined ← finish start (binaryKind token.text)
          [("operator", .ofString token.text), ("left", .node left), ("right", .node right)]
        r.binaryTail start least joined
  | none => return left

def binaryRule (r : Rules m) (least : Nat) : m Node := do
  let start := (← peek).span.start
  let left ← r.unaryRule
  r.binaryTailRule start least left

def conditional (r : Rules m) : m Node := do
  let start := (← peek).span.start
  let test ← r.binaryRule 1
  if ← eat "?" then
    let consequent ← withIn true r.assignment
    let _ ← expect ":"
    let alternate ← r.assignment
    finish start .conditionalExpression
      [("test", .node test), ("consequent", .node consequent), ("alternate", .node alternate)]
  else return test

def assignmentOperators : List String :=
  ["=", "+=", "-=", "*=", "/=", "%=", "<<=", ">>=", ">>>=", "&=", "|=", "^="]

def assignmentRule (r : Rules m) : m Node := do
  let start := (← peek).span.start
  let left ← r.conditional
  let token ← peek
  if token.kind == .punct && assignmentOperators.contains token.text then
    if isTarget left then
      let _ ← next
      let right ← r.assignment
      finish start .assignmentExpression
        [("operator", .ofString token.text), ("left", .node left), ("right", .node right)]
    else fail token.span.start .assignmentTarget
  else return left

/-- The expressions behind commas. -/
def sequenceRule (r : Rules m) : m (List Node) := do
  if ← eat "," then
    let expression ← r.assignment
    return expression :: (← r.sequence)
  else return []

def expressionRule (r : Rules m) : m Node := do
  let start := (← peek).span.start
  let first ← r.assignmentRule
  match ← r.sequenceRule with
  | [] => return first
  | more => finish start .sequenceExpression [("expressions", .nodes (first :: more))]

-- == their lists

/-- One argument and the ones behind it. -/
def argumentsRule (r : Rules m) : m (List Node) := do
  if ← eat ")" then return []
  let argument ← r.assignmentRule
  if !(← atToken ")") then
    let _ ← expect ","
  return argument :: (← r.arguments)

/-- One element or hole and the ones behind it. -/
def elementsRule (r : Rules m) : m (List Node) := do
  if ← eat "]" then return []
  if ← eat "," then return Node.hole :: (← r.elements)
  let element ← r.assignmentRule
  if !(← atToken "]") then
    let _ ← expect ","
  return element :: (← r.elements)

end Rules

end Inlay.Script
