/-
The grammar of statements, over the rules for what follows a statement's
first token.
-/
import Inlay.Script.Expressions

namespace Inlay.Script.Rules

open Rule

variable {m : Type → Type} [Parsing m]

-- == declarations

/-- One declarator and the ones behind it. -/
def declaratorsRule (r : Rules m) : m (List Node) := do
  let start := (← peek).span.start
  let id ← identifier
  let init ← if ← eat "=" then some <$> r.assignment else pure none
  let declarator ← finish start .variableDeclarator
    [("id", .node id), ("init", .ofNode? init)]
  if ← eat "," then return declarator :: (← r.declarators)
  else return [declarator]

/-- A declaration without the semicolon at its end. -/
def variableDeclaration (r : Rules m) : m Node := do
  let keyword ← next
  let declarations ← r.declaratorsRule
  finish keyword.span.start .variableDeclaration
    [("declarations", .nodes declarations), ("kind", .ofString keyword.text)]

-- == loops

/-- Whether a node may stand before the `in` of a loop. -/
def isLoopTarget (n : Node) : Bool :=
  (n.kind == .variableDeclaration || isTarget n)
    && ((n.children? "declarations").map fun ds => ds.length == 1).getD true

def ifStatement (r : Rules m) : m Node := do
  let start := (← next).span.start
  let test ← r.parenthesized
  let consequent ← r.statement
  let alternate ← if ← eat "else" then some <$> r.statement else pure none
  finish start .ifStatement
    [("test", .node test), ("consequent", .node consequent), ("alternate", .ofNode? alternate)]

/-- The first part of a loop's head. -/
def forInit (r : Rules m) : m (Option Node) := do
  let token ← peek
  if token.is ";" then return none
  else if ["var", "let", "const"].contains token.text then
    some <$> withIn false r.variableDeclaration
  else some <$> withIn false r.expression

/-- An expression, unless the given token follows at once. -/
def optionalExpression (r : Rules m) (stop : String) : m (Option Node) := do
  if ← atToken stop then return none else some <$> withIn true r.expression

/-- A loop over keys, from its `in` on. -/
def forInRest (r : Rules m) (start : Nat) (left : Node) : m Node := do
  let token ← next
  if isLoopTarget left then
    let right ← withIn true r.expression
    let _ ← expect ")"
    let body ← r.statement
    finish start .forInStatement
      [("left", .node left), ("right", .node right), ("body", .node body),
       ("each", .ofBool false)]
  else fail token.span.start .forInTarget

/-- A loop with a counter, from the first semicolon on. -/
def forRest (r : Rules m) (start : Nat) (init : Option Node) : m Node := do
  let _ ← expect ";"
  let test ← r.optionalExpression ";"
  let _ ← expect ";"
  let update ← r.optionalExpression ")"
  let _ ← expect ")"
  let body ← r.statement
  finish start .forStatement
    [("init", .ofNode? init), ("test", .ofNode? test), ("update", .ofNode? update),
     ("body", .node body)]

def forStatement (r : Rules m) : m Node := do
  let start := (← next).span.start
  let _ ← expect "("
  let init ← r.forInit
  match init, ← atToken "in" with
  | some left, true => r.forInRest start left
  | _, _ => r.forRest start init

/-- `while` and `with`. -/
def headedStatement (r : Rules m) (kind : Kind) (key : String) : m Node := do
  let start := (← next).span.start
  let head ← r.parenthesized
  let body ← r.statement
  finish start kind [(key, .node head), ("body", .node body)]

def doWhileStatement (r : Rules m) : m Node := do
  let start := (← next).span.start
  let body ← r.statement
  let _ ← expect "while"
  let test ← r.parenthesized
  let _ ← eat ";"
  finish start .doWhileStatement [("body", .node body), ("test", .node test)]

-- == jumps

/-- `return` and `throw`; only `return` may go without an argument. -/
def argumentStatement (r : Rules m) (kind : Kind) : m Node := do
  let start := (← next).span.start
  let token ← peek
  if token.is ";" || token.is "\x7d" || token.isEnd || token.newlineBefore then
    if kind == .returnStatement then
      semicolon
      finish start kind [("argument", .data .null)]
    else fail token.span.start .newlineAfterThrow
  else
    let argument ← r.expression
    semicolon
    finish start kind [("argument", .node argument)]

/-- `break` and `continue`, with a label on the same line if there is
one. -/
def jumpStatement (kind : Kind) : m Node := do
  let start := (← next).span.start
  let token ← peek
  if token.kind == .word && !token.newlineBefore && !isReserved token.text then
    if (← read).labels.contains token.text then
      let label ← identifier
      semicolon
      finish start kind [("label", .node label)]
    else fail token.span.start (.undefinedLabel token.text)
  else
    semicolon
    finish start kind [("label", .data .null)]

def labeledStatement (r : Rules m) : m Node := do
  let token ← peek
  let start := token.span.start
  if (← read).labels.contains token.text then fail start (.repeatedLabel token.text)
  else
    let label ← identifier
    let _ ← expect ":"
    let body ← labelled token.text r.statement
    finish start .labeledStatement [("label", .node label), ("body", .node body)]

-- == other compounds

def catchClause (r : Rules m) : m (Option Node) := do
  if ← atToken "catch" then
    let start := (← next).span.start
    let _ ← expect "("
    let param ← identifier
    let _ ← expect ")"
    let body ← r.blockStatement
    some <$> finish start .catchClause [("param", .node param), ("body", .node body)]
  else return none

def tryStatement (r : Rules m) : m Node := do
  let start := (← next).span.start
  let block ← r.blockStatement
  let handler ← r.catchClause
  let finalizer ← if ← eat "finally" then some <$> r.blockStatement else pure none
  if handler.isNone && finalizer.isNone then fail (← peek).span.start .tryAlone
  else
    finish start .tryStatement
      [("block", .node block), ("handler", .ofNode? handler),
       ("finalizer", .ofNode? finalizer)]

/-- One case and the ones behind it. -/
def casesRule (r : Rules m) : m (List Node) := do
  if ← eat "\x7d" then return []
  let start := (← peek).span.start
  let test ←
    if ← eat "default" then pure none
    else do
      let _ ← expect "case"
      some <$> r.expression
  let _ ← expect ":"
  let consequent ← r.caseBody
  let switchCase ← finish start .switchCase
    [("test", .ofNode? test), ("consequent", .nodes consequent)]
  return switchCase :: (← r.cases)

def switchStatement (r : Rules m) : m Node := do
  let start := (← next).span.start
  let discriminant ← r.parenthesized
  let _ ← expect "\x7b"
  let cases ← r.cases
  finish start .switchStatement
    [("discriminant", .node discriminant), ("cases", .nodes cases)]

-- == statements

def declarationStatement (r : Rules m) : m Node := do
  let start := (← peek).span.start
  let declaration ← r.variableDeclaration
  semicolon
  finish start declaration.kind declaration.props

def expressionStatement (r : Rules m) : m Node := do
  let start := (← peek).span.start
  let expression ← r.expressionRule
  semicolon
  finish start .expressionStatement [("expression", .node expression)]

def emptyStatement : m Node := do
  let start := (← next).span.start
  finish start .emptyStatement []

def debuggerStatement : m Node := do
  let start := (← next).span.start
  semicolon
  finish start .debuggerStatement []

/-- A statement that starts with a word. -/
def wordStatement (r : Rules m) (token : Token) : m Node := do
  match token.text with
  | "var" | "let" | "const" => r.declarationStatement
  | "function" => r.function .functionDeclaration
  | "if" => r.ifStatement
  | "for" => r.forStatement
  | "while" => r.headedStatement .whileStatement "test"
  | "do" => r.doWhileStatement
  | "return" =>
      if (← read).inFunction then r.argumentStatement .returnStatement
      else fail token.span.start .illegalReturn
  | "throw" => r.argumentStatement .throwStatement
  | "break" => jumpStatement .breakStatement
  | "continue" => jumpStatement .continueStatement
  | "try" => r.tryStatement
  | "switch" => r.switchStatement
  | "with" => r.headedStatement .withStatement "object"
  | "debugger" => debuggerStatement
  | word =>
      if !isReserved word && (← peekSecond).is ":" then r.labeledStatement
      else r.expressionStatement

def statementRule (r : Rules m) : m Node := do
  let token ← peek
  match token.kind with
  | .punct =>
      if token.text == "\x7b" then r.blockStatement
      else if token.text == ";" then emptyStatement
      else r.expressionStatement
  | .word => r.wordStatement token
  | _ => r.expressionStatement

/-- The statements of one `case`. -/
def caseBodyRule (r : Rules m) : m (List Node) := do
  let token ← peek
  if token.is "case" || token.is "default" || token.is "\x7d" then return []
  else if token.isEnd then unexpected token
  else
    let statement ← r.statementRule
    return statement :: (← r.caseBody)

/-- One statement of a block and the ones behind it. -/
def blockRule (r : Rules m) : m (List Node) := do
  if ← eat "\x7d" then return []
  let token ← peek
  if token.isEnd then unexpected token
  else
    let statement ← r.statementRule
    return statement :: (← r.block)

/-- One statement of a file and the ones behind it. -/
def programRule (r : Rules m) : m (List Node) := do
  if (← peek).isEnd then return []
  else
    let statement ← r.statementRule
    return statement :: (← r.program)

end Inlay.Script.Rules
