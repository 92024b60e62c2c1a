/-
From a tree to the pieces of its code.

Statements end with a semicolon or a brace and stand on lines of their
own, blocks and the properties of objects are indented by one level.
Parentheses stand where an expression binds less tightly than its place
requires, and around an `in` in the head of a `for`.

A document may hold any tree, so every property is looked up when the
code gets to it; the first one that is missing is the error.
-/
import Inlay.Script.Piece
import Inlay.Script.Precedence

namespace Inlay

/-- Why a tree has no code. -/
inductive GenerateError where
  | missing (kind : Kind) (key : String)
  | unknownStatement (kind : Kind)
  | unknownExpression (kind : Kind)
  | unsupportedLiteral (value : Json)
  /-- The format can only be read. -/
  | parseOnly

def GenerateError.message : GenerateError → String
  | missing kind key => "`" ++ kind.name ++ "` is missing `" ++ key ++ "`"
  | unknownStatement kind => "unknown statement type `" ++ kind.name ++ "`"
  | unknownExpression kind => "unknown expression type `" ++ kind.name ++ "`"
  | unsupportedLiteral value => "unsupported literal value `" ++ value.compact ++ "`"
  | parseOnly => "this tech can only parse"

namespace Node

-- == properties

/-- A child, or that it is missing. -/
def need (n : Node) (key : String) : Except GenerateError { c : Node // c.size < n.size } :=
  match h : n.child? key with
  | some c => .ok ⟨c, size_lt_of_child? h⟩
  | none => .error (.missing n.kind key)

/-- A list of children, or that it is missing. -/
def needList (n : Node) (key : String) :
    Except GenerateError { cs : List Node // sizeOfNodes cs < n.size } :=
  match h : n.children? key with
  | some cs => .ok ⟨cs, sizeOfNodes_lt_of_children? h⟩
  | none => .error (.missing n.kind key)

/-- A string, or that it is missing. -/
def needString (n : Node) (key : String) : Except GenerateError String :=
  match n.string? key with
  | some s => .ok s
  | none => .error (.missing n.kind key)

/-- A child that may be missing. -/
def optional (n : Node) (key : String) : Option { c : Node // c.size < n.size } :=
  match h : n.child? key with
  | some c => some ⟨c, size_lt_of_child? h⟩
  | none => none

/-! How the calls of the code below get smaller: a child or a list of
children is smaller than the node, and on the same node the calls go down
in rank. -/

theorem child_lex {n : Node} (c : { c : Node // c.size < n.size }) {a b : Nat} :
    Prod.Lex (· < ·) (· < ·) (c.1.size, a) (n.size, b) :=
  .left _ _ c.2

theorem children_lex {n : Node} (cs : { cs : List Node // sizeOfNodes cs < n.size })
    {a b : Nat} : Prod.Lex (· < ·) (· < ·) (sizeOfNodes cs.1, a) (n.size, b) :=
  .left _ _ cs.2

theorem rank_lex {m a b : Nat} (h : a < b) :
    Prod.Lex (· < ·) (· < ·) (m, a) (m, b) :=
  .right _ h

theorem head_lex {n : Node} {rest : List Node} {a b : Nat} (h : a < b) :
    Prod.Lex (· < ·) (· < ·) (n.size, a) (sizeOfNodes (n :: rest), b) :=
  .right' _ (n.size_le_sizeOfNodes_cons rest) h

theorem tail_lex {n : Node} {rest : List Node} {a b : Nat} :
    Prod.Lex (· < ·) (· < ·) (sizeOfNodes rest, a) (sizeOfNodes (n :: rest), b) :=
  .left _ _ (n.sizeOfNodes_lt_sizeOfNodes_cons rest)

/-- The mark of a node that stands in a file. An identifier is marked
with its name. -/
def marks (n : Node) : List Script.Piece :=
  match n.loc with
  | some ⟨start, _, some source⟩ =>
      let name := if n.kind = .identifier then n.string? "name" else none
      [.mark ⟨source, start, name⟩]
  | _ => []

end Node

namespace Script

-- == words

/-- The code of a tree, or why there is none. -/
abbrev Code := Except GenerateError (List Piece)

namespace Code

def openBrace : Piece := .token "\x7b"

def closeBrace : Piece := .token "\x7d"

/-- Code in parentheses. -/
def parens (code : List Piece) : List Piece := .token "(" :: code ++ [.token ")"]

/-- Parts with a comma and a blank between them. -/
def commas (parts : List (List Piece)) : List Piece :=
  List.intercalate [.token ",", .space] parts

/-- Parts in braces, each on a line of its own. -/
def braces (depth : Nat) (separator : List Piece) (parts : List (List Piece)) : List Piece :=
  if parts.isEmpty then [openBrace, closeBrace]
  else
    openBrace
      :: List.intercalate separator (parts.map (.newline (depth + 1) :: ·))
      ++ [.newline depth, closeBrace]

/-- The elements of an array. A hole is empty and takes no blank, and
behind a last hole there is a comma. -/
def brackets (parts : List (Option (List Piece))) : List Piece :=
  let behind (part : Option (List Piece)) : List Piece :=
    .token "," ::
      match part with
      | some code => .space :: code
      | none => []
  let elements :=
    match parts with
    | [] => []
    | first :: rest => first.getD [] ++ rest.flatMap behind
  let last : List Piece :=
    match parts.getLast? with
    | some none => [.token ","]
    | _ => []
  .token "[" :: elements ++ last ++ [.token "]"]

/-- A word and a condition: `while (…`. The parenthesis stays open. -/
def head (word : String) : List Piece := [.token word, .space, .token "("]

/-- What stands between the body of a statement and the word that goes
on: a blank behind a block, else a line break. -/
def resume (depth : Nat) (body : Node) : Piece :=
  if body.kind = .blockStatement then .space else .newline depth

/-- The code of a literal. -/
def literal (n : Node) : Code :=
  match n.data? "regex" with
  | some regex =>
      let part (key : String) : String := ((regex.get? key).bind Json.string?).getD ""
      .ok [.token ("/" ++ part "pattern" ++ "/" ++ part "flags")]
  | none =>
      match n.data? "value" with
      | some (.str value) => .ok [.string value]
      | some (.num number) =>
          match number.toDouble? with
          | some d => .ok [.token (numberText d)]
          | none => .error (.missing n.kind "value")
      | some (.bool value) => .ok [.token (if value then "true" else "false")]
      | some .null | none => .ok [.token "null"]
      | some other => .error (.unsupportedLiteral other)

/-- Whether an expression is an `in`, which the head of a `for` takes for
its own. -/
def isIn (n : Node) : Bool :=
  n.kind == .binaryExpression && n.string? "operator" == some "in"

-- == grammar

mutual
/-- The statements of a program. -/
def program (depth : Nat) (n : Node) : Code := do
  let body ← n.needList "body"
  let parts ← statements depth body.1
  return n.marks ++ List.intercalate [.newline depth] parts
termination_by (n.size, 5)
decreasing_by all_goals exact Node.children_lex _

def statements (depth : Nat) (ns : List Node) : Except GenerateError (List (List Piece)) :=
  match ns with
  | [] => .ok []
  | n :: rest => do
      let code ← statement depth n
      let codes ← statements depth rest
      return code :: codes
termination_by (Node.sizeOfNodes ns, 9)
decreasing_by
  · exact Node.head_lex (by decide)
  · exact Node.tail_lex

def statement (depth : Nat) (n : Node) : Code := do
  let code ← statementBody depth n
  return n.marks ++ code
termination_by (n.size, 7)
decreasing_by all_goals exact Node.rank_lex (by decide)

/-- A statement behind its mark. -/
def statementBody (depth : Nat) (n : Node) : Code :=
  match n.kind with
  | .program => program depth n
  | .blockStatement => block depth n
  | .emptyStatement => .ok [.token ";"]
  | .debuggerStatement => .ok [.token "debugger", .token ";"]
  | .expressionStatement => do
      let inner ← n.need "expression"
      let code ← expression Level.sequence true depth inner.1
      return (if startsLikeStatement inner.1 then parens code else code) ++ [.token ";"]
  | .variableDeclaration => do
      let code ← declarations true depth n
      return code ++ [.token ";"]
  | .functionDeclaration => function true depth n
  | .returnStatement => do
      let code ← argument depth n
      return .token "return" :: code ++ [.token ";"]
  | .throwStatement => do
      let code ← argument depth n
      return .token "throw" :: code ++ [.token ";"]
  | .breakStatement => do
      let code ← label depth n
      return .token "break" :: code ++ [.token ";"]
  | .continueStatement => do
      let code ← label depth n
      return .token "continue" :: code ++ [.token ";"]
  | .labeledStatement => do
      let name ← n.need "label"
      let label ← expression Level.primary true depth name.1
      let body ← n.need "body"
      let code ← statement depth body.1
      return label ++ [.token ":", .space] ++ code
  | .withStatement => do
      let object ← n.need "object"
      let head ← headed "with" depth object.1
      let body ← n.need "body"
      let code ← substatement depth body.1
      return head ++ code
  | .ifStatement => do
      let test ← n.need "test"
      let head ← headed "if" depth test.1
      let consequent ← n.need "consequent"
      let code ← substatement depth consequent.1
      let other ← match n.optional "alternate" with
        | none => pure []
        | some alternate => do
            let code ←
              if alternate.1.kind = .ifStatement then do
                let code ← statement depth alternate.1
                pure (.space :: code)
              else substatement depth alternate.1
            pure (resume depth consequent.1 :: .token "else" :: code)
      return head ++ code ++ other
  | .forStatement => do
      let init ← match n.optional "init" with
        | some init => forLeft depth init.1
        | none => pure []
      let test ← spaced "test" depth n
      let update ← spaced "update" depth n
      let body ← n.need "body"
      let code ← substatement depth body.1
      return head "for" ++ init ++ .token ";" :: test ++ .token ";" :: update
        ++ .token ")" :: code
  | .forInStatement => do
      let left ← n.need "left"
      let target ← forLeft depth left.1
      let right ← n.need "right"
      let object ← expression Level.sequence true depth right.1
      let body ← n.need "body"
      let code ← substatement depth body.1
      return head "for" ++ target ++ [.space, .token "in", .space] ++ object
        ++ .token ")" :: code
  | .whileStatement => do
      let test ← n.need "test"
      let head ← headed "while" depth test.1
      let body ← n.need "body"
      let code ← substatement depth body.1
      return head ++ code
  | .doWhileStatement => do
      let body ← n.need "body"
      let code ← substatement depth body.1
      let test ← n.need "test"
      let condition ← expression Level.sequence true depth test.1
      return .token "do" :: code ++ resume depth body.1 :: head "while" ++ condition
        ++ [.token ")", .token ";"]
  | .tryStatement => do
      let block ← n.need "block"
      let code ← Code.block depth block.1
      let handler ← match n.optional "handler" with
        | none => pure []
        | some handler => catchClause depth handler.1
      let finalizer ← match n.optional "finalizer" with
        | none => pure []
        | some finalizer => do
            let code ← Code.block depth finalizer.1
            pure (.space :: .token "finally" :: .space :: code)
      return .token "try" :: .space :: code ++ handler ++ finalizer
  | .switchStatement => do
      let discriminant ← n.need "discriminant"
      let head ← headed "switch" depth discriminant.1
      let list ← n.needList "cases"
      let parts ← cases depth list.1
      return head ++ .space :: openBrace :: parts.flatten ++ [.newline depth, closeBrace]
  | kind =>
      if isExpression kind then expression Level.sequence true depth n
      else .error (.unknownStatement kind)
termination_by (n.size, 6)
decreasing_by
  all_goals first
    | exact Node.child_lex _
    | exact Node.children_lex _
    | exact Node.rank_lex (by decide)

/-- The argument of `return` and `throw`. -/
def argument (depth : Nat) (n : Node) : Code := spaced "argument" depth n
termination_by (n.size, 3)
decreasing_by all_goals exact Node.rank_lex (by decide)

/-- A blank and the expression under a key, nothing if there is none. -/
def spaced (key : String) (depth : Nat) (n : Node) : Code :=
  match n.optional key with
  | none => .ok []
  | some child => do
      let code ← expression Level.sequence true depth child.1
      return .space :: code
termination_by (n.size, 2)
decreasing_by all_goals exact Node.child_lex _

/-- The label of `break` and `continue`. -/
def label (depth : Nat) (n : Node) : Code :=
  match n.optional "label" with
  | none => .ok []
  | some child => expression Level.primary true depth child.1
termination_by (n.size, 2)
decreasing_by all_goals exact Node.child_lex _

/-- A word and an expression in parentheses. -/
def headed (word : String) (depth : Nat) (n : Node) : Code := do
  let code ← expression Level.sequence true depth n
  return head word ++ code ++ [.token ")"]
termination_by (n.size, 6)
decreasing_by all_goals exact Node.rank_lex (by decide)

/-- A handler, behind the block it handles. -/
def catchClause (depth : Nat) (n : Node) : Code := do
  let param ← n.need "param"
  let name ← expression Level.sequence true depth param.1
  let body ← n.need "body"
  let code ← block depth body.1
  return .space :: n.marks ++ head "catch" ++ name ++ .token ")" :: .space :: code
termination_by (n.size, 6)
decreasing_by all_goals exact Node.child_lex _

/-- The cases of a switch, each with the line breaks it needs. -/
def cases (depth : Nat) (ns : List Node) : Except GenerateError (List (List Piece)) :=
  match ns with
  | [] => .ok []
  | n :: rest => do
      let code ← switchCase depth n
      let codes ← cases depth rest
      return (.newline (depth + 1) :: n.marks ++ code) :: codes
termination_by (Node.sizeOfNodes ns, 9)
decreasing_by
  · exact Node.head_lex (by decide)
  · exact Node.tail_lex

def switchCase (depth : Nat) (n : Node) : Code := do
  let test ← match n.optional "test" with
    | none => pure [.token "default", .token ":"]
    | some test => do
        let code ← expression Level.sequence true (depth + 1) test.1
        pure (.token "case" :: .space :: code ++ [.token ":"])
  let list ← n.needList "consequent"
  let parts ← statements (depth + 2) list.1
  return test ++ parts.flatMap (.newline (depth + 2) :: ·)
termination_by (n.size, 6)
decreasing_by
  all_goals first
    | exact Node.child_lex _
    | exact Node.children_lex _

/-- The body of a statement with a head. -/
def substatement (depth : Nat) (n : Node) : Code :=
  match n.kind with
  | .blockStatement => do
      let code ← block depth n
      return .space :: code
  | .emptyStatement => .ok (n.marks ++ [.token ";"])
  | _ => do
      let code ← statement (depth + 1) n
      return .newline (depth + 1) :: code
termination_by (n.size, 8)
decreasing_by all_goals exact Node.rank_lex (by decide)

def block (depth : Nat) (n : Node) : Code := do
  let body ← n.needList "body"
  let parts ← statements (depth + 1) body.1
  return n.marks ++ braces depth [] parts
termination_by (n.size, 5)
decreasing_by all_goals exact Node.children_lex _

/-- The declarations or the expression in the head of a `for`. -/
def forLeft (depth : Nat) (n : Node) : Code :=
  if n.kind = .variableDeclaration then do
    let code ← declarations false depth n
    return n.marks ++ code
  else expression Level.sequence false depth n
termination_by (n.size, 6)
decreasing_by all_goals exact Node.rank_lex (by decide)

def declarations (allowIn : Bool) (depth : Nat) (n : Node) : Code := do
  let list ← n.needList "declarations"
  let parts ← declarators allowIn depth list.1
  return .token ((n.string? "kind").getD "var") :: List.intercalate [.token ","] parts
termination_by (n.size, 5)
decreasing_by all_goals exact Node.children_lex _

def declarators (allowIn : Bool) (depth : Nat) (ns : List Node) :
    Except GenerateError (List (List Piece)) :=
  match ns with
  | [] => .ok []
  | n :: rest => do
      let code ← declarator allowIn depth n
      let codes ← declarators allowIn depth rest
      return (.space :: n.marks ++ code) :: codes
termination_by (Node.sizeOfNodes ns, 9)
decreasing_by
  · exact Node.head_lex (by decide)
  · exact Node.tail_lex

def declarator (allowIn : Bool) (depth : Nat) (n : Node) : Code := do
  let id ← n.need "id"
  let name ← expression Level.assignment allowIn depth id.1
  let init ← match n.optional "init" with
    | none => pure []
    | some init => do
        let code ← expression Level.assignment allowIn depth init.1
        pure (.space :: .token "=" :: .space :: code)
  return name ++ init
termination_by (n.size, 6)
decreasing_by all_goals exact Node.child_lex _

def function (allowIn : Bool) (depth : Nat) (n : Node) : Code := do
  let name ← match n.optional "id" with
    | none => pure []
    | some id => expression Level.primary allowIn depth id.1
  let code ← functionRest allowIn depth n
  return .token "function" :: .space :: name ++ code
termination_by (n.size, 3)
decreasing_by
  all_goals first
    | exact Node.child_lex _
    | exact Node.rank_lex (by decide)

/-- The parameters and the body of a function. -/
def functionRest (allowIn : Bool) (depth : Nat) (n : Node) : Code := do
  let list ← n.needList "params"
  let params ← expressions allowIn depth list.1
  let body ← n.need "body"
  let code ← block depth body.1
  return parens (commas params) ++ .space :: code
termination_by (n.size, 2)
decreasing_by
  all_goals first
    | exact Node.child_lex _
    | exact Node.children_lex _

/-- The items of a comma-separated list. -/
def expressions (allowIn : Bool) (depth : Nat) (ns : List Node) :
    Except GenerateError (List (List Piece)) :=
  match ns with
  | [] => .ok []
  | n :: rest => do
      let code ← expression Level.assignment allowIn depth n
      let codes ← expressions allowIn depth rest
      return code :: codes
termination_by (Node.sizeOfNodes ns, 9)
decreasing_by
  · exact Node.head_lex (by decide)
  · exact Node.tail_lex

/-- An expression at a place that requires the given level. -/
def expression (required : Nat) (allowIn : Bool) (depth : Nat) (n : Node) : Code := do
  let wrap := Level.ofNode n < required || (isIn n && !allowIn)
  let code ← expressionBody (allowIn || wrap) depth n
  return if wrap then parens (n.marks ++ code) else n.marks ++ code
termination_by (n.size, 5)
decreasing_by all_goals exact Node.rank_lex (by decide)

/-- An expression behind its mark. -/
def expressionBody (allowIn : Bool) (depth : Nat) (n : Node) : Code :=
  match n.kind with
  | .sequenceExpression => do
      let list ← n.needList "expressions"
      let parts ← expressions allowIn depth list.1
      return commas parts
  | .assignmentExpression => do
      let left ← n.need "left"
      let target ← expression Level.call allowIn depth left.1
      let right ← n.need "right"
      let value ← expression Level.assignment allowIn depth right.1
      return target ++ [.space, .token ((n.string? "operator").getD "="), .space] ++ value
  | .conditionalExpression => do
      let test ← n.need "test"
      let condition ← expression Level.logicalOr allowIn depth test.1
      let consequent ← n.need "consequent"
      let yes ← expression Level.assignment allowIn depth consequent.1
      let alternate ← n.need "alternate"
      let no ← expression Level.assignment allowIn depth alternate.1
      return condition ++ [.space, .token "?", .space] ++ yes
        ++ [.space, .token ":", .space] ++ no
  | .logicalExpression | .binaryExpression => do
      let operator ← n.needString "operator"
      let level := Level.ofOperator operator
      let left ← n.need "left"
      let a ← expression level allowIn depth left.1
      let right ← n.need "right"
      let b ← expression (level + 1) allowIn depth right.1
      return a ++ [.space, .token operator, .space] ++ b
  | .unaryExpression => do
      let operator ← n.needString "operator"
      let inner ← n.need "argument"
      let code ← expression Level.unary allowIn depth inner.1
      return .token operator :: code
  | .updateExpression => do
      let operator ← n.needString "operator"
      let inner ← n.need "argument"
      if n.flag "prefix" then
        let code ← expression Level.unary allowIn depth inner.1
        return .token operator :: code
      else
        let code ← expression Level.call allowIn depth inner.1
        return code ++ [.token operator]
  | .callExpression => do
      let callee ← n.need "callee"
      let code ← expression Level.call allowIn depth callee.1
      let list ← n.needList "arguments"
      let parts ← expressions allowIn depth list.1
      return code ++ parens (commas parts)
  | .newExpression => do
      let callee ← n.need "callee"
      let code ←
        if hasCall callee.1 then do
          let code ← expression Level.sequence allowIn depth callee.1
          pure (parens code)
        else expression Level.new allowIn depth callee.1
      let list ← n.needList "arguments"
      let parts ← expressions allowIn depth list.1
      return .token "new" :: code ++ parens (commas parts)
  | .memberExpression => do
      let object ← n.need "object"
      let name ← n.need "property"
      if n.flag "computed" then
        let base ← expression Level.call allowIn depth object.1
        let code ← expression Level.sequence allowIn depth name.1
        return base ++ .token "[" :: code ++ [.token "]"]
      else
        let base ←
          if isNumber object.1 then do
            let code ← expression Level.sequence allowIn depth object.1
            pure (parens code)
          else expression Level.call allowIn depth object.1
        let code ← expression Level.primary allowIn depth name.1
        return base ++ .token "." :: code
  | .functionExpression => function allowIn depth n
  | .arrayExpression => do
      let list ← n.needList "elements"
      let parts ← elements allowIn depth list.1
      return brackets parts
  | .objectExpression => do
      let list ← n.needList "properties"
      let parts ← properties allowIn (depth + 1) list.1
      return braces depth [.token ","] parts
  | .identifier => do
      let name ← n.needString "name"
      return [.token name]
  | .literal => literal n
  | .thisExpression => .ok [.token "this"]
  | kind => .error (.unknownExpression kind)
termination_by (n.size, 4)
decreasing_by
  all_goals first
    | exact Node.child_lex _
    | exact Node.children_lex _
    | exact Node.rank_lex (by decide)

/-- An element of an array; a hole has no code. -/
def element (allowIn : Bool) (depth : Nat) (n : Node) :
    Except GenerateError (Option (List Piece)) :=
  if n.kind = .elision then .ok none
  else do
    let code ← expression Level.assignment allowIn depth n
    return some code
termination_by (n.size, 6)
decreasing_by all_goals exact Node.rank_lex (by decide)

def elements (allowIn : Bool) (depth : Nat) (ns : List Node) :
    Except GenerateError (List (Option (List Piece))) :=
  match ns with
  | [] => .ok []
  | n :: rest => do
      let code ← element allowIn depth n
      let codes ← elements allowIn depth rest
      return code :: codes
termination_by (Node.sizeOfNodes ns, 9)
decreasing_by
  · exact Node.head_lex (by decide)
  · exact Node.tail_lex

def properties (allowIn : Bool) (depth : Nat) (ns : List Node) :
    Except GenerateError (List (List Piece)) :=
  match ns with
  | [] => .ok []
  | n :: rest => do
      let code ← property allowIn depth n
      let codes ← properties allowIn depth rest
      return (n.marks ++ code) :: codes
termination_by (Node.sizeOfNodes ns, 9)
decreasing_by
  · exact Node.head_lex (by decide)
  · exact Node.tail_lex

/-- A property of an object, behind its mark. -/
def property (allowIn : Bool) (depth : Nat) (n : Node) : Code := do
  let key ← n.need "key"
  let kind := (n.string? "kind").getD "init"
  if kind = "get" ∨ kind = "set" then
    let name ← expression Level.primary allowIn depth key.1
    let value ← n.need "value"
    let code ← functionRest allowIn depth value.1
    return .token kind :: name ++ code
  else
    let name ←
      if key.1.kind = .identifier ∨ key.1.kind = .literal then
        expression Level.primary allowIn depth key.1
      else do
        let code ← expression Level.assignment allowIn depth key.1
        pure (.token "[" :: code ++ [.token "]"])
    let value ← n.need "value"
    let code ← expression Level.assignment allowIn depth value.1
    return name ++ .token ":" :: .space :: code
termination_by (n.size, 6)
decreasing_by all_goals exact Node.child_lex _
end

end Code

end Script

end Inlay
