/-
The grammar as a whole.

`Rules.level n` are the rules for a place with at most `n` tokens before
the end. Each rule uses the level below only behind a token it has taken,
so level zero is reached at the end of the input and nowhere else. There
a construct that has to go on fails with an unexpected end, and one that
may stop there stops.
-/
import Inlay.Script.Statements

namespace Inlay.Script

namespace Rules

open Rule

variable {m : Type → Type} [Parsing m]

/-- The failure of a construct that cannot end where it is. -/
def atEnd {α : Type} : m α := do unexpected (← peek)

/-- The rules at the end of the input. -/
def ground : Rules m where
  program := pure []
  statement := atEnd
  block := atEnd
  caseBody := atEnd
  cases := atEnd
  declarators := atEnd
  params := atEnd
  expression := atEnd
  sequence := pure []
  assignment := atEnd
  binary := fun _ => atEnd
  binaryTail := fun _ _ left => pure left
  unary := atEnd
  callTail := fun _ expression => pure expression
  memberTail := fun _ expression => pure expression
  newExpression := atEnd
  arguments := atEnd
  elements := atEnd
  properties := atEnd

/-- The rules one token further from the end. -/
def above (r : Rules m) : Rules m where
  program := r.programRule
  statement := r.statementRule
  block := r.blockRule
  caseBody := r.caseBodyRule
  cases := r.casesRule
  declarators := r.declaratorsRule
  params := r.paramsRule
  expression := r.expressionRule
  sequence := r.sequenceRule
  assignment := r.assignmentRule
  binary := r.binaryRule
  binaryTail := r.binaryTailRule
  unary := r.unaryRule
  callTail := r.callTailRule
  memberTail := r.memberTailRule
  newExpression := r.newExpressionRule
  arguments := r.argumentsRule
  elements := r.elementsRule
  properties := r.propertiesRule

/-- The rules for a place with at most `n` tokens before the end. -/
def level : Nat → Rules m
  | 0 => ground
  | n + 1 => (level n).above

end Rules

/-- Runs a rule on a list of tokens that ends with the token of kind
`eof`. -/
def Rule.run {α : Type} (p : Rules Parser → Parser α) (tokens : List Token) :
    Except SyntaxError α :=
  let start : Cursor :=
    match tokens with
    | t :: rest => ⟨t, rest, 0⟩
    | [] => ⟨⟨.eof, "", ⟨0, 0⟩, false⟩, [], 0⟩
  (p (Rules.level start.rest.length) ⟨Scope.top, start⟩).map (·.1)

/-- The statements of a whole file. -/
def statements (tokens : List Token) : Except SyntaxError (List Node) :=
  Rule.run (·.programRule) tokens

/-- The one expression of a file. -/
def soleExpression (tokens : List Token) : Except SyntaxError Node :=
  Rule.run
    (fun r => do
      let expression ← r.expressionRule
      let token ← Rule.peek
      if token.isEnd then return expression else Rule.unexpected token)
    tokens

end Inlay.Script
