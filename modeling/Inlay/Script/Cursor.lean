/-
Reading a list of tokens.

A rule reads the tokens in front of it and knows the scope it stands
in; it either fails with a syntax error or moves on. The current token is
always there: the list ends with the token of kind `eof`, which no rule
moves past.

Rules are written over any kind of computation that reads that way
(`Parsing`). The parser has one state for the tokens and the scope: a
construct changes the scope for what is inside it and puts it back
afterwards.
-/
import Inlay.Script.Token
import Inlay.Tree.Basic

namespace Inlay.Script

/-- A place in a list of tokens. -/
structure Cursor where
  current : Token
  rest : List Token
  /-- Where the token before the current one ends. -/
  lastEnd : Nat

/-- The cursor behind the current token; the last token is never
passed. -/
def Cursor.advance (c : Cursor) : Cursor :=
  if c.current.isEnd then c
  else
    match c.rest with
    | [] => c
    | t :: rest => ⟨t, rest, c.current.span.stop⟩

/-- What the constructs around a place allow there. -/
structure Scope where
  /-- Whether `in` is an operator. It is none in the head of a `for`. -/
  allowIn : Bool
  /-- Whether `return` is allowed. -/
  inFunction : Bool
  /-- The labels of the statements around, up to the next function. -/
  labels : List String

/-- The scope of a whole file. -/
def Scope.top : Scope := ⟨true, false, []⟩

/-- Computations that read tokens in a scope. -/
class Parsing (m : Type → Type) extends Monad m, MonadReaderOf Scope m where
  /-- The place in the tokens. -/
  cursor : m Cursor
  /-- Moves behind the current token. -/
  advance : m Unit
  error {α : Type} : SyntaxError → m α
  /-- Runs a rule where `in` is, or is no, operator. -/
  withIn {α : Type} (allowIn : Bool) : m α → m α
  /-- Runs a rule in the body of a function. -/
  inFunction {α : Type} : m α → m α
  /-- Runs a rule behind a label. -/
  labelled {α : Type} (label : String) : m α → m α

-- == the parser

/-- What the parser changes on its way. -/
structure State where
  scope : Scope
  cursor : Cursor

abbrev Parser := StateT State (Except SyntaxError)

namespace Parser

variable {α : Type}

def setScope (f : Scope → Scope) : Parser Unit := modify fun s => { s with scope := f s.scope }

/-- Sets the flag and puts back the one from before. -/
def withIn (allowIn : Bool) (p : Parser α) : Parser α := do
  let saved := (← get).scope.allowIn
  setScope fun scope => { scope with allowIn }
  let a ← p
  setScope fun scope => { scope with allowIn := saved }
  return a

/-- No label reaches into a function; those around it are put back behind
it. -/
def inFunction (p : Parser α) : Parser α := do
  let saved := (← get).scope
  setScope fun scope => { scope with inFunction := true, labels := [] }
  let a ← withIn true p
  setScope fun scope =>
    { scope with inFunction := saved.inFunction, labels := saved.labels }
  return a

/-- Pushes the label and pops the last one afterwards. -/
def labelled (label : String) (p : Parser α) : Parser α := do
  setScope fun scope => { scope with labels := scope.labels ++ [label] }
  let a ← p
  setScope fun scope => { scope with labels := scope.labels.dropLast }
  return a

instance : Parsing Parser where
  read := return (← get).scope
  cursor := return (← get).cursor
  advance := modify fun s => { s with cursor := s.cursor.advance }
  error := throw
  withIn
  inFunction
  labelled

end Parser

-- == rules

namespace Rule

export Parsing (withIn inFunction labelled)

variable {m : Type → Type} [Parsing m] {α : Type}

def fail (index : Nat) (cause : Cause) : m α := Parsing.error ⟨index, cause⟩

/-- Fails at a token that cannot stand where it is. -/
def unexpected (token : Token) : m α := fail token.span.start (.unexpected token)

/-- The current token. -/
def peek : m Token := return (← Parsing.cursor).current

/-- The token behind the current one. -/
def peekSecond : m Token := do
  let c ← Parsing.cursor
  return c.rest.head?.getD c.current

/-- Takes the current token. -/
def next : m Token := do
  let c ← Parsing.cursor
  Parsing.advance
  return c.current

/-- Takes the current token if it is the given punctuator or word. -/
def eat (text : String) : m Bool := do
  if (← peek).is text then
    let _ ← next
    return true
  else return false

/-- Takes the current token, which has to be the given punctuator or
word. -/
def expect (text : String) : m Token := do
  let token ← peek
  if token.is text then next else unexpected token

/-- Whether the current token is the given punctuator or word. -/
def atToken (text : String) : m Bool := return (← peek).is text

/-- A node from `start` to the end of the token taken last. -/
def finish (start : Nat) (kind : Kind) (props : List (String × Field Node)) :
    m Node := do
  let c ← Parsing.cursor
  return { Node.bare kind props with range := some ⟨start, c.lastEnd⟩ }

/-- The end of a statement: a semicolon, or nothing before a closing
brace, at the end and behind a line break. -/
def semicolon : m Unit := do
  let token ← peek
  if token.is ";" then
    let _ ← next
  else if token.is "\x7d" || token.isEnd || token.newlineBefore then
    return ()
  else unexpected token

end Rule

end Inlay.Script
