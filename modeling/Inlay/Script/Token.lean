/-
The tokens of a script.

A token knows its text, where it stands, and whether a line terminator
separates it from the token before it. The list of tokens of a script
ends with a token of kind `eof`.
-/
import Inlay.Position

namespace Inlay.Script

inductive TokenKind where
  | word
  | number
  | string
  | regex
  | punct
  | eof
  deriving DecidableEq, Repr

structure Token where
  kind : TokenKind
  text : String
  span : Span
  /-- Whether a line terminator stands between this token and the one
  before it. -/
  newlineBefore : Bool
  deriving DecidableEq, Repr

namespace Token

/-- Whether the token is the given punctuator or word. -/
def is (t : Token) (text : String) : Bool :=
  (t.kind == .punct || t.kind == .word) && t.text == text

def isEnd (t : Token) : Bool := t.kind == .eof

end Token

/-- The words that are no identifiers. -/
def reservedWords : List String :=
  ["break", "case", "catch", "class", "const", "continue", "debugger", "default",
   "delete", "do", "else", "enum", "export", "extends", "false", "finally", "for",
   "function", "if", "import", "in", "instanceof", "let", "new", "null", "return",
   "super", "switch", "this", "throw", "true", "try", "typeof", "var", "void",
   "while", "with"]

def isReserved (word : String) : Bool := reservedWords.contains word

-- == errors

/-- Why a text is no script. -/
inductive Cause where
  | unterminatedString
  | unterminatedComment
  | illegal
  | unterminatedRegex
  | unexpected (token : Token)
  | illegalReturn
  | newlineAfterThrow
  | undefinedLabel (label : String)
  | repeatedLabel (label : String)
  | tryAlone
  | forInTarget
  | assignmentTarget
  | updateTarget
  | invalidEscape
  deriving DecidableEq, Repr

def Cause.message : Cause → String
  | unterminatedString => "Unterminated string"
  | unterminatedComment => "Unterminated comment"
  | illegal => "Unexpected token ILLEGAL"
  | unterminatedRegex => "Invalid regular expression: missing /"
  | unexpected token =>
      match token.kind with
      | .eof => "Unexpected end of input"
      | .number => "Unexpected number"
      | .string => "Unexpected string"
      | .regex => "Unexpected regular expression " ++ token.text
      | .word =>
          if isReserved token.text then "Unexpected token " ++ token.text
          else "Unexpected identifier"
      | .punct => "Unexpected token " ++ token.text
  | illegalReturn => "Illegal return statement"
  | newlineAfterThrow => "Illegal newline after throw"
  | undefinedLabel label => "Undefined label '" ++ label ++ "'"
  | repeatedLabel label => "Label '" ++ label ++ "' has already been declared"
  | tryAlone => "Missing catch or finally after try"
  | forInTarget => "Invalid left-hand side in for-in"
  | assignmentTarget => "Invalid left-hand side in assignment"
  | updateTarget => "Invalid left-hand side in update expression"
  | invalidEscape => "Invalid escape sequence"

/-- A cause and the offset where it was found. -/
structure SyntaxError where
  index : Nat
  cause : Cause
  deriving DecidableEq, Repr

end Inlay.Script
