/-
From text to tokens and comments.

A lexeme is the longest piece at the front of the text that has one of the forms
below. Each form is a small function that counts the characters of the lexeme
behind its first one; so nothing is lost, and every lexeme has at least one
character. A slash is a division or starts a regular expression, depending on
the token before it alone.
-/
import Inlay.Script.Token
import Inlay.Text.Alphanumeric
import Inlay.Tree.Basic

namespace Inlay.Script

/-- The forms of lexemes. -/
inductive Lexeme where
  | blank
  | newline
  | blockComment
  | lineComment
  | token (kind : TokenKind)
  deriving DecidableEq, Repr

namespace Lexeme

-- == character classes

/-- Blanks that are no line terminators. -/
def isBlank (c : Char) : Bool :=
  c == ' ' || c == '\t' || c == '\x0b' || c == '\x0c' || c == '\u00a0' || c == '\ufeff'

def isLineTerminator (c : Char) : Bool :=
  c == '\n' || c == '\r' || c == '\u2028' || c == '\u2029'

def isWordStart (c : Char) : Bool := c.isAlpha || c == '_' || c == '$'

def isWordPart (c : Char) : Bool := c.isAlphanum || c == '_' || c == '$'

def isHexDigit (c : Char) : Bool :=
  c.isDigit || ('a' ≤ c && c ≤ 'f') || ('A' ≤ c && c ≤ 'F')

/-- How many characters at the front are of a class. -/
def count (p : Char → Bool) (cs : List Char) : Nat := (cs.takeWhile p).length

-- == numbers

/-- The length of an exponent: the letter, a sign if there is one, and at
least one digit. Zero if there is none. -/
def exponentLength : List Char → Nat
  | e :: rest =>
      if e = 'e' ∨ e = 'E' then
        match rest with
        | sign :: digits =>
            if sign = '+' ∨ sign = '-' then
              let n := count Char.isDigit digits
              if n = 0 then 0 else n + 2
            else
              let n := count Char.isDigit rest
              if n = 0 then 0 else n + 1
        | [] => 0
      else 0
  | [] => 0

/-- The length of digits, a point and digits; one of the two runs of
digits may be empty, and the point may be missing behind the first. -/
def mantissaLength (cs : List Char) : Nat :=
  let whole := count Char.isDigit cs
  match cs.drop whole with
  | '.' :: rest => whole + 1 + count Char.isDigit rest
  | _ => whole

/-- The length of a hexadecimal number, zero if there is none. -/
def hexLength : List Char → Nat
  | '0' :: x :: rest =>
      if x = 'x' ∨ x = 'X' then
        let n := count isHexDigit rest
        if n = 0 then 0 else n + 2
      else 0
  | _ => 0

/-- The length of a number. -/
def numberLength (cs : List Char) : Nat :=
  if hexLength cs ≠ 0 then hexLength cs
  else
    let n := mantissaLength cs
    n + exponentLength (cs.drop n)

-- == strings and comments

/-- The characters of a string behind its opening quote, the closing one
included. A backslash hides the character behind it. -/
def stringLength? (quote : Char) : List Char → Option Nat
  | [] => none
  | c :: rest =>
      if c = '\\' then
        match rest with
        | [] => none
        | _ :: rest => (stringLength? quote rest).map (· + 2)
      else if c = '\n' ∨ c = '\r' then none
      else if c = quote then some 1
      else (stringLength? quote rest).map (· + 1)

/-- The characters up to and including the first `*/`. -/
def commentLength? : List Char → Option Nat
  | [] => none
  | c :: rest =>
      if c = '*' ∧ rest.head? = some '/' then some 2
      else (commentLength? rest).map (· + 1)

-- == regular expressions

/-- The characters of a regular expression behind its opening slash, up
to and including the closing one. A slash inside brackets closes
nothing. -/
def regexBodyLength? (inClass : Bool) : List Char → Option Nat
  | [] => none
  | c :: rest =>
      if c = '\\' then
        match rest with
        | [] => none
        | d :: rest =>
            if isLineTerminator d then none
            else (regexBodyLength? inClass rest).map (· + 2)
      else if isLineTerminator c then none
      else if c = '[' then (regexBodyLength? true rest).map (· + 1)
      else if c = ']' then (regexBodyLength? false rest).map (· + 1)
      else if c = '/' ∧ ¬inClass then some 1
      else (regexBodyLength? inClass rest).map (· + 1)

/-- Whether a character may be a flag. -/
def isFlag (c : Char) : Bool := Text.isAlphanumeric c || c == '_' || c == '$'

/-- The characters of a regular expression behind its opening slash,
flags included. -/
def regexLength? (cs : List Char) : Option Nat :=
  (regexBodyLength? false cs).map fun n => n + count isFlag (cs.drop n)

/-- The reserved words that are operands. -/
def operandWords : List String := ["this", "null", "true", "false"]

/-- Whether a slash behind the given token starts a regular
expression. -/
def regexAllowed : Option Token → Bool
  | none => true
  | some t =>
      match t.kind with
      | .number | .string | .regex => false
      | .word => isReserved t.text && !operandWords.contains t.text
      | .punct => !([")", "]", "\x7d", "++", "--"].contains t.text)
      | .eof => true

-- == punctuators

/-- The punctuators of more than one character, longer ones first. -/
def longPunctuators : List (List Char) :=
  [['>', '>', '>', '='], ['=', '=', '='], ['!', '=', '='], ['>', '>', '>'],
   ['<', '<', '='], ['>', '>', '='], ['&', '&'], ['|', '|'], ['=', '='], ['!', '='],
   ['<', '='], ['>', '='], ['+', '+'], ['-', '-'], ['+', '='], ['-', '='], ['*', '='],
   ['/', '='], ['%', '='], ['&', '='], ['|', '='], ['^', '='], ['<', '<'], ['>', '>']]

/-- The punctuators of one character. -/
def shortPunctuators : List Char :=
  ['{', '}', '(', ')', '[', ']', ';', ',', '<', '>', '+', '-', '*', '/', '%', '&',
   '|', '^', '!', '~', '?', ':', '=', '.']

/-- The length of the longest punctuator at the front, zero if there is
none. -/
def punctLength (cs : List Char) : Nat :=
  match longPunctuators.find? (·.isPrefixOf cs) with
  | some p => p.length
  | none =>
      match cs with
      | c :: _ => if shortPunctuators.contains c then 1 else 0
      | [] => 0

-- == the next lexeme

/-- The form of the lexeme that starts with `c`, and how many characters
behind `c` belong to it. -/
def next (previous : Option Token) (c : Char) (rest : List Char) :
    Except Cause (Lexeme × Nat) :=
  if isBlank c then .ok (.blank, count isBlank rest)
  else if c = '\r' ∧ rest.head? = some '\n' then .ok (.newline, 1)
  else if isLineTerminator c then .ok (.newline, 0)
  else if c = '/' ∧ rest.head? = some '*' then
    match commentLength? rest.tail with
    | some n => .ok (.blockComment, n + 1)
    | none => .error .unterminatedComment
  else if c = '/' ∧ rest.head? = some '/' then
    .ok (.lineComment, count (!isLineTerminator ·) rest)
  else if isWordStart c then .ok (.token .word, count isWordPart rest)
  else if c.isDigit ∨ (c = '.' ∧ (rest.head?.map Char.isDigit).getD false) then
    .ok (.token .number, numberLength (c :: rest) - 1)
  else if c = '"' ∨ c = '\'' then
    match stringLength? c rest with
    | some n => .ok (.token .string, n)
    | none => .error .unterminatedString
  else if c = '/' ∧ regexAllowed previous then
    match regexLength? rest with
    | some n => .ok (.token .regex, n)
    | none => .error .unterminatedRegex
  else
    match punctLength (c :: rest) with
    | 0 => .error .illegal
    | n + 1 => .ok (.token .punct, n)

end Lexeme

-- == whole texts

/-- A script's tokens and comments. -/
structure Lexed where
  tokens : List Token
  comments : List Comment

/-- The comment with the given text, delimiters included. -/
def commentOf (kind : CommentKind) (text : List Char) (span : Span) : Comment :=
  let value :=
    match kind with
    | .block => (text.drop 2).dropLast.dropLast
    | .line => text.drop 2
  { kind, value := String.ofList value, range := some span, loc := none }

/-- Whether a block comment counts as a line break. -/
def breaksLine (text : List Char) : Bool := text.any fun c => c == '\n' || c == '\r'

/-- The tokens and comments of the text from `offset` on. `newline` says
whether a line terminator was seen since the token `previous`. -/
def lexFrom (offset : Nat) (newline : Bool) (previous : Option Token)
    (cs : List Char) : Except SyntaxError Lexed :=
  match cs with
  | [] => .ok ⟨[⟨.eof, "", ⟨offset, offset⟩, newline⟩], []⟩
  | c :: rest =>
      match Lexeme.next previous c rest with
      | .error cause => .error ⟨offset, cause⟩
      | .ok (form, more) =>
          let text := c :: rest.take more
          let stop := offset + Text.bytes text
          let span : Span := ⟨offset, stop⟩
          match form with
          | .blank => lexFrom stop newline previous (rest.drop more)
          | .newline => lexFrom stop true previous (rest.drop more)
          | .blockComment => do
              let lexed ←
                lexFrom stop (newline || breaksLine text) previous (rest.drop more)
              .ok { lexed with comments := commentOf .block text span :: lexed.comments }
          | .lineComment => do
              let lexed ← lexFrom stop newline previous (rest.drop more)
              .ok { lexed with comments := commentOf .line text span :: lexed.comments }
          | .token kind => do
              let token : Token := ⟨kind, String.ofList text, span, newline⟩
              let lexed ← lexFrom stop false (some token) (rest.drop more)
              .ok { lexed with tokens := token :: lexed.tokens }
termination_by cs.length
decreasing_by
  all_goals
    simp only [List.length_drop, List.length_cons]
    omega

/-- The tokens and comments of a text. -/
def lex (cs : List Char) : Except SyntaxError Lexed := lexFrom 0 false none cs

end Inlay.Script
