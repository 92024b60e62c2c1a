/-
Strings of TOML.

A basic string stands in double quotes and has escapes, a literal string
stands in single quotes and has none; both come with three quotes as
well, and then run over lines. A line break right behind three opening
quotes does not belong to the string. Three closing quotes take up to two
quotes before them into the string.

Each reader gets the text behind the opening quotes and returns the
string and the text behind the closing ones.
-/
import Inlay.Text.Basic

namespace Inlay.Toml

/-- Blanks within a line. -/
def isBlank (c : Char) : Bool := c == ' ' || c == '\t'

/-- Characters that may stand in a string or a comment as they are. -/
def isPlain (c : Char) : Bool := c == '\t' || (' ' ≤ c && c != '\x7f')

/-- How many characters a line break at the start of a text has. -/
def breakLength : List Char → Nat
  | '\n' :: _ => 1
  | '\r' :: '\n' :: _ => 2
  | _ => 0

-- == escapes

/-- The character with the number that the first `count` hexadecimal
digits of a text stand for. -/
def codePoint? (count : Nat) (cs : List Char) : Option Char := do
  let digits := cs.take count
  if digits.length < count then none
  else
    let n ← digits.foldlM (fun n c => (Text.hexValue? c).map (n * 16 + ·)) 0
    if n < 0xD800 ∨ (0xE000 ≤ n ∧ n < 0x110000) then some (Char.ofNat n) else none

/-- The character that an escape stands for, given what follows the
backslash, and how many characters behind the first one belong to it. -/
def escape? (c : Char) (rest : List Char) : Option (Char × Nat) :=
  if c = 'b' then some ('\x08', 0)
  else if c = 't' then some ('\t', 0)
  else if c = 'n' then some ('\n', 0)
  else if c = 'f' then some ('\x0c', 0)
  else if c = 'r' then some ('\r', 0)
  else if c = 'e' then some ('\x1b', 0)
  else if c = '"' then some ('"', 0)
  else if c = '\\' then some ('\\', 0)
  else if c = 'x' then (codePoint? 2 rest).map (·, 2)
  else if c = 'u' then (codePoint? 4 rest).map (·, 4)
  else if c = 'U' then (codePoint? 8 rest).map (·, 8)
  else none

/-- How many blanks and line breaks a text starts with. -/
def spaceLength : List Char → Nat
  | ' ' :: rest => 1 + spaceLength rest
  | '\t' :: rest => 1 + spaceLength rest
  | '\n' :: rest => 1 + spaceLength rest
  | '\r' :: '\n' :: rest => 2 + spaceLength rest
  | _ => 0

/-- Whether only blanks stand before the next line break. -/
def endsLine (cs : List Char) : Bool := 0 < breakLength (cs.dropWhile isBlank)

-- == strings

/-- A basic string on one line. -/
def basic? (cs : List Char) : Option (List Char × List Char) :=
  match cs with
  | [] => none
  | '"' :: rest => some ([], rest)
  | '\\' :: c :: rest => do
      let (d, length) ← escape? c rest
      let (s, rest) ← basic? (rest.drop length)
      return (d :: s, rest)
  | c :: rest => do
      if c = '\\' ∨ !isPlain c then none
      else
        let (s, rest) ← basic? rest
        return (c :: s, rest)
termination_by cs.length
decreasing_by
  all_goals
    simp only [List.length_drop, List.length_cons]
    omega

/-- A literal string on one line. -/
def literal? : List Char → Option (List Char × List Char)
  | [] => none
  | c :: rest => do
      if c = '\'' then some ([], rest)
      else if isPlain c then
        let (s, rest) ← literal? rest
        return (c :: s, rest)
      else none

/-- How three quotes or more end a string: the quotes that belong to it,
and what follows. -/
def closing? (quote : Char) : List Char → Option (List Char × List Char)
  | a :: b :: c :: rest =>
      if a = quote ∧ b = quote ∧ c = quote then
        let extra := (rest.take 2).takeWhile (· == quote)
        some (extra, rest.drop extra.length)
      else none
  | _ => none

/-- A basic string over lines. A backslash at the end of a line takes the
blanks and line breaks behind it away. -/
def longBasic? (cs : List Char) : Option (List Char × List Char) :=
  match closing? '"' cs with
  | some result => some result
  | none =>
      match cs with
      | [] => none
      | c :: rest => do
          if c = '\\' then
            if endsLine rest then longBasic? (rest.drop (spaceLength rest))
            else
              match rest with
              | [] => none
              | c :: rest => do
                  let (d, length) ← escape? c rest
                  let (s, rest) ← longBasic? (rest.drop length)
                  return (d :: s, rest)
          else if isPlain c ∨ c = '\n' ∨ 0 < breakLength cs then
            let (s, rest) ← longBasic? rest
            return (c :: s, rest)
          else none
termination_by cs.length
decreasing_by
  all_goals
    simp only [List.length_drop, List.length_cons]
    omega

/-- A literal string over lines. -/
def longLiteral? (cs : List Char) : Option (List Char × List Char) :=
  match closing? '\'' cs with
  | some result => some result
  | none =>
      match cs with
      | [] => none
      | c :: rest => do
          if isPlain c ∨ c = '\n' ∨ 0 < breakLength cs then
            let (s, rest) ← longLiteral? rest
            return (c :: s, rest)
          else none

/-- A text without the line break at its start. -/
def dropBreak (cs : List Char) : List Char := cs.drop (breakLength cs)

/-- The string at the start of a text. -/
def string? : List Char → Option (List Char × List Char)
  | '"' :: '"' :: '"' :: rest => longBasic? (dropBreak rest)
  | '"' :: rest => basic? rest
  | '\'' :: '\'' :: '\'' :: rest => longLiteral? (dropBreak rest)
  | '\'' :: rest => literal? rest
  | _ => none

end Inlay.Toml
