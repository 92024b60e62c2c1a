/-
The two written forms of JSON values: compact, and indented by four
spaces. Strings escape the double quote, the backslash and the control
characters below U+0020, and nothing else.
-/
import Inlay.Json.Number

namespace Inlay.Json

/-- A hexadecimal digit in lower case. -/
def hexDigit (n : Nat) : Char := Nat.digitChar n

/-- The characters that stand for `c` inside quotes. -/
def escapeChar (c : Char) : List Char :=
  if c = '"' then ['\\', '"']
  else if c = '\\' then ['\\', '\\']
  else if c = '\x08' then ['\\', 'b']
  else if c = '\t' then ['\\', 't']
  else if c = '\n' then ['\\', 'n']
  else if c = '\x0c' then ['\\', 'f']
  else if c = '\r' then ['\\', 'r']
  else if c.toNat < 0x20 then
    ['\\', 'u', '0', '0', hexDigit (c.toNat / 16), hexDigit (c.toNat % 16)]
  else [c]

/-- A string in quotes. -/
def quoted (s : String) : String :=
  String.ofList ('"' :: s.toList.flatMap escapeChar ++ ['"'])

-- == compact

mutual
/-- The value on one line without blanks. -/
def compact : Json → String
  | .null => "null"
  | .bool b => if b then "true" else "false"
  | .num n => n.text
  | .str s => quoted s
  | .arr items => "[" ++ compactItems items ++ "]"
  | .obj members => "\x7b" ++ compactMembers members ++ "\x7d"

def compactItems : List Json → String
  | [] => ""
  | [j] => j.compact
  | j :: rest => j.compact ++ "," ++ compactItems rest

def compactMembers : List (String × Json) → String
  | [] => ""
  | [(key, j)] => quoted key ++ ":" ++ j.compact
  | (key, j) :: rest => quoted key ++ ":" ++ j.compact ++ "," ++ compactMembers rest
end

-- == indented

/-- A line break and the blanks of the given depth. -/
def newline (depth : Nat) : String :=
  String.ofList ('\n' :: List.replicate (4 * depth) ' ')

mutual
/-- The value over several lines, one item or member to a line; empty
arrays and objects stay closed. -/
def indentedAt (depth : Nat) : Json → String
  | .arr [] => "[]"
  | .arr items => "[" ++ indentedItems (depth + 1) items ++ newline depth ++ "]"
  | .obj [] => "\x7b\x7d"
  | .obj members =>
      "\x7b" ++ indentedMembers (depth + 1) members ++ newline depth ++ "\x7d"
  | .null => "null"
  | .bool b => if b then "true" else "false"
  | .num n => n.text
  | .str s => quoted s

def indentedItems (depth : Nat) : List Json → String
  | [] => ""
  | [j] => newline depth ++ j.indentedAt depth
  | j :: rest => newline depth ++ j.indentedAt depth ++ "," ++ indentedItems depth rest

def indentedMembers (depth : Nat) : List (String × Json) → String
  | [] => ""
  | [(key, j)] => newline depth ++ quoted key ++ ": " ++ j.indentedAt depth
  | (key, j) :: rest =>
      newline depth ++ quoted key ++ ": " ++ j.indentedAt depth ++ "," ++
        indentedMembers depth rest
end

/-- The value indented by four spaces a level. -/
def indented (j : Json) : String := j.indentedAt 0

end Inlay.Json
