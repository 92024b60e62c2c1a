/-
TOML documents as JSON objects.

The keys of every table come in sorted order. Values may be nested up to
eighty deep.
-/
import Inlay.Toml.Scalar
import Inlay.Toml.Table
import Inlay.Toml.Text

namespace Inlay.Toml

/-- How deep arrays and inline tables may be nested. -/
def maxDepth : Nat := 80

def skipBlanks (cs : List Char) : List Char := cs.dropWhile isBlank

/-- What follows a comment. A comment ends before the line break. -/
def comment? (cs : List Char) : Option (List Char) :=
  match cs with
  | '#' :: rest =>
      let rest := rest.dropWhile isPlain
      if rest.isEmpty ∨ 0 < breakLength rest then some rest else none
  | _ => some cs

/-- What follows the blanks, line breaks and comments at the start of a
text. -/
def skipLines? : Nat → List Char → Option (List Char)
  | 0, cs => some cs
  | fuel + 1, cs =>
      match cs with
      | '#' :: _ => do
          let rest ← comment? cs
          skipLines? fuel rest
      | _ =>
          let length := spaceLength cs
          if length = 0 then some cs else skipLines? fuel (cs.drop length)

/-- What follows the space between the parts of a value. -/
def skipSpace? (cs : List Char) : Option (List Char) := skipLines? cs.length cs

-- == keys

/-- A part of a key. -/
def simpleKey? (cs : List Char) : Option (String × List Char) := do
  match cs with
  | '"' :: rest =>
      let (key, rest) ← basic? rest
      return (String.ofList key, rest)
  | '\'' :: rest =>
      let (key, rest) ← literal? rest
      return (String.ofList key, rest)
  | _ =>
      let isBare (c : Char) : Bool := c.isAlphanum || c == '_' || c == '-'
      let key := cs.takeWhile isBare
      if key.isEmpty then none else return (String.ofList key, cs.dropWhile isBare)

/-- The parts of a key behind its first one, and what follows the blanks
behind the key. -/
def keyTail? : Nat → List Char → Option (List String × List Char)
  | 0, _ => none
  | fuel + 1, cs => do
      match skipBlanks cs with
      | '.' :: rest =>
          let (key, rest) ← simpleKey? (skipBlanks rest)
          let (keys, rest) ← keyTail? fuel rest
          return (key :: keys, rest)
      | rest => return ([], rest)

/-- A key: the parts before its last one, the last one, and what follows
the blanks behind it. -/
def key? (cs : List Char) : Option (List String × String × List Char) := do
  let (first, rest) ← simpleKey? cs
  let (more, rest) ← keyTail? (rest.length + 1) rest
  let keys := first :: more
  return (keys.dropLast, keys.getLast?.getD first, rest)

-- == values

/-- The items of an array, with `value?` for each. -/
def items? (value? : List Char → Option (Json × List Char)) :
    Nat → List Char → Option (List Json × List Char)
  | 0, _ => none
  | fuel + 1, cs => do
      match ← skipSpace? cs with
      | ']' :: rest => return ([], rest)
      | cs =>
          let (item, rest) ← value? cs
          match ← skipSpace? rest with
          | ',' :: rest =>
              let (items, rest) ← items? value? fuel rest
              return (item :: items, rest)
          | ']' :: rest => return ([item], rest)
          | _ => none

/-- A key and its value, with `value?` for the value. -/
def pair? (value? : List Char → Option (Json × List Char)) (t : Table) (cs : List Char) :
    Option (Table × List Char) := do
  let (path, key, rest) ← key? cs
  match rest with
  | '=' :: rest =>
      let (value, rest) ← value? (skipBlanks rest)
      return (← t.setValue? path key value, rest)
  | _ => none

/-- The pairs of an inline table, with `value?` for each value. -/
def pairs? (value? : List Char → Option (Json × List Char)) :
    Nat → Table → List Char → Option (Table × List Char)
  | 0, _, _ => none
  | fuel + 1, t, cs => do
      match ← skipSpace? cs with
      | '\x7d' :: rest => return (t, rest)
      | cs =>
          let (t, rest) ← pair? value? t cs
          match ← skipSpace? rest with
          | ',' :: rest => pairs? value? fuel t rest
          | '\x7d' :: rest => return (t, rest)
          | _ => none

/-- A value with at most `depth` levels, and what follows. -/
def value? : Nat → List Char → Option (Json × List Char)
  | 0, cs => plain cs
  | depth + 1, cs =>
      match cs with
      | '[' :: rest => do
          let (items, rest) ← items? (value? depth) (rest.length + 1) rest
          return (.arr items, rest)
      | '\x7b' :: rest => do
          let (t, rest) ← pairs? (value? depth) (rest.length + 1) (Table.empty .header) rest
          return (t.toJson, rest)
      | _ => plain cs
where
  /-- A value without levels. -/
  plain (cs : List Char) : Option (Json × List Char) :=
    match cs.head? with
    | some '"' | some '\'' => (string? cs).map fun (s, rest) => (.str (String.ofList s), rest)
    | _ => scalar? cs

-- == documents

/-- A document under way: all of it, and the path of the header that was
opened last. -/
structure Draft where
  root : Table
  current : List String

/-- The closing brackets of a header. -/
def closeHeader? (brackets : List Char) (cs : List Char) : Option (List Char) :=
  if brackets.isPrefixOf cs then some (cs.drop brackets.length) else none

/-- A header or a pair, and what follows. -/
def entry? (d : Draft) (cs : List Char) : Option (Draft × List Char) := do
  match cs with
  | '[' :: '[' :: rest =>
      let (path, key, rest) ← key? (skipBlanks rest)
      let rest ← closeHeader? [']', ']'] rest
      return (⟨← d.root.openItem? path key, path ++ [key]⟩, rest)
  | '[' :: rest =>
      let (path, key, rest) ← key? (skipBlanks rest)
      let rest ← closeHeader? [']'] rest
      return (⟨← d.root.openTable? path key, path ++ [key]⟩, rest)
  | _ =>
      let (path, key, rest) ← key? cs
      match rest with
      | '=' :: rest =>
          let (value, rest) ← value? maxDepth (skipBlanks rest)
          let root ← d.root.within? .above (·.setValue? path key value) d.current
          return ({ d with root }, rest)
      | _ => none

/-- The document, read line by line. -/
def document? : Nat → Draft → List Char → Option Table
  | 0, _, _ => none
  | fuel + 1, d, cs => do
      match ← skipSpace? cs with
      | [] => return d.root
      | cs =>
          let (d, rest) ← entry? d cs
          let rest ← comment? (skipBlanks rest)
          if rest.isEmpty ∨ 0 < breakLength rest then document? fuel d rest else none

/-- The document of a text. A byte order mark in front is ignored. -/
def read? (text : String) : Option Json :=
  let cs := text.toList
  let cs := if cs.head? = some '\ufeff' then cs.tail else cs
  (document? (cs.length + 1) ⟨Table.empty .header, []⟩ cs).map Table.toJson

end Inlay.Toml
