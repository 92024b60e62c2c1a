/-
Positions in source texts.

Offsets count UTF-8 bytes. A point counts lines from one and columns, in
UTF-16 units, from zero. Lines end at `\n`, at `\r\n` and at a `\r` that
no `\n` follows.

A line table keeps, for each line but the first, where it starts and the
text from there on; `LineTable.point` takes the last line that starts at
or before the offset and measures from its start.
-/
import Inlay.Text.Basic

namespace Inlay

/-- A line, counted from one, and a column in UTF-16 units. -/
structure Point where
  line : Nat
  column : Nat
  deriving DecidableEq, Repr

/-- The byte offsets `[start, stop)` of a piece of text. -/
structure Span where
  start : Nat
  stop : Nat
  deriving DecidableEq, Repr

/-- Whether `inner` lies within `outer`. -/
def Span.contains (outer inner : Span) : Bool :=
  outer.start ≤ inner.start && inner.stop ≤ outer.stop

/-- Where a piece of text stands, and the file it stands in. -/
structure Location where
  start : Point
  stop : Point
  source : Option String
  deriving DecidableEq, Repr

/-- A line from its first character to the end of the whole text. -/
structure Line where
  start : Nat
  text : List Char

/-- The lines of a text. The first one starts at offset zero. -/
structure LineTable where
  content : List Char
  later : List Line

namespace LineTable

/-- The lines that start behind a line terminator of the text, which
begins at `offset`. -/
def linesAfter (offset : Nat) : List Char → List Line
  | [] => []
  | c :: rest =>
      let next := offset + c.utf8Size
      if c = '\n' ∨ (c = '\r' ∧ rest.head? ≠ some '\n') then
        ⟨next, rest⟩ :: linesAfter next rest
      else linesAfter next rest

def ofText (content : List Char) : LineTable := ⟨content, linesAfter 0 content⟩

def lineCount (t : LineTable) : Nat := t.later.length + 1

/-- The width of the first `n` bytes of a text, `none` when they end
inside a character or behind the text. -/
def widthOfBytes : Nat → List Char → Option Nat
  | 0, _ => some 0
  | _ + 1, [] => none
  | n + 1, c :: rest =>
      if c.utf8Size ≤ n + 1 then
        (widthOfBytes (n + 1 - c.utf8Size) rest).map (Text.units c + ·)
      else none
termination_by structural _ cs => cs

/-- The point of an offset. An offset that is no character boundary of
the text has its column counted in bytes. -/
def point (t : LineTable) (offset : Nat) : Point :=
  let before := t.later.takeWhile (·.start ≤ offset)
  let line := before.getLast?.getD ⟨0, t.content⟩
  let bytes := offset - line.start
  { line := before.length + 1
    column := (widthOfBytes bytes line.text).getD bytes }

def location (t : LineTable) (span : Span) (source : Option String) : Location :=
  ⟨t.point span.start, t.point span.stop, source⟩

end LineTable

end Inlay
