/-
Source maps, version 3.

An entry says that a position of the generated code comes from a point of
a source file. `SourceMap.ofEntries` numbers sources and names in the
order of their first use; of several entries in a row for one generated
position the last one stays. `encode` writes the mappings: lines are
separated by `;`, the segments of a line by `,`, and a segment holds the
differences to the segment before it as base64 numbers of variable
length.
-/
import Inlay.Json.Writer
import Inlay.Position

namespace Inlay.SourceMap

/-- A generated position, both numbers counted from zero, and the point
it comes from. -/
structure Entry where
  line : Nat
  column : Nat
  source : String
  origin : Point
  name : Option String
  deriving DecidableEq, Repr

/-- A mapping of a source map. All numbers count from zero. -/
structure Mapping where
  line : Nat
  column : Nat
  source : Nat
  originLine : Nat
  originColumn : Nat
  name : Option Nat
  deriving DecidableEq, Repr

end SourceMap

structure SourceMap where
  sources : List String
  names : List String
  mappings : List SourceMap.Mapping
  deriving DecidableEq, Repr

namespace SourceMap

-- == entries

/-- Of mappings in a row for one generated position, the last. -/
def keepLast : List Mapping → List Mapping
  | [] => []
  | [m] => [m]
  | m :: next :: rest =>
      if m.line = next.line ∧ m.column = next.column then keepLast (next :: rest)
      else m :: keepLast (next :: rest)

/-- The mapping of an entry, given the numbered sources and names. -/
def Entry.mapping (sources names : List String) (e : Entry) : Mapping where
  line := e.line
  column := e.column
  source := sources.idxOf e.source
  originLine := e.origin.line - 1
  originColumn := e.origin.column
  name := e.name.map names.idxOf

/-- The source map of the entries, in the order of generation. -/
def ofEntries (entries : List Entry) : SourceMap :=
  let sources := (entries.map (·.source)).eraseDups
  let names := (entries.filterMap (·.name)).eraseDups
  { sources, names, mappings := keepLast (entries.map (Entry.mapping sources names)) }

-- == encoding

/-- The character of a base64 digit. -/
def base64 (digit : Nat) : Char :=
  if digit < 26 then Char.ofNat ('A'.toNat + digit)
  else if digit < 52 then Char.ofNat ('a'.toNat + (digit - 26))
  else if digit < 62 then Char.ofNat ('0'.toNat + (digit - 52))
  else if digit = 62 then '+'
  else '/'

/-- Digits of five bits, the lowest first. A digit that more digits
follow has the sixth bit set. -/
def vlqDigits (n : Nat) : List Nat :=
  if n < 32 then [n] else (32 + n % 32) :: vlqDigits (n / 32)

/-- A number of variable length. The lowest bit is the sign. -/
def vlq (value : Int) : List Char :=
  let n := 2 * value.natAbs + (if value < 0 then 1 else 0)
  (vlqDigits n).map base64

/-- The numbers that the next segment is a difference to. -/
structure Anchor where
  line : Nat
  column : Nat
  source : Nat
  originLine : Nat
  originColumn : Nat
  name : Nat

def Anchor.start : Anchor := ⟨0, 0, 0, 0, 0, 0⟩

/-- The anchor behind a mapping. -/
def Anchor.after (a : Anchor) (m : Mapping) : Anchor :=
  ⟨m.line, m.column, m.source, m.originLine, m.originColumn, m.name.getD a.name⟩

/-- The difference of two positions. -/
def delta (value anchor : Nat) : List Char := vlq ((value : Int) - anchor)

/-- A segment, without the separator in front of it. -/
def segment (a : Anchor) (m : Mapping) : List Char :=
  let column := if a.line < m.line then 0 else a.column
  delta m.column column ++ delta m.source a.source ++ delta m.originLine a.originLine
    ++ delta m.originColumn a.originColumn
    ++ (match m.name with
        | some name => delta name a.name
        | none => [])

/-- The mappings behind an anchor. `first` says that no segment of the
anchor's line is written yet. -/
def encodeFrom (a : Anchor) (first : Bool) : List Mapping → List Char
  | [] => []
  | m :: rest =>
      let separator :=
        if a.line < m.line then List.replicate (m.line - a.line) ';'
        else if first then []
        else [',']
      separator ++ segment a m ++ encodeFrom (a.after m) false rest

/-- The text of the mappings. -/
def encode (mappings : List Mapping) : String :=
  String.ofList (encodeFrom Anchor.start true mappings)

/-- The source map as a JSON document. -/
def toJson (m : SourceMap) : Json :=
  .obj
    [ ("version", Json.ofNat 3),
      ("sources", .arr (m.sources.map .str)),
      ("names", .arr (m.names.map .str)),
      ("mappings", .str (encode m.mappings)) ]

def text (m : SourceMap) : String := m.toJson.compact

end Inlay.SourceMap
