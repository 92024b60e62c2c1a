/-
The pieces of generated code.

Code is generated as a list of pieces: tokens, the places where indented
code has a blank or a line break, and marks that tie the next token to
the node it comes from. The list does not depend on whether the code will
be indented. `draw` lays the pieces out: it writes a blank where two
tokens would run together, and notes the position of each mark.
-/
import Inlay.Script.Spelling
import Inlay.SourceMap

namespace Inlay.Script

/-- The source of the next token: a file, a point in it, and the name
that stands there. -/
structure Mark where
  source : String
  point : Point
  name : Option String
  deriving DecidableEq, Repr

inductive Piece where
  | token (text : String)
  /-- A string literal with the given value. -/
  | string (value : String)
  /-- A blank in indented code. -/
  | space
  /-- A line break in indented code, before a line of the given depth. -/
  | newline (depth : Nat)
  | mark (m : Mark)
  deriving DecidableEq, Repr

def Piece.isMark : Piece → Bool
  | .mark _ => true
  | _ => false

-- == running together

/-- Whether a character can belong to a word or a number. -/
def isWordPart (c : Char) : Bool :=
  c.isAlphanum || c == '_' || c == '$' || 0x80 ≤ c.toNat

/-- Whether a token that starts with `first` runs together with one that
ends with `last`. -/
def runsTogether (last first : Char) : Bool :=
  (isWordPart last && isWordPart first) || (last == '+' && first == '+')
    || (last == '-' && first == '-') || (last == '/' && (first == '/' || first == '*'))

/-- The blank that has to stand between the code and a token. -/
def gap (last : Option Char) (token : List Char) : List Char :=
  match last, token.head? with
  | some l, some f => if runsTogether l f then [' '] else []
  | _, _ => []

-- == layout

/-- Where the code written so far ends, and what it ends with. -/
structure Pen where
  line : Nat
  column : Nat
  last : Option Char

namespace Pen

def start : Pen := ⟨0, 0, none⟩

/-- The pen behind a character. -/
def write (pen : Pen) (c : Char) : Pen :=
  if c = '\n' then ⟨pen.line + 1, 0, some c⟩
  else ⟨pen.line, pen.column + Text.units c, some c⟩

/-- The pen behind a text. -/
def writeAll (pen : Pen) (cs : List Char) : Pen := cs.foldl write pen

end Pen

/-- The entry for a mark whose token starts at the pen. -/
def Mark.entry (pen : Pen) (m : Mark) : SourceMap.Entry :=
  ⟨pen.line, pen.column, m.source, m.point, m.name⟩

/-- Code with the source map entries for it. -/
structure Drawing where
  code : List Char
  entries : List SourceMap.Entry

/-- The text of a line break and the indentation behind it. -/
def lineBreak (depth : Nat) : List Char := '\n' :: List.replicate (4 * depth) ' '

/-- What a piece puts on the page. -/
inductive Ink where
  | mark (m : Mark)
  | blank (text : List Char)
  | token (text : List Char)

/-- The ink of a piece, in indented code or in code without blanks. -/
def Piece.ink (indented : Bool) : Piece → Ink
  | .token text => .token text.toList
  | .string value => .token (quoted indented value.toList)
  | .space => .blank (if indented then [' '] else [])
  | .newline depth => .blank (if indented then lineBreak depth else [])
  | .mark m => .mark m

/-- The code of the pieces behind a pen. `pending` are the marks that
wait for a token. -/
def drawFrom (indented : Bool) (pen : Pen) (pending : List Mark) : List Piece → Drawing
  | [] => ⟨[], []⟩
  | piece :: rest =>
      match piece.ink indented with
      | .mark m => drawFrom indented pen (pending ++ [m]) rest
      | .blank text =>
          let drawing := drawFrom indented (pen.writeAll text) pending rest
          { drawing with code := text ++ drawing.code }
      | .token text =>
          let space := gap pen.last text
          let start := pen.writeAll space
          let drawing := drawFrom indented (start.writeAll text) [] rest
          { code := space ++ text ++ drawing.code
            entries := pending.map (Mark.entry start) ++ drawing.entries }

/-- The code of a list of pieces. -/
def draw (indented : Bool) (pieces : List Piece) : Drawing :=
  drawFrom indented Pen.start [] pieces

end Inlay.Script
