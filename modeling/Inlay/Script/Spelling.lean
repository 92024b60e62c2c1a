/-
How values are spelled in generated code.

Strings stand in the quotes that need fewer escapes, in single ones where
they are preferred. Numbers are written with the fewest digits that read
back, in scientific form where that is shorter.
-/
import Inlay.Decimal.Notation

namespace Inlay.Script

-- == strings

/-- The quote for a string. -/
def quoteFor (preferSingle : Bool) (value : List Char) : Char :=
  if preferSingle || value.count '\'' ≤ value.count '"' then '\'' else '"'

/-- The digits of a `\x` escape. -/
def hexPair (n : Nat) : List Char :=
  let digit (d : Nat) : Char :=
    if d < 10 then Char.ofNat ('0'.toNat + d) else Char.ofNat ('A'.toNat + (d - 10))
  [digit (n / 16), digit (n % 16)]

/-- How a character is written between two of the given quotes. -/
def escaped (quote c : Char) : List Char :=
  if c = '\\' then ['\\', '\\']
  else if c = '\n' then ['\\', 'n']
  else if c = '\r' then ['\\', 'r']
  else if c = '\t' then ['\\', 't']
  else if c = '\x08' then ['\\', 'b']
  else if c = '\x0c' then ['\\', 'f']
  else if c = '\x0b' then ['\\', 'v']
  else if c = '\u2028' then ['\\', 'u', '2', '0', '2', '8']
  else if c = '\u2029' then ['\\', 'u', '2', '0', '2', '9']
  else if c = quote then ['\\', c]
  else if c < ' ' then '\\' :: 'x' :: hexPair c.toNat
  else [c]

/-- A string literal. -/
def quoted (preferSingle : Bool) (value : List Char) : List Char :=
  let quote := quoteFor preferSingle value
  quote :: value.flatMap (escaped quote) ++ [quote]

-- == numbers

/-- Whole numbers below this bound are written with all their digits. -/
def wholeBound : Nat := Nat.pow 10 21

/-- A number without an exponent. -/
def plainNumber (d : Double) : String :=
  let positional := (if d.neg then "-" else "") ++ (Decimal.shortest .up d).positional
  match d.toInt? with
  | some n => if n.natAbs < wholeBound then toString n else positional
  | none => positional

/-- A number with an exponent. -/
def exponentNumber (d : Double) : String :=
  (if d.neg then "-" else "") ++ (Decimal.shortest .up d).scientific ""

/-- A number, the shorter way. -/
def numberText (d : Double) : String :=
  let plain := plainNumber d
  let exponent := exponentNumber d
  if exponent.length < plain.length then exponent else plain

end Inlay.Script
