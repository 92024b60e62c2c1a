/-
Numbers of JSON documents, as read and as written.

A literal without point and exponent that fits 64 bits is a whole number; `-0`
and everything else is a double, computed from at most as many digits as fit 64
bits and scaled by one power of ten (several for a very small number). Each of
these steps rounds, so the result may differ from the nearest double in its last
bit.
-/
import Inlay.Json.Basic
import Inlay.Decimal.Notation

namespace Inlay.Number

-- == reading

/-- The parts of a number literal. -/
structure Literal where
  neg : Bool
  whole : List Char
  fraction : Option (List Char)
  /-- The exponent's sign and digits. -/
  exponent : Option (Bool × List Char)

/-- Digits taken into a significand of 64 bits: the significand, and the
digits left when the next one does not fit. -/
def absorb (significand : Nat) : List Char → Nat × List Char
  | [] => (significand, [])
  | c :: rest =>
      let next := significand * 10 + (c.toNat - '0'.toNat)
      if next < Nat.pow 2 64 then absorb next rest else (significand, c :: rest)

/-- The double `10 ^ n`, for an exponent a double has. -/
def powerOfTen (n : Nat) : Double :=
  (Double.ofDecimal false 1 n).getD (Double.zero false)

/-- `f * 10 ^ exponent`, dividing in steps of `10 ^ 308` while the
exponent is below that of any power of ten. `none` beyond the greatest
finite number. -/
def scaleByTen : Nat → Double → Int → Option Double
  | steps, f, exponent =>
      if exponent.natAbs ≤ 308 then
        if 0 ≤ exponent then f.mul (powerOfTen exponent.natAbs)
        else f.div (powerOfTen exponent.natAbs)
      else if f.isZero then some f
      else if 0 ≤ exponent then none
      else
        match steps with
        | 0 => some (Double.zero false)
        | steps + 1 => do
            let f ← f.div (powerOfTen 308)
            scaleByTen steps f (exponent + 308)

/-- The double of a significand and a decimal exponent. Three divisions
by `10 ^ 308` leave nothing of any significand of 64 bits. -/
def ofParts (neg : Bool) (significand : Nat) (exponent : Int) : Option Number := do
  let f ← Double.ofRatio false significand 1
  let f ← scaleByTen 3 f exponent
  some (.dbl (if neg then f.negate else f))

/-- The exponent's value, `none` when it has more than 31 bits. -/
def exponentValue (digits : List Char) : Option Nat :=
  digits.foldl
    (fun acc c => acc.bind fun n =>
      let next := n * 10 + (c.toNat - '0'.toNat)
      if next < Nat.pow 2 31 then some next else none)
    (some 0)

/-- Exponents are kept within 32 bits. -/
def clamp (e : Int) : Int := max (-(Nat.pow 2 31)) (min (Nat.pow 2 31 - 1) e)

/-- The number a literal stands for, `none` when it is too large. -/
def ofLiteral (l : Literal) : Option Number :=
  let (significand, dropped) := absorb 0 l.whole
  match l.fraction, l.exponent with
  | none, none =>
      if dropped.isEmpty then
        if l.neg && (significand == 0 || Nat.pow 2 63 < significand) then
          (Double.ofRatio true significand 1).map .dbl
        else
          some (.int (if l.neg then -(significand : Int) else significand))
      else ofParts l.neg significand dropped.length
  | fraction, exponent =>
      let digits := fraction.getD []
      let (significand, unused) := absorb significand digits
      let start : Int := (dropped.length : Int) - (digits.length - unused.length : Nat)
      match exponent with
      | none => ofParts l.neg significand start
      | some (negative, digits) =>
          match exponentValue digits with
          | some e =>
              ofParts l.neg significand
                (clamp (if negative then start - e else start + e))
          | none =>
              if significand ≠ 0 ∧ ¬negative then none
              else some (.dbl (Double.zero l.neg))

-- == writing

/-- Doubles are written with the fewest digits that read back: with a
point and at least one place for exponents from -5 to 15, else in
scientific form. -/
def text : Number → String
  | .int n => toString n
  | .dbl d =>
      let dec := Decimal.shortest .even d
      let sign := if d.neg then "-" else ""
      let e := dec.exponent
      if -5 ≤ e ∧ e ≤ 15 then
        sign ++ dec.positional ++ (if 0 ≤ dec.power then ".0" else "")
      else sign ++ dec.scientific "+"

/-- The nearest double. -/
def toDouble? : Number → Option Double
  | .int n => Double.ofInt? n
  | .dbl d => some d

end Inlay.Number
