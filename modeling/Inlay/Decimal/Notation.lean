/-
Written forms of decimals.

`positional` never uses an exponent and `scientific` always does; which
of the two a text uses, and what a whole number looks like, is for the
format that writes it to say.
-/
import Inlay.Decimal.Shortest

namespace Inlay.Decimal

/-- The digits of a whole number. -/
def digitsOf (n : Nat) : List Char := Nat.toDigits 10 n

/-- The exponent of the scientific form: the power of ten that the first
digit counts. -/
def exponent (d : Decimal) : Int :=
  d.power + (digitsOf d.digits).length - 1

/-- Digits and a point where needed, no exponent: `1500`, `0.015`. -/
def positional (d : Decimal) : String :=
  let ds := digitsOf d.digits
  if 0 ≤ d.power then
    String.ofList (ds ++ List.replicate d.power.natAbs '0')
  else
    let places := d.power.natAbs
    if places < ds.length then
      let whole := ds.length - places
      String.ofList (ds.take whole ++ '.' :: ds.drop whole)
    else
      String.ofList ('0' :: '.' :: List.replicate (places - ds.length) '0' ++ ds)

/-- One digit, the others after a point, and the exponent. A positive
exponent takes `plus` in front: `1.5e300`, `1.5e+300`. -/
def scientific (plus : String) (d : Decimal) : String :=
  let e := d.exponent
  let mantissa :=
    match digitsOf d.digits with
    | first :: second :: rest => first :: '.' :: second :: rest
    | short => short
  let mark := if e < 0 then "-" else plus
  String.ofList mantissa ++ "e" ++ mark ++ toString e.natAbs

end Inlay.Decimal
