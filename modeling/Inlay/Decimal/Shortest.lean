/-
The shortest decimal that reads back as a given binary64 number.

The reals that round to `m * 2 ^ e` form an interval around it, its
ends included exactly when `m` is even. For one, two, … seventeen
digits `shortest` looks at the two neighbours of the number on that
decimal grid; the first grid with a neighbour inside the interval wins,
and of two such neighbours the nearer one. Only an exact tie is a
matter of convention, so it is a parameter.
-/
import Inlay.Decimal.Double

namespace Inlay

/-- A decimal `digits * 10 ^ power`. -/
structure Decimal where
  digits : Nat
  power : Int
  deriving DecidableEq, Repr

namespace Decimal

/-- Where a tie between two neighbouring decimals goes. -/
inductive Tie where
  | even
  | up
  deriving DecidableEq, Repr

/-- A closed or open interval between two fractions over one
denominator, around a third. -/
structure Interval where
  lower : Nat
  value : Nat
  upper : Nat
  den : Nat
  closed : Bool

/-- The reals that round to the magnitude of `d`. Below a power of two
the numbers lie twice as dense as above it, so there the lower end is
nearer. -/
def Interval.of (d : Double) : Interval :=
  let step := d.mantissa == Nat.pow 2 52 && Double.minExponent < d.exponent
  let (num, den) := Double.scale 1 4 (-d.exponent)
  { lower := (4 * d.mantissa - (if step then 1 else 2)) * num
    value := 4 * d.mantissa * num
    upper := (4 * d.mantissa + 2) * num
    den := den
    closed := d.mantissa % 2 == 0 }

/-- Whether `num / den` lies in the interval. -/
def Interval.holds (i : Interval) (num den : Nat) : Bool :=
  let x := num * i.den
  let lo := i.lower * den
  let hi := i.upper * den
  if i.closed then lo ≤ x && x ≤ hi else lo < x && x < hi

/-- The decimal exponent of a positive fraction: the power of ten that
its first digit counts. -/
def leadingPower (num den : Nat) : Int :=
  if den ≤ num then (Double.digitCount (num / den) : Int) - 1
  else
    -- 10 ^ k * num reaches den first at k = -power
    let k := Double.digitCount (den / num)
    if den ≤ num * Nat.pow 10 (k - 1) then -((k : Int) - 1) else -(k : Int)

/-- The better of the two neighbours of the interval's value on the grid
of multiples of `10 ^ power`, if one of them is inside. -/
def onGrid (tie : Tie) (i : Interval) (power : Int) : Option Decimal :=
  let (num, den) :=
    if power < 0 then (i.value * Nat.pow 10 power.natAbs, i.den)
    else (i.value, i.den * Nat.pow 10 power.natAbs)
  let point (n : Nat) : Nat × Nat :=
    if power < 0 then (n, Nat.pow 10 power.natAbs) else (n * Nat.pow 10 power.natAbs, 1)
  let inside (n : Nat) : Bool := i.holds (point n).1 (point n).2
  let down := num / den
  let rest := num % den
  let upIsBetter : Bool :=
    if 2 * rest = den then
      match tie with
      | .even => down % 2 == 1
      | .up => true
    else den < 2 * rest
  match inside down && down != 0, rest != 0 && inside (down + 1) with
  | false, false => none
  | true, false => some ⟨down, power⟩
  | false, true => some ⟨down + 1, power⟩
  | true, true => some ⟨if upIsBetter then down + 1 else down, power⟩

/-- The first grid with a neighbour inside, refining digit by digit. -/
def refine (tie : Tie) (i : Interval) : Nat → Int → Decimal
  | 0, power =>
      (onGrid tie i power).getD ⟨i.value / i.den, 0⟩
  | more + 1, power =>
      match onGrid tie i power with
      | some d => d
      | none => refine tie i more (power - 1)

/-- The decimal without the zeros at its end. -/
def trim (d : Decimal) : Decimal :=
  go (Double.digitCount d.digits) d
where
  go : Nat → Decimal → Decimal
    | 0, d => d
    | k + 1, d =>
        if d.digits != 0 && d.digits % 10 == 0 then
          go k ⟨d.digits / 10, d.power + 1⟩
        else d

/-- The decimal with the fewest digits that rounds to the magnitude of
`d`, the nearest of those. Zero is `0 * 10 ^ 0`. -/
def shortest (tie : Tie) (d : Double) : Decimal :=
  if d.mantissa = 0 then ⟨0, 0⟩
  else
    let i := Interval.of d
    trim (refine tie i 16 (leadingPower i.value i.den))

end Decimal

end Inlay
