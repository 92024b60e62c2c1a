/-
Finite binary64 numbers as exact integers.

A number is a sign, a mantissa and a power of two. `Double.ofRatio` is the one
place where rounding happens: it takes the fraction `num / den` to the nearest
representable number, a tie going to the even mantissa, and answers `none`
when the fraction is too large. Reading a decimal, multiplying and dividing
all reduce to it.
-/

namespace Inlay

/-- A finite binary64 number, `± mantissa * 2 ^ exponent`. -/
structure Double where
  neg : Bool
  mantissa : Nat
  exponent : Int
  deriving DecidableEq, Repr

namespace Double

/-- The least exponent: that of zero and of the subnormal numbers. -/
def minExponent : Int := -1074

/-- The greatest exponent of a finite number. -/
def maxExponent : Int := 971

/-- The one form each number has: a full mantissa of 53 bits, or the
least exponent. -/
def IsCanonical (d : Double) : Prop :=
  d.mantissa < Nat.pow 2 53 ∧ minExponent ≤ d.exponent ∧ d.exponent ≤ maxExponent ∧
    (Nat.pow 2 52 ≤ d.mantissa ∨ d.exponent = minExponent)

instance (d : Double) : Decidable d.IsCanonical := by
  unfold IsCanonical
  infer_instance

/-- Zero with the given sign. -/
def zero (neg : Bool) : Double := ⟨neg, 0, minExponent⟩

-- == rounding

/-- The fraction `num / den * 2 ^ (-e)`, with the power of two on the
side where it is whole. -/
def scale (num den : Nat) (e : Int) : Nat × Nat :=
  if e < 0 then (num * Nat.pow 2 e.natAbs, den) else (num, den * Nat.pow 2 e.natAbs)

/-- The whole number nearest to `num / den`, a tie going to the even
one. -/
def roundDiv (num den : Nat) : Nat :=
  let q := num / den
  let r := num % den
  if 2 * r < den then q
  else if 2 * r = den then q + q % 2
  else q + 1

/-- The exponent at which `num / den` has a mantissa of 53 bits, or the
least exponent if that is greater. -/
def exponentOf (num den : Nat) : Int :=
  let t : Int := (num.log2 : Int) - (den.log2 : Int)
  let (n, d) := scale num den t
  max minExponent (if d ≤ n then t - 52 else t - 53)

/-- The finite number nearest to `num / den`, `none` beyond the greatest
one. A tie goes to the even mantissa. -/
def ofRatio (neg : Bool) (num den : Nat) : Option Double :=
  if num = 0 then some (zero neg)
  else
    let e := exponentOf num den
    let (n, d) := scale num den e
    let m := roundDiv n d
    let (m, e) := if m = Nat.pow 2 53 then (Nat.pow 2 52, e + 1) else (m, e)
    if maxExponent < e then none else some ⟨neg, m, e⟩

-- == arithmetic

/-- The magnitude as a fraction. -/
def ratio (d : Double) : Nat × Nat :=
  if d.exponent < 0 then (d.mantissa, Nat.pow 2 d.exponent.natAbs)
  else (d.mantissa * Nat.pow 2 d.exponent.natAbs, 1)

/-- The number nearest to a whole number. -/
def ofInt? (n : Int) : Option Double := ofRatio (decide (n < 0)) n.natAbs 1

/-- The rounded product. -/
def mul (a b : Double) : Option Double :=
  let (an, ad) := a.ratio
  let (bn, bd) := b.ratio
  ofRatio (a.neg != b.neg) (an * bn) (ad * bd)

/-- The rounded quotient. The divisor is not zero. -/
def div (a b : Double) : Option Double :=
  let (an, ad) := a.ratio
  let (bn, bd) := b.ratio
  ofRatio (a.neg != b.neg) (an * bd) (ad * bn)

/-- The opposite number; zeros change their sign as well. -/
def negate (d : Double) : Double := { d with neg := !d.neg }

def isZero (d : Double) : Bool := d.mantissa == 0

/-- The whole number this is, if it is one. -/
def toInt? (d : Double) : Option Int :=
  let (n, q) := d.ratio
  if n % q = 0 then
    let v : Int := (n / q : Nat)
    some (if d.neg then -v else v)
  else none

-- == decimals

/-- The number of decimal digits of a positive number, one for zero. -/
def digitCount (n : Nat) : Nat := (Nat.toDigits 10 n).length

/-- The number nearest to `± digits * 10 ^ power`, `none` beyond the
greatest finite one.

Powers far outside the range of the format are decided without
computing them: the smallest positive number exceeds `10 ^ (-324)`, and
the greatest is below `10 ^ 309`. -/
def ofDecimal (neg : Bool) (digits : Nat) (power : Int) : Option Double :=
  if digits = 0 then some (zero neg)
  else if 310 < power then none
  else if power + digitCount digits < -330 then some (zero neg)
  else if power < 0 then ofRatio neg digits (Nat.pow 10 power.natAbs)
  else ofRatio neg (digits * Nat.pow 10 power.natAbs) 1

end Double

end Inlay
