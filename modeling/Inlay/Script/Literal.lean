/-
The values of literals.

`unquote` decodes the characters between the quotes of a string,
`numberValue` reads a number. A string fails to decode only at a `\x` or
`\u` whose digits are missing; the digits may have a plus sign in front.
-/
import Inlay.Json.Basic
import Inlay.Text.Basic

namespace Inlay.Script

-- == strings

/-- The value of hexadecimal digits, at least one. -/
def hexDigits? : List Char → Option Nat
  | [] => none
  | cs => cs.foldl (fun acc c => do return (← acc) * 16 + (← Text.hexValue? c)) (some 0)

/-- The value of hexadecimal digits with an optional plus sign. -/
def hexNumber? : List Char → Option Nat
  | '+' :: cs => hexDigits? cs
  | cs => hexDigits? cs

/-- What stands for half a surrogate pair. -/
def replacement : Char := '\ufffd'

/-- The character of a UTF-16 unit. -/
def ofUnit (unit : Nat) : Char :=
  if 0xD800 ≤ unit ∧ unit < 0xE000 then replacement else Char.ofNat unit

/-- The character of a `\u` escape with the given unit, and how many
characters behind its digits belong to it: a high surrogate takes the
escape of a low one along. -/
def pairUp (unit : Nat) (rest : List Char) : Option (Char × Nat) :=
  if 0xD800 ≤ unit ∧ unit < 0xDC00 then
    match rest with
    | '\\' :: 'u' :: more =>
        if more.length < 4 then none
        else
          match hexNumber? (more.take 4) with
          | none => none
          | some low =>
              if 0xDC00 ≤ low ∧ low < 0xE000 then
                some (Char.ofNat (0x10000 + (unit - 0xD800) * 0x400 + (low - 0xDC00)), 6)
              else some (replacement, 0)
    | _ => some (replacement, 0)
  else some (ofUnit unit, 0)

/-- What the escape behind a backslash stands for, and how many
characters behind its first one belong to it. A line terminator stands
for nothing. -/
def escapeValue? (c : Char) (rest : List Char) : Option (List Char × Nat) :=
  if c = 'n' then some (['\n'], 0)
  else if c = 't' then some (['\t'], 0)
  else if c = 'r' then some (['\r'], 0)
  else if c = 'b' then some (['\x08'], 0)
  else if c = 'f' then some (['\x0c'], 0)
  else if c = 'v' then some (['\x0b'], 0)
  else if c = '0' ∧ ¬(rest.head?.map Char.isDigit).getD false then some (['\x00'], 0)
  else if c = 'x' then
    if rest.length < 2 then none
    else (hexNumber? (rest.take 2)).map fun n => ([Char.ofNat n], 2)
  else if c = 'u' then
    if rest.length < 4 then none
    else do
      let unit ← hexNumber? (rest.take 4)
      let (d, more) ← pairUp unit (rest.drop 4)
      some ([d], 4 + more)
  else if c = '\r' then some ([], if rest.head? = some '\n' then 1 else 0)
  else if c = '\n' ∨ c = '\u2028' ∨ c = '\u2029' then some ([], 0)
  else some ([c], 0)

/-- The text that the characters between two quotes stand for. -/
def unescape? (cs : List Char) : Option (List Char) :=
  match cs with
  | [] => some []
  | c :: rest =>
      if c = '\\' then
        match rest with
        | [] => none
        | d :: rest => do
            let (value, more) ← escapeValue? d rest
            let tail ← unescape? (rest.drop more)
            some (value ++ tail)
      else (unescape? rest).map (c :: ·)
termination_by cs.length
decreasing_by
  · simp only [List.length_drop, List.length_cons]
    omega
  · simp

/-- The value of a string token, quotes included. -/
def unquote? (raw : String) : Option String :=
  (unescape? raw.toList.tail.dropLast).map String.ofList

-- == numbers

/-- The whole number that decimal digits stand for. -/
def decimalDigits (cs : List Char) : Nat :=
  cs.foldl (fun n c => n * 10 + (c.toNat - '0'.toNat)) 0

/-- What a number token stands for. -/
inductive NumberValue where
  | finite (d : Double)
  /-- Beyond the greatest finite number. -/
  | infinite

/-- The exponent of a decimal number, from its letter on. -/
def exponentOf : List Char → Int
  | _ :: '-' :: digits => -(decimalDigits digits : Int)
  | _ :: '+' :: digits => decimalDigits digits
  | _ :: digits => decimalDigits digits
  | [] => 0

/-- The value of a decimal number. -/
def decimalValue (cs : List Char) : NumberValue :=
  let isE (c : Char) : Bool := c == 'e' || c == 'E'
  let mantissa := cs.takeWhile (!isE ·)
  let exponent := cs.dropWhile (!isE ·)
  let whole := mantissa.takeWhile (· != '.')
  let fraction := (mantissa.dropWhile (· != '.')).tail
  match Double.ofDecimal false (decimalDigits (whole ++ fraction))
      (exponentOf exponent - fraction.length) with
  | some d => .finite d
  | none => .infinite

/-- The value of a number token, `none` for a hexadecimal number of more
than 64 bits. -/
def numberValue? (raw : String) : Option NumberValue :=
  match raw.toList with
  | '0' :: x :: digits =>
      if x = 'x' ∨ x = 'X' then do
        let n ← hexDigits? digits
        if n < Nat.pow 2 64 then
          some (((Double.ofInt? n).map .finite).getD .infinite)
        else none
      else some (decimalValue raw.toList)
  | cs => some (decimalValue cs)

/-- The value of a number in a syntax tree: whole numbers below `2 ^ 53`
stay whole, and a number that is not finite is `null`. -/
def NumberValue.toJson : NumberValue → Json
  | .finite d =>
      match d.toInt? with
      | some n => if n.natAbs < Nat.pow 2 53 then .num (.int n) else .num (.dbl d)
      | none => .num (.dbl d)
  | .infinite => .null

end Inlay.Script
