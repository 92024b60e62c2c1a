/-
Numbers, truth values and times of TOML, as JSON values.

A number that is infinite or none becomes `null`, and a date or a time
becomes an object with its text.
-/
import Inlay.Json.Basic

namespace Inlay.Toml

/-- Characters of which numbers, truth values and times consist. -/
def isScalarChar (c : Char) : Bool :=
  c.isAlphanum || c == '+' || c == '-' || c == '_' || c == '.' || c == ':'

-- == numbers

/-- The digits without the underscores, each of which has to stand
between two digits. -/
def digits? (isDigit : Char → Bool) (cs : List Char) : Option (List Char) :=
  match cs with
  | [] => none
  | [c] => if isDigit c then some [c] else none
  | c :: '_' :: rest =>
      if isDigit c then (digits? isDigit rest).map (c :: ·) else none
  | c :: rest => if isDigit c then (digits? isDigit rest).map (c :: ·) else none

/-- The value of digits in a base. -/
def valueOf (base : Nat) (digits : List Char) : Nat :=
  let value (c : Char) : Nat :=
    if c.isDigit then c.toNat - '0'.toNat
    else if 'a' ≤ c then c.toNat - 'a'.toNat + 10
    else c.toNat - 'A'.toNat + 10
  digits.foldl (fun n c => n * base + value c) 0

/-- A whole number that fits 64 bits, with or without a sign. -/
def bounded? (n : Int) : Option Json :=
  if -(Nat.pow 2 63) ≤ n ∧ n < Nat.pow 2 64 then some (.num (.int n)) else none

/-- A whole number in another base than ten. -/
def based? : List Char → Option Json
  | '0' :: 'x' :: rest => read 16 (fun c => c.isDigit || ('a' ≤ c && c ≤ 'f') || ('A' ≤ c && c ≤ 'F')) rest
  | '0' :: 'o' :: rest => read 8 (fun c => '0' ≤ c && c ≤ '7') rest
  | '0' :: 'b' :: rest => read 2 (fun c => c == '0' || c == '1') rest
  | _ => none
where
  read (base : Nat) (isDigit : Char → Bool) (cs : List Char) : Option Json := do
    bounded? (valueOf base (← digits? isDigit cs))

/-- Whether a number starts with a zero that it should not have. -/
def hasLeadingZero (digits : List Char) : Bool :=
  match digits with
  | '0' :: _ :: _ => true
  | _ => false

/-- A sign and what follows it. -/
def signed (cs : List Char) : Bool × List Char :=
  match cs with
  | '-' :: rest => (true, rest)
  | '+' :: rest => (false, rest)
  | _ => (false, cs)

/-- A number in base ten, without its sign. -/
def decimal? (neg : Bool) (cs : List Char) : Option Json := do
  let isE (c : Char) : Bool := c == 'e' || c == 'E'
  let mantissa := cs.takeWhile (!isE ·)
  let exponent := (cs.dropWhile (!isE ·)).tail
  let hasExponent := cs.any isE
  let whole ← digits? Char.isDigit (mantissa.takeWhile (· != '.'))
  if hasLeadingZero whole then none
  else if mantissa.contains '.' ∨ hasExponent then
    let fraction ←
      if mantissa.contains '.' then digits? Char.isDigit (mantissa.dropWhile (· != '.')).tail
      else some []
    let power ←
      if hasExponent then do
        let (negative, rest) := signed exponent
        let n := valueOf 10 (← digits? Char.isDigit rest)
        some (if negative then -(n : Int) else n)
      else some 0
    let d ← Double.ofDecimal neg (valueOf 10 (whole ++ fraction)) (power - fraction.length)
    some (.num (.dbl d))
  else
    let n := valueOf 10 whole
    bounded? (if neg then -(n : Int) else n)

-- == times

/-- The number of the first `count` digits, and what follows. -/
def fixed? (count : Nat) (cs : List Char) : Option (Nat × List Char) :=
  let digits := cs.take count
  if digits.length = count ∧ digits.all Char.isDigit then
    some (valueOf 10 digits, cs.drop count)
  else none

/-- What follows a character. -/
def skip? (c : Char) : List Char → Option (List Char)
  | d :: rest => if d = c then some rest else none
  | [] => none

/-- A number with at least `count` digits. -/
def padded (count n : Nat) : List Char :=
  let digits := Nat.toDigits 10 n
  List.replicate (count - digits.length) '0' ++ digits

def daysIn (year month : Nat) : Nat :=
  if month = 2 then
    if year % 4 = 0 ∧ (year % 100 ≠ 0 ∨ year % 400 = 0) then 29 else 28
  else if month = 4 ∨ month = 6 ∨ month = 9 ∨ month = 11 then 30
  else 31

/-- The text of a date, and what follows. -/
def date? (cs : List Char) : Option (List Char × List Char) := do
  let (year, cs) ← fixed? 4 cs
  let cs ← skip? '-' cs
  let (month, cs) ← fixed? 2 cs
  let cs ← skip? '-' cs
  let (day, cs) ← fixed? 2 cs
  if 1 ≤ month ∧ month ≤ 12 ∧ 1 ≤ day ∧ day ≤ daysIn year month then
    some (padded 4 year ++ '-' :: padded 2 month ++ '-' :: padded 2 day, cs)
  else none

/-- A fraction of a second, to nine places and without zeros at its
end. -/
def fractionText (digits : List Char) : List Char :=
  let places := ((digits.take 9).reverse.dropWhile (· == '0')).reverse
  '.' :: if places.isEmpty then ['0'] else places

/-- The text of the seconds, and what follows. -/
def seconds? (cs : List Char) : Option (List Char × List Char) :=
  match cs with
  | ':' :: cs => do
      let (second, cs) ← fixed? 2 cs
      if 60 < second then none
      else
        match cs with
        | '.' :: cs =>
            let digits := cs.takeWhile Char.isDigit
            if digits.isEmpty then none
            else
              some (':' :: padded 2 second ++ fractionText digits,
                cs.drop digits.length)
        | _ => some (':' :: padded 2 second, cs)
  | _ => some ([], cs)

/-- The text of a time of day, and what follows. -/
def time? (cs : List Char) : Option (List Char × List Char) := do
  let (hour, cs) ← fixed? 2 cs
  let cs ← skip? ':' cs
  let (minute, cs) ← fixed? 2 cs
  let (seconds, cs) ← seconds? cs
  if hour ≤ 23 ∧ minute ≤ 59 then
    some (padded 2 hour ++ ':' :: padded 2 minute ++ seconds, cs)
  else none

/-- The text of an offset from universal time. -/
def offset? (cs : List Char) : Option (List Char) :=
  match cs with
  | [] => some []
  | [c] => if c = 'Z' ∨ c = 'z' then some ['Z'] else none
  | sign :: rest => do
      if sign ≠ '+' ∧ sign ≠ '-' then none
      else
        let (hour, rest) ← fixed? 2 rest
        let rest ← skip? ':' rest
        let (minute, rest) ← fixed? 2 rest
        if hour ≤ 23 ∧ minute ≤ 59 ∧ rest.isEmpty then
          let sign := if hour = 0 ∧ minute = 0 then '+' else sign
          some (sign :: padded 2 hour ++ ':' :: padded 2 minute)
        else none

/-- A date, a time of day, or both with an optional offset. -/
def moment? (cs : List Char) : Option Json := do
  let text ←
    match date? cs with
    | some (date, []) => some date
    | some (date, c :: rest) => do
        if c = 'T' ∨ c = 't' ∨ c = ' ' then
          let (time, rest) ← time? rest
          some (date ++ 'T' :: time ++ (← offset? rest))
        else none
    | none => do
        let (time, rest) ← time? cs
        if rest.isEmpty then some time else none
  some (.obj [("$__toml_private_datetime", .str (String.ofList text))])

-- == scalars

/-- A number that is no number, or infinite. -/
def special? (cs : List Char) : Option Json :=
  let name := String.ofList (signed cs).2
  if name = "inf" ∨ name = "nan" then some .null else none

/-- The value of the characters of a scalar. -/
def scalarValue? (cs : List Char) : Option Json :=
  if cs = "true".toList then some (.bool true)
  else if cs = "false".toList then some (.bool false)
  else
    let (neg, rest) := signed cs
    (special? cs) <|> (based? cs) <|> (decimal? neg rest) <|> (moment? cs)

/-- The characters of the scalar at the start of a text: a date and a
time may have a blank between them. -/
def scalarText (cs : List Char) : List Char :=
  let first := cs.takeWhile isScalarChar
  match date? first, cs.drop first.length with
  | some (_, []), ' ' :: c :: rest =>
      if c.isDigit then first ++ ' ' :: (c :: rest).takeWhile isScalarChar else first
  | _, _ => first

/-- The scalar at the start of a text, and what follows. -/
def scalar? (cs : List Char) : Option (Json × List Char) :=
  let text := scalarText cs
  (scalarValue? text).map (·, cs.drop text.length)

end Inlay.Toml
