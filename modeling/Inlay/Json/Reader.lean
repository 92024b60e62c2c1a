/-
Reading JSON texts.

The grammar is the strict one: no comments, no trailing commas, no
control characters inside strings, surrogates only in pairs. Arrays and
objects may be nested 127 deep. `parse?` keeps repeated members as they
are written; `ofText?` merges them.
-/
import Inlay.Json.Number
import Inlay.Text.Basic

namespace Inlay.Json

/-- The greatest depth of nested arrays and objects. -/
def maxDepth : Nat := 127

namespace Reader

def isBlank (c : Char) : Bool :=
  c == ' ' || c == '\n' || c == '\t' || c == '\r'

def skipBlanks (cs : List Char) : List Char := cs.dropWhile isBlank

theorem skipBlanks_length (cs : List Char) :
    (skipBlanks cs).length ≤ cs.length :=
  (List.dropWhile_suffix _).length_le

-- == strings

/-- Four hexadecimal digits. -/
def hexUnit? : List Char → Option (Nat × List Char)
  | a :: b :: c :: d :: rest => do
      let a ← Text.hexValue? a
      let b ← Text.hexValue? b
      let c ← Text.hexValue? c
      let d ← Text.hexValue? d
      some (((a * 16 + b) * 16 + c) * 16 + d, rest)
  | _ => none

/-- The character of an escape that starts with `\u`, from the digits
on. A high surrogate takes a second escape with a low one. -/
def unicodeEscape? (cs : List Char) : Option (Char × List Char) := do
  let (unit, rest) ← hexUnit? cs
  if 0xDC00 ≤ unit ∧ unit ≤ 0xDFFF then none
  else if 0xD800 ≤ unit ∧ unit ≤ 0xDBFF then
    match rest with
    | '\\' :: 'u' :: more => do
        let (low, rest) ← hexUnit? more
        if 0xDC00 ≤ low ∧ low ≤ 0xDFFF then
          some (Char.ofNat (0x10000 + (unit - 0xD800) * 0x400 + (low - 0xDC00)), rest)
        else none
    | _ => none
  else some (Char.ofNat unit, rest)

/-- The character that a one-letter escape stands for. -/
def shortEscape? (c : Char) : Option Char :=
  if c = '"' ∨ c = '\\' ∨ c = '/' then some c
  else if c = 'b' then some '\x08'
  else if c = 'f' then some '\x0c'
  else if c = 'n' then some '\n'
  else if c = 'r' then some '\r'
  else if c = 't' then some '\t'
  else none

/-- The character of an escape, from behind the backslash. -/
def escape? : List Char → Option (Char × List Char)
  | [] => none
  | c :: rest =>
      if c = 'u' then unicodeEscape? rest
      else (shortEscape? c).map fun e => (e, rest)

theorem hexUnit?_length {cs rest : List Char} {n : Nat}
    (h : hexUnit? cs = some (n, rest)) : rest.length < cs.length := by
  unfold hexUnit? at h
  split at h
  · simp only [Option.bind_eq_bind, Option.bind_eq_some_iff, Option.some.injEq,
      Prod.mk.injEq] at h
    obtain ⟨_, _, _, _, _, _, _, _, _, rfl⟩ := h
    simp only [List.length_cons]
    omega
  · cases h

theorem unicodeEscape?_length {cs rest : List Char} {c : Char}
    (h : unicodeEscape? cs = some (c, rest)) : rest.length < cs.length := by
  unfold unicodeEscape? at h
  cases hu : hexUnit? cs with
  | none => simp [hu] at h
  | some p =>
      obtain ⟨unit, more⟩ := p
      have hlt := hexUnit?_length hu
      simp only [hu, Option.bind_eq_bind, Option.bind_some] at h
      split at h
      · cases h
      · split at h
        · split at h
          · next more' =>
            cases hl : hexUnit? more' with
            | none => simp [hl] at h
            | some q =>
                obtain ⟨low, last⟩ := q
                have hlt' := hexUnit?_length hl
                simp only [hl, Option.bind_some, Option.ite_none_right_eq_some,
                  Option.some.injEq, Prod.mk.injEq] at h
                obtain ⟨_, _, rfl⟩ := h
                simp only [List.length_cons] at hlt
                omega
          · cases h
        · simp only [Option.some.injEq, Prod.mk.injEq] at h
          obtain ⟨_, rfl⟩ := h
          exact hlt

theorem escape?_length {cs rest : List Char} {c : Char}
    (h : escape? cs = some (c, rest)) : rest.length < cs.length := by
  cases cs with
  | nil => cases h
  | cons a as =>
      simp only [escape?] at h
      split at h
      · have := unicodeEscape?_length h
        simp only [List.length_cons]
        omega
      · simp only [Option.map_eq_some_iff, Prod.mk.injEq] at h
        obtain ⟨_, _, _, rfl⟩ := h
        simp

/-- The characters of a string up to its closing quote, from behind the
opening one. -/
def stringBody? (cs : List Char) : Option (List Char × List Char) :=
  match cs with
  | [] => none
  | c :: rest =>
      if c = '"' then some ([], rest)
      else if c = '\\' then
        match _h : escape? rest with
        | none => none
        | some (e, rest) => (stringBody? rest).map fun (s, rest) => (e :: s, rest)
      else if c.toNat < 0x20 then none
      else (stringBody? rest).map fun (s, rest) => (c :: s, rest)
termination_by cs.length
decreasing_by
  · have := escape?_length _h
    simp only [List.length_cons]
    omega
  · simp

-- == numbers

/-- The digits at the front, at least one. -/
def digits? (cs : List Char) : Option (List Char × List Char) :=
  match cs.span Char.isDigit with
  | ([], _) => none
  | (ds, rest) => some (ds, rest)

/-- The digits before the point: a zero stands alone. -/
def whole? : List Char → Option (List Char × List Char)
  | '0' :: rest =>
      match rest with
      | d :: _ => if d.isDigit then none else some (['0'], rest)
      | [] => some (['0'], rest)
  | cs => digits? cs

/-- The digits behind the point, if there is a point. -/
def fraction? : List Char → Option (Option (List Char) × List Char)
  | '.' :: rest => (digits? rest).map fun (ds, rest) => (some ds, rest)
  | cs => some (none, cs)

/-- The exponent's sign and digits, if there is an exponent. -/
def exponent? : List Char → Option (Option (Bool × List Char) × List Char)
  | c :: rest =>
      if c = 'e' ∨ c = 'E' then
        let (neg, rest) : Bool × List Char :=
          match rest with
          | '+' :: rest => (false, rest)
          | '-' :: rest => (true, rest)
          | rest => (false, rest)
        (digits? rest).map fun (ds, rest) => (some (neg, ds), rest)
      else some (none, c :: rest)
  | [] => some (none, [])

/-- A number. -/
def number? (cs : List Char) : Option (Number × List Char) := do
  let (neg, cs) : Bool × List Char :=
    match cs with
    | '-' :: rest => (true, rest)
    | cs => (false, cs)
  let (whole, cs) ← whole? cs
  let (fraction, cs) ← fraction? cs
  let (exponent, cs) ← exponent? cs
  let n ← Number.ofLiteral ⟨neg, whole, fraction, exponent⟩
  some (n, cs)

-- == values

/-- A word at the front. -/
def word? (word : List Char) (cs : List Char) : Option (List Char) :=
  if word.isPrefixOf cs then some (cs.drop word.length) else none

/-- Scalars: everything but arrays and objects. -/
def scalar? (cs : List Char) : Option (Json × List Char) :=
  match cs with
  | '"' :: rest => (stringBody? rest).map fun (s, rest) => (.str (String.ofList s), rest)
  | 'n' :: _ => (word? "null".toList cs).map fun rest => (.null, rest)
  | 't' :: _ => (word? "true".toList cs).map fun rest => (.bool true, rest)
  | 'f' :: _ => (word? "false".toList cs).map fun rest => (.bool false, rest)
  | _ => (number? cs).map fun (n, rest) => (.num n, rest)

/-- What follows an item: the rest behind a comma, or behind the closing
bracket. -/
inductive After where
  | more (rest : List Char)
  | done (rest : List Char)

/-- The separator behind an item of a list that `close` ends. -/
def after? (close : Char) (cs : List Char) : Option After :=
  match skipBlanks cs with
  | [] => none
  | c :: rest =>
      if c = ',' then some (.more rest)
      else if c = close then some (.done rest)
      else none

mutual
/-- A value from its first character on, with `depth` levels of nesting
left. -/
def value? (depth : Nat) (cs : List Char) : Option (Json × List Char) :=
  match depth, cs with
  | depth + 1, '[' :: rest =>
      match skipBlanks rest with
      | ']' :: rest => some (.arr [], rest)
      | rest => (items? depth rest).map fun (js, rest) => (.arr js, rest)
  | depth + 1, '{' :: rest =>
      match skipBlanks rest with
      | '}' :: rest => some (.obj [], rest)
      | rest => (members? depth rest).map fun (ms, rest) => (.obj ms, rest)
  | _, cs => scalar? cs
termination_by (depth, cs.length, 0)

/-- The items of an array up to its closing bracket. -/
def items? (depth : Nat) (cs : List Char) : Option (List Json × List Char) :=
  match value? depth (skipBlanks cs) with
  | none => none
  | some (j, rest) =>
      match after? ']' rest with
      | none => none
      | some (.done rest) => some ([j], rest)
      | some (.more rest) =>
          if rest.length < cs.length then
            (items? depth rest).map fun (js, rest) => (j :: js, rest)
          else none
termination_by (depth, cs.length, 1)
decreasing_by
  · have := skipBlanks_length cs
    rcases Nat.lt_or_eq_of_le this with h | h
    · exact Prod.Lex.right _ (Prod.Lex.left _ _ h)
    · rw [h]
      exact Prod.Lex.right _ (Prod.Lex.right _ (by decide))
  · exact Prod.Lex.right _ (Prod.Lex.left _ _ (by assumption))

/-- The members of an object up to its closing brace. -/
def members? (depth : Nat) (cs : List Char) :
    Option (List (String × Json) × List Char) :=
  match skipBlanks cs with
  | '"' :: rest =>
      match stringBody? rest with
      | none => none
      | some (key, rest) =>
          match skipBlanks rest with
          | ':' :: rest =>
              if (skipBlanks rest).length < cs.length then
                match value? depth (skipBlanks rest) with
                | none => none
                | some (j, rest) =>
                    match after? '}' rest with
                    | none => none
                    | some (.done rest) => some ([(String.ofList key, j)], rest)
                    | some (.more rest) =>
                        if rest.length < cs.length then
                          (members? depth rest).map fun (ms, rest) =>
                            ((String.ofList key, j) :: ms, rest)
                        else none
              else none
          | _ => none
  | _ => none
termination_by (depth, cs.length, 1)
end

end Reader

/-- The value a text holds, repeated members as they stand. -/
def parse? (text : String) : Option Json :=
  match Reader.value? maxDepth (Reader.skipBlanks text.toList) with
  | some (j, rest) => if (Reader.skipBlanks rest).isEmpty then some j else none
  | none => none

/-- The value a text holds: a repeated member has the place of its first
occurrence and the value of its last. -/
def ofText? (text : String) : Option Json := (parse? text).map mergeKeys

end Inlay.Json
