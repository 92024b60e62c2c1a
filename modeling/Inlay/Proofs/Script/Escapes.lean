/-
The escapes of a string.

`escapes` finds the escapes of a string without decoding them: each is what
stands behind a backslash that no other backslash hides. A string is decoded
if and only if every `\x` has two digits behind it and every `\u` four,
where a plus sign may stand in the place of the first digit.
-/
import Inlay.Proofs.Script.Rule
import Inlay.Tech

namespace Inlay.Script

open List Lexeme

variable {c d : Char} {cs rest : List Char}

-- == escapes

/-- The escapes of a text, each from the character behind its backslash
to the end of the text. -/
def escapes : List Char → List (List Char)
  | [] => []
  | [c] => if c = '\\' then [[]] else []
  | c :: d :: rest => if c = '\\' then (d :: rest) :: escapes rest else escapes (d :: rest)

/-- How many digits an escape needs behind its first character. -/
def digitCount (c : Char) : Nat := if c = 'x' then 2 else if c = 'u' then 4 else 0

/-- The escape has a first character and the digits that it needs. -/
def IsEscape (isDigits : List Char → Prop) : List Char → Prop
  | [] => False
  | c :: rest => digitCount c ≤ rest.length ∧ isDigits (rest.take (digitCount c))

/-- Hexadecimal digits. -/
def AreDigits (ds : List Char) : Prop := ∀ d ∈ ds, isHexDigit d = true

/-- Hexadecimal digits, or a plus sign and such digits. -/
def AreSigned (ds : List Char) : Prop :=
  AreDigits ds ∨ ∃ more, ds = '+' :: more ∧ more ≠ [] ∧ AreDigits more

/-- All escapes of the text can be decoded. -/
def AllDecodable (cs : List Char) : Prop := ∀ e ∈ escapes cs, IsEscape AreSigned e

theorem escapes_plain (hc : c ≠ '\\') (rest : List Char) : escapes (c :: rest) = escapes rest := by
  cases rest <;> simp [escapes, hc]

theorem allDecodable_pair :
    AllDecodable ('\\' :: d :: rest) ↔ IsEscape AreSigned (d :: rest) ∧ AllDecodable rest := by
  simp [AllDecodable, escapes]

theorem escapes_append (hcs : '\\' ∉ cs) (rest : List Char) :
    escapes (cs ++ rest) = escapes rest := by
  induction cs with
  | nil => rfl
  | cons c cs ih =>
    obtain ⟨hc, hcs⟩ := not_or.1 (mt mem_cons.2 hcs)
    rw [cons_append, escapes_plain (Ne.symm hc), ih hcs]

-- == digits

theorem isSome_hexValue? (c : Char) : (Text.hexValue? c).isSome = isHexDigit c := by
  have hd : isHexDigit c =
      decide (c.isDigit = true ∨ ('a' ≤ c ∧ c ≤ 'f') ∨ ('A' ≤ c ∧ c ≤ 'F')) := by
    simp [isHexDigit, Bool.or_assoc]
  rw [Text.hexValue?, hd]
  split
  · simp [*]
  · split
    · simp [*]
    · split <;> simp [*]

theorem isSome_hexDigits? (cs : List Char) :
    (hexDigits? cs).isSome = true ↔ cs ≠ [] ∧ AreDigits cs := by
  have hf : ∀ (cs : List Char) (acc : Option Nat),
      (cs.foldl (fun acc c => do return (← acc) * 16 + (← Text.hexValue? c)) acc).isSome = true ↔
        acc.isSome = true ∧ AreDigits cs := by
    intro cs
    induction cs with
    | nil => simp [AreDigits]
    | cons c cs ih =>
      intro acc
      rw [foldl_cons, ih, AreDigits, AreDigits, forall_mem_cons, ← isSome_hexValue?]
      cases acc <;> cases Text.hexValue? c <;> simp
  cases cs with
  | nil => simp [hexDigits?]
  | cons c cs => simpa [hexDigits?] using hf (c :: cs) (some 0)

theorem isSome_hexNumber? (hcs : cs ≠ []) : (hexNumber? cs).isSome = true ↔ AreSigned cs := by
  unfold hexNumber?
  split
  · have hp : isHexDigit '+' = false := by decide
    simp [isSome_hexDigits?, AreSigned, AreDigits, hp]
  · next hs =>
    rw [isSome_hexDigits?]
    refine ⟨fun h => .inl h.2, ?_⟩
    rintro (h | ⟨more, rfl, -⟩)
    · exact ⟨hcs, h⟩
    · exact absurd rfl (hs more)

/-- An escape with digits is decodable if the decoder finds a number. -/
theorem isEscape_iff (hc : 0 < digitCount c) :
    IsEscape AreSigned (c :: rest) ↔ ¬rest.length < digitCount c ∧
      (hexNumber? (rest.take (digitCount c))).isSome = true := by
  rw [IsEscape, Nat.not_lt]
  refine and_congr_right fun hl => (isSome_hexNumber? ?_).symm
  rw [Ne, take_eq_nil_iff]
  rintro (h | rfl)
  · omega
  · simp at hl
    omega

/-- No digit is a backslash, so digits are skipped without missing an
escape. -/
theorem allDecodable_drop {n k : Nat} (h : hexNumber? (rest.take n) = some k) :
    AllDecodable (rest.drop n) ↔ AllDecodable rest := by
  have hne : rest.take n ≠ [] := by
    intro hn
    rw [hn] at h
    cases h
  have hd : isHexDigit '\\' = false := by decide
  have hs : '\\' ∉ rest.take n := by
    intro hm
    rcases (isSome_hexNumber? hne).1 (by rw [h]; rfl) with hal | ⟨ds, ht, -, hal⟩
    · have hf := hal _ hm
      simp [hd] at hf
    · rw [ht] at hm
      have hf := hal _ ((mem_cons.1 hm).resolve_left (by decide))
      simp [hd] at hf
  have ha := escapes_append hs (rest.drop n)
  rw [take_append_drop] at ha
  rw [AllDecodable, AllDecodable, ha]

-- == decoding

/-- A second escape is taken along only if it is decodable. -/
theorem pairUp_spec (unit : Nat) (rest : List Char) :
    (pairUp unit rest = none → ¬AllDecodable rest) ∧
      ∀ x ∈ pairUp unit rest, AllDecodable (rest.drop x.2) ↔ AllDecodable rest := by
  have hr (c : Char) : ∀ x ∈ some (c, 0), AllDecodable (rest.drop x.2) ↔ AllDecodable rest := by
    simp
  unfold pairUp
  split
  · split
    · next more =>
      have hp : AllDecodable ('\\' :: 'u' :: more) ↔
          (¬more.length < 4 ∧ (hexNumber? (more.take 4)).isSome = true) ∧ AllDecodable more :=
        allDecodable_pair.trans (and_congr_left' (isEscape_iff (by decide)))
      split
      · next hs => exact ⟨fun _ h => (hp.1 h).1.1 hs, nofun⟩
      · next hl =>
        split
        · next hn => exact ⟨fun _ h => by simpa [hn] using (hp.1 h).1.2, nofun⟩
        · next low hlo =>
          split
          · refine ⟨nofun, fun x hx => ?_⟩
            rw [← Option.mem_some.1 hx, hp, hlo]
            show AllDecodable (more.drop 4) ↔ _
            simp [allDecodable_drop hlo, Nat.not_lt.1 hl]
          · exact ⟨nofun, hr _⟩
    · exact ⟨nofun, hr _⟩
  · exact ⟨nofun, hr _⟩

/-- An escape without digits stands for itself, but for a line break of
two characters. -/
theorem exists_escapeValue? {d : Char} {rest : List Char} (hx : d ≠ 'x') (hu : d ≠ 'u')
    (hbr : ¬(d = '\r' ∧ rest.head? = some '\n')) : ∃ v, escapeValue? d rest = some (v, 0) := by
  simp only [escapeValue?, hx, hu, if_false]
  by_cases hr : d = '\r'
  · have hh : rest.head? ≠ some '\n' := fun h => hbr ⟨hr, h⟩
    simp [hr, hh]
  · have hi {p : Prop} [Decidable p] {a b : Option (List Char × Nat)} (ha : ∃ v, a = some (v, 0))
        (hb : ∃ v, b = some (v, 0)) : ∃ v, (if p then a else b) = some (v, 0) := by
      split <;> assumption
    simp only [hr, if_false]
    repeat refine hi ⟨_, rfl⟩ ?_
    exact ⟨_, rfl⟩

/-- An escape is decoded if it has its digits and so has the one that it
takes along; behind it the same escapes are left. -/
theorem escapeValue?_spec (d : Char) (rest : List Char) :
    (escapeValue? d rest = none → ¬(IsEscape AreSigned (d :: rest) ∧ AllDecodable rest)) ∧
      ∀ x ∈ escapeValue? d rest, IsEscape AreSigned (d :: rest) ∧
        (AllDecodable (rest.drop x.2) ↔ AllDecodable rest) := by
  by_cases hx : d = 'x'
  · subst hx
    have hv : escapeValue? 'x' rest = if rest.length < 2 then none
        else (hexNumber? (rest.take 2)).map fun n => ([Char.ofNat n], 2) := by simp [escapeValue?]
    rw [hv, isEscape_iff (by decide), show digitCount 'x' = 2 from rfl]
    split
    · next hs => exact ⟨fun _ h => h.1.1 hs, nofun⟩
    · next hl =>
      cases hn : hexNumber? (rest.take 2) with
      | none => simp
      | some n => simpa [hl] using allDecodable_drop hn
  by_cases hu : d = 'u'
  · subst hu
    have hv : escapeValue? 'u' rest = if rest.length < 4 then none
        else (hexNumber? (rest.take 4)).bind fun unit =>
          (pairUp unit (rest.drop 4)).bind fun x => some ([x.1], 4 + x.2) := by simp [escapeValue?]
    rw [hv, isEscape_iff (by decide), show digitCount 'u' = 4 from rfl]
    split
    · next hs => exact ⟨fun _ h => h.1.1 hs, nofun⟩
    · next hl =>
      cases hn : hexNumber? (rest.take 4) with
      | none => simp
      | some unit =>
        obtain ⟨hno, hso⟩ := pairUp_spec unit (rest.drop 4)
        rw [allDecodable_drop hn] at hno hso
        cases hp : pairUp unit (rest.drop 4) with
        | none => simpa [hl, hp] using hno hp
        | some x =>
          have hx := hso x hp
          rw [drop_drop] at hx
          simpa [hl, hp] using hx
  · have he : IsEscape AreSigned (d :: rest) := by
      simp [IsEscape, digitCount, hx, hu, AreSigned, AreDigits]
    by_cases hb : d = '\r' ∧ rest.head? = some '\n'
    · obtain ⟨rfl, hh⟩ := hb
      obtain ⟨rest, rfl⟩ := head?_eq_some_iff.1 hh
      simp [escapeValue?, he, AllDecodable, escapes_plain]
    · obtain ⟨v, hv⟩ := exists_escapeValue? hx hu hb
      simp [hv, he]

/-- A text is decoded if and only if its escapes can be. -/
theorem isSome_unescape?_iff (cs : List Char) : (unescape? cs).isSome = true ↔ AllDecodable cs := by
  fun_induction unescape? cs with
  | case1 => simp [AllDecodable, escapes]
  | case2 => simp [AllDecodable, escapes, IsEscape]
  | case3 d rest ih =>
    obtain ⟨hn, hs⟩ := escapeValue?_spec d rest
    rw [allDecodable_pair]
    cases hv : escapeValue? d rest with
    | none => simpa using hn hv
    | some x =>
      obtain ⟨hd, hm⟩ := hs x hv
      rw [← hm, ← ih x.2]
      cases ht : unescape? (rest.drop x.2) <;> simp [hd, ht]
  | case4 c rest hc ih =>
    rw [Option.isSome_map, ih, AllDecodable, AllDecodable, escapes_plain hc]

/-- A string token has a value if and only if every `\x` in it has two
digits and every `\u` four, where a plus sign counts as the first one; a
string without a value is an invalid escape, wherever a string can
stand. -/
theorem isSome_unquote?_iff {t : Token} (hk : t.kind = .string) :
    ((unquote? t.text).isSome = true ↔
      ∀ e ∈ escapes t.text.toList.tail.dropLast, IsEscape AreSigned e) ∧
    (unquote? t.text = none → ∀ (r : Rules Parser) (s : State), s.cursor.current = t →
      r.primary s = .error ⟨t.span.start, .invalidEscape⟩ ∧
      Rules.propertyKey (m := Parser) s = .error ⟨t.span.start, .invalidEscape⟩) := by
  refine ⟨?_, fun hnone r s hs => ?_⟩
  · rw [unquote?, Option.isSome_map]
    exact isSome_unescape?_iff _
  · subst hs
    have hpeek (f : Token → Parser Node) : (Rule.peek >>= f) s = f s.cursor.current s := rfl
    have hfail : Rules.literalToken (m := Parser) s.cursor.current s =
        .error ⟨s.cursor.current.span.start, .invalidEscape⟩ := by
      unfold Rules.literalToken
      simp only [hk, hnone]
      rfl
    constructor
    · unfold Rules.primary
      rw [hpeek]
      simp only [hk]
      exact hfail
    · unfold Rules.propertyKey
      rw [hpeek]
      simp only [hk]
      exact hfail

/-- The two halves of a surrogate pair. -/
theorem isSome_unquote?_iff_pair :
    (lex "'\\ud83d\\ude00'".toList).toOption.bind (·.tokens.head?) =
      some ⟨.string, "'\\ud83d\\ude00'", ⟨0, 14⟩, false⟩ ∧
    ∀ e ∈ escapes "'\\ud83d\\ude00'".toList.tail.dropLast, IsEscape AreSigned e :=
  ⟨by decide +kernel, (isSome_unquote?_iff
    (t := ⟨.string, "'\\ud83d\\ude00'", ⟨0, 14⟩, false⟩) rfl).1.1 (by decide +kernel)⟩

/-- A plus sign passes for a digit. -/
theorem unquote?_plus :
    (lex "'\\x+1'".toList).toOption.bind (·.tokens.head?) =
      some ⟨.string, "'\\x+1'", ⟨0, 6⟩, false⟩ ∧
    unquote? "'\\x+1'" = some "\x01" ∧
    ¬∀ e ∈ escapes "'\\x+1'".toList.tail.dropLast, IsEscape AreDigits e := by
  refine ⟨by decide +kernel, by decide +kernel, fun h => ?_⟩
  have hdigits := (h ['x', '+', '1'] (by decide)).2 '+' (by decide)
  cases hdigits

/-- A string with a line break of two characters behind a backslash has a
value, but it is not read, where one with a line break of one character
is. -/
theorem lex_continuation_crlf : unquote? "'\\\r\n'" = some "" ∧
    (lex "'\\\n'".toList).toBool = true ∧ (lex "'\\\r\n'".toList).toBool = false ∧
    (Tech.js.parse "'\\\n'" none).toBool = true ∧
    (Tech.js.parse "'\\\r\n'" none).toBool = false := by
  decide +kernel

end Inlay.Script
