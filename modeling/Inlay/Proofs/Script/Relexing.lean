/-
The tokens of generated code are the ones it was made of.

Written out, a token is followed by a blank, the end, or the first character
of the next token. `Clear` says what that can be: enough for every token to
end where it does (`next_legible`). So the code of pieces that flow is read
token by token (`lex_draw`), as long as every slash is read as what it was
written for (`slashesHold`). The value of a string literal is the string that
it was made from: every character is written as itself or as an escape that
stands for it.
-/
import Inlay.Proofs.Script.Layout

namespace Inlay.Script

open Text (bytes)

open List hiding count

open Lexeme (isBlank isLineTerminator isWordStart count longPunctuators punctLength
  numberLength mantissaLength exponentLength hexLength stringLength? regexLength? isFlag
  regexAllowed)

variable {quote last f c : Char} {p text rest cs tail : List Char} {pen : Pen} {next : Option Char}
  {allowed b newline ind : Bool} {off : Nat} {prev : Option Token} {e' e : Edge}
  {ps : List Piece}

-- == blanks and line breaks

theorem lexFrom_blank (off : Nat) (newline : Bool) (prev : Option Token)
    (hc : isBlank c = true) (rest : List Char) :
    lexFrom off newline prev (c :: rest) = lexFrom (off + c.utf8Size) newline prev rest := by
  have hn : ∀ {c : Char}, isBlank c = true → ∀ rest,
      Lexeme.next prev c rest = .ok (.blank, count isBlank rest) := by
    intro c hc rest
    rw [Lexeme.next, if_pos hc]
  rw [lexFrom]
  simp only [hn hc]
  cases rest with
  | nil => simp [count, bytes]
  | cons d rest =>
    by_cases hd : isBlank d = true
    · rw [lexFrom]
      simp only [hn hd]
      have hco : count isBlank (d :: rest) = count isBlank rest + 1 := by
        simp [count, hd]
      rw [hco, take_succ_cons, drop_succ_cons]
      simp only [bytes, Nat.add_assoc]
    · have hco : count isBlank (d :: rest) = 0 := by simp [count, hd]
      simp [hco, bytes]

theorem lexFrom_newline (off : Nat) (newline : Bool) (prev : Option Token) (rest : List Char) :
    lexFrom off newline prev ('\n' :: rest) = lexFrom (off + 1) true prev rest := by
  rw [lexFrom]
  have hn : Lexeme.next prev '\n' rest = .ok (.newline, 0) := by
    rw [Lexeme.next, if_neg (by decide), if_neg (by simp), if_pos (by decide)]
  simp only [hn]
  rfl

theorem lexFrom_spaces (off : Nat) (newline : Bool) (prev : Option Token) (n : Nat)
    (rest : List Char) :
    lexFrom off newline prev (List.replicate n ' ' ++ rest) =
      lexFrom (off + n) newline prev rest := by
  induction n generalizing off with
  | zero => simp
  | succ n ih =>
    rw [replicate_succ, cons_append, lexFrom_blank _ _ _ (by decide), ih]
    congr 1
    show off + 1 + n = off + (n + 1)
    omega

theorem lexFrom_token {kind : TokenKind}
    (h : Lexeme.next prev c (cs ++ rest) = .ok (.token kind, cs.length)) :
    lexFrom off newline prev (c :: cs ++ rest) = (let token : Token :=
        ⟨kind, String.ofList (c :: cs), ⟨off, off + bytes (c :: cs)⟩, newline⟩
      do
        let lexed ← lexFrom (off + bytes (c :: cs)) false (some token) rest
        .ok { lexed with tokens := token :: lexed.tokens }) := by
  rw [cons_append, lexFrom]
  simp only [h, take_left', drop_left']

-- == clear ends

/-- What the character behind a token can be, given the edge and the last
character of the token: a blank, or the start of a token that does not
run together with it. -/
def Clear (e : Edge) (last next : Char) : Prop :=
  next = ' ' ∨ next = '\n' ∨
    runsTogether last next = false ∧ (e = .number → next ≠ '.') ∧
      (e = .operator → next ∉ Edge.extending) ∧ (e = .point → isWordStart next = true)

theorem count_append {p : Char → Bool} (hcs : ∀ c ∈ cs, p c = true)
    (hr : ∀ c ∈ rest.head?, p c = false) : count p (cs ++ rest) = cs.length := by
  unfold count
  induction cs with
  | nil =>
    cases rest with
    | nil => rfl
    | cons c rest => simp [hr c (by simp)]
  | cons c cs ih =>
    rw [cons_append, takeWhile_cons_of_pos (hcs c (by simp)), length_cons,
      ih fun c hc => hcs c (by simp [hc]), length_cons]

theorem isWordPart_of_lexeme (h : Lexeme.isWordPart c = true) : isWordPart c = true := by
  simp only [Lexeme.isWordPart] at h
  rw [isWordPart, h, Bool.true_or]

theorem isWordPart_of_isWordStart (h : isWordStart c = true) : Lexeme.isWordPart c = true := by
  simp only [isWordStart, Bool.or_eq_true] at h
  simp only [Lexeme.isWordPart, Char.isAlphanum, Bool.or_eq_true]
  exact h.imp_left (.imp_left .inl)

theorem isWordPart_of_isDigit (h : c.isDigit = true) : Lexeme.isWordPart c = true := by
  simp only [Lexeme.isWordPart, Char.isAlphanum, h, Bool.or_true, Bool.true_or]

/-- Behind the last character of a word or a number no word goes on. -/
theorem Clear.isWordPart_eq_false {next : Char} (h : Clear e last next)
    (hl : Lexeme.isWordPart last = true) : Lexeme.isWordPart next = false := by
  rcases h with rfl | rfl | ⟨h, -⟩
  · decide
  · decide
  · cases hn : Lexeme.isWordPart next with
    | false => rfl
    | true =>
      simp [runsTogether, isWordPart_of_lexeme hl, isWordPart_of_lexeme hn] at h

theorem isDigit_eq_false_of_isWordPart (h : Lexeme.isWordPart c = false) : c.isDigit = false := by
  cases hd : c.isDigit with
  | false => rfl
  | true => rw [isWordPart_of_isDigit hd] at h; cases h

-- == the next token

/-- A character that no blank, line break or comment starts with. -/
def isSolid (c : Char) : Bool := !isBlank c && !isLineTerminator c && c != '/'

theorem next_solid (prev : Option Token) (hc : isSolid c = true) (rest : List Char) :
    Lexeme.next prev c rest = if isWordStart c then .ok (.token .word, count Lexeme.isWordPart rest)
      else if c.isDigit ∨ (c = '.' ∧ (rest.head?.map Char.isDigit).getD false) then
        .ok (.token .number, numberLength (c :: rest) - 1)
      else if c = '"' ∨ c = '\'' then
        match stringLength? c rest with
        | some n => .ok (.token .string, n)
        | none => .error .unterminatedString
      else
        match punctLength (c :: rest) with
        | 0 => .error .illegal
        | n + 1 => .ok (.token .punct, n) := by
  simp only [isSolid, Bool.and_eq_true, Bool.not_eq_true', bne_iff_ne, ne_eq] at hc
  obtain ⟨⟨hb, hl⟩, hs⟩ := hc
  have hcr : c ≠ '\r' := by
    rintro rfl
    cases hl
  unfold Lexeme.next
  refine (if_neg (by simp [hb])).trans ?_
  refine (if_neg (by simp [hcr])).trans ?_
  refine (if_neg (by simp [hl])).trans ?_
  refine (if_neg (by simp [hs])).trans ?_
  refine (if_neg (by simp [hs])).trans ?_
  refine ite_congr rfl (fun _ => rfl) fun _ => ?_
  refine ite_congr rfl (fun _ => rfl) fun _ => ?_
  refine ite_congr rfl (fun _ => rfl) fun _ => ?_
  exact if_neg (by simp [hs])

theorem isSolid_of_isWordPart (h : Lexeme.isWordPart c = true) : isSolid c = true := by
  simp only [isSolid, Bool.and_eq_true, Bool.not_eq_true', bne_iff_ne]
  refine ⟨⟨?_, ?_⟩, ?_⟩
  · simp only [isBlank, Bool.or_eq_false_iff, beq_eq_false_iff_ne]
    refine ⟨⟨⟨⟨⟨?_, ?_⟩, ?_⟩, ?_⟩, ?_⟩, ?_⟩ <;> rintro rfl <;> revert h <;> decide
  · simp only [isLineTerminator, Bool.or_eq_false_iff, beq_eq_false_iff_ne]
    refine ⟨⟨⟨?_, ?_⟩, ?_⟩, ?_⟩ <;> rintro rfl <;> revert h <;> decide
  · rintro rfl
    revert h
    decide

theorem next_word (prev : Option Token) (hc : isWordStart c = true)
    (hcs : ∀ d ∈ cs, Lexeme.isWordPart d = true)
    (hr : ∀ d ∈ rest.head?, Lexeme.isWordPart d = false) :
    Lexeme.next prev c (cs ++ rest) = .ok (.token .word, cs.length) := by
  rw [next_solid prev (isSolid_of_isWordPart (isWordPart_of_isWordStart hc)), if_pos hc,
    count_append hcs hr]

-- == numbers

theorem isDigits_count {ds : List Char} (hds : IsDigits ds)
    (hr : ∀ d ∈ rest.head?, d.isDigit = false) :
    count Char.isDigit (ds ++ rest) = ds.length := count_append hds.2 hr

theorem exponentLength_append {ex : List Char}
    (hex : ex = [] ∨ ∃ sign ds, ex = 'e' :: (sign ++ ds) ∧ (sign = [] ∨ sign = ['-']) ∧ IsDigits ds)
    (hr : ∀ d ∈ rest.head?, Lexeme.isWordPart d = false) :
    exponentLength (ex ++ rest) = ex.length := by
  have hdi : ∀ d ∈ rest.head?, d.isDigit = false := fun d hd =>
    isDigit_eq_false_of_isWordPart (hr d hd)
  rcases hex with rfl | ⟨sign, ds, rfl, hs, hds⟩
  · cases rest with
    | nil => rfl
    | cons d rest =>
      have hd := hr d (by simp)
      have he : ¬(d = 'e' ∨ d = 'E') := by
        rintro (rfl | rfl) <;> revert hd <;> decide
      simp [exponentLength, he]
  · obtain ⟨d, ds', rfl⟩ := exists_cons_of_ne_nil hds.1
    have hc := isDigits_count hds hdi
    rcases hs with rfl | rfl
    · have hd := hds.2 d (by simp)
      have hp : ¬(d = '+' ∨ d = '-') := by
        rintro (rfl | rfl) <;> revert hd <;> decide
      simp only [nil_append, cons_append] at hc ⊢
      simp only [exponentLength, true_or, if_true, if_neg hp, hc, length_cons]
      simp
    · simp only [cons_append, nil_append] at hc ⊢
      simp only [exponentLength, true_or, or_true, if_true, hc, length_cons]
      simp

theorem mantissaLength_append {whole fraction : List Char} (hw : IsDigits whole)
    (hf : fraction = [] ∨ ∃ ds, fraction = '.' :: ds ∧ IsDigits ds)
    (hr : ∀ d ∈ rest.head?, d.isDigit = false ∧ d ≠ '.') :
    mantissaLength (whole ++ (fraction ++ rest)) = whole.length + fraction.length := by
  have hdi : ∀ d ∈ rest.head?, d.isDigit = false := fun d hd => (hr d hd).1
  unfold mantissaLength
  rcases hf with rfl | ⟨ds, rfl, hds⟩
  · simp only [nil_append, isDigits_count hw hdi, drop_left']
    split
    · exact absurd rfl (hr '.' (by simp)).2
    · rfl
  · have hc : count Char.isDigit (whole ++ '.' :: (ds ++ rest)) = whole.length := by
      apply isDigits_count hw
      intro d hd
      cases hd
      rfl
    simp only [cons_append, hc, drop_left', isDigits_count hds hdi, length_cons]
    omega

theorem hexLength_append {d : Char} (h : ∀ x ∈ (cs ++ rest).head?, x ≠ 'x' ∧ x ≠ 'X') :
    hexLength (d :: (cs ++ rest)) = 0 := by
  cases hcs : cs ++ rest with
  | nil =>
    unfold hexLength
    split <;> simp_all
  | cons x more =>
    rw [hcs] at h
    have hx := h x (by simp)
    unfold hexLength
    split
    · next heq =>
      cases heq
      rw [if_neg (by simp [hx.1, hx.2])]
    · rfl

theorem numberLength_append (hcs : IsNumeral cs)
    (hr : ∀ d ∈ rest.head?, Lexeme.isWordPart d = false ∧ d ≠ '.') :
    numberLength (cs ++ rest) = cs.length := by
  obtain ⟨whole, fraction, ex, rfl, hw, hf, hex⟩ := hcs
  have hp : ∀ d ∈ rest.head?, Lexeme.isWordPart d = false := fun d hd => (hr d hd).1
  -- what stands behind the digits and behind the fraction
  have hb : ∀ d ∈ (ex ++ rest).head?, d.isDigit = false ∧ d ≠ '.' := by
    rcases hex with rfl | ⟨sign, ds, rfl, -⟩
    · exact fun d hd => ⟨isDigit_eq_false_of_isWordPart (hp d hd), (hr d hd).2⟩
    · intro d hd
      cases hd
      exact ⟨rfl, by decide⟩
  have hh : hexLength (whole ++ (fraction ++ ex) ++ rest) = 0 := by
    obtain ⟨d, whole, rfl⟩ := exists_cons_of_ne_nil hw.1
    rw [cons_append, cons_append]
    apply hexLength_append
    intro x hx
    cases whole with
    | cons e whole =>
      cases hx
      have hdi := hw.2 x (by simp)
      constructor <;> rintro rfl <;> revert hdi <;> decide
    | nil =>
      rcases hf with rfl | ⟨ds, rfl, -⟩
      · rcases hex with rfl | ⟨sign, ds, rfl, -⟩
        · have := hp x (by simpa using hx)
          constructor <;> rintro rfl <;> revert this <;> decide
        · cases hx
          decide
      · cases hx
        decide
  have hm : mantissaLength (whole ++ (fraction ++ ex) ++ rest)
      = whole.length + fraction.length := by
    rw [append_assoc, append_assoc]
    exact mantissaLength_append hw hf hb
  have hdr : (whole ++ (fraction ++ ex) ++ rest).drop (whole.length + fraction.length)
      = ex ++ rest := by
    rw [← append_assoc whole, append_assoc _ ex, ← length_append]
    exact drop_left'  rfl
  unfold numberLength
  simp only [hh, hm, hdr, exponentLength_append hex hp, ne_eq, not_true_eq_false,
    if_false, length_append]
  omega

theorem IsNumeral.exists_digit (h : IsNumeral cs) :
    ∃ d ds, cs = d :: ds ∧ d.isDigit = true ∧ isWordStart d = false := by
  obtain ⟨whole, fraction, ex, rfl, hw, -⟩ := h
  obtain ⟨d, whole, rfl⟩ := exists_cons_of_ne_nil hw.1
  have hd : d.isDigit = true := hw.2 d (by simp)
  refine ⟨d, _, rfl, hd, ?_⟩
  cases hs : isWordStart d with
  | false => rfl
  | true => rw [isDigit_eq_false_of_isWordStart hs] at hd; cases hd

theorem next_numeral (prev : Option Token) (hcs : IsNumeral (c :: cs))
    (hr : ∀ d ∈ rest.head?, Lexeme.isWordPart d = false ∧ d ≠ '.') :
    Lexeme.next prev c (cs ++ rest) = .ok (.token .number, cs.length) := by
  have hl := numberLength_append hcs hr
  obtain ⟨d, ds, heq, hc, hs⟩ := hcs.exists_digit
  cases heq
  rw [next_solid prev (isSolid_of_isWordPart (isWordPart_of_isDigit hc)),
    if_neg (by simp [hs]), if_pos (.inl hc)]
  rw [cons_append, length_cons] at hl
  rw [hl, Nat.add_sub_cancel]

-- == strings

theorem stringLength?_cons (hc : c ≠ '\\') (rest : List Char) :
    stringLength? quote (c :: rest) = if c = '\n' ∨ c = '\r' then none
      else if c = quote then some 1
      else (stringLength? quote rest).map (· + 1) := by
  cases rest <;> simp [stringLength?, hc]

/-- The digits of an escape are part of the string. -/
theorem stringLength?_plain (hcs : ∀ c ∈ cs, c ≠ '\\' ∧ c ≠ '\n' ∧ c ≠ '\r' ∧ c ≠ quote) :
    stringLength? quote (cs ++ rest) = (stringLength? quote rest).map (· + cs.length) := by
  induction cs with
  | nil => simp
  | cons c cs ih =>
    obtain ⟨h₁, h₂, h₃, h₄⟩ := hcs c (by simp)
    rw [cons_append, stringLength?_cons h₁, if_neg (by simp [h₂, h₃]), if_neg h₄,
      ih fun d hd => hcs d (by simp [hd]), Option.map_map]
    congr 1

theorem stringLength?_escape (hcs : ∀ d ∈ cs, d ≠ '\\' ∧ d ≠ '\n' ∧ d ≠ '\r' ∧ d ≠ quote) :
    stringLength? quote ('\\' :: c :: cs ++ rest) =
      (stringLength? quote rest).map (· + ('\\' :: c :: cs).length) := by
  rw [cons_append, cons_append]
  simp only [stringLength?, if_true, stringLength?_plain hcs, Option.map_map]
  congr 1

theorem hexPair_plain : ∀ n < 32, ∀ d ∈ hexPair n,
    d ≠ '\\' ∧ d ≠ '\n' ∧ d ≠ '\r' ∧ d ≠ '"' ∧ d ≠ '\'' := by
  have ha : ∀ n < 32, (hexPair n).all
      (fun d => decide (d ≠ '\\' ∧ d ≠ '\n' ∧ d ≠ '\r' ∧ d ≠ '"' ∧ d ≠ '\'')) = true := by
    decide
  exact fun n hn d hd => of_decide_eq_true (all_eq_true.1 (ha n hn) d hd)

theorem stringLength?_escaped (hq : quote = '"' ∨ quote = '\'') (c : Char) (rest : List Char) :
    stringLength? quote (escaped quote c ++ rest) =
      (stringLength? quote rest).map (· + (escaped quote c).length) := by
  fun_cases escaped quote c
  case case11 hc =>
    apply stringLength?_escape
    intro d hd
    obtain ⟨h₁, h₂, h₃, h₄, h₅⟩ := hexPair_plain c.toNat hc d hd
    rcases hq with rfl | rfl
    · exact ⟨h₁, h₂, h₃, h₄⟩
    · exact ⟨h₁, h₂, h₃, h₅⟩
  case case12 =>
    apply stringLength?_plain
    simp_all
  case case8 | case9 =>
    apply stringLength?_escape
    rcases hq with rfl | rfl <;> simp
  all_goals exact stringLength?_escape (by simp)

theorem stringLength?_value (hq : quote = '"' ∨ quote = '\'') (value rest : List Char) :
    stringLength? quote (value.flatMap (escaped quote) ++ quote :: rest) =
      some ((value.flatMap (escaped quote)).length + 1) := by
  induction value with
  | nil =>
    rw [flatMap_nil, nil_append, stringLength?_cons]
    · rcases hq with rfl | rfl <;> simp
    · rcases hq with rfl | rfl <;> decide
  | cons c value ih =>
    rw [flatMap_cons, append_assoc, stringLength?_escaped hq, ih, Option.map_some, length_append]
    congr 1
    omega

theorem quoteFor_cases (single : Bool) (value : List Char) :
    quoteFor single value = '"' ∨ quoteFor single value = '\'' := by
  unfold quoteFor
  split
  · exact .inr rfl
  · exact .inl rfl

theorem next_quoted (prev : Option Token) (single : Bool) (value rest : List Char) :
    ∃ quote cs, quoted single value = quote :: cs ∧ (quote = '"' ∨ quote = '\'') ∧
      Lexeme.next prev quote (cs ++ rest) = .ok (.token .string, cs.length) := by
  have hq := quoteFor_cases single value
  refine ⟨_, value.flatMap (escaped (quoteFor single value)) ++ [quoteFor single value], rfl,
    hq, ?_⟩
  rw [next_solid prev (by rcases hq with h | h <;> rw [h] <;> decide),
    if_neg (by rcases hq with h | h <;> rw [h] <;> decide),
    if_neg (by rcases hq with h | h <;> simp [h]), if_pos hq]
  rw [append_assoc, singleton_append, stringLength?_value hq]
  simp

-- == punctuators

theorem punctLength_eq : ∀ p ∈ punctuators, punctLength p = p.length := by
  decide

/-- Nothing that starts with a punctuator and one more character is a
punctuator. -/
def Stops (p : List Char) (next : Char) : Prop :=
  ∀ q ∈ longPunctuators, ¬(p ++ [next]) <+: q

theorem prefix_append_iff_of_stops {q : List Char} (hr : ∀ f ∈ rest.head?, Stops p f)
    (hq : q ∈ longPunctuators) : q <+: p ++ rest ↔ q <+: p := by
  refine ⟨fun h => ?_, fun h => h.trans (prefix_append p rest)⟩
  by_cases hl : q.length ≤ p.length
  · exact prefix_of_prefix_length_le h (prefix_append p rest) hl
  · cases rest with
    | nil => simpa using h
    | cons f rest =>
      have hp : p ++ [f] <+: p ++ f :: rest := ⟨rest, by simp⟩
      refine absurd ?_ (hr f (by simp) q hq)
      exact prefix_of_prefix_length_le hp h (by simp; omega)

theorem punctLength_append (hp : p ∈ punctuators) (hr : ∀ f ∈ rest.head?, Stops p f) :
    punctLength (p ++ rest) = p.length := by
  rw [← punctLength_eq p hp]
  have hf : longPunctuators.find? (·.isPrefixOf (p ++ rest)) =
      longPunctuators.find? (·.isPrefixOf p) := by
    refine find?_congr fun q hq => ?_
    rw [Bool.eq_iff_iff, isPrefixOf_iff_prefix, isPrefixOf_iff_prefix]
    exact prefix_append_iff_of_stops hr hq
  have hne : p ≠ [] := by
    rintro rfl
    revert hp
    decide
  obtain ⟨c, p, rfl⟩ := exists_cons_of_ne_nil hne
  unfold punctLength
  rw [hf]
  rfl

/-- What makes a punctuator longer is one of the characters that an
operator does not admit, or its own sign once more. -/
theorem extension_cases : ∀ p ∈ punctuators, ∀ q ∈ longPunctuators, ∀ f ∈ q,
    (p ++ [f]).isPrefixOf q = true → Edge.isExtensible p = true ∧
      (f ∈ Edge.extending ∨ (f = '+' ∨ f = '-') ∧ p.getLast? = some f) := by
  have ha : punctuators.all (fun p => longPunctuators.all fun q => q.all fun f =>
      decide ((p ++ [f]).isPrefixOf q = true → Edge.isExtensible p = true ∧
        (f ∈ Edge.extending ∨ (f = '+' ∨ f = '-') ∧ p.getLast? = some f))) = true := by
    decide
  intro p hp q hq f hf
  exact of_decide_eq_true (all_eq_true.1 (all_eq_true.1 (all_eq_true.1 ha p hp) q hq) f hf)

theorem stops_of_clear (hp : p ∈ punctuators) (hl : p.getLast? = some last)
    (hf : Clear (.behind p) last f) (hk : kindOf p = .punct) : Stops p f := by
  intro q hq hb
  have hm : f ∈ q := hb.subset (by simp)
  obtain ⟨hex, hc⟩ := extension_cases p hp q hq f hm ( isPrefixOf_iff_prefix.2 hb)
  have hbe : Edge.behind p = .operator := by
    unfold Edge.behind
    rw [hk]
    simp only [hex, if_true]
    rw [if_neg]
    rintro rfl
    cases hex
  rw [hbe] at hf
  rcases hf with rfl | rfl | ⟨ha, -, he, -⟩
  · rcases hc with h | ⟨h | h, -⟩ <;> revert h <;> decide
  · rcases hc with h | ⟨h | h, -⟩ <;> revert h <;> decide
  · rcases hc with h | ⟨hs, h⟩
    · exact he rfl h
    · rw [hl] at h
      cases h
      rcases hs with rfl | rfl <;> cases ha

/-- How a punctuator starts. -/
theorem head_punctuator_solid : ∀ p ∈ punctuators, ∀ c ∈ p.head?, c ≠ '/' →
    isSolid c = true ∧ isWordStart c = false ∧ c.isDigit = false ∧ c ≠ '"' ∧ c ≠ '\'' ∧
      (c = '.' → p = ['.']) := by
  have ha : punctuators.all (fun p => p.head?.all fun c => decide (c ≠ '/' →
      isSolid c = true ∧ isWordStart c = false ∧ c.isDigit = false ∧ c ≠ '"' ∧ c ≠ '\'' ∧
        (c = '.' → p = ['.']))) = true := by
    decide
  intro p hp c hc
  have hp := all_eq_true.1 ha p hp
  rw [Option.mem_def.1 hc] at hp
  exact of_decide_eq_true hp

theorem next_punctuator (prev : Option Token) (hp : c :: cs ∈ punctuators) (hc : c ≠ '/')
    (hl : (c :: cs).getLast? = some last)
    (hr : ∀ f ∈ rest.head?, Clear (.behind (c :: cs)) last f) :
    Lexeme.next prev c (cs ++ rest) = .ok (.token .punct, cs.length) := by
  obtain ⟨hso, hw, hd, hdo, hs, hpo⟩ :=
    head_punctuator_solid _ hp c (by simp) hc
  have hk : kindOf (c :: cs) = .punct := by
    simp [kindOf, hw, hd, hdo, hs, hc]
  have hle : punctLength (c :: (cs ++ rest)) = cs.length + 1 := by
    rw [← cons_append, punctLength_append hp, length_cons]
    exact fun f hf => stops_of_clear hp hl (hr f hf) hk
  -- a point is no number, for no digit follows
  have hn : ¬(c = '.' ∧ ((cs ++ rest).head?.map Char.isDigit).getD false = true) := by
    rintro ⟨rfl, h⟩
    cases hpo rfl
    cases rest with
    | nil => cases h
    | cons f rest =>
      rcases hr f (by simp) with rfl | rfl | ⟨-, -, -, hst⟩
      · cases h
      · cases h
      · rw [nil_append] at h
        have hf : f.isDigit = true := h
        rw [isDigit_eq_false_of_isWordStart (hst rfl)] at hf
        cases hf
  rw [next_solid prev hso, if_neg (by simp [hw]), if_neg (not_or.2 ⟨by simp [hd], hn⟩),
    if_neg (by simp [hdo, hs]), hle]

-- == slashes

/-- The token that a text of generated code is, wherever it stands. -/
def tokenOf (text : List Char) : Token := ⟨kindOf text, String.ofList text, ⟨0, 0⟩, false⟩

/-- Whether a token is read as what it was written for, `allowed` telling
whether a regular expression may start where it stands and `next` what it
stands directly before: a division stands where no regular expression
may start, a regular expression where one may, and what follows does not
look like its flags. -/
def slashHolds (allowed : Bool) (text : List Char) (next : Option Char) : Bool :=
  if text.head? = some '/' then
    if kindOf text = .regex then
      allowed && !(text.getLast? == some '/' && next.any isFlag)
    else !allowed
  else true

theorem slashHolds_of_punct (hk : kindOf ('/' :: cs) = .punct) :
    slashHolds allowed ('/' :: cs) next = !allowed := by
  simp [slashHolds, hk]

theorem slashHolds_of_regex (hk : kindOf ('/' :: cs) = .regex) :
    slashHolds allowed ('/' :: cs) next =
      (allowed && !(('/' :: cs).getLast? == some '/' && next.any isFlag)) := by
  simp [slashHolds, hk]

theorem next_slash (hst : rest.head? ≠ some '*') (hs : rest.head? ≠ some '/') :
    Lexeme.next prev '/' rest = if regexAllowed prev then
        match regexLength? rest with
        | some n => .ok (.token .regex, n)
        | none => .error .unterminatedRegex
      else
        match punctLength ('/' :: rest) with
        | 0 => .error .illegal
        | n + 1 => .ok (.token .punct, n) := by
  unfold Lexeme.next
  refine (if_neg (by decide)).trans ?_
  refine (if_neg (by simp)).trans ?_
  refine (if_neg (by decide)).trans ?_
  refine (if_neg (by simp [hst])).trans ?_
  refine (if_neg (by simp [hs])).trans ?_
  refine (if_neg (by decide)).trans ?_
  refine (if_neg (by simp)).trans ?_
  refine (if_neg (by simp)).trans ?_
  exact ite_congr (by simp) (fun _ => rfl) fun _ => rfl

theorem slash_punctuators : ∀ p ∈ punctuators, p.head? = some '/' → p = ['/'] ∨ p = ['/', '='] := by
  decide

theorem kindOf_division (hp : '/' :: cs ∈ punctuators) : kindOf ('/' :: cs) = .punct := by
  rcases slash_punctuators _ hp rfl with h | h <;> rw [h] <;> decide

/-- What follows the slash of a division opens no comment. -/
theorem head_division_ne (hp : '/' :: cs ∈ punctuators) (hl : ('/' :: cs).getLast? = some last)
    (hr : ∀ f ∈ rest.head?, Clear (.behind ('/' :: cs)) last f) :
    ∀ f ∈ (cs ++ rest).head?, f ≠ '*' ∧ f ≠ '/' := by
  intro f hf
  rcases slash_punctuators _ hp rfl with h | h
  · cases h
    cases hl
    rcases hr f hf with rfl | rfl | ⟨hf, -⟩
    · decide
    · decide
    · constructor <;> rintro rfl <;> cases hf
  · cases h
    cases hf
    decide

/-- What follows the slash of a regular expression opens no comment. -/
theorem IsRegex.head_ne (h : IsRegex ('/' :: cs)) (rest : List Char) :
    ∀ f ∈ (cs ++ rest).head?, f ≠ '*' ∧ f ≠ '/' := by
  obtain ⟨pattern, flags, heq, hh, -⟩ := h
  cases heq
  cases pattern with
  | nil => exact hh
  | cons d pattern => exact hh

theorem next_division (hp : '/' :: cs ∈ punctuators) (hl : ('/' :: cs).getLast? = some last)
    (hpr : regexAllowed prev = false) (hr : ∀ f ∈ rest.head?, Clear (.behind ('/' :: cs)) last f) :
    Lexeme.next prev '/' (cs ++ rest) = .ok (.token .punct, cs.length) := by
  have hle : punctLength ('/' :: (cs ++ rest)) = cs.length + 1 := by
    rw [← cons_append, punctLength_append hp, length_cons]
    exact fun f hf => stops_of_clear hp hl (hr f hf) (kindOf_division hp)
  have ha := head_division_ne hp hl hr
  rw [next_slash (fun h => (ha _ h).1 rfl) (fun h => (ha _ h).2 rfl), hle]
  simp [hpr]

theorem isWordPart_of_isFlag (h : isFlag c = true) : isWordPart c = true := by
  simp only [isFlag, Text.isAlphanumeric, Bool.or_eq_true] at h
  simp only [isWordPart, Bool.or_eq_true, decide_eq_true_eq]
  rcases h with (h | h) | h
  · split at h
    · exact .inl (.inl (.inl h))
    · exact .inr (by omega)
  · exact .inl (.inl (.inr h))
  · exact .inl (.inr h)

/-- A regular expression takes the flags that stand directly behind its
pattern. -/
theorem regexLength?_append {pattern flags : List Char} (hc : Closes false pattern)
    (hf : ∀ c ∈ flags, isFlag c = true) (rest : List Char) :
    regexLength? ((pattern ++ '/' :: flags) ++ rest)
      = some ((pattern ++ '/' :: flags).length + count isFlag rest) := by
  have hd : (pattern ++ '/' :: (flags ++ rest)).drop (pattern.length + 1) = flags ++ rest := by
    rw [drop_length_add_append]
    rfl
  have hco : count isFlag (flags ++ rest) = flags.length + count isFlag rest := by
    rw [count, count, takeWhile_append_of_pos hf, length_append]
  rw [append_assoc, cons_append, regexLength?, hc, Option.map_some, hd, hco,
    length_append, length_cons]
  congr 1
  omega

theorem next_regex (h : IsRegex ('/' :: cs)) (hp : regexAllowed prev = true)
    (hr : ∀ f ∈ rest.head?, isFlag f = false) :
    Lexeme.next prev '/' (cs ++ rest) = .ok (.token .regex, cs.length) := by
  have ha := h.head_ne rest
  obtain ⟨pattern, flags, heq, -, hc, hf⟩ := h
  cases heq
  have hco : count isFlag rest = 0 := count_append (forall_mem_nil _) hr
  rw [next_slash (fun h => (ha _ h).1 rfl) (fun h => (ha _ h).2 rfl),
    regexLength?_append hc hf, hco, if_pos hp]
  rfl

-- == all of them

theorem IsNumeral.getLast?_isDigit (h : IsNumeral cs) :
    ∃ d, cs.getLast? = some d ∧ d.isDigit = true := by
  have hl : ∀ {ds : List Char}, IsDigits ds → ∃ d, ds.getLast? = some d ∧ d.isDigit = true := by
    intro ds hds
    exact ⟨_, getLast?_eq_some_getLast hds.1, hds.2 _ (getLast_mem hds.1)⟩
  obtain ⟨whole, fraction, ex, rfl, hw, hf, hex⟩ := h
  rcases hex with rfl | ⟨sign, ds, rfl, -, hds⟩
  · rcases hf with rfl | ⟨ds, rfl, hds⟩
    · simpa using hl hw
    · obtain ⟨d, hd, hdi⟩ := hl hds
      exact ⟨d, by simp [getLast?_append, getLast?_cons, hd], hdi⟩
  · obtain ⟨d, hd, hdi⟩ := hl hds
    exact ⟨d, by simp [getLast?_append, getLast?_cons, hd], hdi⟩

theorem IsNumeral.kindOf_eq (h : IsNumeral cs) : kindOf cs = .number := by
  obtain ⟨d, ds, rfl, hd, hs⟩ := h.exists_digit
  simp [kindOf, hs, hd]

theorem Legible.exists_cons (h : Legible text) : ∃ c cs, text = c :: cs := by
  rcases h with h | h | h
  · cases text with
    | nil => cases h
    | cons c cs => exact ⟨c, cs, rfl⟩
  · obtain ⟨d, ds, rfl, -⟩ := h.1.exists_digit
    exact ⟨d, ds, rfl⟩
  · obtain ⟨pattern, flags, rfl, -⟩ := h
    exact ⟨_, _, rfl⟩

/-- A regular expression that stands before something like a flag ends
with its slash. -/
theorem IsRegex.getLast?_eq (h : IsRegex cs) (hl : cs.getLast? = some last)
    (ha : runsTogether last f = false) (hf : isFlag f = true) : last = '/' := by
  obtain ⟨pattern, flags, rfl, -, -, hfl⟩ := h
  rcases eq_nil_or_concat flags with rfl | ⟨flags, d, rfl⟩
  · simpa [getLast?_cons, getLast?_append] using hl.symm
  · have hd : last = d := by
      simpa [getLast?_cons, getLast?_append] using hl.symm
    have hw := isWordPart_of_isFlag (hfl d (by simp))
    rw [hd, runsTogether, hw, isWordPart_of_isFlag hf] at ha
    cases ha

/-- A token ends where it does if what follows is clear of it. -/
theorem next_legible (h : Legible (c :: cs)) (hl : (c :: cs).getLast? = some last)
    (hs : slashHolds (regexAllowed prev) (c :: cs) rest.head? = true)
    (hr : ∀ f ∈ rest.head?, Clear (.behind (c :: cs)) last f) :
    Lexeme.next prev c (cs ++ rest) = .ok (.token (kindOf (c :: cs)), cs.length) := by
  rcases h with h | h | h
  · simp only [isFixed, Bool.or_eq_true, Bool.and_eq_true, all_eq_true, contains_iff_mem] at h
    rcases h with ⟨hc, hcs⟩ | hp
    · have hk : kindOf (c :: cs) = .word := by simp [kindOf, hc]
      have hpa : Lexeme.isWordPart last = true := by
        have hm := mem_of_getLast? hl
        rcases mem_cons.1 hm with rfl | hm
        · exact isWordPart_of_isWordStart hc
        · exact hcs last hm
      rw [hk]
      exact next_word prev hc hcs fun d hd => (hr d hd).isWordPart_eq_false hpa
    · by_cases hc : c = '/'
      · subst hc
        have hk := kindOf_division hp
        rw [slashHolds_of_punct hk, Bool.not_eq_true'] at hs
        rw [hk]
        exact next_division hp hl hs hr
      · obtain ⟨-, hw, hdi, hdo, hsi, -⟩ :=
          head_punctuator_solid _ hp c (by simp) hc
        have hk : kindOf (c :: cs) = .punct := by
          simp [kindOf, hw, hdi, hdo, hsi, hc]
        rw [hk]
        exact next_punctuator prev hp hc hl hr
  · have hk := h.1.kindOf_eq
    obtain ⟨d, hd, hdi⟩ := h.1.getLast?_isDigit
    rw [hl] at hd
    cases hd
    rw [hk]
    have hb : Edge.behind (c :: cs) = .number := by rw [Edge.behind, hk]
    refine next_numeral prev h.1 fun f hf => ⟨?_, ?_⟩
    · exact (hr f hf).isWordPart_eq_false (isWordPart_of_isDigit hdi)
    · rcases hr f hf with rfl | rfl | ⟨-, hpo, -⟩
      · decide
      · decide
      · exact hpo hb
  · have hk := h.kindOf_eq
    obtain rfl : c = '/' := by
      obtain ⟨pattern, flags, heq, -⟩ := h
      exact (List.cons.inj heq).1
    rw [slashHolds_of_regex hk, Bool.and_eq_true] at hs
    rw [hk]
    refine next_regex h hs.1 fun f hf => ?_
    rcases hr f hf with rfl | rfl | ⟨ha, -⟩
    · decide
    · decide
    · -- without a blank only the closing slash can stand before a flag
      cases hfl : isFlag f with
      | false => rfl
      | true =>
        have he := h.getLast?_eq hl ha hfl
        rw [Option.mem_def.1 hf, hl, he, Option.any_some, hfl] at hs
        cases hs.2

-- == whole codes

theorem Pen.last_writeAll (hl : cs.getLast? = some last) (pen : Pen) :
    (pen.writeAll cs).last = some last := by
  have hw : ∀ (pen : Pen) (c : Char), (pen.write c).last = some c := by
    intro pen c
    unfold Pen.write
    split <;> rfl
  obtain ⟨init, rfl⟩ : ∃ init, cs = init ++ [last] := getLast?_eq_some_iff.1 hl
  rw [Pen.writeAll, foldl_append]
  exact hw _ last

/-- Where a text of a token starts. -/
theorem clear_of_admits (ht : Legible text) (ha : e.admits text = true)
    (hf : text.head? = some f) (hap : runsTogether last f = false) : Clear e last f := by
  obtain ⟨c, cs, rfl⟩ := ht.exists_cons
  cases hf
  refine .inr (.inr ⟨hap, ?_, ?_, ?_⟩)
  · rintro rfl rfl
    -- only the point itself starts with a point
    rcases ht with h | h | h
    · simp only [isFixed, Bool.or_eq_true, Bool.and_eq_true, contains_iff_mem] at h
      rcases h with ⟨h, -⟩ | hp
      · cases h
      · obtain ⟨-, -, -, -, -, hpo⟩ := head_punctuator_solid _ hp '.' (by simp) (by decide)
        rw [hpo rfl] at ha
        cases ha
    · obtain ⟨d, ds, heq, hd, -⟩ := h.1.exists_digit
      cases heq
      cases hd
    · obtain ⟨pattern, flags, heq, -⟩ := h
      cases heq
  · rintro rfl hm
    simp [Edge.admits, hm] at ha
  · rintro rfl
    simp only [Edge.admits, kindOf, beq_iff_eq] at ha
    split at ha
    · assumption
    · split at ha
      · cases ha
      · split at ha
        · cases ha
        · split at ha <;> cases ha

/-- Code that flows behind an edge starts clear of it. -/
theorem clear_head_drawFrom (h : Flows e ps e') (hl : pen.last = some last) {pending : List Mark}
    (hf : (drawFrom ind pen pending ps).code.head? = some f) : Clear e last f := by
  induction ps generalizing pending with
  | nil => cases hf
  | cons p ps ih =>
    cases p with
    | mark m => exact ih h hf
    | space =>
      cases ind with
      | false => exact ih h hf
      | true =>
        cases hf
        exact .inl rfl
    | newline depth =>
      cases ind with
      | false => exact ih h hf
      | true =>
        cases hf
        exact .inr (.inl rfl)
    | string value =>
      obtain ⟨quote, cs, hqu, hq, -⟩ := next_quoted none ind value.toList []
      simp only [drawFrom, Piece.ink, hqu, gap, hl, head?_cons] at hf
      split at hf
      · cases hf
        exact .inl rfl
      · next ha =>
        cases hf
        refine .inr (.inr ⟨by simpa using ha, ?_, ?_, fun he => absurd he h.1⟩)
        · rintro -
          rcases hq with rfl | rfl <;> decide
        · rintro -
          rcases hq with rfl | rfl <;> decide
    | token text =>
      obtain ⟨hle, had, -⟩ := h
      obtain ⟨c, cs, ht⟩ := hle.exists_cons
      simp only [drawFrom, Piece.ink, ht, gap, hl, head?_cons] at hf
      split at hf
      · cases hf
        exact .inl rfl
      · next ha =>
        cases hf
        exact clear_of_admits hle had (by rw [ht]; rfl) (by simpa using ha)

/-- What the code of the pieces starts with, if no blank is put before
it. -/
def opening? (indented : Bool) : List Piece → Option Char
  | [] => none
  | p :: ps =>
      match p.ink indented with
      | .mark _ => opening? indented ps
      | .blank text => text.head?.or (opening? indented ps)
      | .token text => text.head?

/-- Whether every slash of the pieces is read as what it was written
for. -/
def slashesHold (indented allowed : Bool) : List Piece → Bool
  | [] => true
  | p :: ps =>
      match p.ink indented with
      | .token text =>
          slashHolds allowed text (opening? indented ps)
            && slashesHold indented (regexAllowed (some (tokenOf text))) ps
      | _ => slashesHold indented allowed ps

/-- Behind a slash, code starts with something like a flag if the pieces
do: what a blank is put before is none. -/
theorem any_isFlag_head?_drawFrom (h : Flows e ps e') (hp : pen.last = some '/')
    (pending : List Mark) :
    (drawFrom ind pen pending ps).code.head?.any isFlag = (opening? ind ps).any isFlag := by
  -- a token, with the blank that may stand before it
  have token : ∀ {c : Char} {text rest : List Char},
      ((gap (some '/') (c :: text) ++ (c :: text) ++ rest).head?).any isFlag = isFlag c := by
    intro c text rest
    simp only [gap, head?_cons]
    split
    · next hr =>
      have hc : c = '/' ∨ c = '*' := by simpa [runsTogether, isWordPart] using hr
      have hb : isFlag ' ' = false := by decide
      rcases hc with rfl | rfl <;> exact hb.trans (by decide)
    · rfl
  induction ps generalizing pending with
  | nil => rfl
  | cons p ps ih =>
    cases p with
    | mark m => exact ih h _
    | space =>
      cases ind with
      | false => exact ih h _
      | true => rfl
    | newline depth =>
      cases ind with
      | false => exact ih h _
      | true => rfl
    | string value =>
      obtain ⟨quote, cs, hq, -⟩ := next_quoted none ind value.toList []
      simp only [drawFrom, opening?, Piece.ink, hq, hp, head?_cons, Option.any_some]
      exact token
    | token text =>
      obtain ⟨c, cs, ht⟩ := h.1.exists_cons
      simp only [drawFrom, opening?, Piece.ink, ht, hp, head?_cons, Option.any_some]
      exact token

/-- What stands behind matters only behind a slash. -/
theorem slashHolds_congr {next' : Option Char}
    (h : text.getLast? = some '/' → next.any isFlag = next'.any isFlag) :
    slashHolds allowed text next = slashHolds allowed text next' := by
  unfold slashHolds
  by_cases hl : text.getLast? = some '/'
  · rw [h hl]
  · have hne : (text.getLast? == some '/') = false := by simpa using hl
    simp only [hne, Bool.false_and]

/-- What may stand behind code without a change to its tokens: nothing, or
a comment on a line of its own. -/
inductive Postscript : List Char → Prop
  | none : Postscript []
  | comment {cs : List Char} (hcs : ∀ c ∈ cs, isLineTerminator c = false) :
      Postscript ('\n' :: '/' :: '/' :: cs)

/-- A postscript has no token but the end. -/
theorem Postscript.lexFrom_eq (h : Postscript tail) (off : Nat) (newline : Bool)
    (prev : Option Token) :
    ∃ stop comments, lexFrom off newline prev tail = .ok ⟨[stop], comments⟩ ∧
      stop.isEnd = true := by
  cases h with
  | none => exact ⟨_, [], by rw [lexFrom], rfl⟩
  | @comment cs hcs =>
    have hco : count (!isLineTerminator ·) ('/' :: cs) = cs.length + 1 := by
      rw [← append_nil ('/' :: cs)]
      refine count_append (forall_mem_cons.2 ⟨by decide, fun c hc => ?_⟩) (by simp)
      simp [hcs c hc]
    have hn : Lexeme.next prev '/' ('/' :: cs) = .ok (.lineComment, cs.length + 1) := by
      rw [Lexeme.next, if_neg (by decide), if_neg (by simp), if_neg (by decide), if_neg (by simp),
        if_pos (by simp), hco]
    rw [lexFrom_newline, lexFrom]
    simp only [hn, drop_succ_cons, drop_length]
    rw [lexFrom]
    exact ⟨_, _, rfl, rfl⟩

theorem Postscript.head?_append (h : Postscript tail) (hf : (cs ++ tail).head? = some f) :
    cs.head? = some f ∨ f = '\n' := by
  cases cs with
  | cons c cs => exact .inl hf
  | nil =>
    cases h with
    | none => cases hf
    | comment hcs => exact .inr (Option.some.inj hf).symm

theorem Postscript.any_isFlag_append (h : Postscript tail) (cs : List Char) :
    (cs ++ tail).head?.any isFlag = cs.head?.any isFlag := by
  cases cs with
  | cons c cs => rfl
  | nil =>
    cases h with
    | none => rfl
    | comment _ => exact (by decide : isFlag '\n' = false)

/-- A text has been read as the tokens of the pieces: a cursor on them
reads the pieces and gets to the end. -/
def Relexed (indented : Bool) (ps : List Piece) (b : Bool) (result : Except SyntaxError Lexed) :
    Prop :=
  ∃ t rest comments, result = .ok ⟨t :: rest, comments⟩ ∧
    ∀ lastEnd, ∃ b' c', Reads indented ps b ⟨t, rest, lastEnd⟩ b' c' ∧ c'.current.isEnd = true

/-- One token, and the tokens of the pieces behind it. -/
theorem Relexed.cons {p : Piece} (hp : p.ink ind = .token (c :: cs))
    (hn : Lexeme.next prev c (cs ++ rest) = .ok (.token (kindOf (c :: cs)), cs.length))
    (hb : newline = true → b = true)
    (h : Relexed ind ps false (lexFrom (off + bytes (c :: cs)) false
      (some ⟨kindOf (c :: cs), String.ofList (c :: cs), ⟨off, off + bytes (c :: cs)⟩,
        newline⟩) rest)) :
    Relexed ind (p :: ps) b (lexFrom off newline prev (c :: cs ++ rest)) := by
  obtain ⟨t, more, comments, hl, hre⟩ := h
  refine ⟨_, t :: more, comments, by rw [lexFrom_token hn]; simp only [hl]; rfl, fun lastEnd => ?_⟩
  obtain ⟨b', c', hr, he⟩ := hre (off + bytes (c :: cs))
  have hs : Cursor.Shows ⟨⟨kindOf (c :: cs), String.ofList (c :: cs),
      ⟨off, off + bytes (c :: cs)⟩, newline⟩, t :: more, lastEnd⟩ b (c :: cs) := by
    refine ⟨rfl, rfl, fun hbr => ?_⟩
    cases newline with
    | false => rfl
    | true => rw [hb rfl] at hbr; cases hbr
  refine ⟨b', c', ?_, he⟩
  have ha := hs.isEnd
  cases p with
  | token text =>
    simp only [Piece.ink, Ink.token.injEq] at hp
    rw [Reads.token_iff, hp]
    refine ⟨hs, ?_⟩
    simpa only [Cursor.advance, ha, Bool.false_eq_true, if_false] using hr
  | string value =>
    simp only [Piece.ink, Ink.token.injEq] at hp
    rw [Reads.string_iff, hp]
    refine ⟨hs, ?_⟩
    simpa only [Cursor.advance, ha, Bool.false_eq_true, if_false] using hr
  | space | newline _ | mark _ => cases hp

/-- A blank before a token changes nothing but where it stands. -/
theorem lexFrom_gap (off : Nat) (newline : Bool) (prev : Option Token)
    (last : Option Char) (text rest : List Char) :
    ∃ off', lexFrom off newline prev (gap last text ++ rest) = lexFrom off' newline prev rest := by
  have hc : gap last text = [] ∨ gap last text = [' '] := by
    unfold gap
    split
    · split
      · exact .inr rfl
      · exact .inl rfl
    · exact .inl rfl
  rcases hc with hg | hg
  · exact ⟨off, by rw [hg, nil_append]⟩
  · exact ⟨_, by rw [hg, singleton_append, lexFrom_blank _ _ _ (by decide)]⟩

theorem next_drawFrom (hle : Legible (c :: cs)) (hfl : Flows (.behind (c :: cs)) ps e') (pen : Pen)
    (hs : slashHolds (regexAllowed prev) (c :: cs) (opening? ind ps) = true)
    (ht : Postscript tail) :
    Lexeme.next prev c (cs ++ ((drawFrom ind (pen.writeAll (c :: cs)) [] ps).code ++ tail))
      = .ok (.token (kindOf (c :: cs)), cs.length) := by
  have hl := getLast?_eq_some_getLast (cons_ne_nil c cs)
  refine next_legible hle hl ?_ fun f hf => ?_
  · refine (slashHolds_congr fun he => ?_).trans hs
    rw [ht.any_isFlag_append]
    exact any_isFlag_head?_drawFrom hfl (Pen.last_writeAll he _) []
  · rcases ht.head?_append hf with hf | rfl
    · exact clear_head_drawFrom hfl (Pen.last_writeAll hl _) hf
    · exact .inr (.inl rfl)

/-- Code that flows is read as the tokens it is made of, with or without a
postscript. -/
theorem lexFrom_drawFrom (h : Flows e ps e') (ht : Postscript tail) (pen : Pen)
    (pending : List Mark) (off : Nat) (hb : newline = true → b = true) (prev : Option Token)
    (hs : slashesHold ind (regexAllowed prev) ps = true) :
    Relexed ind ps b (lexFrom off newline prev ((drawFrom ind pen pending ps).code ++ tail)) := by
  induction ps generalizing e pen pending off newline b prev with
  | nil =>
    obtain ⟨stop, comments, hle, hst⟩ := ht.lexFrom_eq off newline prev
    exact ⟨stop, [], comments, hle, fun lastEnd => ⟨b, _, ⟨rfl, rfl⟩, hst⟩⟩
  | cons p ps ih =>
    cases p with
    | mark m => exact ih h pen _ off hb prev hs
    | space =>
      cases ind with
      | false => exact ih h pen pending off hb prev hs
      | true =>
        simp only [drawFrom, Piece.ink, if_true, append_assoc]
        rw [singleton_append, lexFrom_blank _ _ _ (by decide)]
        exact ih h _ pending _ hb prev hs
    | newline depth =>
      cases ind with
      | false => exact ih h pen pending off (fun _ => rfl) prev hs
      | true =>
        simp only [drawFrom, Piece.ink, if_true, lineBreak, append_assoc]
        rw [cons_append, lexFrom_newline, lexFrom_spaces]
        exact ih h _ pending _ (fun _ => rfl) prev hs
    | string value =>
      obtain ⟨quote, cs, hq, hqu, hn⟩ := next_quoted prev ind value.toList
          ((drawFrom ind ((pen.writeAll (gap pen.last (quoted ind value.toList))).writeAll
            (quoted ind value.toList)) [] ps).code ++ tail)
      have hk : kindOf (quote :: cs) = .string := by
        rcases hqu with rfl | rfl <;> rfl
      simp only [slashesHold, Piece.ink, Bool.and_eq_true] at hs
      simp only [drawFrom, Piece.ink, append_assoc]
      obtain ⟨off, hg⟩ := lexFrom_gap off newline prev _ _ _
      rw [hg]
      rw [hq] at hn hs ⊢
      refine Relexed.cons (congrArg Ink.token hq) (by rw [hk]; exact hn) hb ?_
      exact ih h.2 _ [] _ (by simp) (some _) hs.2
    | token text =>
      obtain ⟨hl, ha, hf⟩ := h
      obtain ⟨c, cs, hte⟩ := hl.exists_cons
      simp only [drawFrom, Piece.ink, append_assoc]
      obtain ⟨off, hg⟩ := lexFrom_gap off newline prev _ _ _
      rw [hg]
      simp only [slashesHold, Piece.ink, Bool.and_eq_true] at hs
      rw [hte] at hl hf hs ⊢
      refine Relexed.cons (congrArg Ink.token hte) ?_ hb ?_
      · exact next_drawFrom hl hf _ hs.1 ht
      · exact ih hf _ [] _ (by simp) (some _) hs.2

theorem lex_draw (h : Rests ps false) (hs : slashesHold ind true ps = true) (ht : Postscript tail) :
    Relexed ind ps false (lex ((draw ind ps).code ++ tail)) := by
  obtain ⟨e', -, hf⟩ := h .free (.inl rfl)
  exact lexFrom_drawFrom hf ht Pen.start [] 0 (by simp) none hs

-- == strings

theorem unescape?_plain {c : Char} (hc : c ≠ '\\') (rest : List Char) :
    unescape? (c :: rest) = (unescape? rest).map (c :: ·) := by
  cases rest <;> simp [unescape?, hc]

/-- A backslash, the character behind it, and what else belongs to the
escape. -/
theorem unescape?_escape {d c : Char} {rest : List Char} (cs : List Char)
    (h : escapeValue? d (cs ++ rest) = some ([c], cs.length)) :
    unescape? ('\\' :: d :: cs ++ rest) = (unescape? rest).map (c :: ·) := by
  rw [List.cons_append, List.cons_append, unescape?, if_pos rfl]
  simp only [h, Option.bind_eq_bind, Option.bind_some, List.drop_left', List.singleton_append]
  cases unescape? rest <;> rfl

theorem hexNumber?_hexPair : ∀ n < 32, hexNumber? (hexPair n) = some n := by
  decide

theorem unescape?_escaped {quote : Char} (hq : quote = '"' ∨ quote = '\'') (c : Char)
    (rest : List Char) : unescape? (escaped quote c ++ rest) = (unescape? rest).map (c :: ·) := by
  fun_cases escaped quote c
  case case11 hc =>
    apply unescape?_escape (hexPair c.toNat)
    have ht : (hexPair c.toNat ++ rest).take 2 = hexPair c.toNat := by simp [hexPair]
    have hl : ¬(hexPair c.toNat ++ rest).length < 2 := by simp [hexPair]
    have hv : ∀ cs, escapeValue? 'x' cs = if cs.length < 2 then none
        else (hexNumber? (cs.take 2)).map fun n => ([Char.ofNat n], 2) := by
      intro cs
      simp [escapeValue?]
    rw [hv, if_neg hl, ht, hexNumber?_hexPair c.toNat hc, Option.map_some, Char.ofNat_toNat]
    rfl
  case case12 =>
    apply unescape?_plain
    simp_all
  case case8 | case9 =>
    subst c
    apply unescape?_escape
    simp [escapeValue?]
    rfl
  case case10 =>
    subst c
    apply unescape?_escape []
    rcases hq with rfl | rfl <;> simp [escapeValue?]
  all_goals
    subst c
    apply unescape?_escape []
    simp [escapeValue?]

/-- A string literal has the value it was written for. -/
theorem unquote?_quoted (single : Bool) (value : String) :
    unquote? (String.ofList (quoted single value.toList)) = some value := by
  have hb : ∀ cs : List Char,
      unescape? (cs.flatMap (escaped (quoteFor single value.toList))) = some cs := by
    intro cs
    induction cs with
    | nil =>
      rw [List.flatMap_nil, unescape?]
    | cons c cs ih =>
      rw [List.flatMap_cons, unescape?_escaped (quoteFor_cases single _), ih]
      rfl
  have ht : (quoted single value.toList).tail.dropLast =
      value.toList.flatMap (escaped (quoteFor single value.toList)) := by
    simp [quoted]
  rw [unquote?, String.toList_ofList, ht, hb, Option.map_some, String.ofList_toList]

/-- Whatever stands before and behind a string literal, it is read as one
token, and the token has the value that was written. -/
theorem lexFrom_quoted (offset : Nat) (newline : Bool) (previous : Option Token) (single : Bool)
    (value : String) (rest : List Char) :
    ∃ t : Token, t.kind = .string ∧ t.text = String.ofList (quoted single value.toList) ∧
      t.newlineBefore = newline ∧ unquote? t.text = some value ∧
      t.span = ⟨offset, offset + Text.bytes (quoted single value.toList)⟩ ∧
      lexFrom offset newline previous (quoted single value.toList ++ rest) = (do
        let lexed ← lexFrom t.span.stop false (some t) rest
        .ok { lexed with tokens := t :: lexed.tokens }) := by
  obtain ⟨quote, cs, hquoted, -, hnext⟩ := next_quoted previous single value.toList rest
  have hvalue := unquote?_quoted single value
  rw [hquoted] at hvalue ⊢
  exact ⟨⟨.string, String.ofList (quote :: cs), ⟨offset, offset + Text.bytes (quote :: cs)⟩,
    newline⟩,
    rfl, rfl, rfl, hvalue, rfl, lexFrom_token hnext⟩

end Inlay.Script
