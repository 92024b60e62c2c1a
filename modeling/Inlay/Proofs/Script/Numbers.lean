/-
Number literals in a tree and in its code.

A literal that is read from a number token holds the number the token stands
for. A finite one is written as a numeral, which is one number token again;
beyond the greatest finite one the value is `null`, and written so.
-/
import Inlay.Proofs.Script.Numerals
import Inlay.Proofs.Tree.Loading

namespace Inlay

namespace Script

open List

/-- A numeral by itself is one number token. -/
theorem lex_numeral {cs : List Char} (h : IsNumeral cs) :
    lex cs = .ok ⟨[⟨.number, String.ofList cs, ⟨0, Text.bytes cs⟩, false⟩,
      ⟨.eof, "", ⟨Text.bytes cs, Text.bytes cs⟩, false⟩], []⟩ := by
  obtain ⟨c, cs, rfl, -⟩ := h.exists_digit
  have hl : lexFrom 0 false none (c :: cs ++ []) = _ :=
    lexFrom_token (next_numeral none h nofun)
  rw [append_nil] at hl
  rw [lex, hl]
  simp [lexFrom]
  rfl

/-- A literal stands for a token of the text, and holds its number if the
token is one. -/
def Numbered (tokens : List Token) (n : Node) : Prop :=
  n.kind = .literal → ∃ t ∈ tokens, n.range = some t.span ∧ (t.kind = .number →
    ∃ v, numberValue? t.text = some v ∧ n.data? "value" = some v.toJson ∧ n.data? "regex" = none)

theorem numbered_of_parse {text : String} {source : Option String} {t : Tree}
    (h : Tech.js.parse text source = .ok t) :
    ∃ lexed, lex text.toList = .ok lexed ∧ t.root.Every (Numbered lexed.tokens) := by
  obtain ⟨ns, hr, hp⟩ := Tech.exists_read h
  cases hr with
  | @statements lexed ts _ hl hts hd =>
    refine ⟨lexed, hl, hp.every_of_root (fun f hf n => ?_) nofun ?_⟩
    · rw [Numbered, Numbered, hf.kind, hf.range, hf.data?, hf.data?]
    · refine (Tiles.sits hd.lies).every nofun fun us hus runs n hfo hk => ?_
      obtain ⟨t, rfl, ht⟩ := hfo.number hk
      refine ⟨t, hts (hus (.head _)), hfo.range, fun hn => ?_⟩
      obtain ⟨v, hv, hpr⟩ := ht hn
      refine ⟨v, hv, ?_, ?_⟩ <;> rw [Node.data?, Node.get?, hpr] <;> rfl

/-- A literal is written without parentheses, wherever it stands. -/
theorem code_of_literal {n : Node} {code : List Piece} (hk : n.kind = .literal)
    (h : Code.literal n = .ok code) {R : Nat} (hR : R ≤ Level.primary) (g : Bool) (depth : Nat) :
    Code.expression R g depth n = .ok (n.marks ++ code) := by
  have hl : Level.ofNode n = Level.primary := by simp [Level.ofNode, hk]
  have hw : (decide (Level.ofNode n < R) || (Code.isIn n && !g)) = false := by
    simp [hl, Nat.not_lt.2 hR, Code.isIn, hk]
  rw [Code.expression, hw, Code.expressionBody]
  simp only [hk, h]
  rfl

/-- What is written for a literal with the given number. -/
inductive WritesNumber (n : Node) : NumberValue → Prop
  /-- A number of the tree, whose text is one number token. -/
  | finite {d : Double} {number : Number} :
      n.data? "value" = some (.num number) →
      (∀ R ≤ Level.primary, ∀ g depth,
        Code.expression R g depth n = .ok (n.marks ++ [.token (numberText d)])) →
      lex (numberText d).toList = .ok ⟨[⟨.number, numberText d,
        ⟨0, Text.bytes (numberText d).toList⟩, false⟩,
        ⟨.eof, "", ⟨Text.bytes (numberText d).toList, Text.bytes (numberText d).toList⟩, false⟩],
        []⟩ → WritesNumber n (.finite d)
  | infinite :
      n.data? "value" = some .null →
      (∀ R ≤ Level.primary, ∀ g depth,
        Code.expression R g depth n = .ok (n.marks ++ [.token "null"])) → WritesNumber n .infinite

theorem writesNumber {n : Node} {raw : String} {v : NumberValue} (hk : n.kind = .literal)
    (hr : n.data? "regex" = none) (hva : n.data? "value" = some v.toJson)
    (hv : numberValue? raw = some v) : WritesNumber n v := by
  cases v with
  | finite d =>
    obtain ⟨number, hj, hdo⟩ := toDouble?_of_toJson hv
    obtain ⟨hd, hn⟩ := isCanonical_of_numberValue? hv
    obtain ⟨digits, power, hw, -⟩ := writes_numberText hd hn
    rw [hj] at hva
    have hc : Code.literal n = .ok [.token (numberText d)] := by
      simp only [Code.literal, hr, hva, hdo]
    refine .finite hva (fun R hR g depth => code_of_literal hk hc hR g depth) ?_
    have hl := lex_numeral hw.isNumeral
    rwa [String.ofList_toList] at hl
  | infinite =>
    have hc : Code.literal n = .ok [.token "null"] := by
      simp only [Code.literal, hr, hva, NumberValue.toJson]
    exact .infinite hva fun R hR g depth => code_of_literal hk hc hR g depth

end Script

open Script

/-- Every literal of a script comes from a token. If it comes from a number
token, it holds the number of the token, which is written as one number
token again if it is finite. -/
theorem Tech.literals_of_numbers {text : String} {source : Option String} {t : Tree}
    (h : Tech.js.parse text source = .ok t) :
    ∃ lexed, lex text.toList = .ok lexed ∧ ∀ n ∈ t.root.preorder, n.kind = .literal →
      ∃ token ∈ lexed.tokens, n.range = some token.span ∧ (token.kind = .number →
        ∃ v, numberValue? token.text = some v ∧ n.data? "value" = some v.toJson ∧
          WritesNumber n v) := by
  obtain ⟨lexed, hlex, hnumbered⟩ := numbered_of_parse h
  refine ⟨lexed, hlex, fun n hn hkind => ?_⟩
  obtain ⟨token, htoken, hrange, hnumber⟩ := hnumbered n hn hkind
  refine ⟨token, htoken, hrange, fun hk => ?_⟩
  obtain ⟨v, hv, hvalue, hregex⟩ := hnumber hk
  exact ⟨v, hv, hvalue, writesNumber hkind hregex hvalue hv⟩

theorem Tech.literals_of_numbers_hex :
    ∃ t n v, Tech.js.parse "f(0xA)" none = .ok t ∧ n ∈ t.root.preorder ∧ n.kind = .literal ∧
      n.range = some ⟨2, 5⟩ ∧ WritesNumber n v := by
  have hnode : ((Tech.js.parse "f(0xA)" none).toOption.map fun t =>
      t.root.preorder.any fun n => n.kind = .literal && n.range = some ⟨2, 5⟩) = some true := by
    decide +kernel
  have htokens : ((lex "f(0xA)".toList).toOption.map fun lexed =>
      lexed.tokens.all fun t => t.span ≠ ⟨2, 5⟩ || t.kind = .number) = some true := by
    decide +kernel
  obtain ⟨t, ht, hany⟩ := Option.map_eq_some_iff.1 hnode
  obtain ⟨n, hn, hkind⟩ := List.any_eq_true.1 hany
  simp only [Bool.and_eq_true, decide_eq_true_eq] at hkind
  obtain ⟨lexed, hlex, hall⟩ := literals_of_numbers (eq_ok_of_toOption ht)
  obtain ⟨token, htoken, hrange, hnumber⟩ := hall n hn hkind.1
  rw [hlex] at htokens
  have hspan := List.all_eq_true.1 (Option.some.inj htokens) token htoken
  rw [hkind.2, Option.some.injEq] at hrange
  obtain ⟨v, -, -, hwrites⟩ := hnumber (by simpa [← hrange] using hspan)
  exact ⟨t, n, v, eq_ok_of_toOption ht, hn, hkind.1, hkind.2, hwrites⟩

/-- A number that is not finite becomes a word. -/
theorem Tech.literal_of_infinite :
    ∃ t generated, Tech.js.parse "1e999" none = .ok t ∧ Tech.js.generate false t = .ok generated ∧
      generated.code = "null;" ∧ ∃ n ∈ t.root.preorder, n.kind = .literal ∧
        n.string? "raw" = some "1e999" ∧ n.data? "value" = some .null := by
  have hcode : ((Tech.js.parse "1e999" none).toOption.bind fun t =>
      (Tech.js.generate false t).toOption.map (·.code)) = some "null;" := by cbv
  obtain ⟨t, ht, hcode⟩ := Option.bind_eq_some_iff.1 hcode
  obtain ⟨generated, hgenerated, hcode⟩ := Option.map_eq_some_iff.1 hcode
  have hnode : ((Tech.js.parse "1e999" none).toOption.map fun t => t.root.preorder.any fun n =>
      n.kind = .literal && n.string? "raw" = some "1e999" &&
        ((n.data? "value").map Json.isNull).getD false) = some true := by decide +kernel
  rw [ht] at hnode
  obtain ⟨n, hn, hraw⟩ := List.any_eq_true.1 (Option.some.inj hnode)
  simp only [Bool.and_eq_true, decide_eq_true_eq] at hraw
  refine ⟨t, generated, eq_ok_of_toOption ht, eq_ok_of_toOption hgenerated, hcode, n, hn,
    hraw.1.1, hraw.1.2, ?_⟩
  cases hvalue : n.data? "value" with
  | none => simp [hvalue] at hraw
  | some j => cases j <;> simp_all [Json.isNull]

end Inlay
