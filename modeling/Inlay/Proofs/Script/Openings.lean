/-
How the code of an expression begins.

An expression that stands as a statement must not begin like another one.
The first token of a derivation of an expression is one that starts an
expression; it is a brace or the word `function` only if the innermost node
at the front is an object or a function; and no colon follows it if it is a
name.
-/
import Inlay.Proofs.Script.Soundness
import Inlay.Proofs.Tree.Stripped
import Inlay.Script.Precedence

namespace Inlay.Script

open Rules Node

variable {F : Frame} {s : Symbol} {t u : Token} {ts us : List Token} {m n : Node}
  {ns : List Node} {w : String}

-- == first tokens

/-- The words and punctuators that expressions start with. -/
def openings : List String :=
  ["function", "this", "null", "true", "false", "new", "typeof", "void", "delete",
   "(", "[", "\x7b", "!", "~", "+", "-", "++", "--"]

/-- Whether an expression can start with the token. -/
def startsExpression (t : Token) : Bool :=
  match t.kind with
  | .word => !isReserved t.text || openings.contains t.text
  | .punct => openings.contains t.text
  | .number | .string | .regex => true
  | .eof => false

theorem startsExpression_of_is (h : t.is w = true) (hw : w ∈ openings) :
    startsExpression t = true := by
  simp only [Token.is, Bool.and_eq_true, Bool.or_eq_true, beq_iff_eq] at h
  obtain ⟨hk, rfl⟩ := h
  unfold startsExpression
  rcases hk with hk | hk <;> simp [hk, hw]

theorem startsExpression_of_isPrefixOperator (h : isPrefixOperator t = true) :
    startsExpression t = true := by
  unfold isPrefixOperator at h
  split at h
  · next hk =>
    have hm : ∀ w ∈ ["!", "~", "+", "-"], w ∈ openings := by decide
    have ho := hm _ (List.contains_iff_mem.1 h)
    simp [startsExpression, hk, ho]
  · next hk =>
    have hm : ∀ w ∈ ["typeof", "void", "delete"], w ∈ openings := by decide
    have ho := hm _ (List.contains_iff_mem.1 h)
    simp [startsExpression, hk, ho]
  · cases h

theorem startsExpression_of_isUpdateOperator (h : isUpdateOperator t = true) :
    startsExpression t = true := by
  simp only [isUpdateOperator, Bool.or_eq_true] at h
  rcases h with h | h <;> exact startsExpression_of_is h (by decide)

/-- Some token starts an expression, and it is the first. -/
def StartsWell (ts : List Token) : Prop := ∃ t us, ts = t :: us ∧ startsExpression t = true

theorem StartsWell.append (h : StartsWell ts) : StartsWell (ts ++ us) := by
  obtain ⟨t, rest, rfl, ht⟩ := h
  exact ⟨t, rest ++ us, rfl, ht⟩

/-- The symbols that stand for expressions. -/
def Symbol.isExpression : Symbol → Bool
  | .expression | .identifier | .literal | .function _ => true
  | _ => false

theorem Derives.startsWell (h : Derives F s ts ns) (hs : s.isExpression = true) :
    StartsWell ts := by
  induction h with
  | identifier hk hr => exact ⟨_, [], rfl, by simp [startsExpression, hk, hr]⟩
  | number hk | string hk | regex hk => exact ⟨_, [], rfl, by simp [startsExpression, hk]⟩
  | function ht => exact ⟨_, _, rfl, startsExpression_of_is ht (by decide)⟩
  | ofIdentifier _ ih | ofLiteral _ ih | ofFunction _ ih => exact ih rfl
  | this hk ht | null hk ht =>
    exact ⟨_, [], rfl, startsExpression_of_is (Token.is_of_word hk ht) (by decide)⟩
  | truth hk ht =>
    rcases ht with ht | ht <;>
      exact ⟨_, [], rfl, startsExpression_of_is (Token.is_of_word hk ht) (by decide)⟩
  | parens ht | array ht | object ht | newBare ht | new ht =>
    exact ⟨_, _, rfl, startsExpression_of_is ht (by decide)⟩
  | unary ht => exact ⟨_, _, rfl, startsExpression_of_isPrefixOperator ht⟩
  | updateBefore ht => exact ⟨_, _, rfl, startsExpression_of_isUpdateOperator ht⟩
  | dot _ _ _ _ ih | index _ _ _ _ _ ih | call _ _ _ _ ih | updateBehind _ _ _ ih
  | binary _ _ _ ih | conditional _ _ _ _ _ ih | assignment _ _ _ _ _ ih
  | sequence _ _ _ ih => exact (ih rfl).append
  | _ => cases hs

/-- A token that starts an expression is none of the ones that end or
separate them. -/
theorem is_eq_false_of_startsExpression (h : startsExpression t = true) (hs : t.IsSpelled)
    (hw : isReserved w = true ∨ w.toList.head?.any Lexeme.isWordStart = false) (hw' : w ∉ openings) :
    t.is w = false := by
  rw [Bool.eq_false_iff]
  intro his
  simp only [Token.is, Bool.and_eq_true, Bool.or_eq_true, beq_iff_eq] at his
  obtain ⟨hk | hk, rfl⟩ := his
  · simp only [startsExpression, hk, List.contains_iff_mem] at h
    exact hw' h
  · rcases hw with hw | hw
    · simp only [startsExpression, hk, hw, Bool.not_true, Bool.false_or, List.contains_iff_mem] at h
      exact hw' h
    · rw [Token.IsSpelled, hk] at hs
      obtain ⟨c, rest, ht, hc, -⟩ := hs
      rw [ht] at hw
      simp only [List.head?_cons, Option.any_some] at hw
      rw [hc] at hw
      cases hw

theorem isEnd_of_startsExpression (h : startsExpression t = true) : t.isEnd = false := by
  unfold startsExpression at h
  unfold Token.isEnd
  cases hk : t.kind <;> simp_all

-- == second tokens

/-- The token is a name: a word that is not reserved. -/
structure Token.IsName (t : Token) : Prop where
  word : IsWord t.text.toList
  free : isReserved t.text = false

theorem Token.IsName.is_eq_false (h : t.IsName)
    (hw : isReserved w = true ∨ w.toList.head?.any Lexeme.isWordStart = false) :
    t.is w = false := by
  rw [Bool.eq_false_iff]
  intro his
  obtain rfl := Token.text_of_is his
  rcases hw with hw | hw
  · rw [h.free] at hw
    cases hw
  · obtain ⟨c, rest, ht, hc, -⟩ := h.word
    rw [ht] at hw
    simp only [List.head?_cons, Option.any_some] at hw
    rw [hc] at hw
    cases hw

theorem Token.IsName.isPrefixOperator_eq_false (h : t.IsName) : isPrefixOperator t = false := by
  rw [Bool.eq_false_iff]
  intro hop
  unfold isPrefixOperator at hop
  split at hop
  · next hk =>
    have hm : ∀ w ∈ ["!", "~", "+", "-"], w.toList.head?.any Lexeme.isWordStart = false := by decide
    have hf := h.is_eq_false (.inr (hm _ (List.contains_iff_mem.1 hop)))
    simp [Token.is, hk] at hf
  · next hk =>
    have hm : ∀ w ∈ ["typeof", "void", "delete"], isReserved w = true := by decide
    have hf := h.is_eq_false (.inl (hm _ (List.contains_iff_mem.1 hop)))
    simp [Token.is, hk] at hf
  · cases hop

/-- No colon is the second token behind a name. -/
def Unlabeled (ts : List Token) : Prop :=
  ∀ t u us, ts = t :: u :: us → t.IsName → u.is ":" = false

theorem Unlabeled.append (h : Unlabeled ts) (hne : ts ≠ [])
    (hus : ∀ u rest, us = u :: rest → u.is ":" = false) : Unlabeled (ts ++ us) := by
  intro t u rest heq hn
  match ts with
  | [] => exact absurd rfl hne
  | [_] => exact hus u rest (List.cons.inj heq).2
  | a :: b :: more =>
    have ht := (List.cons.inj heq).2
    have hb : b = u := (List.cons.inj ht).1
    subst hb
    exact h a b more rfl ((List.cons.inj heq).1 ▸ hn)

theorem Unlabeled.cons (h : ¬t.IsName) : Unlabeled (t :: ts) := by
  intro t' u us heq hn
  obtain rfl := (List.cons.inj heq).1
  exact absurd hn h

theorem Unlabeled.singleton : Unlabeled [t] := by
  intro t' u us heq
  cases heq

theorem not_isName_of_is (h : t.is w = true)
    (hw : isReserved w = true ∨ w.toList.head?.any Lexeme.isWordStart = false) :
    ¬t.IsName := fun hn => by
  rw [hn.is_eq_false hw] at h
  cases h

theorem operatorStrength?_colon (h : t.is ":" = true) (allowIn : Bool) :
    operatorStrength? t allowIn = none := by
  have ht := Token.text_of_is h
  simp [operatorStrength?, ht, strength?]

/-- In an expression no colon follows a name that stands first. -/
theorem Derives.unlabeled (h : Derives F s ts ns) (hs : s.isExpression = true) : Unlabeled ts := by
  induction h with
  | identifier | number | string | regex | this | null | truth => exact .singleton
  | ofIdentifier _ ih | ofLiteral _ ih | ofFunction _ ih => exact ih rfl
  | function ht | newBare ht | new ht =>
    exact .cons (not_isName_of_is ht (.inl (by decide)))
  | parens ht | array ht | object ht =>
    exact .cons (not_isName_of_is ht (.inr (by decide)))
  | unary ht =>
    refine .cons fun hn => ?_
    rw [hn.isPrefixOperator_eq_false] at ht
    cases ht
  | updateBefore ht =>
    simp only [isUpdateOperator, Bool.or_eq_true] at ht
    rcases ht with ht | ht <;> exact .cons (not_isName_of_is ht (.inr (by decide)))
  | dot hd ht _ _ ih | index hd ht _ _ _ ih | call hd ht _ _ ih | conditional hd ht _ _ _ ih =>
    refine (ih rfl).append (hd.ne_nil rfl) ?_
    rintro u rest ⟨⟩
    exact Token.is_eq_false_of_is ht (by decide)
  | updateBehind hd ht _ ih =>
    refine (ih rfl).append (hd.ne_nil rfl) ?_
    rintro u rest ⟨⟩
    simp only [isUpdateOperator, Bool.or_eq_true] at ht
    rcases ht with ht | ht <;> exact Token.is_eq_false_of_is ht (by decide)
  | binary hd ht _ ih =>
    refine (ih rfl).append (hd.ne_nil rfl) ?_
    rintro u rest ⟨⟩
    rw [Bool.eq_false_iff]
    intro hc
    rw [operatorStrength?_colon hc] at ht
    cases ht
  | assignment hd _ _ ht _ ih =>
    refine (ih rfl).append (hd.ne_nil rfl) ?_
    rintro u rest ⟨⟩
    rw [Bool.eq_false_iff]
    intro hc
    rw [Token.text_of_is hc] at ht
    revert ht
    decide
  | sequence hd hse _ ih =>
    refine (ih rfl).append (hd.ne_nil rfl) ?_
    rintro u rest rfl
    cases hse with
    | sequenceCons hco => exact Token.is_eq_false_of_is hco (by decide)
  | _ => cases hs

-- == the node in front

theorem head?_children?_alike {key : String} (h : m.Alike n) (hk : key ≠ "raw") :
    AlikeOption ((m.children? key).bind List.head?) ((n.children? key).bind List.head?) := by
  have heq := h.children?_eq hk
  unfold AlikeOption
  rcases hm : m.children? key with _ | ms <;> rcases hn : n.children? key with _ | ns
  · rfl
  · rw [hm, hn] at heq
    cases heq
  · rw [hm, hn] at heq
    cases heq
  · rw [hm, hn] at heq
    have hma := Option.some.inj heq
    simpa [List.head?_map] using congrArg List.head? hma

theorem first?_alike (h : m.Alike n) : AlikeOption (first? m) (first? n) := by
  unfold first?
  rw [h.kind_eq, h.flag_eq (show "prefix" ≠ "raw" by decide)]
  split
  case h_7 => exact head?_children?_alike h (by decide)
  case h_8 =>
    split
    · rfl
    · exact h.child?_eq (by decide)
  case h_9 => rfl
  all_goals exact h.child?_eq (by decide)

theorem leftmost_of_first? (h : first? n = some m) : leftmost n = leftmost m := by
  rw [leftmost]
  split
  · next heq =>
    rw [h] at heq
    cases heq
    rfl
  · next heq =>
    rw [h] at heq
    cases heq

theorem leftmost_self (h : first? n = none) : leftmost n = n := by
  rw [leftmost]
  split
  · next heq =>
    rw [h] at heq
    cases heq
  · rfl

theorem leftmost_alike {m n : Node} (h : m.Alike n) : (leftmost m).Alike (leftmost n) := by
  have hf := first?_alike h
  rcases hm : first? m with _ | m' <;> rcases hn : first? n with _ | n' <;> rw [hm, hn] at hf
  · rwa [leftmost_self hm, leftmost_self hn]
  · cases hf
  · cases hf
  · rw [leftmost_of_first? hm, leftmost_of_first? hn]
    exact leftmost_alike (Option.some.inj hf)
termination_by m.size
decreasing_by exact size_lt_of_first? hm

theorem startsLikeStatement_eq (h : m.Alike n) : startsLikeStatement m = startsLikeStatement n := by
  unfold startsLikeStatement
  rw [(leftmost_alike h).kind_eq]

/-- The token would start a block or a function at the front of a
statement. -/
def Token.IsStatementLike (t : Token) : Prop :=
  t.kind = .punct ∧ t.text = "\x7b" ∨ t.kind = .word ∧ t.text = "function"

/-- If the tokens start like a statement, so does the node. -/
def FrontKnown (ts : List Token) (ns : List Node) : Prop :=
  ∀ t us n, ts = t :: us → ns = [n] → t.IsStatementLike → startsLikeStatement n = true

theorem FrontKnown.first {n' : Node} (h : FrontKnown ts [n']) (hne : ts ≠ [])
    (hf : first? n = some n') : FrontKnown (ts ++ us) [n] := by
  rintro t rest _ heq ⟨⟩ ht
  match ts with
  | [] => exact absurd rfl hne
  | a :: more =>
    obtain ⟨rfl, -⟩ := List.cons.inj heq
    have hfr := h a more n' rfl rfl ht
    unfold startsLikeStatement at hfr ⊢
    rwa [leftmost_of_first? hf]

theorem FrontKnown.other (h : ¬t.IsStatementLike) : FrontKnown (t :: ts) ns := by
  intro t' us n heq _ ht
  obtain ⟨rfl, -⟩ := List.cons.inj heq
  exact absurd ht h

theorem FrontKnown.self {kind : Kind} {props : Node.Props}
    (h : kind = .objectExpression ∨ kind = .functionExpression) :
    FrontKnown ts [spanned kind props us] := by
  rintro t rest _ - ⟨⟩ -
  have hf : first? (spanned kind props us) = none := by
    rcases h with rfl | rfl <;> rfl
  unfold startsLikeStatement
  rw [leftmost_self hf]
  rcases h with rfl | rfl <;> rfl

theorem not_isStatementLike_of_text (hb : t.text ≠ "\x7b") (hf : t.text ≠ "function") :
    ¬t.IsStatementLike := by
  rintro (⟨-, h⟩ | ⟨-, h⟩)
  · exact hb h
  · exact hf h

theorem not_isStatementLike_of_is (h : t.is w = true) (hb : w ≠ "\x7b") (hf : w ≠ "function") :
    ¬t.IsStatementLike := by
  rw [← Token.text_of_is h] at hb hf
  exact not_isStatementLike_of_text hb hf

theorem not_isStatementLike_of_isPrefixOperator (h : isPrefixOperator t = true) :
    ¬t.IsStatementLike := by
  rintro (⟨hk, ht⟩ | ⟨hk, ht⟩) <;> simp [isPrefixOperator, hk, ht] at h

/-- An expression starts with a brace or the word `function` only if it
has to be in parentheses to be a statement. -/
theorem Derives.frontKnown (h : Derives F s ts ns)
    (hs : s = .expression ∨ s = .identifier ∨ s = .literal ∨ s = .function .functionExpression) :
    FrontKnown ts ns := by
  induction h with
  | @identifier _ t hk hr =>
    refine .other ?_
    rintro (⟨hk', -⟩ | ⟨-, ht⟩)
    · rw [hk] at hk'
      cases hk'
    · rw [ht] at hr
      cases hr
  | number hk | string hk | regex hk =>
    refine .other ?_
    rintro (⟨hk', -⟩ | ⟨hk', -⟩) <;> rw [hk] at hk' <;> cases hk'
  | function _ _ hki =>
    rcases hki with rfl | ⟨rfl, -⟩
    · exact .self (.inr rfl)
    · simp at hs
  | ofIdentifier _ ih | ofLiteral _ ih | ofFunction _ ih => exact ih (by simp)
  | this hk ht | null hk ht =>
    exact .other (not_isStatementLike_of_text (by simp [ht]) (by simp [ht]))
  | truth hk ht =>
    refine .other (not_isStatementLike_of_text ?_ ?_) <;> rcases ht with ht | ht <;> simp [ht]
  | parens ht | array ht | newBare ht | new ht =>
    exact .other (not_isStatementLike_of_is ht (by decide) (by decide))
  | object ht => exact .self (.inl rfl)
  | unary ht => exact .other (not_isStatementLike_of_isPrefixOperator ht)
  | updateBefore ht =>
    simp only [isUpdateOperator, Bool.or_eq_true] at ht
    rcases ht with ht | ht <;> exact .other (not_isStatementLike_of_is ht (by decide) (by decide))
  | dot hd _ _ _ ih | index hd _ _ _ _ ih | call hd _ _ _ ih | updateBehind hd _ _ ih
  | conditional hd _ _ _ _ ih | assignment hd _ _ _ _ ih | sequence hd _ _ ih =>
    exact (ih (.inl rfl)).first (hd.ne_nil rfl) rfl
  | @binary _ _ t _ _ _ _ hd _ _ ih =>
    refine (ih (.inl rfl)).first (hd.ne_nil rfl) ?_
    rcases binaryKind_cases t.text with hki | hki <;> rw [hki] <;> rfl
  | _ => simp at hs

end Inlay.Script
