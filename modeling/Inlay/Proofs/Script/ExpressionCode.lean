/-
The code of an expression reads back as the expression.

One lemma for each kind of expression: it is faithful if its parts are. Each
follows what is written for the node and the way the rules go on those
tokens, side by side.
-/
import Inlay.Proofs.Script.Lookups
import Inlay.Proofs.Script.Placement
import Inlay.Proofs.Script.Relexing

namespace Inlay

namespace Script

open Rule Rules Node List
open Code (commas parens expressions braces)
open Level (ofNode unary call ofOperator assignment sequence primary new)
open Flowing (space_iff newline_iff mono)

variable {σ : Scope} {c c₁ c' : Cursor} {n : Node} {g : Bool} {d : Nat} {ts : List Token}
  {cs : List Char} {s op raw w : String} {right left object callee body key : Node}
  {sep : List Piece} {start R : Nat} {Ps : List (List Piece)} {arguments params : List Node}
  {part : Option (List Piece)} {parts : List (Option (List Piece))} {id : Option Node}
  {value : Json} {us : List Token} {k : Bool} {N : Token → Prop} {P Q : List Piece} {ns : List Node}

-- == tokens

theorem kindOf_of_isWord (h : IsWord cs) : kindOf cs = .word := by
  obtain ⟨d, rest, rfl, hd, -⟩ := h
  simp [kindOf, hd]

theorem isWordStart_of_extending {d : Char} (h : d ∈ Edge.extending) :
    Lexeme.isWordStart d = false := by
  have ha : Edge.extending.all (!Lexeme.isWordStart ·) = true := by decide
  simpa using all_eq_true.1 ha d h

theorem isOpener_of_isWord (h : IsWord cs) : isOpener cs = true := by
  have hf := h.isFixed
  obtain ⟨d, rest, rfl, hd, -⟩ := h
  have he : d ∉ Edge.extending := fun hm => by
    rw [isWordStart_of_extending hm] at hd
    cases hd
  have hp : d ≠ '.' := by
    rintro rfl
    revert hd
    decide
  simp [isOpener, hf, Edge.admits, he, hp]

theorem behind_of_isWord (h : IsWord cs) : Edge.behind cs = .free := by
  simp [Edge.behind, kindOf_of_isWord h]

theorem opens_word (h : IsWord w.toList) : Opens [.token w] false :=
  .opening .nil (isOpener_of_isWord h) (behind_of_isWord h)

/-- The node for a name. -/
def nameNode (w : String) (ts : List Token) : Node :=
  spanned .identifier [("name", .ofString w)] ts

theorem code_name (hR : R ≤ 18) : Code.expression R g d (nameNode w ts) = .ok [.token w] := by
  have hw : (decide (ofNode (nameNode w ts) < R) || (Code.isIn (nameNode w ts) && !g)) = false := by
    have hle : ¬ofNode (nameNode w ts) < R := Nat.not_lt.2 hR
    rw [decide_eq_false hle]
    rfl
  rw [Code.expression, hw, Code.expressionBody]
  rfl

-- == words and literals

theorem parses_identifierName (hw : IsWord w.toList) :
    Parses 0 σ (fun _ => identifierName) (·.Alike (nameNode w ts)) [.token w] N := by
  refine .peek _ .shown fun t ⟨hk, ht⟩ => .ite_pos ?_ ?_
  · simp [hk, kindOf_of_isWord hw]
  · rw [ht]
    exact .next fun _ _ => .finish (.same .nil)

theorem parses_identifier (hw : IsWord w.toList) (hr : isReserved w = false) :
    Parses 0 σ (fun _ => identifier) (·.Alike (nameNode w ts)) [.token w] N := by
  refine .peek _ .shown fun t ⟨hk, ht⟩ => .ite_pos ?_ (parses_identifierName hw)
  simp [hk, kindOf_of_isWord hw, ht, hr]

theorem spells_word (hw : IsWord w.toList) (hn : w ≠ "new")
    (h : ∀ {σ : Scope} {c : Cursor}, c.Proper → c.current.kind = .word → c.current.text = w →
      Reruns primary σ n c c.advance) : Spells R g n [.token w] where
  opens := (opens_word hw).loosen
  free _ _ := opens_word hw
  reads _ hc hr := by
    obtain ⟨hs, rfl, rfl⟩ := hr
    have hk := hs.kind_eq.trans (kindOf_of_isWord hw)
    refine ⟨rfl, hs.2.2, .of_primary hc ?_ (h hc hk hs.text_eq)⟩
    simp [Token.is, hs.text_eq, hn]

theorem faithful_identifier (hw : IsWord w.toList) (hr : isReserved w = false) :
    Faithful (nameNode w ts) := by
  intro g depth
  refine ⟨[.token w], ?_, fun _ => ?_⟩
  · rw [Code.expressionBody]
    exact bind_eq_ok rfl rfl
  · refine spells_word hw ?_ fun hc hk hs => reruns_primary_identifier hc hk hs hr
    rintro rfl
    cases hr

theorem faithful_this : Faithful (spanned .thisExpression [] ts) := by
  intro g depth
  refine ⟨[.token "this"], ?_, fun _ => ?_⟩
  · rw [Code.expressionBody]
    rfl
  · exact spells_word (by decide) (by decide) fun hc hk hs =>
      reruns_primary_this hc hk hs

theorem code_literal (hP : Code.literal (spanned .literal (literalProps value raw) ts) = .ok P) :
    Code.expressionBody g d (spanned .literal (literalProps value raw) ts) = .ok P := by
  rw [Code.expressionBody]
  exact hP

theorem faithful_null (raw : String) : Faithful (spanned .literal (literalProps .null raw) ts) := by
  intro g depth
  refine ⟨[.token "null"], code_literal rfl, fun _ => ?_⟩
  exact spells_word (by decide) (by decide) fun hc hk hs =>
    reruns_primary_null hc hk hs raw

theorem faithful_bool (value : Bool) (raw : String) :
    Faithful (spanned .literal (literalProps (.bool value) raw) ts) := by
  intro g depth
  refine ⟨[.token (if value then "true" else "false")], code_literal rfl, fun _ => ?_⟩
  refine spells_word ?_ ?_ fun hc hk hs => reruns_primary_bool hc hk hs raw
  · cases value <;> decide
  · cases value <;> decide

theorem fits_literal (hc : c.Proper)
    (hk : c.current.kind = .string ∨ c.current.kind = .number ∨ c.current.kind = .regex)
    (h : Reruns (fun _ => literalToken c.current) σ n c c') : Fits R σ n c c' := by
  refine .of_primary hc ?_ (reruns_primary (fun r => primary_literal r hk) h)
  rcases hk with hk | hk | hk <;> simp [Token.is, hk]

theorem kindOf_quoted (single : Bool) (value : List Char) :
    kindOf (quoted single value) = .string := by
  unfold quoted quoteFor
  dsimp only
  split <;> rfl

theorem reruns_string_piece {ind b : Bool} {value : String} (hc : c.Proper)
    (hs : c.Shows b (quoted ind value.toList)) (raw : String) :
    c.current.kind = .string ∧
      Reruns (fun _ => literalToken c.current) σ (bare .literal (literalProps (.str value) raw))
        c c.advance := by
  have hk : c.current.kind = .string := hs.kind_eq.trans (kindOf_quoted ..)
  refine ⟨hk, reruns_string hc hk ?_ raw⟩
  rw [hs.2.1]
  exact unquote?_quoted ind value

theorem faithful_string (value raw : String) :
    Faithful (spanned .literal (literalProps (.str value) raw) ts) := by
  intro g depth
  refine ⟨[.string value], code_literal rfl, fun _ => ?_⟩
  have ho : Opens [.string value] false := .string (fun _ he => he) .nil
  refine ⟨ho.loosen, fun _ _ => ho, fun _ hc hr => ?_⟩
  obtain ⟨hs, rfl, rfl⟩ := hr
  obtain ⟨hk, hru⟩ := reruns_string_piece hc hs raw
  exact ⟨rfl, hs.2.2, fits_literal hc (.inl hk) hru⟩

/-- The value has a text that is read as the value. -/
def Renders (v : NumberValue) : Prop :=
  ∃ number d v', v.toJson = .num number ∧ number.toDouble? = some d ∧
    IsFinite (numberText d).toList ∧ numberValue? (numberText d) = some v' ∧
    v'.toJson = v.toJson

theorem IsNumeral.head (h : IsNumeral cs) : ∃ d rest, cs = d :: rest ∧ d.isDigit = true := by
  obtain ⟨whole, fraction, exponent, rfl, ⟨hne, hd⟩, -, -⟩ := h
  cases whole with
  | nil => exact absurd rfl hne
  | cons d rest => exact ⟨d, _, rfl, hd d (mem_cons_self ..)⟩

theorem isWordStart_eq_false_of_isDigit {d : Char} (h : d.isDigit = true) :
    Lexeme.isWordStart d = false := by
  rw [Bool.eq_false_iff]
  intro hd
  rw [isDigit_eq_false_of_isWordStart hd] at h
  cases h

theorem kindOf_of_isNumeral (h : IsNumeral cs) : kindOf cs = .number := by
  obtain ⟨d, rest, rfl, hd⟩ := h.head
  simp [kindOf, isWordStart_eq_false_of_isDigit hd, hd]

theorem admits_of_isNumeral (h : IsNumeral cs) {e : Edge} (he : e ≠ .point) :
    e.admits cs = true := by
  obtain ⟨d, rest, rfl, hd⟩ := h.head
  have hex : d ∉ Edge.extending := by
    intro hm
    have ha : Edge.extending.all (!·.isDigit) = true := by decide
    have hn := all_eq_true.1 ha d hm
    rw [hd] at hn
    cases hn
  have hp : d ≠ '.' := by
    rintro rfl
    cases hd
  cases e with
  | free => rfl
  | number => simp [Edge.admits, hp]
  | operator => simp [Edge.admits, hex]
  | point => exact absurd rfl he

theorem opens_numeral (h : IsFinite w.toList) : Opens [.token w] true := by
  refine .token (.inr (.inl h)) (fun e he => admits_of_isNumeral h.1 he) ?_
  rintro e rfl
  exact ⟨_, .inr ⟨rfl, by simp [Edge.behind, kindOf_of_isNumeral h.1]⟩, rfl⟩

theorem faithful_number {v : NumberValue} (hv : Renders v) (raw : String) :
    Faithful (spanned .literal (literalProps v.toJson raw) ts) := by
  obtain ⟨number, d, v', hj, hd, hf, hva, hv'⟩ := hv
  rw [← hv']
  rw [hj] at hv'
  intro g depth
  refine ⟨[.token (numberText d)], code_literal ?_, fun _ => ?_⟩
  · rw [hv']
    exact Node.code_number rfl rfl hd
  refine ⟨opens_numeral hf, fun _ hn => ?_, fun _ hc hr => ?_⟩
  · rw [hv'] at hn
    cases hn
  · obtain ⟨hs, rfl, rfl⟩ := hr
    have hk := hs.kind_eq.trans (kindOf_of_isNumeral hf.1)
    rw [← hs.text_eq] at hva
    exact ⟨rfl, hs.2.2, fits_literal hc (.inr (.inl hk)) (reruns_number hc hk hva raw)⟩

theorem code_regex (hs : IsRegex s.toList) :
    Code.expressionBody g d (spanned .literal (regexProps s) ts) = .ok [.token s] := by
  obtain ⟨pattern, flags, ht, hf⟩ := hs.split
  have hw : "/" ++ String.ofList pattern ++ "/" ++ String.ofList flags = s := by
    rw [← String.toList_inj, ht]
    simp
  rw [Code.expressionBody, regexProps_eq ht hf]
  exact congrArg (fun text => Except.ok [Piece.token text]) hw

theorem opens_regex (h : IsRegex w.toList) : Opens [.token w] false := by
  refine .token (.inr (.inr h)) (fun e he => h.admits he) ?_
  rintro e rfl
  exact ⟨_, .inl (by simp [Edge.behind, h.kindOf_eq]), rfl⟩

theorem faithful_regex (hs : IsRegex s.toList) : Faithful (spanned .literal (regexProps s) ts) := by
  intro g depth
  refine ⟨[.token s], code_regex hs, fun _ => ?_⟩
  refine ⟨(opens_regex hs).loosen, fun _ _ => opens_regex hs, fun _ hc hr => ?_⟩
  obtain ⟨hsh, rfl, rfl⟩ := hr
  have hk := hsh.kind_eq.trans hs.kindOf_eq
  exact ⟨rfl, hsh.2.2, fits_literal hc (.inr (.inr hk)) (reruns_regex hc hk hsh.text_eq)⟩

-- == operators

/-- The operators before an operand. -/
def prefixOperators : List String := ["!", "~", "+", "-", "typeof", "void", "delete"]

theorem starts_prefixOperator (hop : op ∈ prefixOperators) :
    Starts (.token op :: P) N fun t => isPrefixOperator t = true ∧ t.text = op := by
  refine .imp .shown fun {t} h => ⟨?_, h.2⟩
  rw [Rules.isPrefixOperator, h.1, h.2]
  clear * - hop
  revert op
  decide

theorem starts_updateOperator (hop : op ∈ ["++", "--"]) : Starts (.token op :: P) N fun t =>
      isPrefixOperator t = false ∧ isUpdateOperator t = true ∧ t.text = op := by
  refine .imp .shown fun {t} ⟨hk, ht⟩ => ?_
  have hki : ∀ op ∈ ["++", "--"], kindOf op.toList = .punct := by decide
  rw [hki op hop] at hk
  simp only [mem_cons, not_mem_nil, or_false] at hop
  rcases hop with rfl | rfl <;> simp [isPrefixOperator, isUpdateOperator, Token.is, hk, ht]

/-- The node for a unary operator. -/
def unaryOf (op : String) (n : Node) (ts : List Token) : Node :=
  spanned .unaryExpression
    [("operator", .ofString op), ("argument", .node n), ("prefix", .ofBool true)] ts

theorem faithful_unary (hop : op ∈ prefixOperators) (h : Faithful n) :
    Faithful (unaryOf op n ts) := by
  refine faithful_of (L := 13) rfl fun g depth => ?_
  obtain ⟨P, hc, hP⟩ := h.expression unary g depth
  refine ⟨.token op :: P, ?_, fun _ => .of_parses (by decide) unaryRule (bond · · ≤ 13) id ?_
    unbroken_token hP.closed.cons fun σ hg => ?_⟩
  · rw [Code.expressionBody]
    exact bind_eq_ok rfl (bind_eq_ok rfl (bind_eq_ok hc rfl))
  · have ha : ∀ op ∈ prefixOperators, isOpener op.toList = true := by decide
    exact .opener hP.opens (ha op hop)
  · refine .peek _ (starts_prefixOperator hop) fun t ⟨ht, hte⟩ => .ite_pos ht ?_
    rw [hte]
    exact .next fun _ _ => .last (.below (hP.parses_unary hg)) fun _ hn =>
      .finish (.same (.node hn (.same .nil)))

/-- The node for an increment or decrement. -/
def updateOf (op : String) (n : Node) (before : Bool) (ts : List Token) : Node :=
  spanned .updateExpression
    [("operator", .ofString op), ("argument", .node n), ("prefix", .ofBool before)] ts

theorem faithful_update_before (hop : op ∈ ["++", "--"]) (h : Faithful n)
    (hta : isTarget n = true) : Faithful (updateOf op n true ts) := by
  refine faithful_of (L := 13) rfl fun g depth => ?_
  obtain ⟨P, hc, hP⟩ := h.expression unary g depth
  refine ⟨.token op :: P, ?_, fun _ => .of_parses (by decide) unaryRule (bond · · ≤ 13) id ?_
    unbroken_token hP.closed.cons fun σ hg => ?_⟩
  · rw [Code.expressionBody]
    exact bind_eq_ok rfl (bind_eq_ok rfl (bind_eq_ok hc rfl))
  · have ha : ∀ op ∈ ["++", "--"], isOpener op.toList = true := by decide
    exact .opener hP.opens (ha op hop)
  · refine .peek _ (starts_updateOperator hop) fun t ⟨hb, ht, hte⟩ =>
      .ite_neg (by simp [hb]) (.ite_pos ht ?_)
    rw [hte]
    exact .next fun _ _ => .last (.below (hP.parses_unary hg)) fun _ hn =>
      .ite_pos ((isTarget_eq hn).trans hta) (.finish (.same (.node hn (.same .nil))))

theorem faithful_update_behind (hop : op ∈ ["++", "--"]) (h : Faithful n)
    (ht : isTarget n = true) : Faithful (updateOf op n false ts) := by
  refine faithful_of (L := 14) rfl fun g depth => ?_
  obtain ⟨P, hco, hP⟩ := h.expression call g depth
  refine ⟨P ++ [Piece.token op], ?_, fun _ => ⟨?_, fun hle => absurd hle (by decide), ?_⟩⟩
  · rw [Code.expressionBody]
    exact bind_eq_ok rfl (bind_eq_ok rfl (bind_eq_ok hco rfl))
  · have ha : ∀ op ∈ ["++", "--"],
        isFollower op.toList = true ∧ Edge.behind op.toList = .free := by decide
    exact hP.opens.append (.closing .nil (ha op hop).1 (ha op hop).2)
  · intro ind σ b b' c c' hg hc hrea
    obtain ⟨b₁, c₁, hre, hr⟩ := Reads.append_iff.1 hrea
    have hc₁ := (hre.reaches hc).proper hc
    obtain ⟨-, hop', hte⟩ := starts_updateOperator (N := fun _ => True) hop hc₁ hr trivial
    obtain ⟨hs, rfl, rfl⟩ := hr
    obtain ⟨hcl, hu, hf⟩ := hP.reads hg hc hre
    have hca := ((Fits.calls_iff (Nat.le_refl _)).1 hf).1
    obtain ⟨hbe, hup⟩ := hca.plain hc
    refine ⟨rfl, hu, (Fits.unary_iff (by decide)).2 fun hb => ?_⟩
    have hst : c₁.current.is "(" = false ∧ c₁.current.is "." = false ∧
        c₁.current.is "[" = false := by
      have ha : ∀ op ∈ ["++", "--"], op ≠ "(" ∧ op ≠ "." ∧ op ≠ "[" := by decide
      obtain ⟨hlp, hd, hlb⟩ := ha op hop
      exact ⟨hs.is_other hlp, hs.is_other hd, hs.is_other hlb⟩
    have hru := reruns_update_behind hc hbe hup (reruns_callMember hca hst) hop'
      hs.isEnd (hs.2.2 hcl) ht
    rw [hte] at hru
    exact hru

theorem Fits.binary {s : Nat} (h : Fits (s + 3) σ n c c') (hs : 1 ≤ s ∧ s ≤ 10)
    (hb : bond σ.allowIn c'.current ≤ s + 3) : Reruns (fun r => r.binaryRule (s + 1)) σ n c c' := by
  have hj : Joins (s + 1) σ n c c' := by
    by_cases hl : s = 10
    · subst hl
      exact joins_of_unary ((Fits.unary_iff (by decide)).1 h hb)
    · exact (Fits.joins_iff (by omega)).1 h (by omega) _ (by omega)
  refine reruns_binary hj fun s' hs' => ?_
  rw [bond_operator hs'] at hb
  omega

/-- An operator that shows is one, unless it is an `in` that may not
be. -/
theorem Cursor.Shows.strength {b : Bool} (h : c.Shows b op.toList) (hop : op ∈ binaryOperators)
    (hin : op = "in" → σ.allowIn = true) :
    ∃ s, operatorStrength? c.current σ.allowIn = some s ∧ ofOperator op = s + 2 ∧
      1 ≤ s ∧ s ≤ 10 := by
  have hso : (strength? op σ.allowIn).isSome = true := by
    have ha : ∀ op ∈ binaryOperators, op ≠ "in" →
        ∀ allowIn, (strength? op allowIn).isSome = true := by decide
    by_cases h' : op = "in"
    · rw [hin h', h']
      rfl
    · exact ha op hop h' _
  have hki : ∀ op ∈ binaryOperators,
      kindOf op.toList = .punct ∨ kindOf op.toList = .word := by decide
  have hst : operatorStrength? c.current σ.allowIn = strength? op σ.allowIn := by
    rw [operatorStrength?, h.kind_eq, h.text_eq]
    rcases hki op hop with hk | hk <;> simp [hk]
  obtain ⟨s, hs⟩ := Option.isSome_iff_exists.1 hso
  rw [← hst] at hs
  refine ⟨s, hs, ?_⟩
  have hl := level_of_strength hs
  rwa [h.text_eq] at hl

/-- The node for an operator between two operands. -/
def binaryOf (op : String) (left right : Node) (ts : List Token) : Node :=
  spanned (binaryKind op)
    [("operator", .ofString op), ("left", .node left), ("right", .node right)] ts

theorem faithful_binary (hop : op ∈ binaryOperators) (hlef : Faithful left)
    (hr : Faithful right) : Faithful (binaryOf op left right ts) := by
  have hl : ofNode (binaryOf op left right ts) = ofOperator op := by
    unfold binaryOf
    rcases binaryKind_cases op with hk | hk <;> rw [hk] <;> rfl
  refine faithful_of hl fun g depth => ?_
  obtain ⟨P, hco, hP⟩ := hlef.expression (ofOperator op) g depth
  obtain ⟨Q, hcod, hQ⟩ := hr.expression (ofOperator op + 1) g depth
  have hra : ∀ op ∈ binaryOperators, 3 ≤ ofOperator op ∧ ofOperator op ≤ 12 := by
    decide
  refine ⟨P ++ [Piece.space, .token op, .space] ++ Q, ?_, fun hin => ⟨?_, fun hle => ?_, ?_⟩⟩
  · rw [Code.expressionBody]
    unfold binaryOf
    rcases binaryKind_cases op with hk | hk <;> rw [hk] <;>
      exact bind_eq_ok rfl (bind_eq_ok rfl (bind_eq_ok hco (bind_eq_ok rfl (bind_eq_ok hcod rfl))))
  · have hal : ∀ op ∈ binaryOperators, isFollower op.toList = true := by decide
    rw [append_assoc]
    exact hP.opens.append (space_iff.2 (.joiner (space_iff.2 hQ.opens) (hal op hop)))
  · have := (hra op hop).2
    omega
  · intro ind σ b b' c c' hg hc hre
    simp only [append_assoc, cons_append, nil_append, Reads.append_iff,
      Reads.space_iff, Reads.token_iff] at hre
    obtain ⟨b₁, c₁, hread, hsh, hreads⟩ := hre
    have ha : op = "in" → σ.allowIn = true := by
      rintro rfl
      rcases hin with hg' | hin'
      · exact hg hg'
      · cases hin'
    obtain ⟨s, hs, hl, hle⟩ := hsh.strength hop ha
    rw [hl] at hP hQ ⊢
    obtain ⟨-, hu, hf⟩ := hP.reads hg hc hread
    have he := hsh.isEnd
    have hrea : c.Reaches c₁ :=
      ((Fits.joins_iff (by omega)).1 hf (Nat.le_of_eq (bond_operator hs)) _ (Nat.le_refl _)).reaches
    have hc₁ := hrea.proper hc
    obtain ⟨hcl, -, hfi⟩ := hQ.reads hg ((hc₁.reaches he).proper hc₁) hreads
    refine ⟨hcl, hu, (Fits.joins_iff (by omega)).2 fun hb least hlea => ?_⟩
    have hr := hfi.binary hle hb
    obtain ⟨e, c₀, hru, ht⟩ :=
      (Fits.joins_iff (by omega)).1 hf (Nat.le_of_eq (bond_operator hs)) least hlea
    refine ⟨e, c₀, hru, fun start => (ht start).step fun e' he' => ?_⟩
    have hst := binaryTail_step start he' hc₁ hs (show least ≤ s by omega) he hr
    rw [hsh.text_eq] at hst
    exact hst

/-- The node for a conditional expression. -/
def conditionalOf (test yes no : Node) (ts : List Token) : Node :=
  spanned .conditionalExpression
    [("test", .node test), ("consequent", .node yes), ("alternate", .node no)] ts

theorem faithful_conditional {test yes no : Node} (hte : Faithful test) (hye : Faithful yes)
    (hno : Faithful no) : Faithful (conditionalOf test yes no ts) := by
  refine faithful_of (L := 2) rfl fun g depth => ?_
  obtain ⟨P, hc, hP⟩ := hte.expression Level.logicalOr g depth
  obtain ⟨Q, hco, hQ⟩ := hye.expression assignment g depth
  obtain ⟨S, hcod, hS⟩ := hno.expression assignment g depth
  refine ⟨P ++ [Piece.space, .token "?", .space] ++ Q ++ [Piece.space, .token ":", .space] ++ S, ?_,
    fun _ => ?_⟩
  · rw [Code.expressionBody]
    exact bind_eq_ok rfl (bind_eq_ok hc (bind_eq_ok rfl (bind_eq_ok hco
      (bind_eq_ok rfl (bind_eq_ok hcod rfl)))))
  simp only [append_assoc, cons_append, nil_append]
  refine .of_parses (by decide) conditional (bond · · ≤ 1) id ?_ hP.unbroken.append ?_ fun σ hg => ?_
  · refine hP.opens.append (space_iff.2 (.joiner (space_iff.2 ?_) rfl))
    exact hQ.opens.append (space_iff.2 (.joiner (space_iff.2 hS.opens) rfl))
  · exact (Closed.behind (Closed.behind hS.closed.cons.cons.cons).cons.cons.cons)
  refine .start fun _ => .bind (hP.parses_binary (by decide) hg)
    (.space (.token (by decide) fun h => Nat.le_of_eq (bond_question h))) fun _ ht => ?_
  refine .space (.took (by decide) (.space ?_))
  refine .bind (.withIn (.below (hQ.parses_assignment fun _ => rfl)))
    (.space (.token (by decide) fun h => by rw [bond_stop h (by decide)]; decide)) fun _ hy => ?_
  exact .space (.expect (by decide) fun _ => .space (.last
    (.below (hS.parses_assignment hg)) fun _ hz =>
    .finish (.node ht (.node hy (.node hz .nil)))))

/-- The node for an assignment. -/
def assignmentOf (op : String) (left right : Node) (ts : List Token) : Node :=
  spanned .assignmentExpression
    [("operator", .ofString op), ("left", .node left), ("right", .node right)] ts

theorem starts_assignmentOperator (hop : op ∈ assignmentOperators) :
    Starts (.token op :: P) N fun t => isAssignmentOperator t = true ∧ t.text = op := by
  have ha : ∀ op ∈ assignmentOperators, kindOf op.toList = .punct := by decide
  refine .imp .shown fun {t} ⟨hk, ht⟩ => ⟨?_, ht⟩
  rw [isAssignmentOperator, hk, ht, ha op hop]
  simpa using hop

theorem faithful_assignment (hop : op ∈ assignmentOperators) (hta : isTarget left = true)
    (hle : Faithful left) (hri : Faithful right) : Faithful (assignmentOf op left right ts) := by
  refine faithful_of (L := 1) rfl fun g depth => ?_
  obtain ⟨P, hc, hP⟩ := hle.expression call g depth
  obtain ⟨Q, hco, hQ⟩ := hri.expression assignment g depth
  refine ⟨P ++ [Piece.space, .token op, .space] ++ Q, ?_, fun _ => ?_⟩
  · rw [Code.expressionBody]
    exact bind_eq_ok rfl (bind_eq_ok hc (bind_eq_ok rfl (bind_eq_ok hco rfl)))
  rw [append_assoc]
  refine .of_parses (by decide) assignmentRule (bond · · ≤ 1) id ?_ hP.unbroken.append
    hQ.closed.behind.behind fun σ hg => ?_
  · have ha : ∀ op ∈ assignmentOperators, isFollower op.toList = true := by decide
    exact hP.opens.append (space_iff.2 (.joiner (space_iff.2 hQ.opens) (ha op hop)))
  -- the left side is no conditional expression, for the operator is no `?`
  have hcon : Parses 0 σ conditional (·.Alike left) P (bond σ.allowIn · = 2) :=
    .start fun _ => .last ((hP.parses_binary (by decide) hg).before fun h => by omega)
      fun _ hl => .pass (.nil fun h => not_question_of_bond (Nat.le_of_eq h)) (.pure hl)
  refine .start fun _ => hcon.bind
    (.space ((starts_assignmentOperator hop).imp fun h => bond_assignment h.1)) fun _ hl =>
      .space (.peek _ (starts_assignmentOperator hop) fun t ⟨ht, hte⟩ =>
        .ite_pos ht (.ite_pos ((isTarget_eq hl).trans hta) ?_))
  rw [hte]
  exact .next fun _ _ => .space (.last (.below (hQ.parses_assignment hg)) fun _ hr =>
    .finish (.same (.node hl (.node hr .nil))))

-- == lists

/-- The codes of a list, if each item has one. -/
theorem code_list {α : Type} {codes : List Node → Except GenerateError (List α)}
    {S : Node → α → Prop} (hni : codes [] = .ok [])
    (hc : ∀ n ∈ ns, ∃ P, S n P ∧ ∀ ns Ps, codes ns = .ok Ps → codes (n :: ns) = .ok (P :: Ps)) :
    ∃ Ps, codes ns = .ok Ps ∧ List.Forall₂ S ns Ps := by
  induction ns with
  | nil => exact ⟨[], hni, .nil⟩
  | cons n ns ih =>
    obtain ⟨P, hP, hco⟩ := hc n (mem_cons_self ..)
    obtain ⟨Ps, hcod, hPs⟩ := ih fun n hn => hc n (mem_cons_of_mem _ hn)
    exact ⟨P :: Ps, hco ns Ps hcod, .cons hP hPs⟩

theorem opens_all {S : Node → List Piece → Prop} (hS : ∀ {n P}, S n P → Opens P true)
    (h : List.Forall₂ S ns Ps) : ∀ P ∈ Ps, Opens P true := by
  induction h with
  | nil => simp
  | cons hP _ ih =>
    intro Q hQ
    rcases mem_cons.1 hQ with rfl | hQ
    · exact hS hP
    · exact ih Q hQ

theorem code_expressions (hns : ∀ n ∈ ns, Faithful n) :
    ∃ Ps, expressions g d ns = .ok Ps ∧ List.Forall₂ (Spells 1 g) ns Ps := by
  refine code_list (by rw [expressions]) fun n hn => ?_
  obtain ⟨P, hc, hP⟩ := (hns n hn).expression assignment g d
  refine ⟨P, hP, fun ns Ps hco => ?_⟩
  rw [expressions]
  exact bind_eq_ok hc (bind_eq_ok hco rfl)

/-- A comma, and what is a blank at most. -/
inductive IsSeparator : List Piece → Prop
  | bare : IsSeparator [.token ","]
  | spaced : IsSeparator [.token ",", .space]

theorem opens_separated (hs : IsSeparator sep)
    (h : ∀ Q ∈ P :: Ps, Opens Q true) : Opens (List.intercalate sep (P :: Ps)) true := by
  induction Ps generalizing P with
  | nil =>
    rw [intercalate_singleton]
    exact h P (mem_cons_self ..)
  | cons Q Ps ih =>
    have hr := ih fun S hS => h S (mem_cons_of_mem _ hS)
    rw [intercalate_cons_cons, append_assoc]
    refine (h P (mem_cons_self ..)).append ?_
    cases hs with
    | bare => exact .joiner hr rfl
    | spaced => exact .joiner (space_iff.2 hr) rfl

theorem rests_separated (hs : IsSeparator sep) (h : ∀ Q ∈ Ps, Opens Q true) :
    Rests (List.intercalate sep Ps) true := by
  cases Ps with
  | nil => exact .nil
  | cons P Ps => exact (opens_separated hs h).follows.rests

/-- One item of a list and the ones behind it, up to a token that closes
the list. -/
def itemRule (close : String) (item : Rule Node) (more : Rule (List Node)) :
    Rule (List Node) := do
  let x ← item
  if !(← atToken close) then
    let _ ← expect ","
  return x :: (← more)

section Lists

variable {close : String} {item : Rules Rule → Rule Node} {more : Rules Rule → Rule (List Node)}
  {ns : List Node} {P Q : List Piece} {N : Token → Prop}

/-- Behind an item of a list stand a comma or the token that closes it. -/
def Divides (close : String) (t : Token) : Prop := t.is "," = true ∨ t.is close = true

theorem Divides.bond {close : String} {t : Token} {allowIn : Bool} (h : Divides close t)
    (hc : close ∈ [";", ")", "]", "\x7d", ":"]) : bond allowIn t ≤ 1 := by
  rcases h with h | h
  · exact Nat.le_of_eq (bond_comma h)
  · rw [bond_stop h hc]
    exact Nat.zero_le 1

theorem parses_item_last (hi : Parses 0 σ item (·.Alike n) P (Divides close))
    (hs : Shortens P (Divides close)) (hQ : Starts Q N (·.is close = true))
    (hm : Parses 1 σ more (AlikeAll · ns) Q N) :
    Parses 0 σ (fun r => itemRule close (item r) (more r)) (AlikeAll · (n :: ns)) (P ++ Q) N :=
  .bind_short hi (hQ.imp .inr) hs fun _ hn =>
    .atToken hQ (.ite_neg (by decide) (.last hm fun _ hns => .pure (.cons hn hns)))

theorem parses_item (hi : Parses 0 σ item (·.Alike n) P (Divides close))
    (hs : Shortens P (Divides close)) (hm : Parses 1 σ more (AlikeAll · ns) Q N)
    (hc : "," ≠ close) :
    Parses 0 σ (fun r => itemRule close (item r) (more r)) (AlikeAll · (n :: ns))
      (P ++ .token "," :: Q) N :=
  .bind_short hi (.token (by decide) .inl) hs fun _ hn =>
    .atToken (.token (by decide) fun h => Token.is_eq_false_of_is h hc) (.ite_pos rfl
      (.expect (by decide) fun _ => .last hm fun _ hns => .pure (.cons hn hns)))

/-- A list up to the token that closes it, which may stand on a line of
its own. -/
theorem parses_separated {list : Rules Rule → Rule (List Node)} {S : Node → List Piece → Prop}
    {sep last : List Piece} {Ps : List (List Piece)} (hse : IsSeparator sep)
    (hl : last = [.token close] ∨ ∃ d, last = [.newline d, .token close])
    (hli : ∀ r, list r = do
      if ← eat close then return []
      itemRule close (item r) (more r))
    (hm : ∀ r : Rules Rule, more r.above = list r)
    (hi : ∀ {n P}, S n P → Parses 0 σ item (·.Alike n) P (Divides close) ∧
      Starts P (Divides close) (·.is close = false) ∧ Shortens P (Divides close))
    (h : List.Forall₂ S ns Ps) (hc : "," ≠ close)
    (hw : kindOf close.toList = .punct ∨ kindOf close.toList = .word) :
    Parses 0 σ list (AlikeAll · ns) (List.intercalate sep Ps ++ last) N := by
  have hsta : Starts last N (·.is close = true) := by
    rcases hl with rfl | ⟨d, rfl⟩
    exacts [.token hw id, .newline (.token hw id)]
  have hn : Parses 0 σ list (AlikeAll · []) last N := by
    rw [funext hli]
    rcases hl with rfl | ⟨d, rfl⟩
    exacts [.took hw (.pure .nil), .newline (.took hw (.pure .nil))]
  induction h with
  | nil => exact hn
  | @cons n P ns Ps hP hPs ih =>
    obtain ⟨hp, ho, hs⟩ := hi hP
    have hst : ∀ {ns Q}, Starts Q N (Divides close) → Parses 0 σ
        (fun r => itemRule close (item r) (more r)) (AlikeAll · ns) (P ++ Q) N →
        Parses 0 σ list (AlikeAll · ns) (P ++ Q) N := by
      intro ns Q hQ hru
      rw [funext hli]
      exact .pass (ho.append hQ) hru
    cases hPs with
    | nil =>
      rw [intercalate_singleton]
      exact hst (hsta.imp .inr) (parses_item_last hp hs hsta (hn.below_of hm))
    | @cons m Q ms Qs hQ hQs =>
      rw [intercalate_cons_cons, append_assoc, append_assoc]
      have hr := ih.below_of hm
      cases hse with
      | bare => exact hst (.token (by decide) .inl) (parses_item hp hs hr hc)
      | spaced => exact hst (.token (by decide) .inl) (parses_item hp hs hr.space hc)

end Lists

theorem Spells.parses_item (hP : Spells 1 g n P) (close : String)
    (hcl : close ∈ [")", "]"]) (hg : g = true → σ.allowIn = true) :
    Parses 0 σ assignmentRule (·.Alike n) P (Divides close) ∧
      Starts P (Divides close) (fun t => t.is close = false ∧ t.is "," = false) ∧
      Shortens P (Divides close) := by
  have he : close ∈ [";", ")", "]", "\x7d", ":"] ∧ close ∉ openings ∧
      close.toList.head?.any Lexeme.isWordStart = false := by
    simp only [mem_cons, not_mem_nil, or_false] at hcl
    rcases hcl with rfl | rfl <;> decide
  have hp : Parses 0 σ assignmentRule (·.Alike n) P (Divides close) :=
    (hP.parses_assignment hg).before fun h => h.bond he.1
  refine ⟨hp, ?_, ?_⟩
  · intro ind b b' c c' hc hr hn
    obtain ⟨hs, -⟩ := (hp.reruns hc hr hn).starts_assignment hc
    exact ⟨is_eq_false_of_startsExpression hs hc.current (.inr he.2.2) he.2.1,
      is_eq_false_of_startsExpression hs hc.current (.inr (by decide)) (by decide)⟩
  · intro ind b b' c c' hc hr hn
    exact ((hp.reruns hc hr hn).starts_assignment hc).2

theorem parses_arguments (h : List.Forall₂ (Spells 1 g) ns Ps) :
    Parses 0 σ argumentList (AlikeAll · ns) (parens (commas Ps)) N := by
  refine .expect (by decide) fun _ => .withIn (.below_of (q := argumentsRule) ?_ fun _ => rfl)
  refine parses_separated .spaced (.inl rfl) (fun _ => rfl) (fun _ => rfl) (fun hP => ?_) h
    (by decide) (.inl rfl)
  obtain ⟨hp, hst, hs⟩ := hP.parses_item (σ := { σ with allowIn := true }) ")"
    (by decide) (fun _ => rfl)
  exact ⟨hp, hst.imp And.left, hs⟩

/-- The expressions behind the first one. -/
def behindFirst (Ps : List (List Piece)) : List Piece :=
  Ps.flatMap fun P => .token "," :: .space :: P

theorem commas_cons (P : List Piece) (Ps : List (List Piece)) :
    commas (P :: Ps) = P ++ behindFirst Ps := by
  induction Ps generalizing P with
  | nil => simp [commas, behindFirst]
  | cons Q Ps ih =>
    rw [commas, intercalate_cons_cons, ← commas, ih, append_assoc]
    rfl

theorem starts_behindFirst {allowIn : Bool} :
    Starts (behindFirst Ps) (bond allowIn · = 0) (bond allowIn · ≤ 1) := by
  cases Ps with
  | nil => exact .nil fun h => by omega
  | cons P Ps => exact .token (by decide) fun h => Nat.le_of_eq (bond_comma h)

theorem parses_sequence (h : List.Forall₂ (Spells 1 g) ns Ps) (hg : g = true → σ.allowIn = true) :
    Parses 0 σ sequenceRule (AlikeAll · ns) (behindFirst Ps) (bond σ.allowIn · = 0) := by
  induction h with
  | nil => exact .pass (.nil not_comma_of_bond) (.pure .nil)
  | cons hP _ ih =>
    refine .took (by decide) (.space ?_)
    exact .bind (.below (hP.parses_assignment hg)) starts_behindFirst fun _ hn =>
      .last (.below ih) fun _ hns => .pure (.cons hn hns)

theorem closed_behindFirst (hP : Closed P)
    (h : List.Forall₂ (Spells 1 g) ns Ps) : Closed (P ++ behindFirst Ps) := by
  induction h generalizing P with
  | nil => simpa [behindFirst] using hP
  | cons hQ _ ih => exact (ih hQ.closed).cons.cons.behind

theorem faithful_sequence {n' : Node} (h : ∀ x ∈ n :: n' :: ns, Faithful x) :
    Faithful (spanned .sequenceExpression [("expressions", .nodes (n :: n' :: ns))] ts) := by
  refine faithful_of (L := 0) rfl fun g depth => ?_
  obtain ⟨Ps, hc, hPs⟩ := code_expressions (g := g) (d := depth) h
  refine ⟨commas Ps, ?_, fun _ => ?_⟩
  · rw [Code.expressionBody]
    exact bind_eq_ok rfl (bind_eq_ok hc rfl)
  have ha := opens_all Spells.opens hPs
  cases hPs with
  | cons hP hPs =>
    have ho := opens_separated .spaced ha
    rw [← commas, commas_cons] at ho
    rw [commas_cons]
    refine .of_parses (by decide) expressionRule (bond · · = 0) id ho hP.unbroken.append
      (closed_behindFirst hP.closed hPs) fun σ hg => ?_
    refine .start fun _ => .bind (hP.parses_assignment hg) starts_behindFirst fun _ hn =>
      .last (parses_sequence hPs hg) fun _ hns => ?_
    obtain ⟨m', ms', rfl, hm, hms'⟩ := AlikeAll.cons_iff.1 hns
    exact .finish (.nodes (.cons hn (.cons hm hms')) .nil)

-- == members and calls

theorem Spells.allowing (h : Spells R g n P) : Spells R true n P where
  opens := h.opens
  free := h.free
  reads ha := h.reads fun _ => ha rfl

theorem spells_member {computed : Bool} {property : Node} {at₀ : Nat}
    (hP : Spells 15 g object P) (ho : Opens (P ++ .token w :: Q) false) (hcl : Closed Q)
    (hw : w = "." ∨ w = "[") (hm : ∀ (σ : Scope) (start : Nat) (e : Node), e.Alike object →
      Parses 0 σ (fun r => r.member start e) (·.Alike (memberNode computed object property at₀ ts))
        (.token w :: Q) fun _ => True) :
    Spells 17 g (memberNode computed object property at₀ ts) (P ++ .token w :: Q) where
  opens := ho.loosen
  free _ _ := ho
  reads {ind σ b b' c c'} hg hc hrea := by
    obtain ⟨b₁, c₁, hre, hr⟩ := Reads.append_iff.1 hrea
    have hc₁ := (hre.reaches hc).proper hc
    have hat : c₁.current.is "." = true ∨ c₁.current.is "[" = true := by
      rcases hw with rfl | rfl
      exacts [.inl (hr.1.is_self (by decide)), .inr (hr.1.is_self (by decide))]
    have hs := shortens_token (N := fun _ => True) hc₁ hr trivial
    have hru := fun start e he => (hm σ start e he).reruns hc₁ hr trivial
    obtain ⟨-, hu, hf⟩ := hP.reads hg hc hre
    refine ⟨hcl.cons hc₁ hr, hu, (Fits.calls_iff (by decide)).2 ⟨?_, fun hca => ?_⟩⟩
    · obtain ⟨e, c₀, hh, ht⟩ := ((Fits.calls_iff (Nat.le_refl _)).1 hf).1
      exact ⟨e, c₀, hh, fun start => (ht start).step fun e' he' =>
        callTail_member hat (hru start e' he') hs⟩
    · rw [hasCall_member rfl] at hca
      obtain ⟨e, c₀, hh, ht⟩ := ((Fits.calls_iff (Nat.le_refl _)).1 hf).2 hca
      exact ⟨e, c₀, hh, fun start => (ht start).step fun e' he' =>
        memberTail_member hat (hru start e' he') hs⟩

theorem rests_dot (hw : IsWord w.toList) : Rests [.token ".", .token w] false := by
  refine .token (.inl (by decide)) ?_ ?_
  · rintro e (rfl | ⟨h, -⟩)
    · rfl
    · cases h
  · refine .token (.inl hw.isFixed) ?_ ?_
    · rintro e rfl
      show (kindOf w.toList == .word) = true
      simp [kindOf_of_isWord hw]
    · rintro e rfl
      rw [behind_of_isWord hw]
      exact ⟨.free, .inl rfl, rfl⟩

theorem code_object (h : Faithful n) : ∃ P, (∀ f : List Piece → Code, (if isNumber n then do
          let code ← Code.expression sequence g d n
          let base ← pure (parens code)
          f base
        else do
          let base ← Code.expression call g d n
          f base) = f P) ∧
      Spells 15 g n P ∧ Opens P false := by
  cases hn : isNumber n with
  | true =>
    obtain ⟨P, hc, hP⟩ := h.expression sequence g d
    refine ⟨parens P, fun f => ?_, hP.allowing.parens, opens_parens hP.opens.follows.rests⟩
    rw [hc]
    rfl
  | false =>
    obtain ⟨P, hc, hP⟩ := h.expression call g d
    refine ⟨P, fun f => ?_, hP, hP.free (Nat.le_refl _) hn⟩
    rw [hc]
    rfl

theorem faithful_dot (ho : Faithful object) (hw : IsWord w.toList) :
    Faithful (memberNode false object (nameNode w us) start ts) := by
  refine faithful_of (L := 17) rfl fun g depth => ?_
  obtain ⟨P, hc, hP, hf⟩ := code_object (g := g) (d := depth) ho
  refine ⟨P ++ [Piece.token ".", .token w], ?_, fun _ =>
    spells_member hP (hf.append (rests_dot hw)) closed_token (.inl rfl) fun σ start e he => ?_⟩
  · rw [Code.expressionBody]
    refine bind_eq_ok rfl (bind_eq_ok rfl ((hc _).trans ?_))
    exact bind_eq_ok (code_name (R := primary) (Nat.le_refl _)) rfl
  · exact .took (by decide) (.last (parses_identifierName hw).spare fun _ hn =>
      .finish (.same (.node he (.node hn .nil))))

theorem faithful_index {property : Node} (ho : Faithful object) (hpr : Faithful property) :
    Faithful (memberNode true object property start ts) := by
  refine faithful_of (L := 17) rfl fun g depth => ?_
  obtain ⟨P, hc, hP⟩ := ho.expression call g depth
  obtain ⟨Q, hco, hQ⟩ := hpr.expression sequence g depth
  refine ⟨P ++ .token "[" :: Q ++ [Piece.token "]"], ?_, fun _ => ?_⟩
  · rw [Code.expressionBody]
    exact bind_eq_ok rfl (bind_eq_ok rfl (bind_eq_ok hc (bind_eq_ok hco rfl)))
  rw [append_assoc]
  refine spells_member hP (hP.opens.append (.closing ?_ rfl rfl))
    closed_token.behind (.inr rfl) fun σ start e he => ?_
  · exact hQ.opens.follows.rests.append (.closing .nil rfl rfl)
  · refine .pass (.token (by decide) fun h => Token.is_eq_false_of_is h (by decide)) ?_
    refine .expect (by decide) fun _ => .bind (.withIn (.below (hQ.parses_expression fun _ => rfl)))
      (.token (by decide) fun h => bond_stop h (by decide)) fun _ hp => ?_
    exact .expect (by decide) fun _ => .finish (.same (.node he (.node hp .nil)))

/-- The node for a call. -/
def callOf (callee : Node) (arguments : List Node) (ts : List Token) : Node :=
  spanned .callExpression [("callee", .node callee), ("arguments", .nodes arguments)] ts

theorem opens_call (hP : Opens P true)
    (hPs : List.Forall₂ (Spells R g) ns Ps) : Opens (P ++ parens (commas Ps)) false :=
  hP.append (opens_parens (rests_separated .spaced (opens_all Spells.opens hPs))).follows

theorem faithful_call (hcal : Faithful callee) (ha : ∀ n ∈ arguments, Faithful n) :
    Faithful (callOf callee arguments ts) := by
  refine faithful_of (L := 15) rfl fun g depth => ?_
  obtain ⟨P, hco, hP⟩ := hcal.expression call g depth
  obtain ⟨Ps, hcod, hPs⟩ := code_expressions (g := g) (d := depth) ha
  have ho := opens_call hP.opens hPs
  refine ⟨P ++ parens (commas Ps), ?_, fun _ => ⟨ho.loosen, fun _ _ => ho, ?_⟩⟩
  · rw [Code.expressionBody]
    exact bind_eq_ok rfl (bind_eq_ok hco (bind_eq_ok rfl (bind_eq_ok hcod rfl)))
  · intro ind σ b b' c c' hg hc hrea
    obtain ⟨b₁, c₁, hre, hr⟩ := Reads.append_iff.1 hrea
    have hc₁ := (hre.reaches hc).proper hc
    obtain ⟨-, hu, hf⟩ := hP.reads hg hc hre
    have hlp : c₁.current.is "(" = true := hr.1.is_self (by decide)
    have hru := (parses_arguments (σ := σ) (N := fun _ => True) hPs).rerunsAll hc₁ hr trivial
    have hs := shortens_token (N := fun _ => True) hc₁ hr trivial
    refine ⟨closed_token.behind hc₁ hr, hu, (Fits.calls_iff (Nat.le_refl _)).2 ⟨?_, fun hca => ?_⟩⟩
    · obtain ⟨e, c₀, hh, ht⟩ := ((Fits.calls_iff (Nat.le_refl _)).1 hf).1
      exact ⟨e, c₀, hh, fun start => (ht start).step fun e' he' =>
        callTail_call he' hlp hru hs⟩
    · rw [hasCall] at hca
      cases hca

/-- The callee of `new`: one with a call in it stands in
parentheses. -/
theorem code_callee (h : Faithful n) : ∃ P, (∀ f : List Piece → Code, (if hasCall n then do
          let code ← Code.expression sequence g d n
          let code ← pure (parens code)
          f code
        else do
          let code ← Code.expression new g d n
          f code) = f P) ∧
      Opens P true ∧ ∀ {ind σ b b' c c'}, (g = true → σ.allowIn = true) → c.Proper →
        Reads ind P b c b' c' → Members σ n c c' := by
  cases hca : hasCall n with
  | true =>
    obtain ⟨P, hco, hP⟩ := h.expression sequence g d
    refine ⟨parens P, fun f => ?_, (opens_parens hP.opens.follows.rests).loosen, ?_⟩
    · rw [hco]
      rfl
    · intro ind σ b b' c c' hg hc hr
      have hn : c.current.is "new" = false := hr.1.is_other (by decide)
      obtain ⟨e, he, hru⟩ :=
        hP.allowing.parses_primary.reruns (σ := σ) (N := fun _ => True) hc hr trivial
      exact ⟨e, c', by simpa [Heads, hn] using hru, fun _ => .refl he⟩
  | false =>
    obtain ⟨P, hco, hP⟩ := h.expression new g d
    refine ⟨P, fun f => ?_, hP.opens, fun hg hc hr => ?_⟩
    · rw [hco]
      rfl
    · exact ((Fits.calls_iff (by decide)).1 (hP.reads hg hc hr).fits).2 hca

/-- The node for a `new`. -/
def newOf (callee : Node) (arguments : List Node) (ts : List Token) : Node :=
  spanned .newExpression [("callee", .node callee), ("arguments", .nodes arguments)] ts

theorem faithful_new (hcal : Faithful callee) (ha : ∀ n ∈ arguments, Faithful n) :
    Faithful (newOf callee arguments ts) := by
  refine faithful_of (L := 16) rfl fun g depth => ?_
  obtain ⟨P, hco, hP, hm⟩ := code_callee (g := g) (d := depth) hcal
  obtain ⟨Ps, hcod, hPs⟩ := code_expressions (g := g) (d := depth) ha
  have ho : Opens (.token "new" :: (P ++ parens (commas Ps))) false :=
    .opener (opens_call hP hPs) rfl
  refine ⟨.token "new" :: (P ++ parens (commas Ps)), ?_, fun _ => ⟨ho.loosen, fun _ _ => ho, ?_⟩⟩
  · rw [Code.expressionBody]
    refine bind_eq_ok rfl ((hco _).trans ?_)
    exact bind_eq_ok rfl (bind_eq_ok hcod rfl)
  · rintro ind σ b b' c c' hg hc ⟨hs, hrea⟩
    obtain ⟨b₁, c₁, hre, hr⟩ := Reads.append_iff.1 hrea
    have hn : c.current.is "new" = true := hs.is_self (by decide)
    have hca := (hc.reaches_is hn).proper hc
    have hc₁ := (hre.reaches hca).proper hca
    have hru := (parses_arguments (σ := σ) (N := fun _ => True) hPs).rerunsAll hc₁ hr trivial
    have hrun := reruns_new hc hn (hm hg hca hre) (hr.1.is_self (by decide)) hru
    obtain ⟨e, he, hrun⟩ := hrun
    exact ⟨closed_token.behind hc₁ hr, hs.2.2,
      .of_heads he (by simpa [Heads, hn] using hrun) (by decide)⟩

-- == arrays

/-- The code of an element; a hole has none. -/
def SpellsElement (g : Bool) (n : Node) : Option (List Piece) → Prop
  | some P => Spells 1 g n P
  | none => n = hole

theorem Faithful.kind_ne_elision (h : Faithful n) : n.kind ≠ .elision := by
  intro hk
  obtain ⟨P, hc, -⟩ := h true 0
  rw [Code.expressionBody] at hc
  simp only [hk] at hc
  cases hc

theorem code_elements (hns : ∀ n ∈ ns, n = hole ∨ Faithful n) :
    ∃ Ps, Code.elements g d ns = .ok Ps ∧ List.Forall₂ (SpellsElement g) ns Ps := by
  refine code_list (by rw [Code.elements]) fun n hn => ?_
  obtain ⟨part, hc, hp⟩ : ∃ part, Code.element g d n = .ok part ∧ SpellsElement g n part := by
    rw [Code.element]
    rcases hns n hn with rfl | hn
    · exact ⟨none, rfl, rfl⟩
    · obtain ⟨P, hc, hP⟩ := hn.expression assignment g d
      rw [if_neg hn.kind_ne_elision]
      exact ⟨some P, bind_eq_ok hc rfl, hP⟩
  refine ⟨part, hp, fun ns Ps hco => ?_⟩
  rw [Code.elements]
  exact bind_eq_ok hc (bind_eq_ok hco rfl)

/-- The blank before an element. -/
def padding : Option (List Piece) → List Piece
  | some _ => [.space]
  | none => []

/-- The elements of an array as they are read: one and the comma behind
it, and a comma for a hole. -/
def listed : List (Option (List Piece)) → List Piece
  | [] => []
  | [some P] => P
  | [none] => [.token ","]
  | some P :: part :: rest => P ++ .token "," :: (padding part ++ listed (part :: rest))
  | none :: part :: rest => .token "," :: (padding part ++ listed (part :: rest))

/-- The comma and the code of an element that is not the first. -/
def behindComma (part : Option (List Piece)) : List Piece :=
  .token "," ::
    match part with
    | some code => .space :: code
    | none => []

/-- The comma behind a last hole. -/
def closingComma (parts : List (Option (List Piece))) : List Piece :=
  match parts.getLast? with
  | some none => [.token ","]
  | _ => []

theorem listed_cons (part : Option (List Piece)) (rest : List (Option (List Piece))) :
    listed (part :: rest) =
      part.getD [] ++ rest.flatMap behindComma ++ closingComma (part :: rest) := by
  induction rest generalizing part with
  | nil => cases part <;> simp [listed, closingComma]
  | cons next rest ih =>
    have hl : closingComma (part :: next :: rest) = closingComma (next :: rest) := rfl
    have hn : behindComma next = .token "," :: (padding next ++ next.getD []) := by
      cases next <;> rfl
    rw [flatMap_cons, hl, hn]
    cases part <;> simp [listed, ih next]

theorem brackets_eq (parts : List (Option (List Piece))) :
    Code.brackets parts = .token "[" :: (listed parts ++ [.token "]"]) := by
  cases parts with
  | nil => rfl
  | cons part rest =>
    rw [listed_cons]
    rfl

theorem flowing_padding {E : Edge → Prop} (h : Flowing E P k) :
    Flowing E (padding part ++ P) k := by
  cases part <;> exact h

/-- What stands between the brackets opens, unless it is empty. -/
theorem opens_listed (h : SpellsElement g n part)
    (hs : List.Forall₂ (SpellsElement g) ns parts) : Opens (listed (part :: parts)) true := by
  induction hs generalizing n part with
  | nil =>
    cases part with
    | some P => exact h.opens
    | none => exact .opening .nil rfl rfl
  | cons hp _ ih =>
    cases part with
    | some P => exact h.opens.append (.joiner (flowing_padding (ih hp)) rfl)
    | none => exact .opener (flowing_padding (ih hp)) rfl

theorem rests_listed (h : List.Forall₂ (SpellsElement g) ns parts) : Rests (listed parts) true := by
  cases h with
  | nil => exact .nil
  | cons hp hpa => exact (opens_listed hp hpa).follows.rests

theorem parses_elements (h : List.Forall₂ (SpellsElement g) ns parts) (ha : σ.allowIn = true) :
    Parses 0 σ elementsRule (AlikeAll · ns) (listed parts ++ [.token "]"]) N := by
  have hh : ∀ {ns Q}, Parses 0 σ elementsRule (AlikeAll · ns) Q N →
      Parses 0 σ elementsRule (AlikeAll · (hole :: ns)) (.token "," :: Q) N := fun hr =>
    .pass (.token (by decide) fun h => Token.is_eq_false_of_is h (by decide))
      (.took (by decide) (.last (.below hr) fun _ hns => .pure (.cons (.refl _) hns)))
  have hste : ∀ {n ns P Q}, Spells 1 g n P → Starts Q N (Divides "]") →
      Parses 0 σ (fun r => itemRule "]" r.assignmentRule r.elements) (AlikeAll · ns) (P ++ Q) N →
      Parses 0 σ elementsRule (AlikeAll · ns) (P ++ Q) N := by
    intro n ns P Q hP hQ hr
    obtain ⟨-, hst, -⟩ := hP.parses_item (σ := σ) "]" (by decide) fun _ => ha
    exact .pass ((hst.imp And.left).append hQ)
      (.skip ((hst.imp And.right).append hQ) (.ite_neg (by decide) hr))
  have hn : Parses 0 σ elementsRule (AlikeAll · []) [.token "]"] N :=
    .took (by decide) (.pure .nil)
  induction h with
  | nil => exact hn
  | @cons n part ns parts hp hpar ih =>
    cases hpar with
    | nil =>
      cases part with
      | some P =>
        obtain ⟨hi, -, hs⟩ := Spells.parses_item (σ := σ) hp "]" (by decide) fun _ => ha
        exact hste hp (.token (by decide) .inr)
          (parses_item_last hi hs (.token (by decide) id) (.below hn))
      | none =>
        obtain rfl : n = hole := hp
        exact hh hn
    | @cons n' part' ns' parts' hp' hpar' =>
      have hpa : Parses 0 σ elementsRule (AlikeAll · (n' :: ns'))
          (padding part' ++ listed (part' :: parts') ++ [Piece.token "]"]) N := by
        cases part'
        exacts [ih, ih.space]
      cases part with
      | some P =>
        obtain ⟨hi, -, hs⟩ := Spells.parses_item (σ := σ) hp "]" (by decide) fun _ => ha
        rw [listed, append_assoc]
        exact hste hp (.token (by decide) .inl) (parses_item hi hs (.below hpa) (by decide))
      | none =>
        obtain rfl : n = hole := hp
        exact hh hpa

theorem faithful_array (h : ∀ n ∈ ns, n = hole ∨ Faithful n) :
    Faithful (spanned .arrayExpression [("elements", .nodes ns)] ts) := by
  refine faithful_of (L := 18) rfl fun g depth => ?_
  obtain ⟨parts, hc, hp⟩ := code_elements (g := g) (d := depth) h
  refine ⟨Code.brackets parts, ?_, fun _ => ?_⟩
  · rw [Code.expressionBody]
    exact bind_eq_ok rfl (bind_eq_ok hc rfl)
  rw [brackets_eq]
  refine .of_primary (.opening ((rests_listed hp).append ?_) rfl rfl)
    unbroken_token closed_token.behind.cons
    (.token (by decide) fun h => Token.is_eq_false_of_is h (by decide))
    fun σ => .congr (q := Rules.array) ?_ .shown fun r c ⟨hk, ht⟩ => ?_
  · exact .closing .nil rfl rfl
  · exact .expect (by decide) fun _ => .last
      (.withIn (.below (parses_elements hp rfl))) fun _ hns =>
      .finish (.nodes hns .nil)
  · rw [primary_punct r hk, ht]
    rfl

-- == functions

/-- The pieces are code for a block in the frame. -/
structure SpellsBlock (F : Frame) (n : Node) (P : List Piece) : Prop where
  rests : Rests P false
  closed : Closed P
  starts : ∀ N, Starts P N fun t => t.kind = .punct ∧ t.text = "\x7b"
  parses : ∀ {σ : Scope} {N}, σ.frame = F → σ.allowIn = true →
    Parses 0 σ blockStatement (·.Alike n) P N

/-- The block has code that reads back as it. -/
def FaithfulBlock (F : Frame) (n : Node) : Prop :=
  ∀ depth, ∃ P, Code.block depth n = .ok P ∧ SpellsBlock F n P

/-- The node is a name that is not reserved. -/
def IsIdentifier (n : Node) : Prop :=
  ∃ (w : String) (ts : List Token), n = nameNode w ts ∧ IsWord w.toList ∧ isReserved w = false

/-- The pieces are a name that is not reserved. -/
structure SpellsIdentifier (n : Node) (P : List Piece) : Prop where
  opens : Opens P false
  starts : ∀ N, Starts P N Token.IsName
  shortens : ∀ N, Shortens P N
  parses : ∀ {σ N} s, Parses s σ (fun _ => identifier) (·.Alike n) P N

theorem IsIdentifier.code (h : IsIdentifier n) (hR : R ≤ 18) :
    ∃ P, Code.expression R g d n = .ok P ∧ SpellsIdentifier n P := by
  obtain ⟨w, ts, rfl, hw, hr⟩ := h
  refine ⟨_, code_name hR, opens_word hw, fun N => .imp .shown fun {t} ⟨_, ht⟩ => ?_,
    fun N => shortens_token, fun s => (parses_identifier hw hr).spare⟩
  exact ⟨ht ▸ hw, ht ▸ hr⟩

theorem code_params (hns : ∀ n ∈ ns, IsIdentifier n) :
    ∃ Ps, expressions g d ns = .ok Ps ∧ List.Forall₂ SpellsIdentifier ns Ps := by
  refine code_list (by rw [expressions]) fun n hn => ?_
  obtain ⟨P, hc, hP⟩ := (hns n hn).code (R := assignment) (g := g) (d := d) (by decide)
  refine ⟨P, hP, fun ns Ps hco => ?_⟩
  rw [expressions]
  exact bind_eq_ok hc (bind_eq_ok hco rfl)

/-- The node for a function. -/
def functionOf (kind : Kind) (id : Option Node) (params : List Node) (body : Node)
    (ts : List Token) : Node :=
  spanned kind [("id", .ofNode? id), ("params", .nodes params), ("body", .node body)] ts

/-- The pieces are the parameters and the body of a function. -/
structure SpellsCallable (params : List Node) (body : Node) (P : List Piece) : Prop where
  opens : Opens P false
  closed : Closed P
  starts : ∀ N, Starts P N (·.is "(" = true)
  parses : ∀ {σ N} (s : Nat) (kind : Kind) (start : Nat) {id id' : Option Node} {ts : List Token},
    AlikeOption id' id → Parses s σ (fun r => r.functionRest kind id' start)
      (·.Alike (functionOf kind id params body ts)) P N

theorem code_functionRest {kind : Kind} (hp : ∀ n ∈ params, IsIdentifier n)
    (hbo : FaithfulBlock .function body) :
    ∃ P, Code.functionRest g d (functionOf kind id params body ts) = .ok P ∧
      SpellsCallable params body P := by
  obtain ⟨Ps, hco, hPs⟩ := code_params (g := g) (d := d) hp
  obtain ⟨B, hc, hB⟩ := hbo d
  refine ⟨parens (commas Ps) ++ .space :: B, ?_, ?_, hB.closed.cons.behind,
    fun _ => .token (by decide) fun h => h,
    fun {σ N} s kind start _ _ _ hid => .expect (by decide) fun _ => ?_⟩
  · rw [Code.functionRest]
    cases id <;> exact bind_eq_ok rfl (bind_eq_ok hco (bind_eq_ok rfl (bind_eq_ok hc rfl)))
  · have hr := rests_separated .spaced (opens_all (fun h => h.opens.loosen) hPs)
    exact (opens_parens hr).append (space_iff.2 hB.rests)
  · have hl : Parses 0 σ paramsRule (AlikeAll · params) (commas Ps ++ [Piece.token ")"])
        fun _ => True :=
      parses_separated .spaced (.inl rfl) (fun _ => rfl) (fun _ => rfl) (fun hP =>
        ⟨hP.parses 0, (hP.starts _).imp (·.is_eq_false (.inr (by decide))), hP.shortens _⟩) hPs
        (by decide) (.inl rfl)
    exact .bind (.below hl) .any fun _ hps => .space (.last (.withReader (hB.parses rfl rfl).spare)
      fun _ hb => .finish (.node? hid (.nodes hps (.node hb .nil))))

/-- The pieces are a function that may have a name. -/
structure SpellsFunction (kind : Kind) (n : Node) (P : List Piece) : Prop where
  opens : Opens P false
  unbroken : Unbroken P
  closed : Closed P
  starts : ∀ N, Starts P N fun t => t.kind = .word ∧ t.text = "function"
  parses : ∀ σ N, Parses 0 σ (fun r => r.function kind) (·.Alike n) P N

theorem code_function (kind : Kind) (id : Option Node)
    (hk : kind = .functionExpression ∨ id ≠ none) (hid : ∀ i ∈ id, IsIdentifier i)
    (hp : ∀ n ∈ params, IsIdentifier n) (hb : FaithfulBlock .function body) :
    ∃ P, Code.function g d (functionOf kind id params body ts) = .ok P ∧
      SpellsFunction kind (functionOf kind id params body ts) P := by
  obtain ⟨Q, hc, hQ⟩ : ∃ Q, Code.functionRest g d (functionOf kind id params body ts) = .ok Q ∧
      SpellsCallable params body Q := code_functionRest hp hb
  cases id with
  | none =>
    obtain rfl : kind = .functionExpression := hk.resolve_right (by simp)
    refine ⟨.token "function" :: .space :: Q, ?_, ?_, unbroken_token, hQ.closed.cons.cons,
      fun _ => .shown, fun σ N => ?_⟩
    · rw [Code.function]
      exact bind_eq_ok rfl (bind_eq_ok hc rfl)
    · exact .opener (space_iff.2 hQ.opens) rfl
    · exact .expect (by decide) fun _ => .space (.atToken (hQ.starts _) (.ite_pos rfl
        (.first (.pure (A := (AlikeOption · none)) rfl) .any fun _ hid => hQ.parses 1 _ _ hid)))
  | some i =>
    obtain ⟨P, hco, hP⟩ := (hid i rfl).code (R := primary) (g := g) (d := d) (Nat.le_refl _)
    refine ⟨.token "function" :: .space :: (P ++ Q), ?_, ?_, unbroken_token,
      hQ.closed.behind.cons.cons,
      fun _ => .shown, fun σ N => ?_⟩
    · rw [Code.function]
      exact bind_eq_ok hco (bind_eq_ok hc rfl)
    · exact .opener (space_iff.2 (hP.opens.append hQ.opens.follows.rests)) rfl
    · refine .expect (by decide) fun _ => .space (.atToken (v := false) ?_ (.ite_neg (by simp) ?_))
      · exact .append ((hP.starts fun _ => True).imp (·.is_eq_false (.inr (by decide)))) .any
      · exact .bind (hP.parses 1).some .any fun _ hid => hQ.parses 1 _ _ hid

theorem faithful_function (hid : ∀ i ∈ id, IsIdentifier i) (hp : ∀ n ∈ params, IsIdentifier n)
    (hb : FaithfulBlock .function body) :
    Faithful (functionOf .functionExpression id params body ts) := by
  refine faithful_of (L := 18) rfl fun g depth => ?_
  obtain ⟨P, hc, hP⟩ := code_function (g := g) (d := depth) .functionExpression id
    (.inl rfl) hid hp hb
  refine ⟨P, ?_, fun _ => .of_primary hP.opens hP.unbroken hP.closed
    ((hP.starts _).imp fun h => by simp [Token.is, h.2])
    fun σ => (hP.parses σ _).congr (hP.starts _) fun r c ⟨hk, ht⟩ => ?_⟩
  · rw [Code.expressionBody]
    exact hc
  · rw [primary_word r hk, ht]
    rfl

-- == objects

/-- The node is the key of a property: a word, a string or a number. -/
def IsKey (n : Node) : Prop :=
  (∃ (w : String) (ts : List Token), n = nameNode w ts ∧ IsWord w.toList) ∨
    (∃ value raw ts, n = spanned .literal (literalProps (.str value) raw) ts) ∨
    ∃ v raw ts, n = spanned .literal (literalProps v.toJson raw) ts ∧ Renders v

/-- Whether a token can be the key of a property. -/
def isKeyToken (t : Token) : Bool :=
  t.kind == .word || t.kind == .string || t.kind == .number

/-- The pieces are one token. -/
def Single (P : List Piece) : Prop :=
  ∀ ⦃indented b b' : Bool⦄ ⦃c c' : Cursor⦄, c.Proper → Reads indented P b c b' c' →
    c.current.isEnd = false ∧ c' = c.advance

theorem Single.shortens (h : Single P) : Shortens P N := by
  intro ind b b' c c' hc hr _
  obtain ⟨he, rfl⟩ := h hc hr
  exact hc.lt he

theorem single_token : Single [.token w] := by
  rintro ind b b' c c' - ⟨hs, -, rfl⟩
  exact ⟨hs.isEnd, rfl⟩

theorem Cursor.Proper.second (hc : c.Proper) (h : c.current.isEnd = false) :
    c.rest.head?.getD c.current = c.advance.current := by
  have ht := (hc.takes h).tokens_eq
  simp only [Cursor.tokens, cons_append, nil_append, List.cons.injEq, true_and] at ht
  rw [ht]
  rfl

/-- Before a token the one behind it is looked at. -/
theorem Parses.peekSecond {β : Type} {B : β → Prop} {f : Rules Rule → Token → Rule β} {s : Nat}
    {T : Token → Prop} (hP : Single P) (hT : Starts Q N T)
    (h : ∀ t, T t → Parses s σ (fun r => f r t) B (P ++ Q) N) :
    Parses s σ (fun r => Rule.peekSecond >>= f r) B (P ++ Q) N := by
  intro ind b b' c c' hc hr hn
  obtain ⟨b₁, c₁, hre, hrea⟩ := Reads.append_iff.1 hr
  obtain ⟨he, rfl⟩ := hP hc hre
  have hs := hT ((hc.reaches he).proper hc) hrea hn
  rw [← hc.second he] at hs
  obtain ⟨x, hx, hru⟩ := h _ hs hc hr hn
  exact ⟨x, hx, fun k hk => (bind_run_ok (peekSecond_run σ c)).trans (hru k hk)⟩

/-- The pieces are a key. -/
structure SpellsKey (n : Node) (P : List Piece) : Prop where
  opens : Opens P true
  reads : ∀ {indented : Bool} {σ : Scope} {b b' : Bool} {c c' : Cursor},
    c.Proper → Reads indented P b c b' c' →
    b' = false ∧ isKeyToken c.current = true ∧ c' = c.advance ∧
      Reruns (fun _ => propertyKey) σ n c c'

theorem code_primary_literal
    (hP : Code.literal (spanned .literal (literalProps value raw) ts) = .ok P) :
    Code.expression primary g d (spanned .literal (literalProps value raw) ts) = .ok P := by
  rw [Code.expression]
  exact bind_eq_ok (code_literal hP) rfl

theorem IsKey.code (h : IsKey n) :
    (n.kind = .identifier ∨ n.kind = .literal) ∧
      ∃ P, Code.expression primary g d n = .ok P ∧ SpellsKey n P := by
  rcases h with ⟨w, ts, rfl, hw⟩ | ⟨value, raw, ts, rfl⟩ | ⟨v, raw, ts, rfl, hv⟩
  · refine ⟨.inl rfl, _, code_name (Nat.le_refl _), (opens_word hw).loosen, ?_⟩
    rintro ind σ b b' c c' hc ⟨hs, rfl, rfl⟩
    have hk := hs.kind_eq.trans (kindOf_of_isWord hw)
    exact ⟨rfl, by simp [isKeyToken, hk], rfl,
      reruns_propertyKey_name hk (reruns_identifierName hc hk hs.text_eq)⟩
  · refine ⟨.inr rfl, _, code_primary_literal rfl, .string (fun _ he => he) .nil, ?_⟩
    rintro ind σ b b' c c' hc ⟨hs, rfl, rfl⟩
    obtain ⟨hk, hr⟩ := reruns_string_piece (σ := σ) hc hs raw
    exact ⟨rfl, by simp [isKeyToken, hk], rfl, reruns_propertyKey_literal (.inl hk) hr⟩
  · obtain ⟨number, d, v', hj, hd, hf, hva, hv'⟩ := hv
    have hl : Code.literal (spanned .literal (literalProps v.toJson raw) ts)
        = .ok [.token (numberText d)] := by
      rw [hj]
      exact Node.code_number rfl rfl hd
    refine ⟨.inr rfl, _, code_primary_literal hl, opens_numeral hf, ?_⟩
    rintro ind σ b b' c c' hc ⟨hs, rfl, rfl⟩
    have hk := hs.kind_eq.trans (kindOf_of_isNumeral hf.1)
    rw [← hs.text_eq] at hva
    have hr := reruns_number (σ := σ) hc hk hva raw
    rw [hv'] at hr
    exact ⟨rfl, by simp [isKeyToken, hk], rfl, reruns_propertyKey_literal (.inr hk) hr⟩

theorem isKeyToken_is {t : Token} (h : isKeyToken t = true) (hs : t.IsSpelled)
    (hw : w.toList.head?.any Lexeme.isWordStart = false) : t.is w = false := by
  rw [Bool.eq_false_iff]
  intro his
  obtain rfl := Token.text_of_is his
  simp only [isKeyToken, Bool.or_eq_true, beq_iff_eq] at h
  simp only [Token.is, Bool.and_eq_true, Bool.or_eq_true, beq_iff_eq] at his
  rcases h with (hk | hk) | hk <;> simp only [hk] at his
  · rw [Token.IsSpelled, hk] at hs
    obtain ⟨d, rest, ht, hd, -⟩ := hs
    rw [ht] at hw
    simp only [head?_cons, Option.any_some] at hw
    rw [hd] at hw
    cases hw
  · simp at his
  · simp at his

theorem isEnd_of_isKeyToken {t : Token} (h : isKeyToken t = true) : t.isEnd = false := by
  simp only [isKeyToken, Bool.or_eq_true, beq_iff_eq] at h
  rcases h with (hk | hk) | hk <;> simp [Token.isEnd, hk]

namespace SpellsKey

variable {P : List Piece} {N : Token → Prop}

theorem starts (h : SpellsKey n P) : Starts P N (isKeyToken · = true) :=
  fun _ _ _ _ _ hc hr _ => (h.reads (σ := Scope.top) hc hr).2.1

theorem single (h : SpellsKey n P) : Single P := by
  intro ind b b' c c' hc hr
  obtain ⟨-, ht, ha, -⟩ := h.reads (σ := Scope.top) hc hr
  exact ⟨isEnd_of_isKeyToken ht, ha⟩

theorem parses (h : SpellsKey n P) : Parses 0 σ (fun _ => propertyKey) (·.Alike n) P N :=
  .of_reruns fun hc hr _ => (h.reads hc hr).2.2.2

end SpellsKey

/-- The pieces are a property of an object. -/
structure SpellsProperty (n : Node) (P : List Piece) : Prop where
  opens : Opens P true
  starts : ∀ N, Starts P N fun t => isKeyToken t = true ∧ t.IsSpelled
  shortens : ∀ N, Shortens P N
  parses : ∀ {σ : Scope}, σ.allowIn = true →
    Parses 0 σ property (·.Alike n) P (bond σ.allowIn · ≤ 1)

/-- The property has code that reads back as it. -/
def FaithfulProperty (n : Node) : Prop :=
  ∀ (g : Bool) (depth : Nat), ∃ P, Code.property g depth n = .ok P ∧ SpellsProperty n P

theorem faithful_property_init {value : Node} (hke : IsKey key) (hva : Faithful value) :
    FaithfulProperty (spanned .property
        [("key", .node key), ("value", .node value), ("kind", .ofString "init")] ts) := by
  intro g depth
  obtain ⟨hn, P, hc, hP⟩ := hke.code (g := g) (d := depth)
  obtain ⟨Q, hco, hQ⟩ := hva.expression assignment g depth
  refine ⟨P ++ .token ":" :: .space :: Q, ?_, ?_, fun _ => ?_,
    fun _ => hP.single.shortens.append, fun ha => ?_⟩
  · rw [Code.property]
    refine bind_eq_ok rfl ((if_neg (show ¬("init" = "get" ∨ "init" = "set") by decide)).trans
      ((if_pos hn).trans ?_))
    exact bind_eq_ok hc (bind_eq_ok rfl (bind_eq_ok hco rfl))
  · exact hP.opens.append (.joiner (space_iff.2 hQ.opens) rfl)
  · exact .append (hP.starts (N := fun _ => True)).spelled .any
  · refine .start fun _ => .peekSecond hP.single (.token (by decide) id)
      fun t ht => .ite_neg (by simp [ht]) ?_
    exact hP.parses.bind_short .any hP.single.shortens fun _ hk => .expect (by decide) fun _ =>
      .space (.last (.below (hQ.parses_assignment fun _ => ha)) fun _ hv =>
        .finish (.node hk (.node hv (.same .nil))))

theorem faithful_property_accessor {word : String} (hwo : word = "get" ∨ word = "set")
    (hke : IsKey key) (hp : ∀ n ∈ params, IsIdentifier n) (hb : FaithfulBlock .function body) :
    FaithfulProperty (spanned .property [("key", .node key),
         ("value", .node (functionOf .functionExpression none params body us)),
         ("kind", .ofString word)] ts) := by
  intro g depth
  obtain ⟨-, P, hc, hP⟩ := hke.code (g := g) (d := depth)
  obtain ⟨Q, hco, hQ⟩ := code_functionRest (g := g) (d := depth) hp hb
  have hw : IsWord word.toList := by
    rcases hwo with rfl | rfl <;> decide
  refine ⟨.token word :: (P ++ Q), ?_, ?_, fun _ => ?_, fun _ => shortens_token, fun ha => ?_⟩
  · rw [Code.property]
    refine bind_eq_ok rfl ((if_pos hwo).trans ?_)
    exact bind_eq_ok hc (bind_eq_ok rfl (bind_eq_ok hco rfl))
  · exact .opener (hP.opens.append hQ.opens.follows).loosen (isOpener_of_isWord hw)
  · refine .spelled (.imp .shown fun {t} ⟨hk, _⟩ => ?_)
    simp [isKeyToken, hk, kindOf_of_isWord hw]
  · refine .peek _ .shown fun t ⟨hk, ht⟩ => ?_
    refine .peekSecond (P := [.token word]) single_token
      (.append (hP.starts (N := fun _ => True)).spelled .any) fun t' ⟨hke, hs⟩ =>
        .ite_pos ?_ ?_
    · rw [isKeyToken_is (w := ":") hke hs (by decide), hk, ht, kindOf_of_isWord hw]
      rcases hwo with rfl | rfl <;> rfl
    · rw [ht]
      exact .next fun _ _ => .bind (Q := Q) hP.parses.spare .any fun _ hk => .start fun _ =>
        .last (hQ.parses 1 _ _ (show AlikeOption none none from rfl)) fun _ hv =>
          .finish (.node hk (.node hv (.same .nil)))

theorem SpellsProperty.marks (h : SpellsProperty n P) (m : Node) :
    SpellsProperty n (m.marks ++ P) where
  opens := flowing_marks_append.2 h.opens
  starts N := (h.starts N).marks m
  shortens N := fun _ _ _ _ _ hc hr => h.shortens N hc (reads_marks_append.1 hr)
  parses ha := (h.parses ha).marks m

theorem SpellsProperty.newline (h : SpellsProperty n P) (depth : Nat) :
    SpellsProperty n (.newline depth :: P) where
  opens := newline_iff.2 h.opens
  starts N := (h.starts N).newline
  shortens N := fun _ _ _ _ _ hc hr => h.shortens N hc (Reads.newline_iff.1 hr)
  parses ha := (h.parses ha).newline

theorem code_properties (hns : ∀ n ∈ ns, FaithfulProperty n) :
    ∃ Ps, Code.properties g d ns = .ok Ps ∧ List.Forall₂ SpellsProperty ns Ps := by
  refine code_list (by rw [Code.properties]) fun n hn => ?_
  obtain ⟨P, hc, hP⟩ := hns n hn g d
  refine ⟨n.marks ++ P, hP.marks n, fun ns Ps hco => ?_⟩
  rw [Code.properties]
  exact bind_eq_ok hc (bind_eq_ok hco rfl)

/-- Braces are written around lines and a line break, or around
nothing. -/
theorem braces_eq (depth : Nat) (separator : List Piece) (parts : List (List Piece)) :
    ∃ last, (last = [.token "\x7d"] ∨ ∃ d, last = [.newline d, .token "\x7d"]) ∧
      braces depth separator parts = .token "\x7b" ::
        (List.intercalate separator (parts.map (.newline (depth + 1) :: ·)) ++ last) := by
  unfold braces
  cases parts with
  | nil => exact ⟨_, .inl rfl, rfl⟩
  | cons P Ps => exact ⟨_, .inr ⟨depth, rfl⟩, rfl⟩

theorem flowing_last {last : List Piece}
    (h : last = [.token "\x7d"] ∨ ∃ d, last = [.newline d, .token "\x7d"]) :
    Closed last ∧ Flowing (Settled k) last false := by
  have hc : Flowing (Settled k) [.token "\x7d"] false := by
    refine mono (.closing .nil rfl rfl) ?_
    rintro e (rfl | ⟨-, rfl⟩)
    exacts [.inl rfl, .inr ⟨rfl, rfl⟩]
  rcases h with rfl | ⟨d, rfl⟩
  · exact ⟨closed_token, hc⟩
  · exact ⟨closed_token.cons, newline_iff.2 hc⟩

theorem faithful_object (h : ∀ n ∈ ns, FaithfulProperty n) :
    Faithful (spanned .objectExpression [("properties", .nodes ns)] ts) := by
  refine faithful_of (L := 18) rfl fun g depth => ?_
  obtain ⟨Ps, hco, hPs⟩ := code_properties (g := g) (d := depth + 1) h
  have hli : List.Forall₂ SpellsProperty ns (Ps.map (.newline (depth + 1) :: ·)) :=
    forall₂_map_right_iff.2 (hPs.imp fun _ _ hP => hP.newline (depth + 1))
  obtain ⟨last, hl, hb⟩ := braces_eq depth [.token ","] Ps
  obtain ⟨hc, hcl⟩ := flowing_last (k := true) hl
  refine ⟨braces depth [.token ","] Ps, ?_, fun _ => ?_⟩
  · rw [Code.expressionBody]
    exact bind_eq_ok rfl (bind_eq_ok hco rfl)
  rw [hb]
  have hr := rests_separated .bare (opens_all SpellsProperty.opens hli)
  refine .of_primary (.opening (hr.append hcl) rfl rfl) unbroken_token
    hc.behind.cons (.token (by decide) fun h => Token.is_eq_false_of_is h (by decide))
    fun σ => .congr (q := Rules.object) ?_ .shown fun r c ⟨hk, ht⟩ => ?_
  · have hlis : Parses 0 { σ with allowIn := true } propertiesRule (AlikeAll · ns)
        (List.intercalate [.token ","] (Ps.map (.newline (depth + 1) :: ·)) ++ last)
        fun _ => True :=
      parses_separated .bare hl (fun _ => rfl) (fun _ => rfl) (fun hP =>
        ⟨(hP.parses rfl).before (·.bond (by decide)),
          (hP.starts _).imp fun h => isKeyToken_is h.1 h.2 (by decide), hP.shortens _⟩) hli
        (by decide) (.inl rfl)
    exact .expect (by decide) fun _ => .last (.withIn (.below hlis)) fun _ hns =>
      .finish (.nodes hns .nil)
  · rw [primary_punct r hk, ht]
    rfl

end Script

end Inlay
