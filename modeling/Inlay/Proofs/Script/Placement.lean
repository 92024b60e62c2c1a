/-
Where an expression may stand.

Whatever stands at a place of level `R` is read there as a whole, as long as
the token behind it does not pull parts of it away: `bond` is how tightly
that token would bind. `Fits R` says this of the rules for such a place.
`Spells R g n P` is what the code `P` of a node `n` at a place has to fulfil:
its tokens can be told apart, and wherever they are read, the node fits.
-/
import Inlay.Proofs.Script.Openings
import Inlay.Proofs.Script.Parsing

namespace Inlay.Script

open Rule Rules Node
open Token (text_of_is is is_eq_false_of_is)

variable {σ : Scope} {c c' : Cursor} {t : Token} {allowIn : Bool} {m n : Node} {R L : Nat}
  {s : Nat} {w : String} {p : Rules Rule → Rule Node} {P : List Piece}

-- == the next token

/-- How tightly a token behind an expression binds, on the scale of the
levels. -/
def bond (allowIn : Bool) (t : Token) : Nat :=
  if t.is "," then 1
  else if isAssignmentOperator t then 2
  else if t.is "?" then 3
  else
    match operatorStrength? t allowIn with
    | some s => s + 3
    | none =>
        if isUpdateOperator t then 14
        else if t.is "(" || t.is "." || t.is "[" then 15
        else 0

theorem bond_comma (h : t.is "," = true) : bond allowIn t = 1 := by
  rw [bond, if_pos h]

theorem bond_question (h : t.is "?" = true) : bond allowIn t = 3 := by
  have ht := text_of_is h
  rw [bond, if_neg (by simp [is, ht]),
    if_neg (by simp [isAssignmentOperator, ht, assignmentOperators]), if_pos h]

theorem bond_assignment (h : isAssignmentOperator t = true) : bond allowIn t = 2 := by
  have hne : t.is "," = false := by
    simp only [isAssignmentOperator, Bool.and_eq_true] at h
    rw [Bool.eq_false_iff]
    intro hc
    rw [text_of_is hc] at h
    exact absurd h.2 (by decide)
  rw [bond, if_neg (by simp [hne]), if_pos h]

/-- The operators between two operands. -/
def binaryOperators : List String :=
  ["||", "&&", "|", "^", "&", "==", "!=", "===", "!==", "in", "<", ">", "<=", ">=",
   "instanceof", "<<", ">>", ">>>", "+", "-", "*", "/", "%"]

section

variable (h : operatorStrength? t allowIn = some s)

include h

theorem mem_binaryOperators : t.text ∈ binaryOperators := by
  unfold operatorStrength? at h
  split at h
  · unfold strength? at h
    split at h
    case h_24 => cases h
    all_goals
      rename_i ht
      rw [ht]
      decide
  · cases h

theorem level_of_strength : Level.ofOperator t.text = s + 2 ∧ 1 ≤ s ∧ s ≤ 10 := by
  have hs := operatorStrength?_true h
  unfold operatorStrength? at hs
  split at hs
  · have ha : ∀ w ∈ binaryOperators, ∀ s ≤ 11, strength? w true = some s →
        Level.ofOperator w = s + 2 ∧ 1 ≤ s ∧ s ≤ 10 := by decide
    have hb : ∀ w ∈ binaryOperators, (strength? w true).all (· ≤ 11) = true := by decide
    have hm := mem_binaryOperators h
    have hle := hb _ hm
    rw [hs] at hle
    exact ha _ hm s (by simpa using hle) hs
  · cases hs

theorem bond_operator : bond allowIn t = s + 3 := by
  have hm := mem_binaryOperators h
  have hal : ∀ w ∈ binaryOperators, w ≠ "," ∧ w ∉ assignmentOperators ∧ w ≠ "?" := by decide
  obtain ⟨hc, ha, hq⟩ := hal _ hm
  rw [bond, if_neg (by simp [is, hc]),
    if_neg (by simp [isAssignmentOperator, ha]), if_neg (by simp [is, hq]), h]

end

theorem bond_update (h : isUpdateOperator t = true) : bond allowIn t = 14 := by
  have ht : t.text = "++" ∨ t.text = "--" := by
    simp only [isUpdateOperator, Bool.or_eq_true] at h
    exact h.imp text_of_is text_of_is
  have hop : operatorStrength? t allowIn = none := by
    rcases ht with ht | ht <;> simp [operatorStrength?, strength?, ht]
  rw [bond, hop]
  rcases ht with ht | ht <;> simp [is, isAssignmentOperator, assignmentOperators, ht, h]

theorem bond_call (h : t.is w = true) (hw : w ∈ ["(", ".", "["]) : bond allowIn t = 15 := by
  have ht := text_of_is h
  simp only [List.mem_cons, List.not_mem_nil, or_false] at hw
  rcases hw with rfl | rfl | rfl <;>
    simp [bond, h, is_eq_false_of_is h, ht, isAssignmentOperator, assignmentOperators,
      operatorStrength?, strength?, isUpdateOperator]

/-- The tokens that end an expression whatever its place. -/
theorem bond_stop (h : t.is w = true) (hw : w ∈ [";", ")", "]", "\x7d", ":"]) :
    bond allowIn t = 0 := by
  have ht := text_of_is h
  simp only [List.mem_cons, List.not_mem_nil, or_false] at hw
  rcases hw with rfl | rfl | rfl | rfl | rfl <;>
    simp [bond, is_eq_false_of_is h, ht, isAssignmentOperator, assignmentOperators,
      operatorStrength?, strength?, isUpdateOperator]

theorem bond_in (h : t.is "in" = true) : bond false t = 0 := by
  have ht := text_of_is h
  simp [bond, is_eq_false_of_is h, ht, isAssignmentOperator, assignmentOperators,
      operatorStrength?, strength?, isUpdateOperator]

/-! What a loose enough token is not. -/

theorem not_call_of_bond (h : bond allowIn t ≤ 13) :
    t.is "(" = false ∧ t.is "." = false ∧ t.is "[" = false := by
  refine ⟨?_, ?_, ?_⟩ <;>
  · rw [Bool.eq_false_iff]
    intro his
    rw [bond_call his (by decide)] at h
    omega

theorem not_update_of_bond (h : bond allowIn t ≤ 13) : isUpdateOperator t = false := by
  rw [Bool.eq_false_iff]
  intro his
  rw [bond_update his] at h
  omega

theorem not_question_of_bond (h : bond allowIn t ≤ 2) : t.is "?" = false := by
  rw [Bool.eq_false_iff]
  intro his
  rw [bond_question his] at h
  omega

theorem not_assignment_of_bond (h : bond allowIn t ≤ 1) : isAssignmentOperator t = false := by
  rw [Bool.eq_false_iff]
  intro his
  rw [bond_assignment his] at h
  omega

theorem not_comma_of_bond (h : bond allowIn t = 0) : t.is "," = false := by
  rw [Bool.eq_false_iff]
  intro his
  rw [bond_comma his] at h
  omega

-- == fitting

/-- From `c` to `c'` the rules for a place of level `R` find a node like
`n`, unless the token behind it binds too tightly. At the levels of the
binary operators the node may also be the first operand of what the rules
find. -/
def Fits (R : Nat) (σ : Scope) (n : Node) (c c' : Cursor) : Prop :=
  if R = 0 then bond σ.allowIn c'.current = 0 → Reruns expressionRule σ n c c'
  else if R = 1 then bond σ.allowIn c'.current ≤ 1 → Reruns assignmentRule σ n c c'
  else if R = 2 then bond σ.allowIn c'.current ≤ 1 → Reruns conditional σ n c c'
  else if R ≤ 12 then
    bond σ.allowIn c'.current ≤ R + 1 → ∀ least, least + 2 ≤ R → Joins least σ n c c'
  else if R ≤ 14 then bond σ.allowIn c'.current ≤ 13 → Reruns unaryRule σ n c c'
  else Calls σ n c c' ∧ (hasCall n = false → Members σ n c c')

/-- A word that is read as a primary expression is a name or one of the
few that stand for themselves. -/
theorem primary_word_ok {r : Rules Rule} {x : Node × Cursor} (hk : c.current.kind = .word)
    (h : r.primary σ c = .ok x) :
    isReserved c.current.text = false ∨
      c.current.text ∈ ["function", "this", "null", "true", "false"] := by
  by_cases hm : c.current.text ∈ ["function", "this", "null", "true", "false"]
  · exact .inr hm
  · left
    simp only [List.mem_cons, List.not_mem_nil, or_false, not_or] at hm
    obtain ⟨hf, ht, hn, htr, hfa⟩ := hm
    rw [primary_word _ hk] at h
    simp only [beq_eq_false_iff_ne.2 hf, beq_eq_false_iff_ne.2 ht, beq_eq_false_iff_ne.2 hn,
      beq_eq_false_iff_ne.2 htr, beq_eq_false_iff_ne.2 hfa, Bool.or_self,
      Bool.false_eq_true, if_false] at h
    rw [Bool.eq_false_iff]
    intro hr
    unfold identifier at h
    rw [peek_bind, if_neg (by simp [hr])] at h
    cases h

/-- Nothing that is read as a primary expression or as a `new` starts
with an operator. -/
theorem Rules.Heads.plain {e : Node} (h : Heads σ c e c') (hc : c.Proper) :
    isPrefixOperator c.current = false ∧ isUpdateOperator c.current = false := by
  unfold Heads at h
  split at h
  · next hne =>
    have ht := text_of_is hne
    refine ⟨?_, ?_⟩
    · unfold isPrefixOperator
      split <;> simp [ht]
    · simp [isUpdateOperator, is_eq_false_of_is hne]
  · have hru := h.run _ (Nat.le_refl _)
    cases hk : c.current.kind with
    | number | string | regex | eof => simp [isPrefixOperator, isUpdateOperator, is, hk]
    | punct =>
      rw [primary_punct _ hk] at hru
      have ho : ∀ w ∈ ["!", "~", "+", "-", "++", "--"], c.current.text ≠ w := by
        intro w hw ht
        rw [ht] at hru
        simp only [List.mem_cons, List.not_mem_nil, or_false] at hw
        rcases hw with rfl | rfl | rfl | rfl | rfl | rfl <;> cases hru
      simp [isPrefixOperator, isUpdateOperator, is, hk, ho]
    | word =>
      have hs := hc.current
      rw [Token.IsSpelled, hk] at hs
      have hme : ∀ w ∈ ["function", "this", "null", "true", "false"],
          w ∉ ["typeof", "void", "delete"] ∧ w ≠ "++" ∧ w ≠ "--" := by decide
      rcases primary_word_ok hk hru with hr | hr
      · have hn : c.current.IsName := ⟨hs, hr⟩
        refine ⟨hn.isPrefixOperator_eq_false, ?_⟩
        simp [isUpdateOperator, hn.is_eq_false (w := "++") (.inr (by decide)),
          hn.is_eq_false (w := "--") (.inr (by decide))]
      · obtain ⟨hb, hp, hm⟩ := hme _ hr
        have hu : isUpdateOperator c.current = false := by
          simp [isUpdateOperator, is, hp, hm]
        refine ⟨?_, hu⟩
        simpa [isPrefixOperator, hk] using hb

theorem Rules.Calls.plain (h : Calls σ n c c') (hc : c.Proper) :
    isPrefixOperator c.current = false ∧ isUpdateOperator c.current = false := by
  obtain ⟨e, c₀, hh, -⟩ := h
  exact hh.plain hc

namespace Fits

theorem expression (h : Fits 0 σ n c c') (hb : bond σ.allowIn c'.current = 0) :
    Reruns expressionRule σ n c c' := h hb

theorem assignment (h : Fits 1 σ n c c') (hb : bond σ.allowIn c'.current ≤ 1) :
    Reruns assignmentRule σ n c c' := h hb

theorem joins_iff (hR : 3 ≤ R ∧ R ≤ 12) : Fits R σ n c c' ↔
    (bond σ.allowIn c'.current ≤ R + 1 → ∀ least, least + 2 ≤ R → Joins least σ n c c') := by
  rw [Fits, if_neg (by omega), if_neg (by omega), if_neg (by omega), if_pos hR.2]

theorem unary_iff (hR : 13 ≤ R ∧ R ≤ 14) :
    Fits R σ n c c' ↔ (bond σ.allowIn c'.current ≤ 13 → Reruns unaryRule σ n c c') := by
  rw [Fits, if_neg (by omega), if_neg (by omega), if_neg (by omega), if_neg (by omega), if_pos hR.2]

theorem calls_iff (hR : 15 ≤ R) :
    Fits R σ n c c' ↔ Calls σ n c c' ∧ (hasCall n = false → Members σ n c c') := by
  rw [Fits, if_neg (by omega), if_neg (by omega), if_neg (by omega), if_neg (by omega),
    if_neg (by omega)]

/-- A head with nothing behind it fits everywhere. -/
theorem of_heads {e : Node} (he : e.Alike n) (h : Heads σ c e c') (hR : 15 ≤ R) : Fits R σ n c c' :=
  (calls_iff hR).2 ⟨⟨e, c', h, fun _ => .refl he⟩, fun _ => ⟨e, c', h, fun _ => .refl he⟩⟩

/-- What fits at a place fits at the next looser one. -/
theorem lower (hc : c.Proper) (h : Fits (R + 1) σ n c c') : Fits R σ n c c' := by
  match R with
  | 0 => exact fun hb => reruns_expression_plain (h (by omega)) (not_comma_of_bond hb)
  | 1 => exact fun hb => reruns_assignment_plain (h hb) (not_assignment_of_bond hb)
  | 2 =>
    intro hb
    have hst : ∀ s, operatorStrength? c'.current σ.allowIn = some s → s < 1 := by
      intro s hs
      rw [bond_operator hs] at hb
      omega
    have hj := (joins_iff (by omega)).1 h (by omega) 1 (by omega)
    exact reruns_conditional_plain (reruns_binary hj hst)
      (not_question_of_bond (Nat.le_succ_of_le hb))
  | R + 3 =>
    by_cases h₁₁ : R + 3 ≤ 11
    · refine (joins_iff (by omega)).2 fun hb least hl => ?_
      exact (joins_iff (by omega)).1 h (by omega) _ (by omega)
    by_cases h₁₂ : R + 3 = 12
    · refine (joins_iff (by omega)).2 fun hb least hl => ?_
      rw [h₁₂] at h hb
      exact joins_of_unary ((unary_iff (by omega)).1 h hb)
    by_cases h₁₃ : R + 3 = 13
    · rw [h₁₃] at h ⊢
      exact h
    by_cases h₁₄ : R + 3 = 14
    · refine (unary_iff (by omega)).2 fun hb => ?_
      have hca := ((calls_iff (by omega)).1 h).1
      obtain ⟨hbe, hu⟩ := hca.plain hc
      exact reruns_unary_plain hbe hu
        (reruns_callMember hca (not_call_of_bond hb)) (not_update_of_bond hb)
    · exact (calls_iff (by omega)).2 ((calls_iff (by omega)).1 h)

/-- What fits at a place fits at every looser one. -/
theorem mono (hc : c.Proper) (hle : R ≤ L) (h : Fits L σ n c c') : Fits R σ n c c' := by
  induction hle with
  | refl => exact h
  | step _ ih => exact ih (h.lower hc)

theorem of_primary (hc : c.Proper) (hn : c.current.is "new" = false)
    (h : Reruns primary σ n c c') : Fits R σ n c c' := by
  refine mono hc (Nat.le_max_left R 15) ?_
  obtain ⟨e, he, hr⟩ := h
  exact of_heads he (by simpa [Heads, hn] using hr) (by omega)

end Fits

-- == alike levels

theorem Level.ofNode_eq (h : m.Alike n) : Level.ofNode m = Level.ofNode n := by
  unfold Level.ofNode
  rw [h.kind_eq, h.string?_eq (show "operator" ≠ "raw" by decide),
    h.flag_eq (show "prefix" ≠ "raw" by decide)]

theorem isIn_eq (h : m.Alike n) : Code.isIn m = Code.isIn n := by
  rw [Code.isIn, Code.isIn, h.kind_eq, h.string?_eq (by decide)]

theorem isNumber_eq (h : m.Alike n) : isNumber m = isNumber n := by
  rw [isNumber, isNumber, h.kind_eq, h.data?_eq (by decide)]

theorem hasCall_member (h : n.kind = .memberExpression) :
    hasCall n = ((n.child? "object").map hasCall).getD false := by
  rw [hasCall]
  simp only [h]
  split <;> next hc => rw [hc]; rfl

theorem hasCall_eq {m n : Node} (h : m.Alike n) : hasCall m = hasCall n := by
  by_cases hk : n.kind = .memberExpression
  · rw [hasCall_member (h.kind_eq.trans hk), hasCall_member hk]
    have hc := h.child?_eq (show "object" ≠ "raw" by decide)
    rcases hm : m.child? "object" with _ | m' <;> rcases hn : n.child? "object" with _ | n' <;>
      simp only [hm, hn, Option.map_none, Option.map_some] at hc ⊢
    · cases hc
    · cases hc
    · exact hasCall_eq (Option.some.inj hc)
  · rw [hasCall, hasCall, h.kind_eq]
    cases hki : n.kind <;> first | rfl | exact absurd hki hk
termination_by m.size
decreasing_by exact Node.size_lt_of_child? hm

-- == spelling

/-- What reading the code of a node gives: nothing is broken around it,
and the node fits. -/
structure Regained (R : Nat) (σ : Scope) (n : Node) (b : Bool) (c : Cursor) (b' : Bool)
    (c' : Cursor) : Prop where
  closed : b' = false
  unbroken : b = false → c.current.newlineBefore = false
  fits : Fits R σ n c c'

/-- The pieces are code for the node at a place of level `R`; `g` says
whether an `in` may stand there without parentheses. -/
structure Spells (R : Nat) (g : Bool) (n : Node) (P : List Piece) : Prop where
  opens : Opens P true
  /-- Only a number minds a point behind it. -/
  free : 15 ≤ R → isNumber n = false → Opens P false
  reads : ∀ {indented : Bool} {σ : Scope} {b b' : Bool} {c c' : Cursor},
    (g = true → σ.allowIn = true) → c.Proper → Reads indented P b c b' c' →
    Regained R σ n b c b' c'

namespace Spells

variable {g : Bool} {P : List Piece} {N : Token → Prop}

theorem mono (h : Spells L g n P) (hle : R ≤ L) : Spells R g n P where
  opens := h.opens
  free hR := h.free (by omega)
  reads hg hc hr := by
    obtain ⟨hcl, hu, hf⟩ := h.reads hg hc hr
    exact ⟨hcl, hu, hf.mono hc hle⟩

theorem marks (h : Spells R g n P) (m : Node) : Spells R g n (m.marks ++ P) where
  opens := flowing_marks_append.2 h.opens
  free hR hn := flowing_marks_append.2 (h.free hR hn)
  reads hg hc hr := h.reads hg hc (reads_marks_append.1 hr)

/-! Reading it with the rule for its place. -/

theorem unbroken (h : Spells R g n P) : Unbroken P := fun _ _ _ _ hc hr =>
  (h.reads (σ := Scope.top) (fun _ => rfl) hc hr).unbroken rfl

theorem closed (h : Spells R g n P) : Closed P := fun _ _ _ _ _ hc hr =>
  (h.reads (σ := Scope.top) (fun _ => rfl) hc hr).closed

theorem parses_expression (h : Spells R g n P) (hg : g = true → σ.allowIn = true) :
    Parses 0 σ expressionRule (·.Alike n) P (bond σ.allowIn · = 0) :=
  .of_reruns fun hc hr hn =>
    ((h.reads hg hc hr).fits.mono hc (Nat.zero_le R)).expression hn

theorem parses_assignment (h : Spells 1 g n P) (hg : g = true → σ.allowIn = true) :
    Parses 0 σ assignmentRule (·.Alike n) P (bond σ.allowIn · ≤ 1) :=
  .of_reruns fun hc hr hn => (h.reads hg hc hr).fits.assignment hn

theorem parses_unary (h : Spells 13 g n P) (hg : g = true → σ.allowIn = true) :
    Parses 0 σ unaryRule (·.Alike n) P (bond σ.allowIn · ≤ 13) :=
  .of_reruns fun hc hr hn => (Fits.unary_iff (by decide)).1 (h.reads hg hc hr).fits hn

/-- The operand before a token that is no binary operator. -/
theorem parses_binary (h : Spells R g n P) (hR : 3 ≤ R) (hg : g = true → σ.allowIn = true) :
    Parses 0 σ (fun r => r.binaryRule 1) (·.Alike n) P (bond σ.allowIn · ≤ 3) := by
  refine .of_reruns fun hc hr hn => ?_
  have hf := (h.reads hg hc hr).fits.mono hc hR
  refine reruns_binary ((Fits.joins_iff (by decide)).1 hf (Nat.le_succ_of_le hn) _ (by decide)) ?_
  intro s hs
  rw [bond_operator hs] at hn
  omega

theorem parses_parenthesized (h : Spells R true n P) :
    Parses 0 σ Rules.parenthesized (·.Alike n) (Code.parens P) N :=
  .expect (by decide) fun _ => .bind (.withIn (.below (h.parses_expression fun _ => rfl)))
    (.token (by decide) fun h => bond_stop h (by decide)) fun _ hn => .expect (by decide) fun _ =>
      .pure hn

theorem parses_primary (h : Spells R true n P) :
    Parses 0 σ Rules.primary (·.Alike n) (Code.parens P) N := by
  refine h.parses_parenthesized.congr .shown fun r c ⟨hk, ht⟩ => ?_
  rw [primary_punct r hk, ht]
  rfl

/-! Showing that code is there for a place. -/

/-- What is read by the rule for a loose place is code for it. -/
theorem of_parses (hR : R < 15) (p : Rules Rule → Rule Node) (N : Bool → Token → Prop)
    (hf : ∀ {σ c c'}, (N σ.allowIn c'.current → Reruns p σ n c c') → Fits R σ n c c')
    (ho : Opens P true) (hu : Unbroken P) (hcl : Closed P)
    (h : ∀ σ : Scope, (g = true → σ.allowIn = true) → Parses 0 σ p (·.Alike n) P (N σ.allowIn)) :
    Spells R g n P where
  opens := ho
  free hle := absurd hle (by omega)
  reads hg hc hr := by
    refine ⟨hcl hc hr, ?_, hf ((h _ hg).reruns hc hr)⟩
    rintro rfl
    exact hu hc hr

theorem of_primary (ho : Opens P false) (hu : Unbroken P) (hcl : Closed P)
    (hn : Starts P (fun _ => True) (·.is "new" = false))
    (h : ∀ σ, Parses 0 σ primary (·.Alike n) P fun _ => True) : Spells R g n P where
  opens := ho.loosen
  free _ _ := ho
  reads _ hc hr := by
    refine ⟨hcl hc hr, ?_, ?_⟩
    · rintro rfl
      exact hu hc hr
    · exact .of_primary hc (hn hc hr trivial) ((h _).reruns hc hr trivial)

end Spells

theorem opens_parens (h : Rests P true) : Opens (Code.parens P) false :=
  .opening (h.append (.closing .nil rfl rfl)) rfl rfl

/-- Code in parentheses can stand everywhere. -/
theorem Spells.parens {g : Bool} (h : Spells L true n P) : Spells R g n (Code.parens P) :=
  .of_primary (opens_parens h.opens.follows.rests) unbroken_token closed_token.behind
    (.token (by decide) fun h => is_eq_false_of_is h (by decide)) fun _ => h.parses_primary

-- == starting

/-- What a rule runs on has a derivation. -/
theorem Reruns.derives {s : Symbol} (h : Reruns p σ n c c') (hp : ∀ k, Sound s (p (level k)))
    (hc : c.Proper) : ∃ n' ts, n'.Alike n ∧ c.Takes ts c' ∧ Derives σ.frame s ts [n'] := by
  obtain ⟨n', hn, hr⟩ := h
  obtain ⟨ts, hts, hd⟩ := hp _ hc (hr.run _ (Nat.le_refl _))
  exact ⟨n', ts, hn, hts, hd⟩

/-- An expression takes a token, and one that starts expressions. -/
theorem Reruns.starts (h : Reruns p σ n c c') (hp : ∀ k, Sound .expression (p (level k)))
    (hc : c.Proper) : startsExpression c.current = true ∧ c'.rest.length < c.rest.length := by
  obtain ⟨n', ts, -, hts, hd⟩ := h.derives hp hc
  obtain ⟨t, us, rfl, ht⟩ := hd.startsWell rfl
  have hh := hts.head?_eq (List.cons_ne_nil _ _)
  have hl := hts.length
  simp only [List.head?_cons, Option.some.injEq, List.length_cons] at hh hl
  subst hh
  exact ⟨ht, by omega⟩

theorem Reruns.starts_assignment (h : Reruns assignmentRule σ n c c') (hc : c.Proper) :
    startsExpression c.current = true ∧ c'.rest.length < c.rest.length :=
  h.starts (fun k => assignmentRule_sound (level_sound k)) hc

theorem Reruns.starts_expression (h : Reruns expressionRule σ n c c') (hc : c.Proper) :
    startsExpression c.current = true ∧ c'.rest.length < c.rest.length :=
  h.starts (fun k => expressionRule_sound (level_sound k)) hc

/-- What is read as an expression starts like one. -/
theorem Parses.starts_expression {N : Token → Prop}
    (h : Parses 0 σ expressionRule (·.Alike n) P N) :
    Starts P N fun t => startsExpression t = true ∧ t.IsSpelled :=
  fun _ _ _ _ _ hc hr hn =>
    ⟨((h.reruns hc hr hn).starts_expression hc).1, hc.current⟩

-- == faithful

/-- The expression has code that reads back as it. -/
def Faithful (n : Node) : Prop :=
  ∀ (g : Bool) (depth : Nat), ∃ P, Code.expressionBody g depth n = .ok P ∧
    (g = true ∨ Code.isIn n = false → Spells (Level.ofNode n) g n P)

/-- How an expression of a known level is shown to be faithful. -/
theorem faithful_of (hL : Level.ofNode n = L)
    (h : ∀ (g : Bool) (depth : Nat), ∃ P, Code.expressionBody g depth n = .ok P ∧
      (g = true ∨ Code.isIn n = false → Spells L g n P)) : Faithful n := by
  rw [Faithful, hL]
  exact h

/-- At a place, an expression stands in parentheses or binds tightly
enough. -/
theorem Faithful.expression (h : Faithful n) (R : Nat) (g : Bool) (depth : Nat) :
    ∃ P, Code.expression R g depth n = .ok P ∧ Spells R g n P := by
  rw [Code.expression]
  generalize hw : (decide (Level.ofNode n < R) || (Code.isIn n && !g)) = wrap
  obtain ⟨P, hc, hs⟩ := h (g || wrap) depth
  refine ⟨if wrap then Code.parens (n.marks ++ P) else n.marks ++ P, by rw [hc]; rfl, ?_⟩
  cases wrap with
  | true =>
    rw [Bool.or_true] at hs
    exact ((hs (.inl rfl)).marks n).parens
  | false =>
    simp only [Bool.or_eq_false_iff, decide_eq_false_iff_not, Bool.and_eq_false_iff,
      Bool.not_eq_false'] at hw
    rw [Bool.or_false] at hs
    exact ((hs hw.2.symm).marks n).mono (by omega)

end Inlay.Script
