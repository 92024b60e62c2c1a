/-
The rules come to an end.

A rule calls the rules of the level below only behind a token it has
taken. So what the rules are further down than there are tokens does not
matter, and the scope is as it was when the rule is through. Both are said
at once: if the parser `Agree`s with the rules of the theory where at most
`k` tokens come before the end, it agrees one level up with one token more.

What agrees is found by the way a rule is put together, by instances of
two classes: the parser `Keeps` to a rule, or `Gains` a token as well.
-/
import Inlay.Proofs.Script.Rule

namespace Inlay.Script

open Rule Rules

set_option synthInstance.maxSize 4096

variable {α β : Type} {d k : Nat} {σ : Scope} {c : Cursor} {p p' : Parser α} {q q' : Rule α}
  {f : α → Parser β} {g : α → Rule β} {r : Rules Parser} {r' : Rules Rule} {text : String} {t : Token}

-- == runs that agree

/-- At a place the parser does what the rule does, with the same scope
afterwards, and on success at least `d` tokens are taken, none of which is
the end. -/
def Accord (d : Nat) (p : Parser α) (q : Rule α) (σ : Scope) (c : Cursor) : Prop :=
  p ⟨σ, c⟩ = (q σ c).map (fun x => (x.1, ⟨σ, x.2⟩)) ∧
    ∀ a c', q σ c = .ok (a, c') → ∃ ts, c.Takes ts c' ∧ d ≤ ts.length

/-- They agree where at most `k` tokens come before the end. -/
class Keeps (k : Nat) (p : Parser α) (q : Rule α) : Prop where
  run : ∀ {σ c}, c.Ends → c.rest.length ≤ k → Accord 0 p q σ c

/-- They agree where at most one token more than `k` comes before the end,
and take a token. -/
class Gains (k : Nat) (p : Parser α) (q : Rule α) : Prop where
  run : ∀ {σ c}, c.Ends → c.rest.length ≤ k + 1 → Accord 1 p q σ c

namespace Accord

/-- More tokens may be taken than are asked for. -/
theorem loosen (h : Accord d p q σ c) : Accord 0 p q σ c :=
  ⟨h.1, fun a c' ha => (h.2 a c' ha).imp fun _ ht => ⟨ht.1, Nat.zero_le _⟩⟩

/-- What comes behind the tokens that were taken. -/
theorem bind (h : Accord d p q σ c) (he : c.Ends) (hl : c.rest.length ≤ k + d)
    (hf : ∀ a, Keeps k (f a) (g a)) : Accord d (p >>= f) (q >>= g) σ c := by
  obtain ⟨hpq, hp⟩ := h
  have hb : (p >>= f) ⟨σ, c⟩ = (p ⟨σ, c⟩).bind fun x => f x.1 x.2 := rfl
  rw [Accord, bind_run, hb, hpq]
  cases hr : q σ c with
  | error e => exact ⟨rfl, nofun⟩
  | ok x =>
    -- behind the `d` tokens there are at most `k` in front
    obtain ⟨ts, hts, hd⟩ := hp x.1 x.2 hr
    have hle := hts.length
    obtain ⟨heq, hn⟩ := (hf x.1).run (σ := σ) (hts.ends he) (by omega)
    refine ⟨heq, fun b c' hb => ?_⟩
    obtain ⟨us, hus, -⟩ := hn b c' hb
    exact ⟨ts ++ us, hts.append hus, by simp only [List.length_append]; omega⟩

/-- A choice that both sides make alike. -/
theorem ite {w : Prop} [Decidable w] (h : w → Accord d p q σ c) (h' : ¬w → Accord d p' q' σ c) :
    Accord d (if w then p else p') (if w then q else q') σ c := by
  split
  · exact h ‹_›
  · exact h' ‹_›

/-- Looking at the current token takes nothing. -/
theorem peek {f : Token → Parser β} {g : Token → Rule β} (h : Accord d (f c.current) (g c.current) σ c) :
    Accord d (peek >>= f) (peek >>= g) σ c := h

/-- A token that is not the end can be taken. -/
theorem take (h : c.current.isEnd = false) (he : c.Ends) : Accord 1 Rule.next Rule.next σ c := by
  refine ⟨rfl, fun a c' ha => ?_⟩
  cases ha
  exact ⟨[c.current], he.takes h, Nat.le_refl 1⟩

/-- A token that is not the end is taken. -/
theorem next {f : Token → Parser β} {g : Token → Rule β} (h : c.current.isEnd = false) (he : c.Ends)
    (hl : c.rest.length ≤ k + 1) (hf : ∀ t, Keeps k (f t) (g t)) :
    Accord 1 (Rule.next >>= f) (Rule.next >>= g) σ c :=
  bind (take h he) he hl hf

/-- The parser puts back the scope around a rule. -/
theorem within {τ : Scope} {b : Scope → Scope} (h : Accord d p q τ c)
    (hp : p' ⟨σ, c⟩ = (p ⟨τ, c⟩).map fun x => (x.1, ⟨b x.2.scope, x.2.cursor⟩))
    (hb : b τ = σ) (hq : q' σ c = q τ c) : Accord d p' q' σ c := by
  obtain ⟨hpq, ht⟩ := h
  refine ⟨?_, hq ▸ ht⟩
  rw [hp, hpq, hq]
  cases q τ c with
  | error e => rfl
  | ok x =>
    subst hb
    rfl

end Accord

-- == small rules

/-- A rule that takes no token. -/
theorem keeps_of_still (hp : ∀ σ c, p ⟨σ, c⟩ = (q σ c).map fun x => (x.1, ⟨σ, x.2⟩))
    (h : ∀ σ c a c', q σ c = .ok (a, c') → c' = c) : Keeps k p q where
  run {σ c} _ _ := ⟨hp σ c, fun a c' ha => ⟨[], h σ c a c' ha ▸ .nil c, Nat.zero_le _⟩⟩

instance {a : α} : Keeps k (pure a) (pure a) :=
  keeps_of_still (fun _ _ => rfl) fun _ _ _ _ h => by cases h; rfl

instance : Keeps k peek peek := keeps_of_still (fun _ _ => rfl) fun _ _ _ _ h => by cases h; rfl

instance : Keeps k (atToken text) (atToken text) :=
  keeps_of_still (fun _ _ => rfl) fun _ _ _ _ h => by cases h; rfl

instance : Keeps k (read : Parser Scope) (read : Rule Scope) :=
  keeps_of_still (fun _ _ => rfl) fun _ _ _ _ h => by cases h; rfl

instance {start : Nat} {kind : Kind} {props : List (String × Field Node)} :
    Keeps k (finish start kind props) (finish start kind props) :=
  keeps_of_still (fun _ _ => rfl) fun _ _ _ _ h => by cases h; rfl

instance {i : Nat} {cause : Cause} : Gains k (fail i cause : Parser α) (fail i cause) where
  run _ _ := ⟨rfl, nofun⟩

instance : Gains k (unexpected t : Parser α) (unexpected t) where
  run _ _ := ⟨rfl, nofun⟩

/-- A token that is expected is taken, or the rule fails. -/
instance : Gains k (expect text) (expect text) where
  run he hl := .peek (.ite (fun h => .take (Token.isEnd_of_is h) he) fun _ => Gains.run he hl)

/-- The end is not moved past. -/
instance : Keeps k next next where
  run {σ c} he _ := by
    cases h : c.current.isEnd with
    | false => exact (Accord.take h he).loosen
    | true =>
      refine ⟨rfl, fun a c' ha => ?_⟩
      cases ha
      exact ⟨[], show c.Takes [] c.advance by rw [Cursor.advance, if_pos h]; exact .nil c,
        Nat.zero_le _⟩

-- == rules put together

/-- A rule that takes a token may take none. -/
instance (priority := low) [h : Gains k p q] : Keeps k p q where
  run he hl := (h.run he (Nat.le_succ_of_le hl)).loosen

/-- It needs one token less below it. -/
instance (priority := low) [h : Gains k p q] : Keeps (k + 1) p q where
  run he hl := (h.run he hl).loosen

theorem Keeps.mono (h : Keeps (k + 1) p q) : Keeps k p q where
  run he hl := h.run he (Nat.le_succ_of_le hl)

/-- One rule behind another. -/
instance [h : Keeps k p q] [hf : ∀ a, Keeps k (f a) (g a)] : Keeps k (p >>= f) (q >>= g) where
  run he hl := (h.run he hl).bind he hl hf

/-- What comes behind a token that is taken need not take another. -/
instance [h : Gains k p q] [hf : ∀ a, Keeps k (f a) (g a)] : Gains k (p >>= f) (q >>= g) where
  run he hl := (h.run he hl).bind he hl hf

/-- A rule may look at the current token first. -/
instance {f : Token → Parser β} {g : Token → Rule β} [h : ∀ t, Gains k (f t) (g t)] :
    Gains k (peek >>= f) (peek >>= g) where
  run {_ c} he hl := (h c.current).run he hl

/-- So it may ask for the current token. -/
instance {f : Bool → Parser β} {g : Bool → Rule β} [h : ∀ b, Gains k (f b) (g b)] :
    Gains k (atToken text >>= f) (atToken text >>= g) where
  run {_ c} he hl := (h (c.current.is text)).run he hl

/-- So it may ask for the scope. -/
instance {f : Scope → Parser β} {g : Scope → Rule β} [h : ∀ σ, Gains k (f σ) (g σ)] :
    Gains k (read >>= f) (read >>= g) where
  run {σ _} he hl := (h σ).run he hl

instance {w : Prop} [Decidable w] [h : Keeps k p q] [h' : Keeps k p' q'] :
    Keeps k (if w then p else p') (if w then q else q') where
  run he hl := .ite (fun _ => h.run he hl) fun _ => h'.run he hl

instance {w : Prop} [Decidable w] [h : Gains k p q] [h' : Gains k p' q'] :
    Gains k (if w then p else p') (if w then q else q') where
  run he hl := .ite (fun _ => h.run he hl) fun _ => h'.run he hl

instance {f : α → β} [h : Keeps k p q] : Keeps k (f <$> p) (f <$> q) := by
  rw [map_eq_pure_bind, map_eq_pure_bind]
  infer_instance

/-- Whether `in` is an operator is as it was behind a rule. -/
instance {allowIn : Bool} [h : Keeps k p q] : Keeps k (withIn allowIn p) (withIn allowIn q) where
  run {σ _} he hl :=
    .within (b := fun τ => { τ with allowIn := σ.allowIn }) (h.run he hl) rfl rfl rfl

/-- Behind a function its surroundings are as they were. -/
instance [h : Keeps k p q] : Keeps k (inFunction p) (inFunction q) where
  run {σ _} he hl :=
    .within (b := fun τ => { τ with inFunction := σ.inFunction, labels := σ.labels })
      (p := withIn true p) (Keeps.run (q := withIn true q) he hl) rfl rfl rfl

/-- A label is taken back behind its statement. -/
instance [h : Keeps k p q] : Keeps k (labelled text p) (labelled text q) where
  run {σ _} he hl :=
    .within (b := fun τ => { τ with labels := τ.labels.dropLast }) (h.run he hl) rfl
      (by rw [List.dropLast_concat]) rfl

/-- Where a token is taken if it is there, what comes behind it may be one
level down. -/
theorem Accord.eat (h : Keeps k p q) (h' : Accord d p' q' σ c) (hd : d ≤ 1) (he : c.Ends)
    (hl : c.rest.length ≤ k + 1) :
    Accord d (do if ← eat text then p else p') (do if ← eat text then q else q') σ c := by
  have hp : (do if ← Rule.eat text then p else p' : Parser α) ⟨σ, c⟩ =
      if c.current.is text then p ⟨σ, c.advance⟩ else p' ⟨σ, c⟩ := by
    show ((if c.current.is text then (do let _ ← Rule.next; return true) else return false :
      Parser Bool) ⟨σ, c⟩).bind (fun x => (if x.1 = true then p else p') x.2) = _
    split <;> rfl
  rw [Accord, hp, bind_run, eat_run]
  split
  · next ht =>
    obtain ⟨heq, hq⟩ := next (f := fun _ => p) (g := fun _ => q) (Token.isEnd_of_is ht) he hl
      fun _ => h
    exact ⟨heq, fun a c' ha => (hq a c' ha).imp fun _ ht => ⟨ht.1, Nat.le_trans hd ht.2⟩⟩
  · exact h'

instance [h : Keeps k p q] [h' : Gains k p' q'] :
    Gains k (do if ← eat text then p else p') (do if ← eat text then q else q') where
  run he hl := .eat h (h'.run he hl) (Nat.le_refl 1) he hl

instance [h : Keeps k p q] [h' : Keeps (k + 1) p' q'] :
    Keeps (k + 1) (do if ← eat text then p else p') (do if ← eat text then q else q') where
  run he hl := .eat h (h'.run he hl) (Nat.zero_le 1) he hl

instance : Keeps k (eat text) (eat text) := by
  unfold eat
  infer_instance

/-- A semicolon may be missing. -/
instance : Keeps k semicolon semicolon := by
  unfold semicolon
  infer_instance

-- == levels that agree

/-- The rules of two levels agree where at most `k` tokens come before the
end. -/
class Rules.Agree (k : Nat) (r : Rules Parser) (r' : Rules Rule) : Prop where
  program : Keeps k r.program r'.program
  statement : Keeps k r.statement r'.statement
  block : Keeps k r.block r'.block
  caseBody : Keeps k r.caseBody r'.caseBody
  cases : Keeps k r.cases r'.cases
  declarators : Keeps k r.declarators r'.declarators
  params : Keeps k r.params r'.params
  expression : Keeps k r.expression r'.expression
  sequence : Keeps k r.sequence r'.sequence
  assignment : Keeps k r.assignment r'.assignment
  binary : ∀ least, Keeps k (r.binary least) (r'.binary least)
  binaryTail : ∀ start least n, Keeps k (r.binaryTail start least n) (r'.binaryTail start least n)
  unary : Keeps k r.unary r'.unary
  callTail : ∀ start n, Keeps k (r.callTail start n) (r'.callTail start n)
  memberTail : ∀ start n, Keeps k (r.memberTail start n) (r'.memberTail start n)
  newExpression : Keeps k r.newExpression r'.newExpression
  arguments : Keeps k r.arguments r'.arguments
  elements : Keeps k r.elements r'.elements
  properties : Keeps k r.properties r'.properties

namespace Rules

attribute [instance] Agree.program Agree.statement Agree.block Agree.caseBody Agree.cases
  Agree.declarators Agree.params Agree.expression Agree.sequence Agree.assignment Agree.binary
  Agree.binaryTail Agree.unary Agree.callTail Agree.memberTail Agree.newExpression
  Agree.arguments Agree.elements Agree.properties

variable [Agree k r r'] {start least : Nat} {n : Node} {kind : Kind}

-- == expressions

/-- Only the token of kind `eof` is the end. -/
theorem isEnd_of_kind (hk : t.kind ≠ .eof) : t.isEnd = false := by simpa [Token.isEnd] using hk

/-- A name is one token. -/
instance : Gains k identifierName identifierName where
  run he hl := .ite
    (fun h => .next (isEnd_of_kind (by simp_all)) he hl fun _ => inferInstance)
    fun _ => Gains.run he hl

instance : Gains k identifier identifier := by
  dsimp only [identifier]
  infer_instance

/-- A block takes its brace. -/
instance : Gains k r.blockStatement r'.blockStatement := by
  dsimp only [blockStatement]
  infer_instance

instance {id : Option Node} :
    Gains k (r.functionRest kind id start) (r'.functionRest kind id start) := by
  dsimp only [functionRest]
  infer_instance

/-- A function takes the word `function`. -/
instance : Gains k (r.function kind) (r'.function kind) := by
  dsimp only [function]
  infer_instance

instance : Gains k r.paramsRule r'.paramsRule := by
  dsimp only [paramsRule]
  infer_instance

instance {value : Json} : Keeps k (literal value text start) (literal value text start) := by
  dsimp only [literal]
  infer_instance

instance : Keeps k (regexLiteral text start) (regexLiteral text start) := by
  dsimp only [regexLiteral]
  infer_instance

/-- A literal is the current token. -/
theorem literalToken_accord (he : c.Ends) (hl : c.rest.length ≤ k + 1) :
    Accord 1 (literalToken c.current) (literalToken c.current) σ c := by
  unfold literalToken
  split
  · next hk =>
    exact .next (isEnd_of_kind (by simp [hk])) he hl fun _ => by split <;> infer_instance
  · next hk =>
    exact .next (isEnd_of_kind (by simp [hk])) he hl fun _ => by split <;> infer_instance
  · next hk =>
    exact .next (isEnd_of_kind (by simp [hk])) he hl fun _ => inferInstance
  · exact Gains.run he hl

/-- A key is a name or a literal. -/
instance : Gains k propertyKey propertyKey where
  run he hl := by
    refine .peek ?_
    split
    · exact literalToken_accord he hl
    · exact literalToken_accord he hl
    · exact Gains.run he hl
    · exact Gains.run he hl

instance : Gains k r.array r'.array := by
  dsimp only [array]
  infer_instance

/-- A getter or a setter takes its word, any other property its key. -/
instance : Gains k r.property r'.property where
  run he hl := .ite
    (fun h => .next (isEnd_of_kind (by simp_all)) he hl fun _ => inferInstance)
    fun _ => Gains.run he hl

instance : Gains k r.propertiesRule r'.propertiesRule := by
  dsimp only [propertiesRule]
  infer_instance

instance : Gains k r.object r'.object := by
  dsimp only [object]
  infer_instance

instance : Gains k r.parenthesized r'.parenthesized := by
  dsimp only [parenthesized]
  infer_instance

/-- A primary expression takes the token that it is told by. -/
instance : Gains k r.primary r'.primary where
  run {σ c} he hl := by
    refine .peek ?_
    dsimp only
    split
    · next hk =>
      have hend : c.current.isEnd = false := isEnd_of_kind (by simp [hk])
      refine .ite (fun _ => Gains.run he hl) fun _ => ?_
      refine .ite (fun _ => .next hend he hl fun _ => inferInstance) fun _ => ?_
      refine .ite (fun _ => .next hend he hl fun _ => inferInstance) fun _ => ?_
      refine .ite (fun _ => .next hend he hl fun _ => inferInstance) fun _ => Gains.run he hl
    · exact Gains.run he hl
    · exact literalToken_accord he hl

instance : Gains k r.argumentList r'.argumentList := by
  dsimp only [argumentList]
  infer_instance

/-- A member takes the dot or the bracket. -/
instance : Gains k (r.member start n) (r'.member start n) := by
  dsimp only [member]
  infer_instance

/-- The tail of an expression may be empty. -/
instance : Keeps (k + 1) (r.callTailRule start n) (r'.callTailRule start n) := by
  dsimp only [callTailRule]
  infer_instance

instance : Keeps k (r.callTailRule start n) (r'.callTailRule start n) := .mono inferInstance

instance : Keeps (k + 1) (r.memberTailRule start n) (r'.memberTailRule start n) := by
  dsimp only [memberTailRule]
  infer_instance

instance : Keeps k (r.memberTailRule start n) (r'.memberTailRule start n) := .mono inferInstance

instance : Gains k r.newExpressionRule r'.newExpressionRule := by
  dsimp only [newExpressionRule]
  infer_instance

instance : Gains k r.callMember r'.callMember := by
  dsimp only [callMember]
  infer_instance

/-- A unary expression takes its operator or its operand. -/
instance : Gains k r.unaryRule r'.unaryRule where
  run {σ c} he hl := by
    refine .ite (fun h => .next ?_ he hl fun _ => inferInstance) fun _ =>
      .ite (fun h => .next ?_ he hl fun _ => inferInstance) fun _ => Gains.run he hl
    · refine isEnd_of_kind fun hk => ?_
      rw [isPrefixOperator, hk] at h
      cases h
    · exact (Bool.or_eq_true_iff.1 h).elim Token.isEnd_of_is Token.isEnd_of_is

/-- An operator that binds tightly enough is taken. -/
instance : Keeps (k + 1) (r.binaryTailRule start least n) (r'.binaryTailRule start least n) where
  run {σ c} he hl := by
    show Accord 0 (match operatorStrength? c.current σ.allowIn with
      | some s => if s < least then pure n else next >>= _
      | none => pure n) (match operatorStrength? c.current σ.allowIn with
      | some s => if s < least then pure n else next >>= _
      | none => pure n) σ c
    split
    · next hs =>
      refine .ite (fun _ => Keeps.run he hl) fun _ =>
        .loosen (.next ?_ he hl fun _ => inferInstance)
      refine isEnd_of_kind fun hk => ?_
      simp [operatorStrength?, hk] at hs
    · exact Keeps.run he hl

instance : Keeps k (r.binaryTailRule start least n) (r'.binaryTailRule start least n) :=
  .mono inferInstance

/-- A binary expression takes its first operand. -/
instance : Gains k (r.binaryRule least) (r'.binaryRule least) := by
  dsimp only [binaryRule]
  infer_instance

instance : Gains k r.conditional r'.conditional := by
  dsimp only [conditional]
  infer_instance

instance : Gains k r.assignmentRule r'.assignmentRule := by
  dsimp only [assignmentRule]
  infer_instance

instance : Keeps (k + 1) r.sequenceRule r'.sequenceRule := by
  dsimp only [sequenceRule]
  infer_instance

instance : Keeps k r.sequenceRule r'.sequenceRule := .mono inferInstance

/-- A sequence takes its first expression. -/
instance : Gains k r.expressionRule r'.expressionRule := by
  have (start : Nat) (first : Node) (list : List Node) : Keeps k (match list with
      | [] => pure first
      | more => finish start .sequenceExpression [("expressions", .nodes (first :: more))])
      (match list with
      | [] => pure first
      | more => finish start .sequenceExpression [("expressions", .nodes (first :: more))]) := by
    split <;> infer_instance
  dsimp only [expressionRule]
  infer_instance

instance : Gains k r.argumentsRule r'.argumentsRule := by
  dsimp only [argumentsRule]
  infer_instance

instance : Gains k r.elementsRule r'.elementsRule := by
  dsimp only [elementsRule]
  infer_instance

-- == statements

/-- A declaration takes a name at least. -/
instance : Gains k r.declaratorsRule r'.declaratorsRule := by
  dsimp only [declaratorsRule]
  infer_instance

instance : Keeps k r.variableDeclaration r'.variableDeclaration := by
  dsimp only [variableDeclaration]
  infer_instance

instance : Keeps k r.forInit r'.forInit := by
  dsimp only [forInit]
  infer_instance

instance : Keeps k (r.optionalExpression text) (r'.optionalExpression text) := by
  dsimp only [optionalExpression]
  infer_instance

instance : Keeps k (r.forInRest start n) (r'.forInRest start n) := by
  dsimp only [forInRest]
  infer_instance

instance {i : Option Node} : Keeps k (r.forRest start i) (r'.forRest start i) := by
  dsimp only [forRest]
  infer_instance

instance : Keeps k r.catchClause r'.catchClause := by
  dsimp only [catchClause]
  infer_instance

/-- A case takes its word. -/
instance : Gains k r.casesRule r'.casesRule := by
  dsimp only [casesRule]
  infer_instance

/-- A labelled statement takes its label. -/
instance : Gains k r.labeledStatement r'.labeledStatement := by
  dsimp only [labeledStatement]
  infer_instance

instance : Gains k r.expressionStatement r'.expressionStatement := by
  dsimp only [expressionStatement]
  infer_instance

/-- The two kinds of `for` differ behind their start. -/
theorem for_keeps (start : Nat) (init : Option Node) (b : Bool) : Keeps k (match init, b with
    | some left, true => r.forInRest start left
    | _, _ => r.forRest start init) (match init, b with
    | some left, true => r'.forInRest start left
    | _, _ => r'.forRest start init) := by
  split <;> infer_instance

/-- Every statement that is told by a word takes the word. -/
theorem wordStatement_accord (hk : c.current.kind = .word) (he : c.Ends)
    (hl : c.rest.length ≤ k + 1) :
    Accord 1 (r.wordStatement c.current) (r'.wordStatement c.current) σ c := by
  have hen : c.current.isEnd = false := isEnd_of_kind (by simp [hk])
  unfold wordStatement
  split
  case h_1 | h_2 | h_3 =>
    exact .peek ((Accord.next hen he hl fun _ => inferInstance).bind he hl fun _ => inferInstance)
  case h_4 => exact Gains.run he hl
  case h_6 =>
    have := @for_keeps k r r' _
    exact .next hen he hl fun _ => inferInstance
  case h_9 => exact .ite (fun _ => .next hen he hl fun _ => inferInstance) fun _ => Gains.run he hl
  case h_17 => exact .ite (fun _ => Gains.run he hl) fun _ => Gains.run he hl
  all_goals exact .next hen he hl fun _ => inferInstance

/-- A statement takes the token that it is told by. -/
instance : Gains k r.statementRule r'.statementRule where
  run {σ c} he hl := by
    refine .peek ?_
    split
    · next hk =>
      refine .ite (fun _ => Gains.run he hl) fun _ => .ite (fun _ => ?_) fun _ => Gains.run he hl
      exact .next (isEnd_of_kind (by simp [hk])) he hl fun _ => inferInstance
    · next hk => exact wordStatement_accord hk he hl
    · exact Gains.run he hl

instance : Keeps (k + 1) r.caseBodyRule r'.caseBodyRule := by
  dsimp only [caseBodyRule]
  infer_instance

instance : Gains k r.blockRule r'.blockRule := by
  dsimp only [blockRule]
  infer_instance

/-- At the end of a file there is no further statement. -/
instance : Keeps (k + 1) r.programRule r'.programRule := by
  dsimp only [programRule]
  infer_instance

-- == levels

/-- Rules one call further up agree with one token more in front. -/
theorem agree_above : Agree (k + 1) r.above r'.above := by
  constructor
  all_goals
    dsimp only [above]
    infer_instance

/-- At the end of the input nothing is called. -/
theorem keeps_zero {p : Parser α} {q : Rule α} (h : ∀ σ text span newline stop,
      p ⟨σ, ⟨⟨.eof, text, span, newline⟩, [], stop⟩⟩ =
        (q σ ⟨⟨.eof, text, span, newline⟩, [], stop⟩).map fun x => (x.1, ⟨σ, x.2⟩))
    (hq : ∀ σ c a c', q σ c = .ok (a, c') → c' = c) : Keeps 0 p q where
  run {σ c} he hl := by
    obtain ⟨t, rest, stop⟩ := c
    obtain rfl := List.length_eq_zero_iff.1 (Nat.le_zero.1 hl)
    obtain ⟨_, ht, hen⟩ := he
    cases ht
    obtain ⟨kind, text, span, newline⟩ := t
    obtain rfl : kind = .eof := by simpa [Token.isEnd] using hen
    exact ⟨h σ text span newline stop,
      fun a c' ha => ⟨[], hq σ _ a c' ha ▸ .nil _, Nat.zero_le _⟩⟩

/-- At the end of the input any rules agree with the ground. -/
theorem agree_ground (g : Rules Parser) : Agree 0 g.above ground ∧ Agree 0 ground ground := by
  constructor <;> constructor
  all_goals
    intros
    refine keeps_zero (fun _ _ _ _ _ => rfl) fun _ _ _ _ h => ?_
    cases h <;> rfl

/-- Rules that agree there agree `n` levels up where `n` tokens come before
the end. -/
theorem agree_iterate (h : Agree 0 r r') (n : Nat) : Agree n (above^[n] r) (above^[n] r') := by
  induction n with
  | zero => exact h
  | succ n ih =>
    rw [Function.iterate_succ_apply', Function.iterate_succ_apply']
    exact agree_above

/-- A level is so many steps above the ground. -/
theorem level_eq {m : Type → Type} [Parsing m] (n : Nat) :
    (level n : Rules m) = above^[n] ground := by
  induction n with
  | zero => rfl
  | succ n ih => rw [Function.iterate_succ_apply', ← ih, level]

/-- What the rules are further down does not matter. -/
theorem agree_level (g : Rules Parser) {n : Nat} (h : k < n) : Agree k (above^[n] g) (level k) := by
  obtain ⟨m, rfl⟩ := Nat.exists_eq_add_of_lt h
  rw [Nat.add_assoc, Function.iterate_add_apply, Function.iterate_succ_apply', level_eq]
  exact agree_iterate (agree_ground _).1 k

/-- The parser does what the rules say at every level. -/
theorem agree_self (n : Nat) : Agree n (level n) (level n) := by
  rw [level_eq, level_eq]
  exact agree_iterate (agree_ground ground).2 n

/-- The rule for a file ends, or it takes a statement and goes on below. -/
theorem programRule_ok {ns : List Node} {c' : Cursor} (h : r'.programRule σ c = .ok (ns, c')) :
    c.current.isEnd = true ∧ c' = c ∨
      ∃ n ms c₁, r'.statementRule σ c = .ok (n, c₁) ∧ r'.program σ c₁ = .ok (ms, c') := by
  unfold programRule at h
  rw [peek_bind] at h
  split at h
  · next he =>
    cases h
    exact .inl ⟨he, rfl⟩
  · obtain ⟨n, c₁, hn, h⟩ := bind_ok.1 h
    obtain ⟨ms, c₂, hms, h⟩ := bind_ok.1 h
    cases h
    exact .inr ⟨n, ms, c₁, hn, hms⟩

/-- The statements of a file go on to its end. -/
theorem programRule_isEnd {n : Nat} {ns : List Node} {c' : Cursor} (he : c.Ends)
    (hn : c.rest.length ≤ n) (h : (level (m := Rule) n).programRule σ c = .ok (ns, c')) :
    c'.current.isEnd = true := by
  have hg (n : Nat) : Gains n (level n).statementRule (level n).statementRule :=
    have := agree_self n
    inferInstance
  induction n generalizing c ns with
  | zero =>
    obtain ⟨hen, rfl⟩ | ⟨m, ms, c₁, hm, -⟩ := programRule_ok h
    · exact hen
    · obtain ⟨ts, hts, hlt⟩ := ((hg 0).run he (by omega)).2 m c₁ hm
      have := hts.length
      omega
  | succ n ih =>
    obtain ⟨hen, rfl⟩ | ⟨m, ms, c₁, hm, hms⟩ := programRule_ok h
    · exact hen
    · obtain ⟨ts, hts, hlt⟩ := ((hg (n + 1)).run he (by omega)).2 m c₁ hm
      have := hts.length
      exact ih (hts.ends he) (by omega) hms

/-- The rule for a file that is one expression. -/
def document {m : Type → Type} [Parsing m] (r : Rules m) : m Node := do
  let expression ← r.expressionRule
  let token ← peek
  if token.isEnd then return expression else unexpected token

instance : Gains k r.document r'.document := by
  dsimp only [document]
  infer_instance

end Rules

namespace Cursor

variable {ts us : List Token} {c' : Cursor} {e : Token}

/-- A list that ends with the end has all other tokens before it. -/
theorem ends_of_tokens (hc : c.tokens = ts ++ [e]) (he : e.isEnd = true) :
    c.Ends ∧ c.rest.length = ts.length := by
  refine ⟨⟨e, by rw [hc, List.getLast?_concat], he⟩, ?_⟩
  simpa [tokens] using congrArg List.length hc

/-- The end is not among the tokens that are taken. -/
theorem Takes.exists_rest (h : Takes c us c') (hc : c.tokens = ts ++ [e]) :
    ∃ vs, ts = us ++ vs ∧ c'.tokens = vs ++ [e] := by
  obtain ⟨vs, rfl, hvs⟩ | ⟨vs, rfl, hvs⟩ := List.append_eq_append_iff.1 (hc.symm.trans h.tokens_eq)
  · cases vs with
    | nil => exact ⟨[], by simp, hvs.symm⟩
    | cons v vs => exact absurd hvs (by simp [tokens])
  · exact ⟨vs, rfl, hvs⟩

/-- The end is the last token, so all tokens before it were taken. -/
theorem Takes.eq_of_isEnd (h : Takes c us c') (hc : c.tokens = ts ++ [e])
    (hts : ∀ t ∈ ts, t.isEnd = false) (he : c'.current.isEnd = true) : us = ts := by
  obtain ⟨vs, rfl, hvs⟩ := h.exists_rest hc
  cases vs with
  | nil => rw [List.append_nil]
  | cons v vs =>
    obtain ⟨rfl, -⟩ := List.cons.inj hvs
    rw [hts _ (by simp)] at he
    cases he

/-- The cursor on the first token. -/
def start : List Token → Cursor
  | t :: rest => ⟨t, rest, 0⟩
  | [] => ⟨⟨.eof, "", ⟨0, 0⟩, false⟩, [], 0⟩

end Cursor

-- == files

/-- The result is the same, whatever the state is afterwards. -/
theorem Accord.map_fst (h : Accord d p q σ c) : (p ⟨σ, c⟩).map (·.1) = (q σ c).map (·.1) := by
  rw [h.1]
  cases q σ c <;> rfl

/-- What the parser makes of a file is what the rules say. -/
theorem run_eq {P : Rules Parser → Parser α} {rest : List Token}
    (he : (⟨t, rest, 0⟩ : Cursor).Ends)
    (h : Agree rest.length (level rest.length) (level rest.length) →
      Keeps (rest.length + 1) (P (level rest.length)) q) :
    Rule.run P (t :: rest) = (q .top ⟨t, rest, 0⟩).map (·.1) :=
  ((h (agree_self _)).run he (Nat.le_succ _)).map_fst

/-- The statements of a file by the rules. -/
theorem statements_eq_rule {rest : List Token} (he : (⟨t, rest, 0⟩ : Cursor).Ends) :
    statements (t :: rest) =
      ((level (m := Rule) rest.length).programRule .top ⟨t, rest, 0⟩).map (·.1) :=
  run_eq he fun _ => inferInstance

/-- The expression that a file holds by the rules. -/
theorem soleExpression_eq_rule {rest : List Token} (he : (⟨t, rest, 0⟩ : Cursor).Ends) :
    soleExpression (t :: rest) =
      ((level (m := Rule) rest.length).document .top ⟨t, rest, 0⟩).map (·.1) :=
  run_eq (P := (·.document)) he fun _ => inferInstance

/-- What the parser finds the rule finds, with the scope as it was. -/
theorem Accord.exists_of_ok {a : α} {s' : State} (h : Accord d p q σ c)
    (hp : p ⟨σ, c⟩ = .ok (a, s')) : ∃ c', s' = ⟨σ, c'⟩ ∧ q σ c = .ok (a, c') := by
  rw [h.1] at hp
  cases hq : q σ c with
  | error e =>
    rw [hq] at hp
    cases hp
  | ok x =>
    rw [hq] at hp
    cases hp
    exact ⟨x.2, rfl, rfl⟩

/-- Reading a file comes to an end, whatever its tokens are: no rule calls
others further down than there are tokens, so that it does not matter
which rules are there. A construct takes at least one token, does not take
the end and leaves the scope as it found it, and the statements of a file
go on to its end. -/
theorem rules_progress {ts : List Token} {e : Token} (hen : e.isEnd = true)
    (hts : ∀ t ∈ ts, t.isEnd = false) :
    (∀ (g : Rules Parser) (n : Nat), ts.length < n → statements (ts ++ [e]) =
        ((above^[n] g).programRule ⟨.top, .start (ts ++ [e])⟩).map (·.1) ∧
      soleExpression (ts ++ [e]) =
        ((above^[n] g).document ⟨.top, .start (ts ++ [e])⟩).map (·.1)) ∧
    ∀ (s : State) (n : Nat), s.cursor.tokens = ts ++ [e] → ts.length ≤ n →
      (∀ p : Rules Parser → Parser Node,
        p ∈ [statementRule, assignmentRule, unaryRule, primary, property, fun _ => identifier] ∨
          (∃ least, p = (·.binaryRule least)) →
        ∀ a s', p (level n) s = .ok (a, s') → s'.scope = s.scope ∧ ∃ us vs, us ≠ [] ∧
          ts = us ++ vs ∧ s.cursor.Takes us s'.cursor ∧ s'.cursor.tokens = vs ++ [e]) ∧
      ∀ ns s', (level (m := Parser) n).programRule s = .ok (ns, s') →
        s'.scope = s.scope ∧ s.cursor.Takes ts s'.cursor ∧ s'.cursor.tokens = [e] := by
  refine ⟨fun g n hn => ?_, fun s n hc hn => ?_⟩
  · obtain ⟨t, rest, ht⟩ := List.exists_cons_of_ne_nil (l := ts ++ [e]) (by simp)
    obtain ⟨he, hl⟩ := Cursor.ends_of_tokens (c := ⟨t, rest, 0⟩) ht.symm hen
    have := agree_level g (hl ▸ hn)
    have hp : Keeps (rest.length + 1) (above^[n] g).programRule (level rest.length).programRule :=
      inferInstance
    have hd : Keeps (rest.length + 1) (above^[n] g).document (level rest.length).document :=
      inferInstance
    rw [ht, statements_eq_rule he, soleExpression_eq_rule he]
    exact ⟨(hp.run he (Nat.le_succ _)).map_fst.symm, (hd.run he (Nat.le_succ _)).map_fst.symm⟩
  obtain ⟨σ, c⟩ := s
  obtain ⟨he, hl⟩ := Cursor.ends_of_tokens hc hen
  have := agree_self n
  constructor
  · intro p hp a s' h
    obtain ⟨q, hg⟩ : ∃ q, Gains n (p (level n)) q := by
      rcases hp with hp | ⟨least, rfl⟩
      · simp only [List.mem_cons, List.not_mem_nil, or_false] at hp
        rcases hp with rfl | rfl | rfl | rfl | rfl | rfl
        · exact ⟨(level n).statementRule, inferInstance⟩
        · exact ⟨(level n).assignmentRule, inferInstance⟩
        · exact ⟨(level n).unaryRule, inferInstance⟩
        · exact ⟨(level n).primary, inferInstance⟩
        · exact ⟨(level n).property, inferInstance⟩
        · exact ⟨identifier, inferInstance⟩
      · exact ⟨(level n).binaryRule least, inferInstance⟩
    have hac := hg.run (σ := σ) he (by omega)
    obtain ⟨c', rfl, hq⟩ := hac.exists_of_ok h
    obtain ⟨us, hus, hlt⟩ := hac.2 _ _ hq
    obtain ⟨vs, hvs, hc'⟩ := hus.exists_rest hc
    exact ⟨rfl, us, vs, List.length_pos_iff.1 hlt, hvs, hus, hc'⟩
  · intro ns s' h
    have hk : Keeps (n + 1) (level n).programRule (level n).programRule := inferInstance
    have hac := hk.run (σ := σ) he (by omega)
    obtain ⟨c', rfl, hq⟩ := hac.exists_of_ok h
    obtain ⟨us, hus, -⟩ := hac.2 _ _ hq
    obtain rfl := hus.eq_of_isEnd hc hts (programRule_isEnd he (by omega) hq)
    exact ⟨rfl, hus, List.append_cancel_left (hus.tokens_eq.symm.trans hc)⟩

/-- A parenthesis that is never closed: reading it fails at the end, before
any rule two levels further down is called. -/
theorem rules_progress_unclosed : let lp : Token := ⟨.punct, "(", ⟨0, 1⟩, false⟩
    let e : Token := ⟨.eof, "", ⟨1, 1⟩, false⟩
    (e.isEnd = true ∧ lp.isEnd = false) ∧ ∀ g : Rules Parser,
      ((above^[2] g).programRule ⟨.top, .start [lp, e]⟩).map (·.1) = .error ⟨1, .unexpected e⟩ := by
  intro lp e
  have hlp : ∀ t ∈ [lp], t.isEnd = false := List.forall_mem_singleton.2 rfl
  have h := (rules_progress (e := e) rfl hlp).1
  exact ⟨⟨rfl, rfl⟩, fun g => (h g 2 (by decide)).1.symm⟩

end Inlay.Script
