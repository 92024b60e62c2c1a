/-
The code of a statement reads back as the statement.

A statement is read wherever its code stands, with two provisos: if it ends
with an `if` that has no `else`, no `else` may come behind it, and no
`finally` may come behind a `try`. Where statements follow each other
neither does.
-/
import Inlay.Proofs.Script.ExpressionCode

namespace Inlay.Script

open Rule Rules Node List
open Flowing (space_iff newline_iff follows closing joiner opener)
open Code (resume label closeBrace forLeft)
open Level (sequence assignment)
open Token (is_eq_false_of_is is IsSpelled text_of_is)

variable {ns : List Node} {Q : List Piece} {w : String}

variable {F : Frame} {σ : Scope} {c c₁ c' : Cursor} {t : Token} {n : Node} {d : Nat}
  {g : Bool} {ts : List Token} {m id no yes test : Node} {p : Rules Rule → Rule Node} {α : Type}
  {a init x : Option Node} {word : String} {P : List Piece} {kind : Kind} {us : List Token}
  {Ps : List (List Piece)}

-- == alike statements

theorem dangles_eq {m n : Node} (h : m.Alike n) : dangles m = dangles n := by
  -- both look at the same child, and alike children dangle alike
  refine dangles_congr h.kind_eq fun key hk d => ?_
  have hr : ∀ key ∈ ["alternate", "body"], key ≠ "raw" := by decide
  have heq := h.child?_eq (hr key hk)
  rcases hm : m.child? key with _ | m' <;> rcases hn : n.child? key with _ | n' <;>
    simp only [hm, hn, Option.map_none, Option.map_some] at heq
  · rfl
  · cases heq
  · cases heq
  · exact dangles_eq (Option.some.inj heq)
termination_by m.size
decreasing_by exact Node.size_lt_of_child? hm

theorem isLoopTarget_eq (h : m.Alike n) : isLoopTarget m = isLoopTarget n := by
  have hl : (m.children? "declarations").map List.length =
      (n.children? "declarations").map List.length := by
    have heq := congrArg (Option.map List.length)
      (h.children?_eq (show "declarations" ≠ "raw" by decide))
    simpa [Function.comp_def] using heq
  have ho : (m.children? "declarations").map (fun ds => ds.length == 1) =
      (n.children? "declarations").map (fun ds => ds.length == 1) := by
    have heq := congrArg (Option.map (· == 1)) hl
    simpa [Function.comp_def] using heq
  rw [isLoopTarget, isLoopTarget, h.kind_eq, isTarget_eq h, ho]

-- == choosing a rule

theorem statementRule_word (r : Rules Rule) (hk : c.current.kind = .word) :
    r.statementRule σ c = r.wordStatement c.current σ c := by
  unfold statementRule
  rw [peek_bind]
  simp only [hk]

theorem statementRule_punct (r : Rules Rule) (hk : c.current.kind = .punct) :
    r.statementRule σ c = (if c.current.text == "\x7b" then r.blockStatement
      else if c.current.text == ";" then emptyStatement
      else r.expressionStatement : Rule Node) σ c := by
  unfold statementRule
  rw [peek_bind]
  simp only [hk]

theorem statementRule_other (r : Rules Rule) (hk : c.current.kind ≠ .word)
    (hk' : c.current.kind ≠ .punct) : r.statementRule σ c = r.expressionStatement σ c := by
  unfold statementRule
  rw [peek_bind]
  cases h : c.current.kind <;> first | rfl | exact absurd h hk | exact absurd h hk'

/-- The words that statements start with. -/
def statementWords : List String :=
  ["var", "let", "const", "function", "if", "for", "while", "do", "return", "throw", "break",
   "continue", "try", "switch", "with", "debugger"]

/-- A word that starts no other statement starts an expression or stands
before a colon. -/
theorem wordStatement_other (r : Rules Rule) (hs : c.current.text ∉ statementWords) :
    r.wordStatement c.current σ c =
      (if !isReserved c.current.text && (c.rest.head?.getD c.current).is ":" then
        r.labeledStatement
      else r.expressionStatement : Rule Node) σ c := by
  generalize hp : r.wordStatement c.current = p
  unfold wordStatement at hp
  split at hp
  case h_17 =>
    subst hp
    rw [bind_run_ok (peekSecond_run σ c)]
  all_goals
    rename_i heq
    exact absurd (by rw [heq]; decide) hs

-- == first tokens

/-- The token ends a list of statements, or belongs to the statement
before it. -/
def endsStatements (t : Token) : Bool :=
  t.is "\x7d" || t.is "case" || t.is "default" || t.is "else" || t.is "finally" || t.isEnd

theorem endsStatements_of_is (h : t.is w = true)
    (hw : w ∉ ["\x7d", "case", "default", "else", "finally"]) : endsStatements t = false := by
  simp only [mem_cons, not_mem_nil, or_false, not_or] at hw
  simp [endsStatements, is_eq_false_of_is h, Token.isEnd_of_is h, hw]

theorem endsStatements_of_startsExpression (h : startsExpression t = true) (hs : t.IsSpelled) :
    endsStatements t = false := by
  have hn : ∀ {w : String}, w ∉ openings →
      (isReserved w = true ∨ w.toList.head?.any Lexeme.isWordStart = false) → t.is w = false :=
    fun hw hw' => is_eq_false_of_startsExpression h hs hw' hw
  simp [endsStatements, hn (w := "\x7d") (by decide) (.inr (by decide)),
    hn (w := "case") (by decide) (.inl (by decide)),
    hn (w := "default") (by decide) (.inl (by decide)),
    hn (w := "else") (by decide) (.inl (by decide)),
    hn (w := "finally") (by decide) (.inl (by decide)), isEnd_of_startsExpression h]

/-- No statement starts with a token that ends a list of statements. -/
theorem Derives.startsStatement (h : Derives F .statement ts [n]) (hts : ts = t :: us)
    (hs : t.IsSpelled) : endsStatements t = false := by
  cases h with
  | ofBlock hd =>
    cases hd with
    | block ht =>
      obtain ⟨rfl, -⟩ := List.cons.inj hts
      exact endsStatements_of_is ht (by decide)
  | ofFunctionDeclaration hd =>
    cases hd with
    | function ht =>
      obtain ⟨rfl, -⟩ := List.cons.inj hts
      exact endsStatements_of_is ht (by decide)
  | empty ht | debugger ht | ifStatement ht | forStatement ht | forInStatement ht
  | whileStatement ht | doWhileStatement ht | throwStatement ht | withStatement ht
  | tryStatement ht | switchStatement ht | returnStatement _ ht =>
    obtain ⟨rfl, -⟩ := List.cons.inj hts
    exact endsStatements_of_is ht (by decide)
  | jump ht | jumpTo ht =>
    obtain ⟨rfl, -⟩ := List.cons.inj hts
    rcases ht with ⟨ht, -⟩ | ⟨ht, -⟩ <;> exact endsStatements_of_is ht (by decide)
  | labeledStatement hd =>
    obtain ⟨rfl, -⟩ := List.cons.inj hts
    cases hd with
    | identifier hk hr =>
      refine endsStatements_of_startsExpression ?_ hs
      simp [startsExpression, hk, hr]
  | expressionStatement hd =>
    obtain ⟨t', us', rfl, ht⟩ := hd.startsWell rfl
    obtain ⟨rfl, -⟩ := List.cons.inj hts
    exact endsStatements_of_startsExpression ht hs
  | declarationStatement hd =>
    cases hd with
    | declaration hk hw =>
      obtain ⟨rfl, -⟩ := List.cons.inj hts
      have ha : ∀ w ∈ ["var", "let", "const"],
          w ∉ ["\x7d", "case", "default", "else", "finally"] := by
        decide
      exact endsStatements_of_is (Token.is_of_word hk rfl) (ha _ hw)

theorem Reruns.starts_statement (h : Reruns statementRule σ n c c') (hc : c.Proper) :
    endsStatements c.current = false ∧ c'.rest.length < c.rest.length := by
  obtain ⟨n', hn, hr⟩ := h
  obtain ⟨ts, hts, hd, -⟩ := statementRule_sound (level_sound _) hc (hr.run _ (Nat.le_refl _))
  obtain ⟨t, us, rfl⟩ := exists_cons_of_ne_nil (hd.ne_nil rfl)
  have hh := hts.head?_eq (cons_ne_nil _ _)
  have hl := hts.length
  simp only [head?_cons, Option.some.injEq, length_cons] at hh hl
  subst hh
  exact ⟨hd.startsStatement rfl hc.current, by omega⟩

namespace Parses

variable {P : List Piece} {N : Token → Prop}

theorem starts_statement (h : Parses 0 σ statementRule (·.Alike n) P N) :
    Starts P N (endsStatements · = false) :=
  fun _ _ _ _ _ hc hr hok => ((h.reruns hc hr hok).starts_statement hc).1

theorem shortens_statement (h : Parses 0 σ statementRule (·.Alike n) P N) : Shortens P N :=
  fun _ _ _ _ _ hc hr hok => ((h.reruns hc hr hok).starts_statement hc).2

end Parses

-- == statements

/-- The token does not continue the statement. -/
def Leaves (n : Node) (t : Token) : Prop :=
  t.is "finally" = false ∧ (dangles n = true → t.is "else" = false)

theorem Leaves.of_eq (h : Leaves m t) (hmn : dangles n = dangles m) : Leaves n t :=
  ⟨h.1, fun hd => h.2 (hmn.symm.trans hd)⟩

/-- What is behind a statement is behind the statement it ends with. -/
theorem Leaves.body {body : Node} (h : Leaves n t)
    (hk : n.kind ∈ bodyKinds) (hb : n.child? "body" = some body) : Leaves body t := by
  refine h.of_eq ?_
  rw [dangles_body hk, hb]
  rfl

theorem Leaves.alternate (h : Leaves n t) (hk : n.kind = .ifStatement)
    (hno : n.child? "alternate" = some no) : Leaves no t := by
  refine h.of_eq ?_
  rw [dangles_if hk, hno]
  rfl

theorem leaves_of_is (h : t.is w = true) (hw : w ∉ ["finally", "else"]) : Leaves n t := by
  simp only [mem_cons, not_mem_nil, or_false, not_or] at hw
  exact ⟨is_eq_false_of_is h hw.1, fun _ => is_eq_false_of_is h hw.2⟩

theorem leaves_of_endsStatements (h : endsStatements t = false) : Leaves n t := by
  simp only [endsStatements, Bool.or_eq_false_iff] at h
  exact ⟨h.1.2, fun _ => h.1.1.2⟩

theorem leaves_of_isEnd (h : t.isEnd = true) : Leaves n t := by
  have hk : t.kind = .eof := by simpa [Token.isEnd] using h
  simp [Leaves, is, hk]

/-- The pieces are code for a statement in the frame. -/
structure SpellsStatement (F : Frame) (n : Node) (P : List Piece) : Prop where
  rests : Rests P false
  parses : ∀ {σ : Scope}, σ.frame = F → σ.allowIn = true →
    Parses 0 σ statementRule (·.Alike n) P (Leaves n)

namespace SpellsStatement

variable {P : List Piece}

theorem marks (h : SpellsStatement F n P) (m : Node) : SpellsStatement F n (m.marks ++ P) where
  rests := flowing_marks_append.2 h.rests
  parses hF ha := (h.parses hF ha).marks m

theorem space (h : SpellsStatement F n P) : SpellsStatement F n (.space :: P) where
  rests := space_iff.2 h.rests
  parses hF ha := (h.parses hF ha).space

theorem newline (h : SpellsStatement F n P) (depth : Nat) :
    SpellsStatement F n (.newline depth :: P) where
  rests := newline_iff.2 h.rests
  parses hF ha := (h.parses hF ha).newline

end SpellsStatement

/-- The statement has code that reads back as it. -/
def FaithfulStatement (F : Frame) (n : Node) : Prop :=
  ∀ depth, ∃ P, Code.statementBody depth n = .ok P ∧ SpellsStatement F n P

namespace FaithfulStatement

theorem statement (h : FaithfulStatement F n) (depth : Nat) :
    ∃ P, Code.statement depth n = .ok P ∧ SpellsStatement F n P := by
  obtain ⟨P, hc, hP⟩ := h depth
  rw [Code.statement]
  exact ⟨n.marks ++ P, bind_eq_ok hc rfl, hP.marks n⟩

theorem substatement (h : FaithfulStatement F n) (depth : Nat) :
    ∃ P, Code.substatement depth n = .ok P ∧ SpellsStatement F n P := by
  rw [Code.substatement]
  split
  · next hk =>
    obtain ⟨P, hc, hP⟩ := h depth
    rw [Code.statementBody] at hc
    simp only [hk] at hc
    exact ⟨.space :: P, bind_eq_ok hc rfl, hP.space⟩
  · next hk =>
    obtain ⟨P, hc, hP⟩ := h depth
    rw [Code.statementBody] at hc
    simp only [hk] at hc
    cases hc
    exact ⟨_, rfl, hP.marks n⟩
  · obtain ⟨P, hc, hP⟩ := h.statement (depth + 1)
    exact ⟨.newline (depth + 1) :: P, bind_eq_ok hc rfl, hP.newline _⟩

end FaithfulStatement

-- == lists of statements

theorem code_statements (hns : ∀ n ∈ ns, FaithfulStatement F n) :
    ∃ Ps, Code.statements d ns = .ok Ps ∧ List.Forall₂ (SpellsStatement F) ns Ps := by
  refine code_list (by rw [Code.statements]) fun n hn => ?_
  obtain ⟨P, hc, hP⟩ := (hns n hn).statement d
  refine ⟨P, hP, fun ns Ps hco => ?_⟩
  rw [Code.statements]
  exact bind_eq_ok hc (bind_eq_ok hco rfl)

theorem SpellsStatement.lines (h : List.Forall₂ (SpellsStatement F) ns Ps)
    (depth : Nat) : List.Forall₂ (SpellsStatement F) ns (Ps.map (.newline depth :: ·)) := by
  induction h with
  | nil => exact .nil
  | cons hP _ ih => exact .cons (hP.newline depth) ih

theorem rests_flatten (h : List.Forall₂ (SpellsStatement F) ns Ps) : Rests Ps.flatten false := by
  induction h with
  | nil => exact .nil
  | cons hP _ ih => exact hP.rests.append ih

/-- Statements one behind the other, up to what closes the list. -/
theorem parses_statements {list : Rules Rule → Rule (List Node)} {N : Token → Prop}
    (more : Rules Rule → Rule (List Node)) (hm : ∀ r : Rules Rule, more r.above = list r)
    (hni : Parses 0 σ list (AlikeAll · []) Q N) (hc : ∀ n, Starts Q N (Leaves n))
    (hco : ∀ {B : List Node → Prop} {Q : List Piece}, Starts Q N (endsStatements · = false) →
      Parses 0 σ (fun r => do
        let n ← r.statementRule
        return n :: (← more r)) B Q N → Parses 0 σ list B Q N) (hF : σ.frame = F)
    (ha : σ.allowIn = true) (h : List.Forall₂ (SpellsStatement F) ns Ps) :
    Parses 0 σ list (AlikeAll · ns) (Ps.flatten ++ Q) N ∧
      ∀ n, Starts (Ps.flatten ++ Q) N (Leaves n) := by
  -- a statement is read once it is known what comes behind it, so the
  -- induction also says what no list starts with
  induction h with
  | nil => exact ⟨hni, hc⟩
  | @cons n P ns Ps hP _ ih =>
    obtain ⟨hr, hn⟩ := ih
    have hru := hP.parses hF ha
    have hs := hru.starts_statement.append (hn n)
    rw [flatten_cons, append_assoc]
    refine ⟨hco hs ?_, fun _ => hs.imp leaves_of_endsStatements⟩
    exact hru.bind_short (hn n) hru.shortens_statement fun n' hn' =>
      (hr.below_of hm).last fun ns' hns' => .pure (.cons hn' hns')

theorem intercalate_nil_eq_flatten (Ps : List (List α)) : List.intercalate [] Ps = Ps.flatten := by
  induction Ps with
  | nil => rfl
  | cons P Ps ih =>
    cases Ps with
    | nil => simp [List.intercalate]
    | cons Q Ps =>
      rw [intercalate_cons_cons, ih]
      simp

-- == blocks

theorem parses_block {last : List Piece} {N : Token → Prop}
    (hl : last = [.token "\x7d"] ∨ ∃ depth, last = [.newline depth, .token "\x7d"])
    (hF : σ.frame = F) (ha : σ.allowIn = true) (h : List.Forall₂ (SpellsStatement F) ns Ps) :
    Parses 0 σ blockStatement (·.Alike (spanned .blockStatement [("body", .nodes ns)] ts))
      (.token "\x7b" :: (Ps.flatten ++ last)) N := by
  have hb : Parses 0 σ blockRule (AlikeAll · []) [.token "\x7d"] N :=
    .took (by decide) (.pure .nil)
  have hle : ∀ n, Starts [.token "\x7d"] N (Leaves n) := fun n =>
    .token (by decide) fun h => leaves_of_is h (by decide)
  have hli := parses_statements (Q := last) Rules.block (fun _ => rfl)
    (by rcases hl with rfl | ⟨_, rfl⟩; exacts [hb, hb.newline])
    (fun n => by rcases hl with rfl | ⟨_, rfl⟩; exacts [hle n, (hle n).newline])
    (fun {B Q} hs hc => ?_) hF ha h
  · exact .expect (by decide) fun _ => .last (.below hli.1) fun ns' hns' =>
      .finish (.nodes hns' .nil)
  · simp only [endsStatements, Bool.or_eq_false_iff] at hs
    refine .pass (hs.imp fun h => h.1.1.1.1.1) ?_
    exact .peek _ (hs.imp And.right) fun t ht => .ite_neg (by simp [ht]) hc

theorem faithful_block (h : ∀ n ∈ ns, FaithfulStatement F n) :
    FaithfulBlock F (spanned .blockStatement [("body", .nodes ns)] ts) := by
  intro depth
  obtain ⟨Ps, hco, hPs⟩ := code_statements (d := depth + 1) h
  have hli := SpellsStatement.lines hPs (depth + 1)
  obtain ⟨last, hl, hb⟩ := braces_eq depth [] Ps
  obtain ⟨hc, hcl⟩ := flowing_last (k := false) hl
  rw [intercalate_nil_eq_flatten] at hb
  refine ⟨Code.braces depth [] Ps, ?_, ?_⟩
  · rw [Code.block]
    exact bind_eq_ok rfl (bind_eq_ok hco rfl)
  rw [hb]
  refine ⟨(follows (.opening ?_ rfl rfl)).rests, hc.behind.cons,
    fun _ => .shown, fun hF ha => parses_block hl hF ha hli⟩
  exact (rests_flatten hli).append hcl

theorem FaithfulBlock.statement (h : FaithfulBlock F n) (hk : n.kind = .blockStatement) :
    FaithfulStatement F n := by
  intro depth
  obtain ⟨P, hc, hP⟩ := h depth
  refine ⟨P, ?_, hP.rests, fun hF ha =>
    (hP.parses hF ha).congr (hP.starts _) fun r c ⟨hk, ht⟩ => ?_⟩
  · rw [Code.statementBody]
    simp only [hk]
    exact hc
  · rw [statementRule_punct r hk, ht]
    rfl

-- == simple statements

/-- A statement is read by the rule for its first word. -/
theorem statementRule_of_word (hp : ∀ (r : Rules Rule) (kind : TokenKind) (span : Span) (newline : Bool),
      r.wordStatement ⟨kind, word, span, newline⟩ = p r) (r : Rules Rule) (c : Cursor)
    (h : c.current.kind = .word ∧ c.current.text = word) : r.statementRule σ c = p r σ c := by
  obtain ⟨hk, ht⟩ := h
  rw [statementRule_word r hk]
  generalize c.current = t at ht
  obtain ⟨kind, text, span, newline⟩ := t
  subst ht
  rw [hp]

theorem SpellsStatement.of_word (hk : kindOf word.toList = .word)
    (hp : ∀ (r : Rules Rule) (kind : TokenKind) (span : Span) (newline : Bool),
      r.wordStatement ⟨kind, word, span, newline⟩ = p r) (hr : Rests (.token word :: P) false)
    (h : ∀ {σ : Scope}, σ.frame = F → σ.allowIn = true →
      Parses 0 σ p (·.Alike n) (.token word :: P) (Leaves n)) :
    SpellsStatement F n (.token word :: P) where
  rests := hr
  parses hF ha := by
    have hs : Starts (.token word :: P) (Leaves n) fun t => t.kind = .word ∧ t.text = word := by
      rw [← hk]
      exact .shown
    exact (h hF ha).congr hs (statementRule_of_word hp)

theorem faithful_empty : FaithfulStatement F (spanned .emptyStatement [] ts) := by
  intro depth
  refine ⟨[.token ";"], ?_, ?_, fun _ _ => .congr (q := fun _ => emptyStatement)
    (.next fun _ _ => .finish .nil) .shown fun r c ⟨hk, ht⟩ => ?_⟩
  · rw [Code.statementBody]
    rfl
  · exact (closing .nil rfl rfl).rests
  · rw [statementRule_punct r hk, ht]
    rfl

theorem faithful_debugger : FaithfulStatement F (spanned .debuggerStatement [] ts) := by
  intro depth
  refine ⟨[.token "debugger", .token ";"], ?_,
    .of_word (p := fun _ => debuggerStatement) rfl (fun _ _ _ _ => rfl) ?_ fun _ _ => ?_⟩
  · rw [Code.statementBody]
    rfl
  · exact (Flowing.opening (closing .nil rfl rfl).rests rfl rfl).follows.rests
  · exact .next fun _ _ => .semicolon (.finish .nil)

/-- The token behind the first one of an expression is no colon, if the
first one is a name and a semicolon ends the expression. -/
theorem second_of_expression (hts : c.Takes ts c₁) (hd : Derives F .expression ts [n])
    (hs : c₁.current.is ";" = true) (hn : c.current.IsName) :
    (c.rest.head?.getD c.current).is ":" = false := by
  have ht := hts.tokens_eq
  match ts, hd.ne_nil rfl with
  | [t], _ =>
    simp only [Cursor.tokens, cons_append, nil_append, List.cons.injEq] at ht
    rw [ht.2]
    exact is_eq_false_of_is hs (by decide)
  | t :: u :: us, _ =>
    simp only [Cursor.tokens, cons_append, List.cons.injEq] at ht
    rw [ht.2]
    exact hd.unlabeled rfl t u us rfl (ht.1 ▸ hn)

/-- An expression that does not start like another statement is read as
a statement. -/
theorem statementRule_expression (hc : c.Proper) (h : Reruns expressionRule σ n c c₁)
    (hs : c₁.current.is ";" = true) (hf : ¬c.current.IsStatementLike) (r : Rules Rule) :
    r.statementRule σ c = r.expressionStatement σ c := by
  obtain ⟨n', ts, -, hts, hd⟩ := h.derives (fun k => expressionRule_sound (level_sound k)) hc
  obtain ⟨hst, -⟩ := h.starts_expression hc
  cases hk : c.current.kind with
  | punct =>
    have hb : c.current.text ≠ "\x7b" := fun heq => hf (.inl ⟨hk, heq⟩)
    have hs' : c.current.text ≠ ";" := by
      intro heq
      have his := is_eq_false_of_startsExpression (w := ";") hst hc.current (.inr (by decide))
        (by decide)
      simp [is, hk, heq] at his
    rw [statementRule_punct r hk]
    simp [hb, hs']
  | word =>
    have hw : c.current.text ∉ statementWords := by
      intro hm
      have ha : ∀ w ∈ statementWords, w = "function" ∨ isReserved w = true ∧ w ∉ openings := by
        decide
      rcases ha _ hm with heq | ⟨hr, ho⟩
      · exact hf (.inr ⟨hk, heq⟩)
      · have his := is_eq_false_of_startsExpression hst hc.current (.inl hr) ho
        simp [is, hk] at his
    have hl : (!isReserved c.current.text && (c.rest.head?.getD c.current).is ":") = false := by
      cases hr : isReserved c.current.text with
      | true => rfl
      | false =>
        have hsp := hc.current
        rw [IsSpelled, hk] at hsp
        rw [second_of_expression hts hd hs ⟨hsp, hr⟩]
        rfl
    rw [statementRule_word r hk, wordStatement_other r hw, hl]
    rfl
  | number | string | regex | eof =>
    exact statementRule_other r (by simp [hk]) (by simp [hk])

theorem faithful_expressionStatement (h : Faithful n) :
    FaithfulStatement F (spanned .expressionStatement [("expression", .node n)] ts) := by
  intro depth
  obtain ⟨P, hco, hP⟩ := h.expression sequence true depth
  -- what is written, and why it is not taken for another statement
  obtain ⟨Q, hQ, hsp, hf⟩ : ∃ Q, Q = (if startsLikeStatement n then Code.parens P else P) ∧
      Spells 0 true n Q ∧ ∀ {ind b b' σ c c'}, c.Proper → Reads ind Q b c b' c' →
        Reruns expressionRule σ n c c' → ¬c.current.IsStatementLike := by
    cases hl : startsLikeStatement n with
    | true =>
      refine ⟨Code.parens P, rfl, hP.parens, fun _ hr _ => ?_⟩
      have ht := hr.1.text_eq (s := "(")
      exact not_isStatementLike_of_text (by simp [ht]) (by simp [ht])
    | false =>
      refine ⟨P, rfl, hP, fun hc _ hru hf => ?_⟩
      obtain ⟨n', ts, hn', hts, hd⟩ :=
        hru.derives (fun k => expressionRule_sound (level_sound k)) hc
      obtain ⟨t, us, rfl⟩ := exists_cons_of_ne_nil (hd.ne_nil rfl)
      obtain rfl := Option.some.inj (hts.head?_eq (cons_ne_nil _ _))
      have htr := hd.frontKnown (.inl rfl) _ _ _ rfl rfl hf
      rw [startsLikeStatement_eq hn', hl] at htr
      cases htr
  refine ⟨Q ++ [Piece.token ";"], ?_, ?_, fun _ ha => .agree (q := expressionStatement) ?_
    fun r hc hr _ => ?_⟩
  · rw [Code.statementBody, hQ]
    exact bind_eq_ok rfl (bind_eq_ok hco rfl)
  · exact (hsp.opens.append (.closing .nil rfl rfl)).follows.rests
  · refine .start fun _ => (hsp.parses_expression fun _ => ha).bind
      (.token (by decide) fun h => bond_stop h (by decide)) fun n' hn' => ?_
    exact .semicolon (.finish (.node hn' .nil))
  · obtain ⟨b₁, c₁, hre, hs, -⟩ := Reads.append_iff.1 hr
    have hs' : c₁.current.is ";" = true := hs.is_self (by decide)
    have hru := (hsp.parses_expression fun _ => ha).reruns hc hre (bond_stop hs' (by decide))
    exact statementRule_expression hc hru hs' (hf hc hre hru) r

-- == declarations

/-- The node for a declarator. -/
def declaratorOf (id : Node) (init : Option Node) (ts : List Token) : Node :=
  spanned .variableDeclarator [("id", .node id), ("init", .ofNode? init)] ts

/-- The node is a declarator with faithful parts. -/
def FaithfulDeclarator (n : Node) : Prop :=
  ∃ id init ts, n = declaratorOf id init ts ∧ IsIdentifier id ∧ ∀ v ∈ init, Faithful v

/-- The pieces are a declarator: where they are read, the rule goes on
as it does behind a declarator. -/
structure SpellsDeclarator (g : Bool) (n : Node) (P : List Piece) : Prop where
  opens : Opens P true
  parses : ∀ {σ : Scope} {B : List Node → Prop} {Q : List Piece} {N : Token → Prop},
    (g = true → σ.allowIn = true) → Starts Q N (bond σ.allowIn · ≤ 1) →
    (∀ n', n'.Alike n → Parses 0 σ (fun r => do
      if ← eat "," then return n' :: (← r.declarators)
      else return [n']) B Q N) →
    Parses 0 σ declaratorsRule B (P ++ Q) N

theorem not_equals_of_bond (h : bond σ.allowIn c.current ≤ 1) (hc : c.Proper) :
    c.current.is "=" = false := by
  rw [Bool.eq_false_iff]
  intro his
  have ht := text_of_is his
  have ha := not_assignment_of_bond h
  simp only [is, Bool.and_eq_true, Bool.or_eq_true, beq_iff_eq] at his
  rcases his.1 with hk | hk
  · simp [isAssignmentOperator, hk, ht, assignmentOperators] at ha
  · have hs := hc.current
    rw [IsSpelled, hk, ht] at hs
    obtain ⟨d, rest, hd, hst, -⟩ := hs
    cases hd
    revert hst
    decide

theorem code_declarator (hid : IsIdentifier id) (hi : ∀ v ∈ init, Faithful v) :
    ∃ P, Code.declarator g d (declaratorOf id init ts) = .ok P ∧
      SpellsDeclarator g (declaratorOf id init ts) P := by
  obtain ⟨P, hco, hP⟩ := hid.code (R := assignment) (g := g) (d := d) (by decide)
  cases init with
  | none =>
    refine ⟨P ++ [], ?_, ?_, fun _ hn hr => ?_⟩
    · rw [Code.declarator]
      exact bind_eq_ok rfl (bind_eq_ok hco rfl)
    · rw [append_nil]
      exact hP.opens.loosen
    · rw [append_nil]
      refine .start fun _ => (hP.parses 0).bind .any fun i' hi' => .pass ?_ ?_
      · exact fun _ _ _ _ _ hc hre hok => not_equals_of_bond (hn hc hre hok) hc
      · exact .first (.pure (A := (AlikeOption · none)) rfl) .any fun x hx =>
          .first (.finish (.node hi' (.node? hx .nil))) .any hr
  | some v =>
    obtain ⟨Q, hcod, hQ⟩ := (hi v rfl).expression assignment g d
    refine ⟨P ++ .space :: .token "=" :: .space :: Q, ?_, ?_, fun hg hn hr => ?_⟩
    · rw [Code.declarator]
      exact bind_eq_ok rfl (bind_eq_ok hco (bind_eq_ok hcod rfl))
    · refine hP.opens.append (space_iff.2 ?_)
      exact (joiner (space_iff.2 hQ.opens) rfl).rests
    · rw [append_assoc]
      refine .start fun _ => (hP.parses 0).bind .any fun i' hi' => .space (.took (by decide) ?_)
      refine .space (.bind (.some (.below (hQ.parses_assignment hg))) hn fun x hx => ?_)
      exact .first (.finish (.node hi' (.node? hx .nil))) .any fun n' hn' => (hr n' hn').spare

theorem code_declarators (hns : ∀ n ∈ ns, FaithfulDeclarator n) :
    ∃ Ps, Code.declarators g d ns = .ok Ps ∧ List.Forall₂ (SpellsDeclarator g) ns Ps := by
  refine code_list (by rw [Code.declarators]) fun n hn => ?_
  obtain ⟨id, init, ts, rfl, hid, hi⟩ := hns n hn
  obtain ⟨P, hc, hP⟩ := code_declarator (g := g) (d := d) hid hi
  refine ⟨.space :: P, ⟨space_iff.2 hP.opens, fun hg hne hr => ?_⟩, fun ns Ps hco => ?_⟩
  · exact (hP.parses hg hne hr).space
  · rw [Code.declarators]
    exact bind_eq_ok hc (bind_eq_ok hco rfl)

theorem parses_declarators (h : List.Forall₂ (SpellsDeclarator g) ns Ps)
    (hne : ns ≠ []) (hg : g = true → σ.allowIn = true) :
    Parses 0 σ declaratorsRule (AlikeAll · ns) (List.intercalate [.token ","] Ps)
      (bond σ.allowIn · = 0) := by
  induction h with
  | nil => exact absurd rfl hne
  | @cons n P ns Ps hP hPs ih =>
    cases hPs with
    | nil =>
      rw [intercalate_singleton, ← append_nil P]
      refine hP.parses hg (.nil fun h => by omega) fun n' hn' => ?_
      exact .pass (.nil not_comma_of_bond) (.pure (.cons hn' .nil))
    | @cons n₂ Q ns Qs hQ hQs =>
      rw [intercalate_cons_cons, append_assoc]
      refine hP.parses hg (.token (by decide) fun h => Nat.le_of_eq (bond_comma h)) fun n' hn' => ?_
      exact .took (by decide) (.last (.below (ih (cons_ne_nil _ _))) fun ns' hns' =>
        .pure (.cons hn' hns'))

/-- The node for a declaration. -/
def declarationOf (word : String) (ns : List Node) (ts : List Token) : Node :=
  spanned .variableDeclaration [("declarations", .nodes ns), ("kind", .ofString word)] ts

/-- The pieces are a declaration without its semicolon. -/
structure SpellsDeclaration (g : Bool) (word : String) (n : Node) (P : List Piece) : Prop where
  opens : Opens P true
  starts : ∃ Q, P = .token word :: Q
  parses : ∀ {σ : Scope}, (g = true → σ.allowIn = true) →
    Parses 0 σ variableDeclaration (·.Alike n) P (bond σ.allowIn · = 0)

theorem code_declarations (hwo : word ∈ ["var", "let", "const"]) (hne : ns ≠ [])
    (hns : ∀ n ∈ ns, FaithfulDeclarator n) :
    ∃ P, Code.declarations g d (declarationOf word ns ts) = .ok P ∧
      SpellsDeclaration g word (declarationOf word ns ts) P := by
  obtain ⟨Ps, hc, hPs⟩ := code_declarators (g := g) (d := d) hns
  have hw := Rules.isWord_declaration hwo
  refine ⟨.token word :: List.intercalate [.token ","] Ps, ?_, ?_, ⟨_, rfl⟩, fun hg => ?_⟩
  · rw [Code.declarations]
    exact bind_eq_ok rfl (bind_eq_ok hc rfl)
  · refine .opener ?_ (isOpener_of_isWord hw)
    cases hPs with
    | nil => exact absurd rfl hne
    | cons hP hPs =>
      exact opens_separated .bare (opens_all (fun h => h.opens) (.cons hP hPs))
  · refine .next fun t ht => (parses_declarators hPs hne hg).spare.last fun ns' hns' => ?_
    rw [ht]
    exact .finish (.nodes hns' (.same .nil))

theorem faithful_declaration (hw : word ∈ ["var", "let", "const"]) (hne : ns ≠ [])
    (hns : ∀ n ∈ ns, FaithfulDeclarator n) : FaithfulStatement F (declarationOf word ns ts) := by
  intro depth
  obtain ⟨P, hc, hP⟩ := code_declarations (g := true) (d := depth) hw hne hns
  obtain ⟨Q, rfl⟩ := hP.starts
  refine ⟨.token word :: Q ++ [Piece.token ";"], ?_, .of_word (p := declarationStatement)
    (kindOf_of_isWord (Rules.isWord_declaration hw)) ?_ ?_ fun _ ha => ?_⟩
  · rw [Code.statementBody]
    exact bind_eq_ok hc rfl
  · intro r kind span newline
    simp only [mem_cons, not_mem_nil, or_false] at hw
    rcases hw with rfl | rfl | rfl <;> rfl
  · exact (hP.opens.append (.closing .nil rfl rfl)).follows.rests
  · refine .start fun _ => (hP.parses fun _ => ha).bind
      (.token (by decide) fun h => bond_stop h (by decide)) fun n' hn' => .semicolon
        (.finished fun _ => ?_)
    refine Alike.trans ?_ hn'
    exact alike_of_props rfl rfl rfl

theorem faithful_functionDeclaration {params : List Node} {body : Node} (hid : IsIdentifier id)
    (hp : ∀ n ∈ params, IsIdentifier n) (hb : FaithfulBlock .function body) :
    FaithfulStatement F (functionOf .functionDeclaration (some id) params body ts) := by
  intro depth
  obtain ⟨P, hc, hP⟩ := code_function (g := true) (d := depth) .functionDeclaration
    (some id) (.inr (by simp)) (fun i hi => by cases hi; exact hid) hp hb
  refine ⟨P, ?_, hP.opens.follows.rests, fun _ _ =>
    (hP.parses _ _).congr (hP.starts _) (statementRule_of_word fun _ _ _ _ => rfl)⟩
  rw [Code.statementBody]
  exact hc

-- == heads

theorem rests_headed (hP : Opens P true) (hQ : Rests Q false) (hw : IsWord word.toList) :
    Rests (.token word :: .space :: (Code.parens P ++ Q)) false := by
  refine (opener (space_iff.2 ?_) (isOpener_of_isWord hw)).follows.rests
  exact (opens_parens hP.follows.rests).append hQ

theorem code_headed (h : Code.expression sequence true d n = .ok P) :
    Code.headed word d n = .ok (.token word :: .space :: Code.parens P) := by
  rw [Code.headed, h]
  rfl

theorem faithful_headed {key : String} {head body : Node} (hj : IsHeaded word kind key)
    (hh : Faithful head) (hb : FaithfulStatement F body) :
    FaithfulStatement F (spanned kind [(key, .node head), ("body", .node body)] ts) := by
  intro depth
  obtain ⟨P, hc, hP⟩ := hh.expression sequence true depth
  obtain ⟨Q, hco, hQ⟩ := hb.substatement depth
  refine ⟨.token word :: .space :: (Code.parens P ++ Q), ?_, ?_⟩
  · obtain ⟨rfl, rfl, rfl⟩ | ⟨rfl, rfl, rfl⟩ := hj <;> rw [Code.statementBody] <;>
      exact bind_eq_ok rfl (bind_eq_ok (code_headed hc) (bind_eq_ok rfl (bind_eq_ok hco rfl)))
  · obtain ⟨rfl, rfl, rfl⟩ | ⟨rfl, rfl, rfl⟩ := hj
    all_goals
      refine .of_word (p := (·.headedStatement _ _)) rfl (fun _ _ _ _ => rfl)
        (rests_headed hP.opens hQ.rests (by decide)) fun hF ha => ?_
      refine .next fun _ _ => .space (hP.parses_parenthesized.spare.bind .any fun h' hh' => ?_)
      refine .last (.below ((hQ.parses hF ha).before fun h => h.body
        (by simp [spanned, bare]) rfl)) fun b' hb' => ?_
      exact .finish (.node hh' (.node hb' .nil))

theorem resume_cases (depth : Nat) (n : Node) :
    resume depth n = .space ∨ resume depth n = .newline depth := by
  unfold resume
  split
  · exact .inl rfl
  · exact .inr rfl

theorem Parses.resume {s : Nat} {p : Rules Rule → Rule α} {A : α → Prop} {N : Token → Prop}
    (h : Parses s σ p A P N) : Parses s σ p A (resume d n :: P) N := by
  rcases resume_cases d n with heq | heq <;> rw [heq]
  · exact h.space
  · exact h.newline

theorem Starts.resume {N T : Token → Prop} (h : Starts P N T) : Starts (resume d n :: P) N T := by
  rcases resume_cases d n with heq | heq <;> rw [heq]
  · exact h.space
  · exact h.newline

theorem flowing_resume {E : Edge → Prop} {k : Bool} (h : Flowing E P k) :
    Flowing E (resume d n :: P) k := by
  rcases resume_cases d n with heq | heq <;> rw [heq] <;> exact h

/-- The statement behind `else`: another `if` goes on in the same line. -/
theorem code_alternate (hno : FaithfulStatement F no) :
    ∃ P, SpellsStatement F no P ∧ ∀ f : List Piece → Code, (if no.kind = .ifStatement then do
        let code ← Code.statement d no
        let code ← pure (.space :: code)
        f code
      else do
        let code ← Code.substatement d no
        f code) = f P := by
  split
  · obtain ⟨P, hc, hP⟩ := hno.statement d
    refine ⟨.space :: P, hP.space, fun f => ?_⟩
    rw [hc]
    rfl
  · obtain ⟨P, hc, hP⟩ := hno.substatement d
    refine ⟨P, hP, fun f => ?_⟩
    rw [hc]
    rfl

theorem faithful_if (ht : Faithful test) (hy : FaithfulStatement F yes) : FaithfulStatement F
      (spanned .ifStatement
        [("test", .node test), ("consequent", .node yes), ("alternate", .ofNode? none)] ts) := by
  intro depth
  obtain ⟨P, hc, hP⟩ := ht.expression sequence true depth
  obtain ⟨Q, hco, hQ⟩ := hy.substatement depth
  refine ⟨.token "if" :: .space :: (Code.parens P ++ Q), ?_, .of_word (p := ifStatement) rfl
    (fun _ _ _ _ => rfl) (rests_headed hP.opens hQ.rests (by decide)) fun hF ha => ?_⟩
  · rw [Code.statementBody]
    exact bind_eq_ok rfl (bind_eq_ok (code_headed hc) (bind_eq_ok rfl (bind_eq_ok hco
      (congrArg Except.ok (append_nil _)))))
  · have he : ∀ {t}, Leaves (spanned .ifStatement [("test", .node test),
        ("consequent", .node yes), ("alternate", .ofNode? none)] ts) t → t.is "else" = false :=
      fun h => h.2 (by rw [dangles_if rfl]; rfl)
    refine .next fun _ _ => .space (hP.parses_parenthesized.spare.bind .any fun t' ht' => ?_)
    refine .last (.below ((hQ.parses hF ha).before fun h => ⟨h.1, fun _ => he h⟩))
      fun y' hy' => .pass (.nil he) ?_
    exact .first (.pure (A := (AlikeOption · none)) rfl) .any fun x hx =>
      .finish (.node ht' (.node hy' (.node? hx .nil)))

theorem faithful_if_else (ht : Faithful test) (hy : FaithfulStatement F yes)
    (hda : dangles yes = false) (hno : FaithfulStatement F no) :
    FaithfulStatement F (spanned .ifStatement [("test", .node test), ("consequent", .node yes),
         ("alternate", .ofNode? (some no))] ts) := by
  intro depth
  obtain ⟨P, hc, hP⟩ := ht.expression sequence true depth
  obtain ⟨Q, hco, hQ⟩ := hy.substatement depth
  obtain ⟨S, hS, hcod⟩ := code_alternate (d := depth) hno
  refine ⟨.token "if" :: .space :: (Code.parens P ++ (Q ++ resume depth yes ::
    .token "else" :: S)), ?_, .of_word (p := ifStatement) rfl (fun _ _ _ _ => rfl) ?_
      fun hF ha => ?_⟩
  · rw [Code.statementBody]
    refine bind_eq_ok rfl (bind_eq_ok (code_headed hc) (bind_eq_ok rfl (bind_eq_ok hco
      ((hcod _).trans (bind_eq_ok rfl ?_)))))
    simp [pure, Except.pure]
  · refine rests_headed hP.opens (hQ.rests.append (flowing_resume ?_)) (by decide)
    exact (closing hS.rests rfl rfl).rests
  · refine .next fun _ _ => .space (hP.parses_parenthesized.spare.bind .any fun t' ht' => ?_)
    refine .bind (.below (hQ.parses hF ha)) (.resume (.token (by decide) fun h => ?_))
      fun y' hy' => ?_
    · exact ⟨is_eq_false_of_is h (by decide), fun hd => by rw [hda] at hd; cases hd⟩
    refine .resume (.took (by decide) ?_)
    refine .last (.some (.below ((hS.parses hF ha).before fun h => h.alternate rfl rfl)))
      fun z' hz' => ?_
    exact .finish (.node ht' (.node hy' (.node? hz' .nil)))

-- == loops

theorem faithful_doWhile {body : Node} (ht : Faithful test) (hbo : FaithfulStatement F body) :
    FaithfulStatement F
      (spanned .doWhileStatement [("body", .node body), ("test", .node test)] ts) := by
  intro depth
  obtain ⟨P, hc, hP⟩ := hbo.substatement depth
  obtain ⟨Q, hco, hQ⟩ := ht.expression sequence true depth
  refine ⟨.token "do" :: (P ++ resume depth body :: .token "while" :: .space ::
    (Code.parens Q ++ [Piece.token ";"])), ?_, .of_word (p := doWhileStatement) rfl
      (fun _ _ _ _ => rfl) ?_ fun hF ha => ?_⟩
  · rw [Code.statementBody]
    refine bind_eq_ok rfl (bind_eq_ok hc (bind_eq_ok rfl (bind_eq_ok hco ?_)))
    simp [Code.head, Code.parens, pure, Except.pure]
  · have hs : Rests [.token ";"] false := (closing .nil rfl rfl).rests
    refine (closing (hP.rests.append (flowing_resume ?_)) rfl rfl).rests
    exact rests_headed hQ.opens hs (by decide)
  · refine .next fun _ _ => .bind (.below (hP.parses hF ha))
      (.resume (.token (by decide) fun h => leaves_of_is h (by decide))) fun b hb => .resume
        (.expect (by decide) fun _ => ?_)
    refine .space (hQ.parses_parenthesized.spare.bind .any fun t' ht' => ?_)
    exact .eat (by decide) (.finish (.node hb (.node ht' .nil)))

/-- The node can be the first part of a loop's head. -/
def FaithfulInit (n : Node) : Prop :=
  Faithful n ∧ n.kind ≠ .variableDeclaration ∨
    ∃ word ns ts, n = declarationOf word ns ts ∧ word ∈ ["var", "let", "const"] ∧ ns ≠ [] ∧
      ∀ n ∈ ns, FaithfulDeclarator n

/-- What comes behind the first part of a loop's head. -/
def EndsInit (n : Option Node) (t : Token) : Prop :=
  t.is ";" = true ∨ n ≠ none ∧ t.is "in" = true

/-- The pieces are the first part of a loop's head. -/
structure SpellsInit (n : Option Node) (P : List Piece) : Prop where
  rests : Rests P true
  parses : ∀ {σ : Scope}, Parses 1 σ forInit (AlikeOption · n) P (EndsInit n)

theorem EndsInit.bond (h : EndsInit (some n) t) : bond false t = 0 := by
  rcases h with h | ⟨-, h⟩
  · exact bond_stop h (by decide)
  · exact bond_in h

theorem FaithfulInit.code (h : FaithfulInit n) :
    ∃ P, forLeft d n = .ok P ∧ SpellsInit (some n) P := by
  rw [forLeft]
  rcases h with ⟨hn, hk⟩ | ⟨word, ns, ts, rfl, hw, hne, hns⟩
  · obtain ⟨P, hc, hP⟩ := hn.expression sequence false d
    refine ⟨P, by rw [if_neg hk, hc], hP.opens.follows.rests, fun {σ} => ?_⟩
    have he := (hP.parses_expression (σ := { σ with allowIn := false })
      fun h => by cases h).before (N := EndsInit (some n)) EndsInit.bond
    refine .peek _ he.starts_expression fun t ht => ?_
    refine .ite_neg ?_ (.ite_neg ?_ (Parses.withIn (.below he)).some)
    · simp [is_eq_false_of_startsExpression (w := ";") ht.1 ht.2 (.inr (by decide)) (by decide)]
    · intro hco
      have hm := contains_iff_mem.1 hco
      have hki := ht.2.kind_of_isWord (Rules.isWord_declaration hm)
      have ha : ∀ w ∈ ["var", "let", "const"], isReserved w = true ∧ w ∉ openings := by decide
      obtain ⟨hr, ho⟩ := ha _ hm
      have his := is_eq_false_of_startsExpression ht.1 ht.2 (.inl hr) ho
      simp [is, hki] at his
  · obtain ⟨P, hc, hP⟩ := code_declarations (g := false) (d := d) hw hne hns
    refine ⟨P, bind_eq_ok hc rfl, hP.opens.follows.rests, fun {σ} => ?_⟩
    obtain ⟨Q, rfl⟩ := hP.starts
    have hd := (hP.parses (σ := { σ with allowIn := false }) fun h => by cases h).before
      (N := EndsInit (some (declarationOf word ns ts))) EndsInit.bond
    refine .peek (·.text = word) (fun _ _ _ _ _ _ hre _ => hre.1.text_eq) fun t ht => ?_
    refine .ite_neg ?_ (.ite_pos ?_ (Parses.withIn hd.spare).some)
    · intro h
      rw [← ht, text_of_is h] at hw
      exact absurd hw (by decide)
    · rw [ht]
      exact contains_iff_mem.2 hw

theorem AlikeOption.of_some {x : Node} (h : AlikeOption a (some x)) :
    ∃ y, a = some y ∧ y.Alike x := by
  cases a with
  | none => cases h
  | some y => exact ⟨y, rfl, Option.some.inj h⟩

theorem AlikeOption.of_none (h : AlikeOption a none) : a = none := by
  cases a with
  | none => rfl
  | some y => cases h

theorem code_spaced (key : String) (hx : ∀ n ∈ x, Faithful n) (hn : n.child? key = x) :
    ∃ P, Code.spaced key d n = .ok P ∧ Rests P true ∧
      ∀ {σ : Scope} {stop : String}, stop ∈ [";", ")"] →
        Parses 1 σ (fun r => r.optionalExpression stop) (AlikeOption · x) P (·.is stop = true) := by
  rw [Code.spaced]
  cases x with
  | none =>
    rw [optional_none hn]
    exact ⟨[], rfl, .nil, fun _ => .atToken (.nil id) (.ite_pos rfl (.pure rfl))⟩
  | some n =>
    obtain ⟨P, hc, hP⟩ := (hx n rfl).expression sequence true d
    rw [optional_some hn]
    refine ⟨.space :: P, bind_eq_ok hc rfl, space_iff.2 hP.opens.follows.rests,
      fun {σ stop} hm => ?_⟩
    have ha : ∀ w ∈ [";", ")"], w ∈ [";", ")", "]", "\x7d", ":"] ∧
        w.toList.head?.any Lexeme.isWordStart = false ∧ w ∉ openings := by decide
    obtain ⟨hm', hs, ho⟩ := ha stop hm
    have he := (hP.parses_expression (σ := { σ with allowIn := true }) fun _ => rfl).before
      (N := (·.is stop = true)) fun h => bond_stop h hm'
    refine .space (.atToken (v := false) (he.starts_expression.imp fun h => ?_)
      (.ite_neg (by decide) (Parses.withIn (.below he)).some))
    exact is_eq_false_of_startsExpression h.1 h.2 (.inr hs) ho

theorem code_init (hx : ∀ n ∈ x, FaithfulInit n) (hn : n.child? "init" = x) :
    ∃ P, SpellsInit x P ∧ ∀ f : List Piece → Code, (match n.optional "init" with
      | some init => do
          let init ← forLeft d init.1
          f init
      | none => do
          let init ← pure []
          f init) = f P := by
  cases x with
  | none =>
    rw [optional_none hn]
    refine ⟨[], ⟨.nil, fun {σ} => ?_⟩, fun f => rfl⟩
    refine .peek (·.is ";" = true) (.nil fun h => ?_) fun t ht => .ite_pos ht (.pure rfl)
    exact h.resolve_right fun h => h.1 rfl
  | some n =>
    obtain ⟨P, hc, hP⟩ := (hx n rfl).code (d := d)
    rw [optional_some hn]
    refine ⟨P, hP, fun f => ?_⟩
    dsimp only
    rw [hc]
    rfl

/-- The node for a loop. -/
def forOf (init test update : Option Node) (body : Node) (ts : List Token) : Node :=
  spanned .forStatement
    [("init", .ofNode? init), ("test", .ofNode? test), ("update", .ofNode? update),
     ("body", .node body)] ts

theorem faithful_for {test update : Option Node} {body : Node} (hin : ∀ x ∈ init, FaithfulInit x)
    (hte : ∀ x ∈ test, Faithful x) (hup : ∀ x ∈ update, Faithful x)
    (hbo : FaithfulStatement F body) : FaithfulStatement F (forOf init test update body ts) := by
  intro depth
  obtain ⟨P, hP, hco⟩ := code_init (d := depth) (n := forOf init test update body ts) hin
    (by cases init <;> rfl)
  obtain ⟨Q, hcod, hQ, hr⟩ := code_spaced (d := depth)
    (n := forOf init test update body ts) "test" hte (by cases test <;> rfl)
  obtain ⟨S, hcode, hS, hre⟩ := code_spaced (d := depth)
    (n := forOf init test update body ts) "update" hup (by cases update <;> rfl)
  obtain ⟨B, hc, hB⟩ := hbo.substatement depth
  refine ⟨.token "for" :: .space :: .token "(" :: (P ++ .token ";" :: (Q ++ .token ";" ::
    (S ++ .token ")" :: B))), ?_, .of_word (p := forStatement) rfl (fun _ _ _ _ => rfl) ?_
      fun hF ha => ?_⟩
  · rw [Code.statementBody]
    refine (hco _).trans (bind_eq_ok hcod (bind_eq_ok hcode (bind_eq_ok rfl (bind_eq_ok hc ?_))))
    simp [Code.head, pure, Except.pure]
  · have hbod : Follows (.token ")" :: B) false := .closing hB.rests rfl rfl
    have hupd : Follows (.token ";" :: (S ++ .token ")" :: B)) false :=
      .closing (hS.append hbod) rfl rfl
    have htes : Follows (.token ";" :: (Q ++ .token ";" :: (S ++ .token ")" :: B))) false :=
      .closing (hQ.append hupd) rfl rfl
    refine (closing (space_iff.2 ?_) rfl rfl).rests
    exact (closing (hP.rests.append htes) rfl rfl).rests
  · refine .next fun _ _ => .space (.expect (by decide) fun _ =>
      hP.parses.bind (.token (by decide) .inl) fun i hi => ?_)
    refine .atToken (v := false) (.token (by decide) fun h => is_eq_false_of_is h (by decide)) ?_
    cases i <;>
    · refine .expect (by decide) fun _ => (hr (by decide)).bind (.token (by decide) id)
        fun t ht => .expect (by decide) fun _ => ?_
      refine (hre (by decide)).bind (.token (by decide) id)
        fun u hu => .expect (by decide) fun _ => ?_
      refine .last (.below ((hB.parses hF ha).before fun h => h.body
        (by simp [forOf, spanned, bare]) rfl)) fun b hb => ?_
      exact .finish (.node? hi (.node? ht (.node? hu (.node hb .nil))))

theorem faithful_forIn {left right body : Node} (hl : FaithfulInit left)
    (ht : isLoopTarget left = true) (hr : Faithful right) (hbo : FaithfulStatement F body) :
    FaithfulStatement F (spanned .forInStatement
        [("left", .node left), ("right", .node right), ("body", .node body),
         ("each", .ofBool false)] ts) := by
  intro depth
  obtain ⟨P, hco, hP⟩ := hl.code (d := depth)
  obtain ⟨Q, hcod, hQ⟩ := hr.expression sequence true depth
  obtain ⟨B, hc, hB⟩ := hbo.substatement depth
  refine ⟨.token "for" :: .space :: .token "(" :: (P ++ .space :: .token "in" :: .space ::
    (Q ++ .token ")" :: B)), ?_, .of_word (p := forStatement) rfl (fun _ _ _ _ => rfl) ?_
      fun {σ} hF ha => ?_⟩
  · rw [Code.statementBody]
    refine bind_eq_ok rfl (bind_eq_ok hco (bind_eq_ok rfl (bind_eq_ok hcod (bind_eq_ok rfl
      (bind_eq_ok hc ?_)))))
    simp [Code.head, pure, Except.pure]
  · have hbod : Follows (.token ")" :: B) false := .closing hB.rests rfl rfl
    have hin : Follows (.token "in" :: .space :: (Q ++ .token ")" :: B)) false :=
      .joiner (space_iff.2 (hQ.opens.append hbod)) rfl
    refine (closing (space_iff.2 ?_) rfl rfl).rests
    exact (closing (hP.rests.append (space_iff.2 hin)) rfl rfl).rests
  · refine .next fun _ _ => .space (.expect (by decide) fun _ => hP.parses.bind
      (.space (.token (by decide) fun h => .inr ⟨by simp, h⟩)) fun i hi => ?_)
    refine .space (.atToken (v := true) (.token (by decide) id) ?_)
    obtain ⟨l', rfl, hl'⟩ := AlikeOption.of_some hi
    refine .next fun _ _ => .ite_pos (by rw [isLoopTarget_eq hl', ht]) (.space ?_)
    refine (Parses.withIn (.below (hQ.parses_expression fun _ => rfl))).bind
      (.token (by decide) fun h => bond_stop h (by decide)) fun r' hr' => .expect (by decide)
        fun _ => ?_
    exact .last (.below ((hB.parses hF ha).before fun h => h.body
      (by simp [spanned, bare]) rfl)) fun b hb =>
        .finish (.node hl' (.node hr' (.node hb (.same .nil))))

-- == jumps

theorem opens_argument (hP : Opens P true) (hw : IsWord word.toList) :
    Opens (.token word :: .space :: (P ++ [.token ";"])) false :=
  .opener (space_iff.2 (hP.append (.closing .nil rfl rfl))) (isOpener_of_isWord hw)

theorem parses_argument {N : Token → Prop} (word : String) (kind : Kind) (hP : Spells 0 true n P)
    (ha : σ.allowIn = true) :
    Parses 0 σ (fun r => r.argumentStatement kind) (·.Alike (spanned kind [("argument", .node n)] ts))
      (.token word :: .space :: (P ++ [.token ";"])) N := by
  have hs : Starts [.token ";"] N (bond σ.allowIn · = 0) :=
    .token (by decide) fun h => bond_stop h (by decide)
  have he := hP.parses_expression fun _ => ha
  refine .next_peek _ (he.starts_expression.append hs).space hP.unbroken.append.space
    fun _ t ht hl => .ite_neg ?_ (.space ?_)
  · have hn := fun {w} (hw : w.toList.head?.any Lexeme.isWordStart = false) (hw' : w ∉ openings) =>
      is_eq_false_of_startsExpression ht.1 ht.2 (.inr hw) hw'
    simp [hn (w := ";") (by decide) (by decide), hn (w := "\x7d") (by decide) (by decide),
      isEnd_of_startsExpression ht.1, hl]
  · exact .bind (.below he) hs fun n' hn' => .semicolon (.finish (.node hn' .nil))

theorem faithful_return (hF : F.inFunction = true) {argument : Option Node}
    (h : ∀ n ∈ argument, Faithful n) :
    FaithfulStatement F (spanned .returnStatement [("argument", .ofNode? argument)] ts) := by
  intro depth
  -- the rule for the word asks whether there is a function around
  have hd : ∀ {σ : Scope} {n : Node} {P : List Piece} {N : Token → Prop}, σ.frame = F →
      Parses 0 σ (fun r => r.argumentStatement .returnStatement) (·.Alike n)
        (.token "return" :: P) N →
      Parses 0 σ statementRule (·.Alike n) (.token "return" :: P) N := by
    intro σ n P N hσ hp
    refine hp.congr .shown fun r c ⟨hk, hte⟩ => ?_
    have hin : σ.inFunction = true := by
      rw [← hF, ← hσ]
      rfl
    rw [statementRule_word r hk]
    unfold wordStatement
    rw [hte]
    simp only
    rw [bind_run_ok (read_run σ c), if_pos hin]
  cases argument with
  | none =>
    refine ⟨[.token "return", .token ";"], ?_, ?_, fun hσ _ => hd hσ ?_⟩
    · rw [Code.statementBody]
      exact bind_eq_ok (by rw [Code.argument, Code.spaced]; rfl) rfl
    · exact (closing (closing .nil rfl rfl).rests rfl rfl).rests
    · exact .next fun _ _ => .peek _ (.token (by decide) id) fun t ht => .ite_pos (by simp [ht])
        (.ite_pos rfl (.semicolon (.finish (.same .nil))))
  | some n =>
    obtain ⟨P, hc, hP⟩ := (h n rfl).expression sequence true depth
    refine ⟨.token "return" :: .space :: (P ++ [Piece.token ";"]), ?_,
      (opens_argument hP.opens (by decide)).follows.rests, fun hσ ha => hd hσ ?_⟩
    · rw [Code.statementBody]
      exact bind_eq_ok (by rw [Code.argument, Code.spaced]; exact bind_eq_ok hc rfl) rfl
    · exact parses_argument "return" .returnStatement hP ha

theorem faithful_throw {argument : Node} (h : Faithful argument) :
    FaithfulStatement F (spanned .throwStatement [("argument", .node argument)] ts) := by
  intro depth
  obtain ⟨P, hc, hP⟩ := h.expression sequence true depth
  refine ⟨.token "throw" :: .space :: (P ++ [Piece.token ";"]), ?_, .of_word
    (p := fun r => r.argumentStatement .throwStatement) rfl (fun _ _ _ _ => rfl)
    (opens_argument hP.opens (by decide)).follows.rests fun _ ha =>
      parses_argument "throw" .throwStatement hP ha⟩
  rw [Code.statementBody]
  exact bind_eq_ok (by rw [Code.argument, Code.spaced]; exact bind_eq_ok hc rfl) rfl

/-- The word of a jump. -/
def jumpWord (kind : Kind) : String :=
  if kind = .breakStatement then "break" else "continue"

theorem SpellsStatement.of_jump (hk : kind = .breakStatement ∨ kind = .continueStatement)
    (hr : Rests (.token (jumpWord kind) :: P) false) (h : ∀ {σ : Scope}, σ.frame = F →
      Parses 0 σ (fun _ => jumpStatement kind) (·.Alike n) (.token (jumpWord kind) :: P)
        (Leaves n)) : SpellsStatement F n (.token (jumpWord kind) :: P) := by
  rcases hk with rfl | rfl
  · exact .of_word (p := fun _ => jumpStatement .breakStatement) rfl (fun _ _ _ _ => rfl) hr
      fun hF _ => h hF
  · exact .of_word (p := fun _ => jumpStatement .continueStatement) rfl (fun _ _ _ _ => rfl) hr
      fun hF _ => h hF

theorem code_jump (hki : kind = .breakStatement ∨ kind = .continueStatement) (hk : n.kind = kind)
    (hl : label d n = .ok P) :
    Code.statementBody d n = .ok (.token (jumpWord kind) :: (P ++ [.token ";"])) := by
  rw [Code.statementBody]
  rcases hki with rfl | rfl <;> simp only [hk] <;> exact bind_eq_ok hl rfl

theorem faithful_jump (hk : kind = .breakStatement ∨ kind = .continueStatement) :
    FaithfulStatement F (spanned kind [("label", .ofNode? none)] ts) := by
  intro depth
  refine ⟨_, code_jump (P := []) hk rfl ?_, .of_jump hk ?_ fun _ => ?_⟩
  · rw [label]
    rfl
  · rcases hk with rfl | rfl <;> exact (closing (closing .nil rfl rfl).rests rfl rfl).rests
  · refine .next fun _ _ => .peek (·.kind = .punct) (fun _ _ _ _ _ _ hr _ => hr.1.kind_eq)
      fun t ht => .ite_neg (by simp [ht]) (.semicolon (.finish (.same .nil)))

theorem faithful_jumpTo (hk : kind = .breakStatement ∨ kind = .continueStatement)
    (hw : IsWord w.toList) (hr : isReserved w = false) (hl : w ∈ F.labels) :
    FaithfulStatement F (spanned kind [("label", .node (nameNode w us))] ts) := by
  intro depth
  refine ⟨_, code_jump (P := [.token w]) hk rfl ?_, .of_jump hk ?_ fun hF => ?_⟩
  · rw [label]
    exact code_name (Nat.le_refl _)
  · have hn : Opens [.token w, .token ";"] false :=
      (opens_word hw).append (closing .nil rfl rfl).rests
    rcases hk with rfl | rfl <;> exact (opener hn rfl).follows.rests
  · refine .next_peek (fun t => t.kind = .word ∧ t.text = w) ?_ unbroken_token
      fun _ t ht hli => .ite_pos (by simp [ht, hr, hli]) ?_
    · exact fun _ _ _ _ _ _ hre _ =>
        ⟨hre.1.kind_eq.trans (kindOf_of_isWord hw), hre.1.text_eq⟩
    replace hl : w ∈ Scope.labels _ := hF ▸ hl
    refine .read (.ite_pos (by simpa [ht.2] using hl) ?_)
    exact (parses_identifier hw hr).spare.bind .any fun l' hl' => .semicolon
      (.finish (.node hl' .nil))

theorem faithful_labeled {body : Node} (hw : IsWord w.toList) (hr : isReserved w = false)
    (hla : w ∉ F.labels) (hbo : FaithfulStatement (F.push w) body) :
    FaithfulStatement F
      (spanned .labeledStatement [("label", .node (nameNode w us)), ("body", .node body)] ts) := by
  intro depth
  obtain ⟨P, hcod, hP⟩ := hbo.statement depth
  refine ⟨.token w :: .token ":" :: .space :: P, ?_, ?_,
    fun {σ} hF ha => .agree (q := labeledStatement) ?_ fun r hc hre _ => ?_⟩
  · rw [Code.statementBody]
    exact bind_eq_ok rfl (bind_eq_ok (code_name (R := Level.primary) (Nat.le_refl _))
      (bind_eq_ok rfl (bind_eq_ok hcod rfl)))
  · have hco : Follows (.token ":" :: .space :: P) false :=
      .closing (space_iff.2 hP.rests) rfl rfl
    exact ((opens_word hw).append hco.rests).follows.rests
  · have hla' : w ∉ σ.labels := by
      rw [← hF] at hla
      exact hla
    refine .peek (·.text = w) (fun _ _ _ _ _ _ hre _ => hre.1.text_eq) fun t ht => ?_
    refine .read (.ite_neg (by simpa [ht] using hla') ?_)
    refine (parses_identifier hw hr).bind .any fun l' (hl' : l'.Alike (nameNode w us)) =>
      .expect (by decide) fun _ => .space ?_
    have hbo := hP.parses (σ := { σ with labels := σ.labels ++ [t.text] })
      (by rw [← hF, ht]; rfl) ha
    refine Parses.before ?_ fun h => h.body (by simp [spanned, bare]) rfl
    exact Parses.last (.withReader (.below hbo)) fun b hb => .finish (.node hl' (.node hb .nil))
  · have hco := hre.2.1.is_self (s := ":") (by decide)
    have hwo : w ∉ statementWords := by
      intro hm
      have hal : ∀ v ∈ statementWords, isReserved v = true := by decide
      rw [hal w hm] at hr
      cases hr
    rw [← hre.1.text_eq] at hwo
    rw [statementRule_word r (hre.1.kind_eq.trans (kindOf_of_isWord hw)),
      wordStatement_other r hwo, hc.second hre.1.isEnd, hre.1.text_eq, hr, hco]
    rfl

-- == try

/-- The node is a handler. -/
def FaithfulHandler (F : Frame) (n : Node) : Prop :=
  ∃ param body ts, n = spanned .catchClause [("param", .node param), ("body", .node body)] ts ∧
    IsIdentifier param ∧ FaithfulBlock F body

theorem code_catchClause (h : FaithfulHandler F n) :
    ∃ P, Code.catchClause d n = .ok P ∧ Rests P false ∧
      ∀ {σ : Scope} {N : Token → Prop}, σ.frame = F → σ.allowIn = true →
        Parses 1 σ catchClause (AlikeOption · (some n)) P N := by
  obtain ⟨param, body, ts, rfl, hp, hbo⟩ := h
  obtain ⟨P, hco, hP⟩ := hp.code (R := sequence) (g := true) (d := d) (by decide)
  obtain ⟨Q, hcod, hQ⟩ := hbo d
  refine ⟨.space :: .token "catch" :: .space :: .token "(" :: (P ++ .token ")" :: .space :: Q), ?_,
    ?_, fun hF ha => ?_⟩
  · rw [Code.catchClause]
    refine bind_eq_ok rfl (bind_eq_ok hco (bind_eq_ok rfl (bind_eq_ok hcod ?_)))
    simp [Code.head, Node.marks, spanned, bare, pure, Except.pure]
  · have hc : Follows (.token ")" :: .space :: Q) false :=
      .closing (space_iff.2 hQ.rests) rfl rfl
    have ho : Rests (.token "(" :: (P ++ .token ")" :: .space :: Q)) false :=
      (closing (hP.opens.append hc.rests).follows.rests rfl rfl).rests
    exact space_iff.2 (closing (space_iff.2 ho) rfl rfl).rests
  · refine .space (.atToken (v := true) (.token (by decide) id) (.ite_pos rfl ?_))
    refine .next fun _ _ => .space (.expect (by decide) fun _ =>
      (hP.parses 1).bind .any fun p' hp' => ?_)
    refine .expect (by decide) fun _ => .space ((hQ.parses hF ha).spare.last fun b hb => ?_)
    exact (Parses.finish (.node hp' (.node hb .nil))).some

theorem code_handler (hx : ∀ n ∈ x, FaithfulHandler F n) (hn : n.child? "handler" = x) :
    ∃ P, (∀ f : List Piece → Code, (match n.optional "handler" with
      | none => do
          let handler ← pure []
          f handler
      | some handler => do
          let handler ← Code.catchClause d handler.1
          f handler) = f P) ∧ Rests P false ∧
      ∀ {σ : Scope}, σ.frame = F → σ.allowIn = true →
        Parses 1 σ catchClause (AlikeOption · x) P (fun t => x = none → t.is "catch" = false) := by
  cases x with
  | none =>
    rw [optional_none hn]
    refine ⟨[], fun f => rfl, .nil, fun _ _ => ?_⟩
    exact .atToken (v := false) (.nil fun h => h rfl) (.ite_neg (by decide) (.pure rfl))
  | some n =>
    obtain ⟨P, hc, hr, hp⟩ := code_catchClause (d := d) (hx n rfl)
    rw [optional_some hn]
    refine ⟨P, fun f => ?_, hr, hp⟩
    dsimp only
    rw [hc]
    rfl

/-- The last block of a `try`, which may be missing, and the rule behind
the handler. -/
theorem code_finalizer (hx : ∀ n ∈ x, FaithfulBlock F n) (hn : n.child? "finalizer" = x) :
    ∃ P, (∀ f : List Piece → Code, (match n.optional "finalizer" with
      | none => do
          let finalizer ← pure []
          f finalizer
      | some finalizer => do
          let code ← Code.block d finalizer.1
          let finalizer ← pure (.space :: .token "finally" :: .space :: code)
          f finalizer) = f P) ∧ Rests P false ∧
      (x ≠ none → ∀ {N : Token → Prop}, Starts P N (·.is "catch" = false)) ∧
      ∀ {σ : Scope} {f : Option Node → Rule Node} {B : Node → Prop}, σ.frame = F →
        σ.allowIn = true →
        (∀ x', AlikeOption x' x → Parses 1 σ (fun _ => f x') B [] fun _ => True) →
        Parses 1 σ (fun r => do
          if ← eat "finally" then do
            let v ← some <$> r.blockStatement
            f v
          else do
            let v ← pure none
            f v) B P (·.is "finally" = false) := by
  cases x with
  | none =>
    rw [optional_none hn]
    refine ⟨[], fun f => rfl, .nil, fun h => absurd rfl h, fun _ _ hr => ?_⟩
    refine .pass (.nil id) ?_
    exact .first (.pure (A := (AlikeOption · none)) rfl) .any fun x' hx' =>
      (hr x' hx').before fun _ => trivial
  | some n =>
    obtain ⟨P, hc, hP⟩ := hx n rfl d
    rw [optional_some hn]
    refine ⟨.space :: .token "finally" :: .space :: P, fun f => ?_, ?_, fun _ _ => ?_,
      fun hF ha hr => ?_⟩
    · dsimp only
      rw [hc]
      rfl
    · exact space_iff.2 (closing (space_iff.2 hP.rests) rfl rfl).rests
    · exact .space (.token (by decide) fun h => is_eq_false_of_is h (by decide))
    · refine .space (.took (by decide) (.space ?_))
      exact (hP.parses hF ha).spare.some.last fun x' hx' =>
        (hr x' hx').before fun _ => trivial

/-- The node for a `try`. -/
def tryOf (body : Node) (handler finalizer : Option Node) (ts : List Token) : Node :=
  spanned .tryStatement
    [("block", .node body), ("handler", .ofNode? handler), ("finalizer", .ofNode? finalizer)] ts

theorem faithful_try {body : Node} {handler finalizer : Option Node} (hbod : FaithfulBlock F body)
    (hh : ∀ n ∈ handler, FaithfulHandler F n) (hf : ∀ n ∈ finalizer, FaithfulBlock F n)
    (hbo : ¬(handler = none ∧ finalizer = none)) :
    FaithfulStatement F (tryOf body handler finalizer ts) := by
  intro depth
  obtain ⟨P, hco, hP⟩ := hbod depth
  obtain ⟨Q, hcod, hQ, hr⟩ := code_handler (d := depth)
    (n := tryOf body handler finalizer ts) hh (by cases handler <;> rfl)
  obtain ⟨S, hcode, hS, hca, hre⟩ := code_finalizer (d := depth)
    (n := tryOf body handler finalizer ts) hf
    (by cases handler <;> cases finalizer <;> rfl)
  refine ⟨.token "try" :: .space :: (P ++ (Q ++ S)), ?_, .of_word (p := tryStatement) rfl
    (fun _ _ _ _ => rfl) ?_ fun hF ha => ?_⟩
  · rw [Code.statementBody]
    refine bind_eq_ok rfl (bind_eq_ok hco (((hcod _).trans (hcode _)).trans ?_))
    simp [pure, Except.pure]
  · exact (closing (space_iff.2 (hP.rests.append (hQ.append hS))) rfl rfl).rests
  · refine .next fun _ _ => .space ((hP.parses hF ha).spare.bind .any fun b hb => ?_)
    refine (hr hF ha).bind ?_ fun h' hh' => ?_
    · intro ind b b' c c' hc hrea hne hn
      exact hca (fun hn' => hbo ⟨hn, hn'⟩) hc hrea hne
    refine Parses.before (hre hF ha fun f' hf' => .ite_neg ?_ ?_) And.left
    · intro hn
      simp only [Bool.and_eq_true, Option.isNone_iff_eq_none] at hn
      obtain ⟨rfl, rfl⟩ := hn
      exact hbo ⟨AlikeOption.of_none hh'.symm, AlikeOption.of_none hf'.symm⟩
    · exact .finish (.node hb (.node? hh' (.node? hf' .nil)))

-- == switch

/-- The token ends the statements of a case. -/
def EndsCase (t : Token) : Prop :=
  t.is "case" = true ∨ t.is "default" = true ∨ t.is "\x7d" = true

theorem EndsCase.leaves (h : EndsCase t) : Leaves n t := by
  rcases h with h | h | h <;> exact leaves_of_is h (by decide)

/-- The node for a case. -/
def caseOf (test : Option Node) (body : List Node) (ts : List Token) : Node :=
  spanned .switchCase [("test", .ofNode? test), ("consequent", .nodes body)] ts

/-- The node is a case of a switch. -/
def FaithfulCase (F : Frame) (n : Node) : Prop :=
  ∃ test body ts, n = caseOf test body ts ∧ (∀ t ∈ test, Faithful t) ∧
    ∀ s ∈ body, FaithfulStatement F s

/-- The pieces are code for a case, before what other cases there are. -/
structure SpellsCase (F : Frame) (n : Node) (P : List Piece) : Prop where
  rests : Rests P false
  parses : ∀ {σ : Scope} {ns : List Node} {Q : List Piece} {N : Token → Prop}, σ.frame = F →
    σ.allowIn = true → Starts Q N EndsCase → Parses 0 σ casesRule (AlikeAll · ns) Q N →
    Starts (P ++ Q) N EndsCase ∧ Parses 0 σ casesRule (AlikeAll · (n :: ns)) (P ++ Q) N

/-- What a case is for, and the rule behind it. -/
theorem code_test (hx : ∀ n ∈ x, Faithful n) (hn : n.child? "test" = x) :
    ∃ P, (∀ f : List Piece → Code, (match n.optional "test" with
      | none => do
          let test ← pure [.token "default", .token ":"]
          f test
      | some test => do
          let code ← Code.expression sequence true (d + 1) test.1
          let test ← pure (.token "case" :: .space :: code ++ [Piece.token ":"])
          f test) = f P) ∧ Rests P false ∧
      ∀ {σ : Scope} {B : List Node → Prop} {Q : List Piece} {N : Token → Prop}, σ.allowIn = true →
        (∀ start x', AlikeOption x' x → Parses 1 σ (fun r => do
          let consequent ← r.caseBody
          let switchCase ← finish start .switchCase
            [("test", .ofNode? x'), ("consequent", .nodes consequent)]
          return switchCase :: (← r.cases)) B Q N) →
        Starts (P ++ Q) N EndsCase ∧ Parses 0 σ casesRule B (P ++ Q) N := by
  have ho : ∀ {w}, w ≠ "\x7d" → ∀ {t : Token}, t.is w = true → t.is "\x7d" = false :=
    fun hw _ h => is_eq_false_of_is h hw
  cases x with
  | none =>
    rw [optional_none hn]
    refine ⟨_, fun f => rfl, ?_, fun _ hr => ⟨.token (by decide) fun h => .inr (.inl h), ?_⟩⟩
    · exact (closing (closing .nil rfl rfl).rests rfl rfl).rests
    · refine .pass (.token (by decide) (ho (by decide))) (.start fun t => ?_)
      refine .took (by decide) ?_
      exact .first (.pure (A := (AlikeOption · none)) rfl) .any fun x' hx' =>
        .expect (by decide) fun _ => hr _ x' hx'
  | some n =>
    obtain ⟨P, hc, hP⟩ := (hx n rfl).expression sequence true (d + 1)
    rw [optional_some hn]
    refine ⟨.token "case" :: .space :: P ++ [Piece.token ":"], fun f => ?_, ?_,
      fun ha hr => ⟨.token (by decide) .inl, ?_⟩⟩
    · dsimp only
      rw [hc]
      rfl
    · have hco : Follows [.token ":"] false := .closing .nil rfl rfl
      exact (closing (space_iff.2 (hP.opens.append hco).follows.rests) rfl rfl).rests
    · rw [append_assoc]
      refine .pass (.token (by decide) (ho (by decide))) (.start fun t => ?_)
      refine .pass (.token (by decide) fun h => is_eq_false_of_is h (by decide)) ?_
      refine .expect (by decide) fun _ => .space (.bind
        (.some (.below (hP.parses_expression fun _ => ha)))
        (.token (by decide) fun h => bond_stop h (by decide)) fun x' hx' => ?_)
      exact .expect (by decide) fun _ => hr _ x' hx'

theorem code_switchCase (h : FaithfulCase F n) :
    ∃ P, Code.switchCase d n = .ok P ∧ SpellsCase F n P := by
  obtain ⟨test, body, ts, rfl, hte, hbo⟩ := h
  obtain ⟨P, hcod, hP, hr⟩ := code_test (d := d) (n := caseOf test body ts) hte
    (by cases test <;> rfl)
  obtain ⟨Ps, hco, hPs⟩ := code_statements (d := d + 2) hbo
  have hl := SpellsStatement.lines hPs (d + 2)
  refine ⟨P ++ (Ps.map (.newline (d + 2) :: ·)).flatten, ?_,
    hP.append (rests_flatten hl), fun {σ ns Q N} hF ha hn hc => ?_⟩
  · rw [Code.switchCase]
    refine (hcod _).trans ?_
    rw [← flatMap_def]
    cases test <;> exact bind_eq_ok rfl (bind_eq_ok hco rfl)
  · have he : Parses 0 σ caseBodyRule (AlikeAll · []) [] EndsCase :=
      .peek _ (.nil id) fun t ht =>
        .ite_pos (by rcases ht with h | h | h <;> simp [h]) (.pure .nil)
    have hli := (parses_statements Rules.caseBody (fun _ => rfl) he
      (fun n => .nil EndsCase.leaves) (fun {B Q} hs hcon => ?_) hF ha hl).1
    · rw [append_nil] at hli
      rw [append_assoc]
      refine hr ha fun start x' hx' => .bind (.below hli) hn fun b hb => ?_
      refine .first (A := (·.Alike (caseOf test body ts)))
        (.finish (.node? hx' (.nodes hb .nil))) .any fun n' hn' => ?_
      exact .last (.below hc) fun ns' hns' => .pure (.cons hn' hns')
    · simp only [endsStatements, Bool.or_eq_false_iff] at hs
      refine .peek _ hs fun t ht => .ite_neg ?_ (.ite_neg (by simp [ht]) hcon)
      simp [ht]

theorem code_cases (hns : ∀ n ∈ ns, FaithfulCase F n) :
    ∃ Ps, Code.cases d ns = .ok Ps ∧ List.Forall₂ (SpellsCase F) ns Ps := by
  refine code_list (by rw [Code.cases]) fun n hn => ?_
  obtain ⟨P, hco, hP⟩ := code_switchCase (d := d) (hns n hn)
  refine ⟨.newline (d + 1) :: (n.marks ++ P), ⟨?_, fun hF ha hne hc => ?_⟩, fun ns Ps hcod => ?_⟩
  · exact newline_iff.2 (flowing_marks_append.2 hP.rests)
  · obtain ⟨hs, hp⟩ := hP.parses hF ha hne hc
    rw [cons_append, append_assoc]
    exact ⟨(hs.marks n).newline, (hp.marks n).newline⟩
  · rw [Code.cases]
    exact bind_eq_ok hco (bind_eq_ok hcod rfl)

theorem rests_cases (h : List.Forall₂ (SpellsCase F) ns Ps) : Rests Ps.flatten false := by
  induction h with
  | nil => exact .nil
  | cons hP _ ih => exact hP.rests.append ih

theorem parses_cases (h : List.Forall₂ (SpellsCase F) ns Ps) (hF : σ.frame = F)
    (ha : σ.allowIn = true) :
    Starts (Ps.flatten ++ [.newline d, closeBrace]) (fun _ => True) EndsCase ∧
      Parses 0 σ casesRule (AlikeAll · ns) (Ps.flatten ++ [.newline d, closeBrace])
        fun _ => True := by
  induction h with
  | nil =>
    exact ⟨.newline (.token (by decide) fun h => .inr (.inr h)),
      .newline (.took (by decide) (.pure .nil))⟩
  | cons hP _ ih =>
    rw [flatten_cons, append_assoc]
    exact hP.parses hF ha ih.1 ih.2

theorem faithful_switch {discriminant : Node}
    (hd : Faithful discriminant) (hns : ∀ n ∈ ns, FaithfulCase F n) :
    FaithfulStatement F
      (spanned .switchStatement [("discriminant", .node discriminant), ("cases", .nodes ns)] ts) := by
  intro depth
  obtain ⟨P, hcod, hP⟩ := hd.expression sequence true depth
  obtain ⟨Ps, hco, hPs⟩ := code_cases (d := depth) hns
  refine ⟨.token "switch" :: .space :: (Code.parens P ++ .space :: Code.openBrace ::
    (Ps.flatten ++ [Piece.newline depth, closeBrace])), ?_, .of_word (p := switchStatement) rfl
      (fun _ _ _ _ => rfl) ?_ fun hF ha => ?_⟩
  · rw [Code.statementBody]
    refine bind_eq_ok rfl (bind_eq_ok (code_headed hcod) (bind_eq_ok rfl (bind_eq_ok hco ?_)))
    simp [pure, Except.pure]
  · have hc : Rests [.newline depth, closeBrace] false :=
      newline_iff.2 (closing .nil rfl rfl).rests
    refine rests_headed hP.opens (space_iff.2 (follows ?_).rests) (by decide)
    exact .opening ((rests_cases hPs).append hc) rfl rfl
  · refine .next fun _ _ => .space (hP.parses_parenthesized.spare.bind .any fun d' hd' => ?_)
    refine .space (.expect (by decide) fun _ => ?_)
    exact .last (.below ((parses_cases hPs hF ha).2.before fun _ => trivial)) fun ns' hns' =>
      .finish (.node hd' (.nodes hns' .nil))

-- == programs

/-- Statements with line breaks between them are statements one behind
the other. -/
theorem SpellsStatement.separated (h : List.Forall₂ (SpellsStatement F) ns Ps) (depth : Nat) :
    ∃ Qs, List.intercalate [.newline depth] Ps = Qs.flatten ∧
      List.Forall₂ (SpellsStatement F) ns Qs := by
  cases h with
  | nil => exact ⟨[], rfl, .nil⟩
  | @cons n P ns Ps hP hPs =>
    refine ⟨P :: Ps.map (.newline depth :: ·), ?_, .cons hP (SpellsStatement.lines hPs depth)⟩
    clear hP hPs
    induction Ps generalizing P with
    | nil => simp [List.intercalate]
    | cons Q Ps ih =>
      rw [intercalate_cons_cons, ih]
      simp

theorem code_program (hns : ∀ n ∈ ns, FaithfulStatement .top n) :
    ∃ P, Code.program d (bare .program [("body", .nodes ns)]) = .ok P ∧ Rests P false ∧
      ∀ {ind b b' : Bool} {c c' : Cursor}, c.Proper → Reads ind P b c b' c' →
        c'.current.isEnd = true → RerunsAll programRule .top ns c c' := by
  obtain ⟨Ps, hco, hPs⟩ := code_statements (d := d) hns
  obtain ⟨Qs, hQs, hs⟩ := SpellsStatement.separated hPs d
  refine ⟨List.intercalate [.newline d] Ps, ?_, ?_, fun hc hr hen => ?_⟩
  · rw [Code.program]
    exact bind_eq_ok rfl (bind_eq_ok hco rfl)
  · rw [hQs]
    exact rests_flatten hs
  · have he : Parses 0 .top programRule (AlikeAll · []) [] (·.isEnd = true) :=
      .peek _ (.nil id) fun t ht => .ite_pos ht (.pure .nil)
    have hl := (parses_statements (F := .top) Rules.program (fun _ => rfl) he
      (fun n => .nil leaves_of_isEnd) (fun {B Q} hst hcon => ?_) rfl rfl hs).1
    · rw [append_nil, ← hQs] at hl
      exact hl.rerunsAll hc hr hen
    · simp only [endsStatements, Bool.or_eq_false_iff] at hst
      exact .peek _ hst fun t ht => .ite_neg (by simp [ht]) hcon

end Inlay.Script
