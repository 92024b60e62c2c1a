/-
What the rules for expressions do on the tokens they are meant for.

`Runs p σ c a c'` says that a rule returns `a` and gets from `c` to `c'`, at
every level with enough tokens to go, and `Reruns p σ n c c'` that it finds a
node like `n`. There is one lemma for each way a rule can go. For the rules
behind an operand: if the tail of a larger expression runs, so does the tail
of a smaller one in front of it.
-/
import Inlay.Proofs.Script.ExpressionSoundness
import Inlay.Proofs.Tree.Stripped

namespace Inlay.Script

open Rule Node

variable {α : Type} {σ : Scope} {c c₁ c₂ c' : Cursor}

-- == reaching

/-- The second cursor is reached from the first by taking tokens. -/
def Cursor.Reaches (c c' : Cursor) : Prop := ∃ ts, c.Takes ts c'

namespace Cursor

variable {s : String}

theorem Reaches.refl (c : Cursor) : c.Reaches c := ⟨[], .nil c⟩

theorem Reaches.trans (h : c.Reaches c₁) (h' : c₁.Reaches c₂) : c.Reaches c₂ := by
  obtain ⟨ts, hts⟩ := h
  obtain ⟨us, hus⟩ := h'
  exact ⟨ts ++ us, hts.append hus⟩

theorem Reaches.proper (h : c.Reaches c') (hc : c.Proper) : c'.Proper := by
  obtain ⟨ts, hts⟩ := h
  exact hts.proper hc

theorem Reaches.le (h : c.Reaches c') : c'.rest.length ≤ c.rest.length := by
  obtain ⟨ts, hts⟩ := h
  have := hts.length
  omega

theorem Proper.reaches (hc : c.Proper) (h : c.current.isEnd = false) : c.Reaches c.advance :=
  ⟨_, hc.takes h⟩

theorem Proper.lt (hc : c.Proper) (h : c.current.isEnd = false) :
    c.advance.rest.length < c.rest.length := by
  have := (hc.takes h).length
  simp only [List.length_singleton] at this
  omega

theorem Proper.reaches_is (hc : c.Proper) (h : c.current.is s = true) :
    c.Reaches c.advance := hc.reaches (Token.isEnd_of_is h)

theorem Proper.lt_is (hc : c.Proper) (h : c.current.is s = true) :
    c.advance.rest.length < c.rest.length := hc.lt (Token.isEnd_of_is h)

end Cursor

-- == running

/-- The rule returns `a` and gets from `c` to `c'`, at every level that
has enough tokens to go. -/
structure Runs (p : Rules Rule → Rule α) (σ : Scope) (c : Cursor) (a : α) (c' : Cursor) : Prop where
  reaches : c.Reaches c'
  run : ∀ k, c.rest.length ≤ k → p (Rules.level k) σ c = .ok (a, c')

/-- The rule finds a node like `n`. -/
def Reruns (p : Rules Rule → Rule Node) (σ : Scope) (n : Node) (c c' : Cursor) : Prop :=
  ∃ n', n'.Alike n ∧ Runs p σ c n' c'

/-- The rule finds nodes like `ns`. -/
def RerunsAll (p : Rules Rule → Rule (List Node)) (σ : Scope) (ns : List Node) (c c' : Cursor) :
    Prop :=
  ∃ ns', AlikeAll ns' ns ∧ Runs p σ c ns' c'

theorem Reruns.finish {p : Rules Rule → Rule Node} {kind : Kind} {props props' : Node.Props}
    (start : Nat) (hp : PropsAlike (kind == .literal) props' props) (hr : c.Reaches c')
    (hru : ∀ k, c.rest.length ≤ k → p (Rules.level k) σ c = Rule.finish (m := Rule) start kind props' σ c') :
    Reruns p σ (bare kind props) c c' := by
  refine ⟨{ bare kind props' with range := some ⟨start, c'.lastEnd⟩ }, ?_, hr, hru⟩
  exact alike_of_props rfl rfl hp

/-- Behind a token a rule goes on with the level below. -/
theorem Runs.lower {q : Rules Rule → Rule α} {a : α} (h : Runs q σ c a c') (p : Rules Rule → Rule α)
    (hp : ∀ r : Rules Rule, p r.above = q r) {k : Nat} (hk : c.rest.length < k) :
    p (Rules.level k) σ c = .ok (a, c') := by
  obtain ⟨k, rfl⟩ : ∃ j, k = j + 1 := ⟨k - 1, by omega⟩
  have hr := h.run k (by omega)
  rw [← hp] at hr
  exact hr

namespace Rule

variable {s : String}

theorem eat_run_pos (σ : Scope) (h : c.current.is s = true) :
    eat (m := Rule) s σ c = .ok (true, c.advance) := by
  rw [eat_run, if_pos h]

theorem ite_bind {β : Type} {b : Prop} [Decidable b] (x y : Rule α) (f : α → Rule β) :
    (if b then x >>= f else y >>= f) = (if b then x else y) >>= f := by
  split <;> rfl

theorem eat_run_neg (σ : Scope) (h : c.current.is s = false) : eat (m := Rule) s σ c = .ok (false, c) := by
  rw [eat_run, if_neg (by simp [h])]

end Rule

namespace Rules

variable {s : String} {e n : Node} {least : Nat}

-- == words and literals

theorem reruns_identifierName (hc : c.Proper) (hk : c.current.kind = .word)
    (hs : c.current.text = s) :
    Reruns (fun _ => identifierName) σ (bare .identifier [("name", .ofString s)]) c c.advance := by
  refine .finish c.current.span.start (.same .nil) (hc.reaches (by simp [Token.isEnd, hk])) ?_
  intro k _
  unfold identifierName
  rw [peek_bind, if_pos (by simp [hk]), next_bind, hs]

theorem reruns_identifier (hc : c.Proper) (hk : c.current.kind = .word) (hs : c.current.text = s)
    (hr : isReserved s = false) :
    Reruns (fun _ => identifier) σ (bare .identifier [("name", .ofString s)]) c c.advance := by
  obtain ⟨n, hn, hru⟩ := reruns_identifierName (σ := σ) hc hk hs
  refine ⟨n, hn, hru.reaches, fun k hle => ?_⟩
  unfold identifier
  rw [peek_bind, if_pos (by simp [hk, hs, hr])]
  exact hru.run k hle

theorem reruns_number {v : NumberValue} (hc : c.Proper) (hk : c.current.kind = .number)
    (hv : numberValue? c.current.text = some v) (raw : String) :
    Reruns (fun _ => literalToken c.current) σ (bare .literal (literalProps v.toJson raw)) c
      c.advance := by
  refine .finish c.current.span.start (.same (.raw (j := .str c.current.text) .nil))
    (hc.reaches (by simp [Token.isEnd, hk])) ?_
  intro k _
  unfold literalToken
  simp only [hk, hv]
  rw [next_bind]
  rfl

theorem reruns_string {v : String} (hc : c.Proper) (hk : c.current.kind = .string)
    (hv : unquote? c.current.text = some v) (raw : String) :
    Reruns (fun _ => literalToken c.current) σ (bare .literal (literalProps (.str v) raw)) c
      c.advance := by
  refine .finish c.current.span.start (.same (.raw (j := .str c.current.text) .nil))
    (hc.reaches (by simp [Token.isEnd, hk])) ?_
  intro k _
  unfold literalToken
  simp only [hk, hv]
  rw [next_bind]
  rfl

theorem reruns_regex (hc : c.Proper) (hk : c.current.kind = .regex) (hs : c.current.text = s) :
    Reruns (fun _ => literalToken c.current) σ (bare .literal (regexProps s)) c c.advance := by
  refine .finish c.current.span.start (.same (.raw (j := .str s) (.same .nil)))
    (hc.reaches (by simp [Token.isEnd, hk])) ?_
  intro k _
  unfold literalToken
  simp only [hk, hs]
  rw [next_bind]
  rfl

-- == keys

theorem reruns_propertyKey_literal (hk : c.current.kind = .string ∨ c.current.kind = .number)
    (h : Reruns (fun _ => literalToken c.current) σ n c c') :
    Reruns (fun _ => propertyKey) σ n c c' := by
  obtain ⟨n', hn, hr⟩ := h
  refine ⟨n', hn, hr.reaches, fun k hle => ?_⟩
  unfold propertyKey
  rw [peek_bind]
  rcases hk with hk | hk <;> simp only [hk] <;> exact hr.run k hle

theorem reruns_propertyKey_name (hk : c.current.kind = .word)
    (h : Reruns (fun _ => identifierName) σ n c c') : Reruns (fun _ => propertyKey) σ n c c' := by
  obtain ⟨n', hn, hr⟩ := h
  refine ⟨n', hn, hr.reaches, fun k hle => ?_⟩
  unfold propertyKey
  rw [peek_bind]
  simp only [hk]
  exact hr.run k hle

-- == primary

/-- A primary expression is read by the rule for its first token. -/
theorem reruns_primary {p : Rules Rule → Rule Node} (hp : ∀ r : Rules Rule, r.primary σ c = p r σ c)
    (h : Reruns p σ n c c') : Reruns primary σ n c c' := by
  obtain ⟨n', hn, hr⟩ := h
  exact ⟨n', hn, hr.reaches, fun k hk => (hp _).trans (hr.run k hk)⟩

theorem primary_word (r : Rules Rule) (hk : c.current.kind = .word) :
    r.primary σ c = (if c.current.text == "function" then r.function .functionExpression
      else if c.current.text == "this" then do
        let _ ← next
        finish c.current.span.start .thisExpression []
      else if c.current.text == "null" then do
        let _ ← next
        literal .null c.current.text c.current.span.start
      else if c.current.text == "true" || c.current.text == "false" then do
        let _ ← next
        literal (.bool (c.current.text == "true")) c.current.text c.current.span.start
      else identifier : Rule Node) σ c := by
  unfold primary
  rw [peek_bind]
  simp only [hk]

theorem primary_punct (r : Rules Rule) (hk : c.current.kind = .punct) :
    r.primary σ c = (if c.current.text == "(" then r.parenthesized
      else if c.current.text == "[" then r.array
      else if c.current.text == "\x7b" then r.object
      else unexpected c.current : Rule Node) σ c := by
  unfold primary
  rw [peek_bind]
  simp only [hk]

theorem primary_literal (r : Rules Rule)
    (hk : c.current.kind = .string ∨ c.current.kind = .number ∨ c.current.kind = .regex) :
    r.primary σ c = literalToken (m := Rule) c.current σ c := by
  unfold primary
  rw [peek_bind]
  rcases hk with hk | hk | hk <;> simp only [hk]

theorem reruns_primary_identifier (hc : c.Proper) (hk : c.current.kind = .word)
    (hs : c.current.text = s) (hr : isReserved s = false) :
    Reruns primary σ (bare .identifier [("name", .ofString s)]) c c.advance := by
  have hne : ∀ {w : String}, isReserved w = true → (s == w) = false := by
    intro w hw
    rw [beq_eq_false_iff_ne]
    rintro rfl
    rw [hr] at hw
    cases hw
  refine reruns_primary (p := fun _ => identifier) (fun r => ?_) (reruns_identifier hc hk hs hr)
  rw [primary_word r hk, hs]
  simp only [hne (w := "function") rfl, hne (w := "this") rfl, hne (w := "null") rfl,
    hne (w := "true") rfl, hne (w := "false") rfl, Bool.or_self, Bool.false_eq_true, if_false]

theorem reruns_primary_this (hc : c.Proper) (hk : c.current.kind = .word)
    (hs : c.current.text = "this") : Reruns primary σ (bare .thisExpression []) c c.advance := by
  refine .finish c.current.span.start .nil (hc.reaches (by simp [Token.isEnd, hk])) fun k _ => ?_
  rw [primary_word _ hk, hs]
  rfl

theorem reruns_primary_null (hc : c.Proper) (hk : c.current.kind = .word)
    (hs : c.current.text = "null") (raw : String) :
    Reruns primary σ (bare .literal (literalProps .null raw)) c c.advance := by
  refine .finish c.current.span.start (.same (.raw (j := .str "null") .nil))
    (hc.reaches (by simp [Token.isEnd, hk])) fun k _ => ?_
  rw [primary_word _ hk, hs]
  rfl

theorem reruns_primary_bool {b : Bool} (hc : c.Proper) (hk : c.current.kind = .word)
    (hs : c.current.text = if b then "true" else "false") (raw : String) :
    Reruns primary σ (bare .literal (literalProps (.bool b) raw)) c c.advance := by
  refine .finish c.current.span.start
    (.same (.raw (j := .str (if b then "true" else "false")) .nil))
    (hc.reaches (by simp [Token.isEnd, hk])) fun k _ => ?_
  rw [primary_word _ hk, hs]
  cases b <;> rfl

-- == members and calls

-- == tails

/-- Behind the expression `e` the rule `tail` gets from `c` to `c₁` with
an expression like `n`: whatever it does from there, it does from `c`. -/
def Continues (tail : Rules Rule → Nat → Node → Rule Node) (σ : Scope) (start : Nat) (e : Node)
    (c : Cursor) (n : Node) (c₁ : Cursor) : Prop :=
  ∃ n', n'.Alike n ∧ c.Reaches c₁ ∧
    ∀ a c', Runs (fun r => tail r start n') σ c₁ a c' → Runs (fun r => tail r start e) σ c a c'

namespace Continues

variable {tail : Rules Rule → Nat → Node → Rule Node} {start : Nat} {e n m : Node}

theorem refl (h : e.Alike n) : Continues tail σ start e c n c :=
  ⟨e, h, .refl c, fun _ _ hr => hr⟩

theorem step (h : Continues tail σ start e c n c₁)
    (hs : ∀ e', e'.Alike n → Continues tail σ start e' c₁ m c₂) :
    Continues tail σ start e c m c₂ := by
  obtain ⟨n', hn, hr, hru⟩ := h
  obtain ⟨m', hm, hr', hru'⟩ := hs n' hn
  exact ⟨m', hm, hr.trans hr', fun a c' h => hru a c' (hru' a c' h)⟩

theorem stop (h : Continues tail σ start e c n c₁)
    (hs : ∀ e', Runs (fun r => tail r start e') σ c₁ e' c₁) :
    Reruns (fun r => tail r start e) σ n c c₁ := by
  obtain ⟨n', hn, -, hr⟩ := h
  exact ⟨n', hn, hr n' c₁ (hs n')⟩

end Continues

section Tails

variable {start : Nat} {e : Node}

theorem continues_member {rule : Rules Rule → Nat → Node → Rule Node}
    (tail : Rules Rule → Nat → Node → Rule Node)
    (hrule : ∀ r, rule r start e σ c = (r.member start e >>= tail r start) σ c)
    (htail : ∀ r n, tail (Rules.above r) start n = rule r start n)
    (h : Reruns (fun r => r.member start e) σ n c c₁) (hs : c₁.rest.length < c.rest.length) :
    Continues rule σ start e c n c₁ := by
  obtain ⟨n', hn, hr⟩ := h
  refine ⟨n', hn, hr.reaches, fun a c' ht => ⟨hr.reaches.trans ht.reaches, fun k hk => ?_⟩⟩
  rw [hrule, bind_run_ok (hr.run k hk)]
  exact ht.lower (tail · start n') (htail · n') (by omega)

theorem callTail_member (hat : c.current.is "." = true ∨ c.current.is "[" = true)
    (h : Reruns (fun r => r.member start e) σ n c c₁) (hs : c₁.rest.length < c.rest.length) :
    Continues callTailRule σ start e c n c₁ := by
  refine continues_member callTail (fun r => ?_) (fun _ _ => rfl) h hs
  have hlp : c.current.is "(" = false := by
    rcases hat with hat | hat <;> exact Token.is_eq_false_of_is hat (by decide)
  rw [callTailRule, peek_bind, if_neg (by simp [hlp]),
    if_pos (by rcases hat with hat | hat <;> simp [hat])]

theorem memberTail_member (hat : c.current.is "." = true ∨ c.current.is "[" = true)
    (h : Reruns (fun r => r.member start e) σ n c c₁) (hs : c₁.rest.length < c.rest.length) :
    Continues memberTailRule σ start e c n c₁ := by
  refine continues_member memberTail (fun r => ?_) (fun _ _ => rfl) h hs
  rw [memberTailRule, peek_bind, if_pos (by rcases hat with hat | hat <;> simp [hat])]

theorem callTail_call {callee : Node} {arguments : List Node} (he : e.Alike callee)
    (hlp : c.current.is "(" = true)
    (h : RerunsAll argumentList σ arguments c c₁) (hs : c₁.rest.length < c.rest.length) :
    Continues callTailRule σ start e c
      (bare .callExpression [("callee", .node callee), ("arguments", .nodes arguments)]) c₁ := by
  obtain ⟨ns, hns, hr⟩ := h
  refine ⟨{ bare .callExpression [("callee", .node e), ("arguments", .nodes ns)] with
      range := some ⟨start, c₁.lastEnd⟩ }, ?_, hr.reaches, fun a c' ht => ?_⟩
  · exact alike_of_props rfl rfl (.node he (.nodes hns .nil))
  refine ⟨hr.reaches.trans ht.reaches, fun k hk => ?_⟩
  unfold callTailRule
  rw [peek_bind, if_pos hlp, bind_run_ok (hr.run k hk), bind_run_ok (finish_run _ _ _ _ _)]
  exact ht.lower (fun r => r.callTail start _) (fun _ => rfl) (by omega)

theorem callTail_stop (h : c.current.is "(" = false ∧ c.current.is "." = false ∧
    c.current.is "[" = false) (e : Node) : Runs (fun r => r.callTailRule start e) σ c e c := by
  refine ⟨.refl c, fun k _ => ?_⟩
  show callTailRule (m := Rule) _ start e σ c = _
  unfold callTailRule
  rw [peek_bind, if_neg (by simp [h.1]), if_neg (by simp [h.2.1, h.2.2])]
  rfl

theorem memberTail_stop (h : c.current.is "." = false ∧ c.current.is "[" = false) (e : Node) :
    Runs (fun r => r.memberTailRule start e) σ c e c := by
  refine ⟨.refl c, fun k _ => ?_⟩
  show memberTailRule (m := Rule) _ start e σ c = _
  unfold memberTailRule
  rw [peek_bind, if_neg (by simp [h.1, h.2])]
  rfl

end Tails

/-- The innermost object or callee: a primary expression or a `new`. -/
def Heads (σ : Scope) (c : Cursor) (e : Node) (c' : Cursor) : Prop :=
  if c.current.is "new" then Runs newExpressionRule σ c e c' else Runs primary σ c e c'

/-- A head with the calls and members behind it. -/
def Calls (σ : Scope) (n : Node) (c c' : Cursor) : Prop :=
  ∃ e c₀, Heads σ c e c₀ ∧ ∀ start, Continues callTailRule σ start e c₀ n c'

/-- A head with the members behind it. -/
def Members (σ : Scope) (n : Node) (c c' : Cursor) : Prop :=
  ∃ e c₀, Heads σ c e c₀ ∧ ∀ start, Continues memberTailRule σ start e c₀ n c'

theorem Heads.reaches (h : Heads σ c e c') : c.Reaches c' := by
  unfold Heads at h
  split at h <;> exact h.reaches

theorem Members.reaches (h : Members σ n c c') : c.Reaches c' := by
  obtain ⟨e, c₀, hh, ht⟩ := h
  obtain ⟨-, -, hr, -⟩ := ht 0
  exact hh.reaches.trans hr

theorem reruns_new {callee : Node} {arguments : List Node} (hc : c.Proper)
    (hne : c.current.is "new" = true) (hca : Members σ callee c.advance c₁)
    (hlp : c₁.current.is "(" = true) (ha : RerunsAll argumentList σ arguments c₁ c') :
    Reruns newExpressionRule σ
      (bare .newExpression [("callee", .node callee), ("arguments", .nodes arguments)]) c
      c' := by
  have hre := (hc.reaches_is hne).trans hca.reaches
  have hlt := hc.lt_is hne
  have hle := hca.reaches.le
  obtain ⟨e, c₀, hh, ht⟩ := hca
  have hle₀ := hh.reaches.le
  obtain ⟨n, hn, hru⟩ := (ht ((e.range.map (·.start)).getD c.current.span.start)).stop
    (memberTail_stop ⟨Token.is_eq_false_of_is hlp (by decide),
      Token.is_eq_false_of_is hlp (by decide)⟩)
  obtain ⟨ns, hns, hr⟩ := ha
  refine .finish c.current.span.start (.node hn (.nodes hns .nil))
    (hre.trans hr.reaches) fun k hk => ?_
  have hf : (if c.advance.current.is "new" then (level k).newExpression
      else (level k).primary : Rule Node) σ c.advance = .ok (e, c₀) := by
    unfold Heads at hh
    split at hh
    · next hne =>
      rw [if_pos hne]
      exact hh.lower Rules.newExpression (fun _ => rfl) (by omega)
    · next hne =>
      rw [if_neg hne]
      exact hh.run k (by omega)
  unfold newExpressionRule
  rw [bind_run_ok (expect_run σ hne), bind_run_ok (atToken_run _ _ _), ite_bind, bind_run_ok hf]
  dsimp only
  rw [bind_run_ok (hru.run k (by omega)), bind_run_ok (atToken_run _ _ _)]
  simp only [hlp, if_true]
  rw [bind_run_ok (hr.run k (by omega))]

theorem reruns_callMember (h : Calls σ n c c₁)
    (hs : c₁.current.is "(" = false ∧ c₁.current.is "." = false ∧
      c₁.current.is "[" = false) : Reruns callMember σ n c c₁ := by
  obtain ⟨e, c₀, hh, ht⟩ := h
  have hle := hh.reaches.le
  obtain ⟨n', hn, hr⟩ := (ht c.current.span.start).stop (callTail_stop hs)
  refine ⟨n', hn, hh.reaches.trans hr.reaches, fun k hk => ?_⟩
  have hf : (if c.current.is "new" then (level k).newExpressionRule
      else (level k).primary : Rule Node) σ c = .ok (e, c₀) := by
    unfold Heads at hh
    split at hh <;> simp only [*, if_true] <;> exact hh.run k hk
  unfold callMember
  rw [peek_bind, bind_run_ok (atToken_run _ _ _), ite_bind, bind_run_ok hf]
  exact hr.run k (by omega)

-- == operators

theorem isTarget_eq {m : Node} (h : m.Alike n) : isTarget m = isTarget n := by
  rw [isTarget, isTarget, h.kind_eq]

theorem reruns_update_behind (hc : c.Proper) (hb : isPrefixOperator c.current = false)
    (hu : isUpdateOperator c.current = false) (hca : Reruns callMember σ n c c₁)
    (hop : isUpdateOperator c₁.current = true) (he : c₁.current.isEnd = false)
    (hl : c₁.current.newlineBefore = false) (ht : isTarget n = true) :
    Reruns unaryRule σ (bare .updateExpression
        [("operator", .ofString c₁.current.text), ("argument", .node n),
         ("prefix", .ofBool false)])
      c c₁.advance := by
  obtain ⟨n', hn, hr⟩ := hca
  have hc₁ := hr.reaches.proper hc
  refine .finish c.current.span.start (.same (.node hn (.same .nil)))
    (hr.reaches.trans (hc₁.reaches he)) fun k hk => ?_
  unfold unaryRule
  rw [peek_bind, if_neg (by simp [hb]), if_neg (by simp [hu]),
    bind_run_ok (hr.run k hk), peek_bind, if_pos (by simp [hop, hl]),
    if_pos (by rw [isTarget_eq hn, ht]), next_bind]

theorem reruns_unary_plain (hb : isPrefixOperator c.current = false)
    (hu : isUpdateOperator c.current = false) (hc : Reruns callMember σ n c c₁)
    (hs : isUpdateOperator c₁.current = false) : Reruns unaryRule σ n c c₁ := by
  obtain ⟨n', hn, hr⟩ := hc
  refine ⟨n', hn, hr.reaches, fun k hk => ?_⟩
  unfold unaryRule
  rw [peek_bind, if_neg (by simp [hb]), if_neg (by simp [hu]),
    bind_run_ok (hr.run k hk), peek_bind, if_neg (by simp [hs])]
  rfl

/-- The tail of operators of at least the strength `least`. -/
abbrev binaryTailOf (least : Nat) (r : Rules Rule) (start : Nat) (e : Node) : Rule Node :=
  r.binaryTailRule start least e

theorem binaryTail_step {s : Nat} {left right : Node} (start : Nat) (he : e.Alike left)
    (hc : c.Proper) (hop : operatorStrength? c.current σ.allowIn = some s) (hlea : least ≤ s)
    (hen : c.current.isEnd = false)
    (hri : Reruns (fun r => r.binaryRule (s + 1)) σ right c.advance c₁) :
    Continues (binaryTailOf least) σ start e c (bare (binaryKind c.current.text)
        [("operator", .ofString c.current.text), ("left", .node left), ("right", .node right)])
      c₁ := by
  obtain ⟨r', hr', hru⟩ := hri
  have hlt := hc.lt hen
  have hr := (hc.reaches hen).trans hru.reaches
  have hle := hru.reaches.le
  refine ⟨{ bare (binaryKind c.current.text)
      [("operator", .ofString c.current.text), ("left", .node e), ("right", .node r')] with
      range := some ⟨start, c₁.lastEnd⟩ }, ?_, hr, fun a c' ht => ?_⟩
  · exact alike_of_props rfl rfl (.same (.node he (.node hr' .nil)))
  refine ⟨hr.trans ht.reaches, fun k hk => ?_⟩
  have hl : (level (m := Rule) k).binary (s + 1) σ c.advance = .ok (r', c₁) :=
    hru.lower (fun r => r.binary (s + 1)) (fun _ => rfl) (by omega)
  show binaryTailRule (m := Rule) _ start least e σ c = _
  unfold binaryTailRule
  rw [peek_bind, bind_run_ok (read_run σ c)]
  simp only [hop]
  rw [if_neg (by omega), next_bind, bind_run_ok hl, bind_run_ok (finish_run _ _ _ _ _)]
  exact ht.lower (fun r => r.binaryTail start least _) (fun _ => rfl) (by omega)

theorem binaryTail_stop {start : Nat}
    (h : ∀ s, operatorStrength? c.current σ.allowIn = some s → s < least) (e : Node) :
    Runs (fun r => binaryTailOf least r start e) σ c e c := by
  refine ⟨.refl c, fun k _ => ?_⟩
  show binaryTailRule (m := Rule) _ start least e σ c = _
  unfold binaryTailRule
  rw [peek_bind, bind_run_ok (read_run σ c)]
  cases hop : operatorStrength? c.current σ.allowIn with
  | none => rfl
  | some s =>
    simp only
    rw [if_pos (h s hop)]
    rfl

/-- A unary expression with the operators behind it. -/
def Joins (least : Nat) (σ : Scope) (n : Node) (c c' : Cursor) : Prop :=
  ∃ e c₀, Runs unaryRule σ c e c₀ ∧ ∀ start, Continues (binaryTailOf least) σ start e c₀ n c'

theorem Joins.reaches (h : Joins least σ n c c') : c.Reaches c' := by
  obtain ⟨e, c₀, hru, ht⟩ := h
  obtain ⟨-, -, hr, -⟩ := ht 0
  exact hru.reaches.trans hr

theorem joins_of_unary (h : Reruns unaryRule σ n c c') : Joins least σ n c c' := by
  obtain ⟨e, he, hr⟩ := h
  exact ⟨e, c', hr, fun _ => .refl he⟩

theorem reruns_binary (h : Joins least σ n c c₁)
    (hs : ∀ s, operatorStrength? c₁.current σ.allowIn = some s → s < least) :
    Reruns (fun r => r.binaryRule least) σ n c c₁ := by
  obtain ⟨e, c₀, hru, ht⟩ := h
  have hle := hru.reaches.le
  obtain ⟨n', hn, hr⟩ := (ht c.current.span.start).stop (binaryTail_stop hs)
  refine ⟨n', hn, hru.reaches.trans hr.reaches, fun k hk => ?_⟩
  show binaryRule (m := Rule) _ least σ c = _
  unfold binaryRule
  rw [peek_bind, bind_run_ok (hru.run k hk)]
  exact hr.run k (by omega)

theorem reruns_conditional_plain (h : Reruns (fun r => r.binaryRule 1) σ n c c₁)
    (hs : c₁.current.is "?" = false) : Reruns conditional σ n c c₁ := by
  obtain ⟨n', hn, hr⟩ := h
  refine ⟨n', hn, hr.reaches, fun k hk => ?_⟩
  unfold conditional
  rw [peek_bind, bind_run_ok (hr.run k hk), bind_run_ok (eat_run_neg σ hs)]
  rfl

/-- Whether a token is an assignment operator. -/
def isAssignmentOperator (t : Token) : Bool :=
  t.kind == .punct && assignmentOperators.contains t.text

theorem reruns_assignment_plain (h : Reruns conditional σ n c c₁)
    (hs : isAssignmentOperator c₁.current = false) : Reruns assignmentRule σ n c c₁ := by
  obtain ⟨n', hn, hr⟩ := h
  refine ⟨n', hn, hr.reaches, fun k hk => ?_⟩
  unfold isAssignmentOperator at hs
  unfold assignmentRule
  rw [peek_bind, bind_run_ok (hr.run k hk), peek_bind, if_neg (by simp only [hs]; simp)]
  rfl

theorem rerunsAll_sequence_nil (hs : c.current.is "," = false) :
    RerunsAll sequenceRule σ [] c c := by
  refine ⟨[], .nil, .refl c, fun k _ => ?_⟩
  unfold sequenceRule
  rw [bind_run_ok (eat_run_neg σ hs)]
  rfl

theorem reruns_expression_plain (h : Reruns assignmentRule σ n c c₁)
    (hs : c₁.current.is "," = false) : Reruns expressionRule σ n c c₁ := by
  obtain ⟨n', hn, hru⟩ := h
  obtain ⟨ms, hms, hr⟩ := rerunsAll_sequence_nil (σ := σ) hs
  rw [AlikeAll.nil_iff.1 hms] at hr
  have hle := hru.reaches.le
  refine ⟨n', hn, hru.reaches, fun k hk => ?_⟩
  unfold expressionRule
  rw [peek_bind, bind_run_ok (hru.run k hk), bind_run_ok (hr.run k (by omega))]
  rfl

end Rules

end Inlay.Script
