/-
Running rules.

To reason about it, a rule is a function of a scope and a cursor, for
nothing that it does to the scope is left in the end (`Progress`). What the
small rules do is said as an equation, to run a rule on known tokens
(`expect_run`, …), and as an inversion of a successful run (`expect_ok`, …).

`Cursor.Takes c ts c'` says that `c'` is reached from `c` by advancing over
the tokens `ts`, none of which is the end. A cursor that `Ends` has the
token of kind `eof` in front of it.
-/
import Inlay.Script.Grammar
import Mathlib

namespace Inlay.Script

variable {α β : Type}

/-- The scope of a function's body. -/
def Scope.function : Scope := ⟨true, true, []⟩

/-- A rule that changes the scope for what is inside it only. -/
abbrev Rule := ReaderT Scope (StateT Cursor (Except SyntaxError))

instance : Parsing Rule where
  cursor := get
  advance := modify (·.advance)
  error := throw
  withIn allowIn := withReader fun scope => { scope with allowIn }
  inFunction := withReader fun _ => .function
  labelled label := withReader fun scope => { scope with labels := scope.labels ++ [label] }

-- == the cursor

namespace Cursor

variable {ts : List Token} {c' c : Cursor}

/-- The tokens from the current one on. -/
def tokens (c : Cursor) : List Token := c.current :: c.rest

/-- The last token in front of the cursor is the end. -/
def Ends (c : Cursor) : Prop := ∃ t, c.tokens.getLast? = some t ∧ t.isEnd = true

/-- The tokens `ts` stand between the two cursors. -/
inductive Takes : Cursor → List Token → Cursor → Prop
  | nil (c : Cursor) : Takes c [] c
  | cons {t t' : Token} {rest ts : List Token} {e : Nat} {c : Cursor} :
      t.isEnd = false → Takes ⟨t', rest, t.span.stop⟩ ts c →
        Takes ⟨t, t' :: rest, e⟩ (t :: ts) c

theorem Takes.append {c₁ c₂ : Cursor} {us : List Token} (h : Takes c ts c₁) (h' : Takes c₁ us c₂) :
    Takes c (ts ++ us) c₂ := by
  induction h with
  | nil c => exact h'
  | cons ht _ ih => exact .cons ht (ih h')

theorem Takes.length (h : Takes c ts c') : c.rest.length = ts.length + c'.rest.length := by
  induction h with
  | nil c => simp
  | cons _ _ ih =>
    simp only [List.length_cons] at *
    omega

theorem Takes.tokens_eq (h : Takes c ts c') : c.tokens = ts ++ c'.tokens := by
  induction h with
  | nil c => rfl
  | cons _ _ ih =>
    simp only [tokens, List.cons_append, List.cons.injEq, true_and] at ih ⊢
    exact ih

theorem Takes.ends (h : Takes c ts c') (he : c.Ends) : c'.Ends := by
  obtain ⟨t, ht, hen⟩ := he
  refine ⟨t, ?_, hen⟩
  rw [h.tokens_eq, List.getLast?_append] at ht
  simpa [tokens, List.getLast?_cons] using ht

theorem Takes.head?_eq (h : Takes c ts c') (hne : ts ≠ []) : ts.head? = some c.current := by
  cases h with
  | nil => exact absurd rfl hne
  | cons => rfl

/-- The cursor remembers where the last token taken ends. -/
theorem Takes.lastEnd_eq (h : Takes c ts c') (hne : ts ≠ []) :
    ts.getLast?.map (·.span.stop) = some c'.lastEnd := by
  induction h with
  | nil => exact absurd rfl hne
  | @cons t t' rest ts e c ht hta ih =>
    cases ts with
    | nil =>
      cases hta
      rfl
    | cons u us => simpa using ih (by simp)

/-- Behind a token that is not the end there is another one. -/
theorem Ends.takes (he : c.Ends) (h : c.current.isEnd = false) : Takes c [c.current] c.advance := by
  obtain ⟨current, rest, lastEnd⟩ := c
  cases rest with
  | nil =>
    obtain ⟨t, ht, hen⟩ := he
    cases ht
    exact absurd (h.symm.trans hen) Bool.false_ne_true
  | cons t rest =>
    simp only [advance, h, Bool.false_eq_true, if_false]
    exact .cons h (.nil _)

theorem Takes.advance_eq {t : Token} (h : Takes c [t] c') : c.current = t ∧ c' = c.advance := by
  cases h with
  | cons ht hta =>
    cases hta
    exact ⟨rfl, by simp [advance, ht]⟩

end Cursor

namespace Token

variable {s : String} {t : Token}

theorem isEnd_of_is (h : t.is s = true) : t.isEnd = false := by
  simp only [is, Bool.and_eq_true, Bool.or_eq_true, beq_iff_eq] at h
  rcases h.1 with hk | hk <;> simp [isEnd, hk]

theorem text_of_is (h : t.is s = true) : t.text = s := by
  simp only [is, Bool.and_eq_true, beq_iff_eq] at h
  exact h.2

/-- A token is at most one punctuator or word. -/
theorem is_eq_false_of_is {s' : String} (h : t.is s = true) (hne : s ≠ s') : t.is s' = false := by
  have := text_of_is h
  simp [is, this, hne]

end Token

namespace Rule

variable {a : α} {f : α → Rule β} {b : β} {x : Rule α} {s : String} {c' c : Cursor}

-- == equations

theorem bind_run (x : Rule α) (f : α → Rule β) (σ : Scope) (c : Cursor) :
    (x >>= f) σ c = match x σ c with
      | .ok (a, c') => f a σ c'
      | .error e => .error e := by
  show (do let (a, s) ← x σ c; f a σ s) = _
  cases x σ c <;> rfl

/-- A rule goes on from where its first part stopped. -/
theorem bind_run_ok {σ : Scope} (h : x σ c = .ok (a, c')) : (x >>= f) σ c = f a σ c' := by
  rw [bind_run, h]

theorem map_run_ok {f : α → β} {σ : Scope} (h : x σ c = .ok (a, c')) :
    (f <$> x) σ c = .ok (f a, c') := by
  rw [map_eq_pure_bind]
  exact bind_run_ok h

@[simp] theorem pure_run (a : α) (σ : Scope) (c : Cursor) :
    (pure a : Rule α) σ c = .ok (a, c) := rfl

@[simp] theorem peek_run (σ : Scope) (c : Cursor) : peek (m := Rule) σ c = .ok (c.current, c) := rfl

@[simp] theorem peekSecond_run (σ : Scope) (c : Cursor) :
    peekSecond (m := Rule) σ c = .ok (c.rest.head?.getD c.current, c) := rfl

@[simp] theorem next_run (σ : Scope) (c : Cursor) : next (m := Rule) σ c = .ok (c.current, c.advance) := rfl

theorem peek_bind {σ : Scope} {f : Token → Rule β} : (peek >>= f) σ c = f c.current σ c := rfl

theorem next_bind {σ : Scope} {f : Token → Rule β} :
    (next >>= f) σ c = f c.current σ c.advance := rfl

@[simp] theorem read_run (σ : Scope) (c : Cursor) : (read : Rule Scope) σ c = .ok (σ, c) := rfl

@[simp] theorem atToken_run (s : String) (σ : Scope) (c : Cursor) :
    atToken (m := Rule) s σ c = .ok (c.current.is s, c) := rfl

@[simp] theorem fail_run (index : Nat) (cause : Cause) (σ : Scope) (c : Cursor) :
    (fail index cause : Rule α) σ c = .error ⟨index, cause⟩ := rfl

@[simp] theorem unexpected_run (t : Token) (σ : Scope) (c : Cursor) :
    (unexpected t : Rule α) σ c = .error ⟨t.span.start, .unexpected t⟩ := rfl

@[simp] theorem finish_run (start : Nat) (kind : Kind) (props : Node.Props)
    (σ : Scope) (c : Cursor) :
    finish (m := Rule) start kind props σ c =
      .ok ({ Node.bare kind props with range := some ⟨start, c.lastEnd⟩ }, c) := rfl

theorem eat_run (s : String) (σ : Scope) (c : Cursor) :
    eat (m := Rule) s σ c = if c.current.is s then .ok (true, c.advance) else .ok (false, c) := by
  unfold eat
  rw [peek_bind]
  split <;> rfl

theorem expect_run (σ : Scope) (h : c.current.is s = true) :
    expect (m := Rule) s σ c = .ok (c.current, c.advance) := by
  unfold expect
  rw [peek_bind, if_pos h]
  rfl

theorem semicolon_run (σ : Scope) (h : c.current.is ";" = true) :
    semicolon (m := Rule) σ c = .ok ((), c.advance) := by
  unfold semicolon
  rw [peek_bind, if_pos h]
  rfl

-- == inversions

theorem bind_ok {σ : Scope} :
    (x >>= f) σ c = .ok (b, c') ↔ ∃ a c₁, x σ c = .ok (a, c₁) ∧ f a σ c₁ = .ok (b, c') := by
  rw [bind_run]
  cases x σ c with
  | error e => simp
  | ok p =>
    constructor
    · intro h
      exact ⟨p.1, p.2, rfl, h⟩
    · rintro ⟨a, c₁, hp, h⟩
      cases hp
      exact h

theorem map_ok {f : α → β} {σ : Scope} :
    (f <$> x) σ c = .ok (b, c') ↔ ∃ a, x σ c = .ok (a, c') ∧ f a = b := by
  rw [map_eq_pure_bind, bind_ok]
  constructor
  · rintro ⟨a, c₁, hx, h⟩
    cases h
    exact ⟨a, hx, rfl⟩
  · rintro ⟨a, hx, rfl⟩
    exact ⟨a, c', hx, rfl⟩

theorem expect_ok {σ : Scope} {t : Token} :
    expect (m := Rule) s σ c = .ok (t, c') ↔ c.current.is s = true ∧ c.current = t ∧ c.advance = c' := by
  unfold expect
  rw [peek_bind]
  split <;> simp_all

theorem semicolon_ok {σ : Scope} (h : semicolon (m := Rule) σ c = .ok ((), c')) :
    c' = c ∨ c.current.is ";" = true ∧ c' = c.advance := by
  unfold semicolon at h
  rw [peek_bind] at h
  split at h
  · next hs =>
    cases h
    exact .inr ⟨hs, rfl⟩
  · split at h
    · cases h
      exact .inl rfl
    · cases h

end Rule

end Inlay.Script
