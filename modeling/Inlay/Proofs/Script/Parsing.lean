/-
Running a rule over code.

`Parses s σ p A P N` says that wherever the pieces `P` are read before a
token that is `N`, the rule `p` gets over them with a value that `A`
describes. The lemmas follow the way rules are put together, so a construct
is read back by going through its rule and its code side by side. A rule
needs as many levels as there are tokens, and the part behind its first
token one more: this is `s`.
-/
import Inlay.Proofs.Script.ExpressionRuns
import Inlay.Proofs.Script.Layout

namespace Inlay.Script

open Rule Rules Node

variable {α β : Type} {σ : Scope} {s : Nat} {p : Rules Rule → Rule α} {f : Rules Rule → α → Rule β}
  {A : α → Prop} {B : β → Prop} {P Q : List Piece} {N M T : Token → Prop} {w : String}
  {n : Node} {c : Cursor}

theorem Reads.reaches {ind b b' : Bool} {c' : Cursor} (h : Reads ind P b c b' c')
    (hc : c.Proper) : c.Reaches c' := by
  induction P generalizing b c with
  | nil =>
    obtain ⟨-, rfl⟩ := h
    exact .refl c
  | cons piece P ih =>
    cases piece with
    | token text | string value =>
      have hn := hc.reaches h.1.isEnd
      exact hn.trans (ih h.2 (hn.proper hc))
    | space | newline _ | mark _ => exact ih h hc

theorem Cursor.Proper.current (hc : c.Proper) : c.current.IsSpelled :=
  hc.spelled _ (List.mem_cons_self ..)

-- == the first token

/-- The first token of the pieces is as `T` describes, and if there is
none, the one behind them. -/
def Starts (P : List Piece) (N T : Token → Prop) : Prop :=
  ∀ ⦃indented b b' : Bool⦄ ⦃c c' : Cursor⦄, c.Proper → Reads indented P b c b' c' →
    N c'.current → T c.current

namespace Starts

theorem nil (h : ∀ {t}, N t → T t) : Starts [] N T := by
  rintro ind b b' c c' - ⟨-, rfl⟩ hn
  exact h hn

theorem token (hw : kindOf w.toList = .punct ∨ kindOf w.toList = .word)
    (h : ∀ {t}, t.is w = true → T t) : Starts (.token w :: P) N T :=
  fun _ _ _ _ _ _ hr _ => h (hr.1.is_self hw)

theorem shown : Starts (.token w :: P) N fun t => t.kind = kindOf w.toList ∧ t.text = w :=
  fun _ _ _ _ _ _ hr _ => ⟨hr.1.kind_eq, hr.1.text_eq⟩

theorem space (h : Starts P N T) : Starts (.space :: P) N T :=
  fun _ _ _ _ _ hc hr => h hc (Reads.space_iff.1 hr)

theorem newline {d : Nat} (h : Starts P N T) : Starts (.newline d :: P) N T :=
  fun _ _ _ _ _ hc hr => h hc (Reads.newline_iff.1 hr)

theorem marks (h : Starts P N T) (m : Node) : Starts (m.marks ++ P) N T :=
  fun _ _ _ _ _ hc hr => h hc (reads_marks_append.1 hr)

theorem any : Starts P N fun _ => True := fun _ _ _ _ _ _ _ _ => trivial

theorem imp (h : Starts P N M) (hM : ∀ {t}, M t → T t) : Starts P N T :=
  fun _ _ _ _ _ hc hr hn => hM (h hc hr hn)

theorem spelled (h : Starts P N T) : Starts P N fun t => T t ∧ t.IsSpelled :=
  fun _ _ _ _ _ hc hr hn => ⟨h hc hr hn, hc.current⟩

theorem append (h : Starts P M T) (h' : Starts Q N M) : Starts (P ++ Q) N T := by
  intro ind b b' c c' hc hre hn
  obtain ⟨b₁, c₁, hr, hrea⟩ := Reads.append_iff.1 hre
  exact h hc hr (h' ((hr.reaches hc).proper hc) hrea hn)

end Starts

/-- The pieces have a token. -/
def Shortens (P : List Piece) (N : Token → Prop) : Prop :=
  ∀ ⦃indented b b' : Bool⦄ ⦃c c' : Cursor⦄, c.Proper → Reads indented P b c b' c' →
    N c'.current → c'.rest.length < c.rest.length

theorem shortens_token : Shortens (.token w :: P) N := by
  intro ind b b' c c' hc hr _
  have hlt := hc.lt hr.1.isEnd
  have hle := (hr.2.reaches ((hc.reaches hr.1.isEnd).proper hc)).le
  omega

theorem Shortens.append (h : Shortens P fun _ => True) : Shortens (P ++ Q) N := by
  intro ind b b' c c' hc hre _
  obtain ⟨b₁, c₁, hr, hrea⟩ := Reads.append_iff.1 hre
  have hlt := h hc hr trivial
  have hle := (hrea.reaches ((hr.reaches hc).proper hc)).le
  omega

/-- No line break stands before the first token of the pieces if they
are written on the line before them. -/
def Unbroken (P : List Piece) : Prop :=
  ∀ ⦃indented b' : Bool⦄ ⦃c c' : Cursor⦄, c.Proper → Reads indented P false c b' c' →
    c.current.newlineBefore = false

theorem Unbroken.append (h : Unbroken P) : Unbroken (P ++ Q) := by
  intro ind b' c c' hc hr
  obtain ⟨b₁, c₁, hre, -⟩ := Reads.append_iff.1 hr
  exact h hc hre

theorem Unbroken.space (h : Unbroken P) : Unbroken (.space :: P) :=
  fun _ _ _ _ hc hr => h hc (Reads.space_iff.1 hr)

theorem unbroken_token : Unbroken (.token w :: P) := fun _ _ _ _ _ hr => hr.1.2.2 rfl

/-- The last of the pieces is a token. -/
def Closed (P : List Piece) : Prop :=
  ∀ ⦃indented b b' : Bool⦄ ⦃c c' : Cursor⦄, c.Proper → Reads indented P b c b' c' → b' = false

theorem Closed.behind (h : Closed Q) : Closed (P ++ Q) := by
  intro ind b b' c c' hc hr
  obtain ⟨b₁, c₁, hre, hrea⟩ := Reads.append_iff.1 hr
  exact h ((hre.reaches hc).proper hc) hrea

theorem Closed.cons {x : Piece} (h : Closed P) : Closed (x :: P) := h.behind (P := [x])

theorem closed_token : Closed [.token w] := fun _ _ _ _ _ _ hr => hr.2.1.symm

-- == rules over code

/-- Wherever the pieces are read before a token that is `N`, the rule
gets over them with a value that `A` describes. -/
def Parses (s : Nat) (σ : Scope) (p : Rules Rule → Rule α) (A : α → Prop) (P : List Piece)
    (N : Token → Prop) : Prop :=
  ∀ ⦃indented b b' : Bool⦄ ⦃c c' : Cursor⦄, c.Proper → Reads indented P b c b' c' →
    N c'.current → ∃ a, A a ∧ ∀ k, c.rest.length + s ≤ k → p (level k) σ c = .ok (a, c')

namespace Parses

variable {c' c : Cursor} {b' b ind : Bool} {q : Rules Rule → Rule α}

theorem reruns {p : Rules Rule → Rule Node} (h : Parses 0 σ p (·.Alike n) P N) (hc : c.Proper)
    (hr : Reads ind P b c b' c') (hne : N c'.current) : Reruns p σ n c c' := by
  obtain ⟨n', hn, hru⟩ := h hc hr hne
  exact ⟨n', hn, hr.reaches hc, hru⟩

theorem rerunsAll {p : Rules Rule → Rule (List Node)} {ns : List Node}
    (h : Parses 0 σ p (AlikeAll · ns) P N) (hc : c.Proper) (hr : Reads ind P b c b' c')
    (hn : N c'.current) : RerunsAll p σ ns c c' := by
  obtain ⟨ns', hns, hru⟩ := h hc hr hn
  exact ⟨ns', hns, hr.reaches hc, hru⟩

theorem of_reruns {p : Rules Rule → Rule Node}
    (h : ∀ {ind b b' : Bool} {c c' : Cursor}, c.Proper → Reads ind P b c b' c' →
      N c'.current → Reruns p σ n c c') : Parses 0 σ p (·.Alike n) P N := by
  intro ind b b' c c' hc hr hne
  obtain ⟨n', hn, hru⟩ := h hc hr hne
  exact ⟨n', hn, hru.run⟩

/-- A rule that is given one level more than it needs. -/
theorem spare (h : Parses 0 σ p A P N) : Parses s σ p A P N := by
  intro ind b b' c c' hc hr hn
  obtain ⟨a, ha, hru⟩ := h hc hr hn
  exact ⟨a, ha, fun k hk => hru k (by omega)⟩

/-- Behind a token the rule of the level below is used. -/
theorem below_of (h : Parses 0 σ q A P N) (hp : ∀ r : Rules Rule, p r.above = q r) :
    Parses 1 σ p A P N := by
  intro ind b b' c c' hc hr hn
  obtain ⟨a, ha, hru⟩ := h hc hr hn
  refine ⟨a, ha, fun k hk => ?_⟩
  obtain ⟨k, rfl⟩ : ∃ j, k = j + 1 := ⟨k - 1, by omega⟩
  have hb := hru k (by omega)
  rw [← hp] at hb
  exact hb

theorem below (h : Parses 0 σ (fun r => p r.above) A P N) : Parses 1 σ p A P N :=
  h.below_of fun _ => rfl

theorem agree (h : Parses s σ q A P N)
    (hp : ∀ {ind b b' : Bool} {c c' : Cursor} (r : Rules Rule), c.Proper →
      Reads ind P b c b' c' → N c'.current → p r σ c = q r σ c) : Parses s σ p A P N := by
  intro ind b b' c c' hc hr hn
  obtain ⟨a, ha, hru⟩ := h hc hr hn
  exact ⟨a, ha, fun k hk => (hp _ hc hr hn).trans (hru k hk)⟩

/-- A rule that does as another at the first token of the pieces. -/
theorem congr (h : Parses s σ q A P N) (hT : Starts P N T)
    (hp : ∀ (r : Rules Rule) (c : Cursor), T c.current → p r σ c = q r σ c) : Parses s σ p A P N :=
  h.agree fun r hc hr hn => hp r _ (hT hc hr hn)

theorem before (h : Parses s σ p A P M) (hM : ∀ {t}, N t → M t) : Parses s σ p A P N :=
  fun _ _ _ _ _ hc hr hn => h hc hr (hM hn)

/-! Pieces that show nothing. -/

theorem space (h : Parses s σ p A P N) : Parses s σ p A (.space :: P) N :=
  fun _ _ _ _ _ hc hr => h hc (Reads.space_iff.1 hr)

theorem newline {d : Nat} (h : Parses s σ p A P N) : Parses s σ p A (.newline d :: P) N :=
  fun _ _ _ _ _ hc hr => h hc (Reads.newline_iff.1 hr)

theorem marks (h : Parses s σ p A P N) (m : Node) : Parses s σ p A (m.marks ++ P) N :=
  fun _ _ _ _ _ hc hr => h hc (reads_marks_append.1 hr)

/-! Values. -/

theorem pure {a : α} (h : A a) : Parses s σ (fun _ => Pure.pure a) A [] N := by
  rintro ind b b' c c' - ⟨-, rfl⟩ -
  exact ⟨a, h, fun _ _ => rfl⟩

theorem finished {start : Nat} {kind : Kind} {props : Node.Props}
    {A : Node → Prop} (h : ∀ range, A { bare kind props with range }) :
    Parses s σ (fun _ => Rule.finish start kind props) A [] N := by
  rintro ind b b' c c' - ⟨-, rfl⟩ -
  exact ⟨_, h (some ⟨start, c.lastEnd⟩), fun _ _ => rfl⟩

theorem finish {start : Nat} {kind : Kind} {props props' : Node.Props}
    {range : Option Span} {loc : Option Location} {leading trailing : List Comment}
    (h : PropsAlike (kind == .literal) props props') :
    Parses s σ (fun _ => Rule.finish start kind props)
      (·.Alike ⟨kind, props', range, loc, leading, trailing⟩) [] N :=
  finished fun _ => alike_of_props rfl rfl h

theorem map {g : α → β} (h : Parses s σ p A P N) (hB : ∀ a, A a → B (g a)) :
    Parses s σ (fun r => g <$> p r) B P N := by
  intro ind b b' c c' hc hr hn
  obtain ⟨a, ha, hru⟩ := h hc hr hn
  exact ⟨g a, hB a ha, fun k hk => map_run_ok (hru k hk)⟩

theorem some {p : Rules Rule → Rule Node} (h : Parses s σ p (·.Alike n) P N) :
    Parses s σ (fun r => Option.some <$> p r) (AlikeOption · (Option.some n)) P N :=
  h.map fun _ hn => congrArg Option.some hn

theorem withIn {allowIn : Bool} (h : Parses s { σ with allowIn } p A P N) :
    Parses s σ (fun r => Rule.withIn allowIn (p r)) A P N := h

theorem withReader {g : Scope → Scope} (h : Parses s (g σ) p A P N) :
    Parses s σ (fun r => MonadWithReader.withReader g (p r)) A P N := h

/-! One rule behind another. -/

theorem bind (h : Parses s σ p A P M) (hm : Starts Q N M)
    (h' : ∀ a, A a → Parses s σ (fun r => f r a) B Q N) :
    Parses s σ (fun r => p r >>= f r) B (P ++ Q) N := by
  intro ind b b' c c' hc hread hn
  obtain ⟨b₁, c₁, hre, hrea⟩ := Reads.append_iff.1 hread
  have hr := hre.reaches hc
  have hc₁ := hr.proper hc
  have hle := hr.le
  obtain ⟨a, ha, hru⟩ := h hc hre (hm hc₁ hrea hn)
  obtain ⟨x, hx, hru'⟩ := h' a ha hc₁ hrea hn
  exact ⟨x, hx, fun k hk => (bind_run_ok (hru k hk)).trans (hru' k (by omega))⟩

/-- Behind a rule that takes a token the level below is used. -/
theorem bind_short (h : Parses 0 σ p A P M) (hmi : Starts Q N M) (hs : Shortens P M)
    (h' : ∀ a, A a → Parses 1 σ (fun r => f r a) B Q N) :
    Parses 0 σ (fun r => p r >>= f r) B (P ++ Q) N := by
  intro ind b b' c c' hc hrea hn
  obtain ⟨b₁, c₁, hr, hre⟩ := Reads.append_iff.1 hrea
  have hc₁ := (hr.reaches hc).proper hc
  have hm := hmi hc₁ hre hn
  have hlt := hs hc hr hm
  obtain ⟨a, ha, hru⟩ := h hc hr hm
  obtain ⟨x, hx, hru'⟩ := h' a ha hc₁ hre hn
  exact ⟨x, hx, fun k hk => (bind_run_ok (hru k hk)).trans (hru' k (by omega))⟩

theorem last (h : Parses s σ p A P N) (h' : ∀ a, A a → Parses s σ (fun r => f r a) B [] N) :
    Parses s σ (fun r => p r >>= f r) B P N := by
  have hb := h.bind (.nil id) h'
  rwa [List.append_nil] at hb

theorem first (h : Parses s σ p A [] M) (hm : Starts Q N M)
    (h' : ∀ a, A a → Parses s σ (fun r => f r a) B Q N) :
    Parses s σ (fun r => p r >>= f r) B Q N := h.bind hm h'

/-! Rules that take a token. -/

theorem next {f : Rules Rule → Token → Rule β}
    (h : ∀ t : Token, t.text = w → Parses 1 σ (fun r => f r t) B P N) :
    Parses s σ (fun r => Rule.next >>= f r) B (.token w :: P) N := by
  rintro ind b b' c c' hc ⟨hs, hr⟩ hn
  have hlt := hc.lt hs.isEnd
  have hca := (hc.reaches hs.isEnd).proper hc
  obtain ⟨x, hx, hru⟩ := h _ hs.text_eq hca hr hn
  exact ⟨x, hx, fun k hk => next_bind.trans (hru k (by omega))⟩

/-- Behind a token the next one is looked at, on the same line. -/
theorem next_peek {f : Rules Rule → Token → Token → Rule β} (T : Token → Prop) (hT : Starts P N T)
    (hP : Unbroken P) (h : ∀ t t' : Token, T t' → t'.newlineBefore = false →
      Parses 1 σ (fun r => f r t t') B P N) :
    Parses s σ (fun r => Rule.next >>= fun t => Rule.peek >>= f r t) B (.token w :: P) N := by
  rintro ind b b' c c' hc ⟨hs, hr⟩ hn
  have hlt := hc.lt hs.isEnd
  have hca := (hc.reaches hs.isEnd).proper hc
  obtain ⟨x, hx, hru⟩ := h c.current _ (hT hca hr hn) (hP hca hr) hca hr hn
  exact ⟨x, hx, fun k hk => next_bind.trans (peek_bind.trans (hru k (by omega)))⟩

/-- A rule that does as `next` does at the token goes on like it. -/
theorem taking {x : Rule α} {v : Token → α} (hx : ∀ c : Cursor, c.current.is w = true →
      x σ c = .ok (v c.current, c.advance))
    (h : ∀ t, Parses 1 σ (fun r => f r (v t)) B P N)
    (hw : kindOf w.toList = .punct ∨ kindOf w.toList = .word) :
    Parses s σ (fun r => x >>= f r) B (.token w :: P) N := by
  intro ind b b' c c' hc hr hn
  have ht := next (s := s) (w := w) (f := fun r t => f r (v t)) fun t _ => h t
  obtain ⟨a, ha, hru⟩ := ht hc hr hn
  exact ⟨a, ha, fun k hk => (bind_run_ok (hx c (hr.1.is_self hw))).trans (hru k hk)⟩

theorem expect {f : Rules Rule → Token → Rule β}
    (hw : kindOf w.toList = .punct ∨ kindOf w.toList = .word)
    (h : ∀ t, Parses 1 σ (fun r => f r t) B P N) :
    Parses s σ (fun r => Rule.expect w >>= f r) B (.token w :: P) N :=
  taking (v := id) (fun _ hc => expect_run σ hc) h hw

theorem eat {f : Rules Rule → Bool → Rule β} (hw : kindOf w.toList = .punct ∨ kindOf w.toList = .word)
    (h : Parses 1 σ (fun r => f r true) B P N) :
    Parses s σ (fun r => Rule.eat w >>= f r) B (.token w :: P) N :=
  taking (v := fun _ => true) (fun _ hc => eat_run_pos σ hc) (fun _ => h) hw

theorem semicolon {f : Rules Rule → Unit → Rule β} (h : Parses 1 σ (fun r => f r ()) B P N) :
    Parses s σ (fun r => Rule.semicolon >>= f r) B (.token ";" :: P) N :=
  taking (v := fun _ => ()) (fun _ hc => semicolon_run σ hc) (fun _ => h) (by decide)

/-! Rules that look at the token. -/

theorem peek {f : Rules Rule → Token → Rule β} (T : Token → Prop) (hT : Starts P N T)
    (h : ∀ t, T t → Parses s σ (fun r => f r t) B P N) :
    Parses s σ (fun r => Rule.peek >>= f r) B P N := by
  intro ind b b' c c' hc hr hn
  obtain ⟨x, hx, hru⟩ := h _ (hT hc hr hn) hc hr hn
  exact ⟨x, hx, fun k hk => peek_bind.trans (hru k hk)⟩

theorem start {f : Rules Rule → Token → Rule β} (h : ∀ t, Parses s σ (fun r => f r t) B P N) :
    Parses s σ (fun r => Rule.peek >>= f r) B P N :=
  peek _ .any fun t _ => h t

theorem atToken {f : Rules Rule → Bool → Rule β} {v : Bool} (hT : Starts P N (·.is w = v))
    (h : Parses s σ (fun r => f r v) B P N) :
    Parses s σ (fun r => Rule.atToken w >>= f r) B P N := by
  intro ind b b' c c' hc hr hn
  obtain ⟨x, hx, hru⟩ := h hc hr hn
  refine ⟨x, hx, fun k hk => ?_⟩
  rw [← hT hc hr hn] at hru
  exact (bind_run_ok (atToken_run w σ c)).trans (hru k hk)

theorem skip {f : Rules Rule → Bool → Rule β} (hT : Starts P N (·.is w = false))
    (h : Parses s σ (fun r => f r false) B P N) :
    Parses s σ (fun r => Rule.eat w >>= f r) B P N := by
  intro ind b b' c c' hc hr hn
  obtain ⟨x, hx, hru⟩ := h hc hr hn
  exact ⟨x, hx, fun k hk => (bind_run_ok (eat_run_neg σ (hT hc hr hn))).trans (hru k hk)⟩

theorem read {f : Rules Rule → Scope → Rule β} (h : Parses s σ (fun r => f r σ) B P N) :
    Parses s σ (fun r => MonadReader.read >>= f r) B P N := h

/-! Choices. -/

theorem ite_pos {b : Prop} [Decidable b] (hb : b) (h : Parses s σ p A P N) :
    Parses s σ (fun r => if b then p r else q r) A P N := by
  simpa only [if_pos hb] using h

theorem ite_neg {b : Prop} [Decidable b] (hb : ¬b) (h : Parses s σ p A P N) :
    Parses s σ (fun r => if b then q r else p r) A P N := by
  simpa only [if_neg hb] using h

/-- The branch that is taken where the token is there. -/
theorem took (hw : kindOf w.toList = .punct ∨ kindOf w.toList = .word) (h : Parses 1 σ p A P N) :
    Parses s σ (fun r => Rule.eat w >>= fun b => if b = true then p r else q r) A
      (.token w :: P) N :=
  eat hw (ite_pos rfl h)

/-- The branch that is taken where another token is there. -/
theorem pass (hT : Starts P N (·.is w = false)) (h : Parses s σ p A P N) :
    Parses s σ (fun r => Rule.eat w >>= fun b => if b = true then q r else p r) A P N :=
  skip hT (ite_neg (by decide) h)

end Parses

end Inlay.Script
