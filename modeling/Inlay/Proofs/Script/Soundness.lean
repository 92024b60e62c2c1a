/-
Every rule finds a derivation.

The ground level of the grammar is sound because it takes nothing, and a
level is sound if the one below is: so all levels are, and the nodes of
every script that is read have a derivation (`statements_sound`).
-/
import Inlay.Proofs.Script.ExpressionSoundness
import Inlay.Proofs.Script.Progress

namespace Inlay.Script

open Rule List

variable {props : Node.Props} {ns : List Node} {ts : List Token} {s : String}

variable {kind : Kind} {c' c : Cursor} {t : Token} {us : List Token} {n : Node} {lexed : Lexed}

-- == dangling ifs

theorem dangles_if (h : n.kind = .ifStatement) :
    dangles n = (n.child? "alternate").elim true dangles := by
  rw [dangles]
  simp only [h]
  split <;> simp_all

/-- The kinds of statements that end in another one, `if` apart. -/
abbrev bodyKinds : List Kind :=
  [.labeledStatement, .withStatement, .forStatement, .forInStatement, .whileStatement]

theorem dangles_body (h : n.kind ∈ bodyKinds) :
    dangles n = (n.child? "body").elim false dangles := by
  rw [dangles]
  simp only [mem_cons, not_mem_nil, or_false] at h
  rcases h with h | h | h | h | h <;> simp only [h] <;> split <;> simp_all

theorem dangles_other (h : n.kind ∉ Kind.ifStatement :: bodyKinds) : dangles n = false := by
  rw [dangles]
  split <;> simp_all

/-- Whether a statement dangles rests on its kind and on the statement it
ends with. -/
theorem dangles_congr {m : Node} (hk : m.kind = n.kind) (h : ∀ key ∈ ["alternate", "body"], ∀ d,
      (m.child? key).elim d dangles = (n.child? key).elim d dangles) : dangles m = dangles n := by
  by_cases hif : n.kind = .ifStatement
  · rw [dangles_if (hk.trans hif), dangles_if hif, h _ (by decide)]
  by_cases hb : n.kind ∈ bodyKinds
  · rw [dangles_body (by rwa [hk]), dangles_body hb, h _ (by decide)]
  · have ho : n.kind ∉ Kind.ifStatement :: bodyKinds := not_mem_cons_of_ne_of_not_mem hif hb
    rw [dangles_other (by rwa [hk]), dangles_other ho]

theorem Token.is_of_word (hk : t.kind = .word) (ht : t.text = s) : t.is s = true := by
  simp [Token.is, hk, ht]

theorem Token.is_of_punct (hk : t.kind = .punct) (ht : t.text = s) : t.is s = true := by
  simp [Token.is, hk, ht]

/-- The words before a head in parentheses, with the key of the head. -/
def IsHeaded (word : String) (kind : Kind) (key : String) : Prop :=
  word = "while" ∧ kind = .whileStatement ∧ key = "test" ∨
    word = "with" ∧ kind = .withStatement ∧ key = "object"

/-- A statement stands between the cursors; no `else` follows that would
belong to it. -/
abbrev States (σ : Scope) (c : Cursor) (n : Node) (c' : Cursor) : Prop :=
  ∃ ts, c.Takes ts c' ∧ Derives σ.frame .statement ts [n] ∧
    (dangles n = true → c'.current.is "else" = false)

/-- A rule for statements that start with the given word. -/
def SoundWord (word : String) (p : Rule Node) : Prop :=
  ∀ ⦃σ c n c'⦄, Cursor.Proper c → c.current.is word = true → p σ c = .ok (n, c') →
    States σ c n c'

/-- A node of a kind that no `else` can belong to. -/
theorem dangles_elim {P : Prop} (hk : kind ∉ Kind.ifStatement :: bodyKinds) :
    dangles (spanned kind props ts) = true → P := by
  rw [dangles_other hk]
  exact Bool.noConfusion

/-- A statement behind a head, whose end is the end of the whole. -/
theorem dangles_of_body {body : Node} (hk : kind ∈ bodyKinds)
    (hb : (spanned kind props ts).child? "body" = some body)
    (h : dangles body = true → c'.current.is "else" = false) :
    dangles (spanned kind props ts) = true → c'.current.is "else" = false := by
  rw [dangles_body hk, hb]
  exact h

/-- A rule ends by building the node of a statement. -/
theorem Behind.states {σ : Scope} {c₀ : Cursor} (hat : Behind c₀ ts c)
    (h : Rule.finish (m := Rule) c₀.current.span.start kind props σ c = .ok (n, c'))
    (hd : Derives σ.frame .statement us [spanned kind props us]) (hts : ts = us)
    (hda : dangles (spanned kind props us) = true → c.current.is "else" = false) :
    States σ c₀ n c' := by
  subst hts
  have hs : c' = c := by
    cases h
    rfl
  obtain ⟨ha, rfl⟩ := hat.finish (hd.ne_nil rfl) h
  exact ⟨_, ha, hd, hs ▸ hda⟩

theorem ofNode?_toList_head? (n : Option Node) :
    Field.ofNode? n.toList.head? = Field.ofNode? n := by
  cases n <;> rfl

namespace Rules

variable {r : Rules Rule} {lp t : Token} {c₁ c' c : Cursor} {n : Node} {σ : Scope}

-- == declarations

theorem declaratorsRule_sound (hr : r.Sound) : SoundList .declarators r.declaratorsRule := by
  intro σ c ns c' hc h
  unfold declaratorsRule at h
  rw [peek_bind] at h
  obtain ⟨is, id, c₁, hdid, hat, h⟩ := identifier_sound.bind hc.behind h
  obtain ⟨us, init, c₂, hdi, hat, h⟩ := hr.assignment.announced .initializer hat h
  replace h := hat.finish_bind (by simp [hdid.ne_nil rfl]) h
  rw [← ofNode?_toList_head? init] at h
  have hd := Derives.declarator hdid hdi
  rcases hat.eat h with ⟨hco, hat, h⟩ | ⟨-, h⟩
  · obtain ⟨vs, ns, c₃, hds, hat, h⟩ := hr.declarators.bind hat h
    cases h
    exact ⟨_, by simpa using hat.takes, .declaratorsCons hd hco hds⟩
  · cases h
    exact ⟨_, hat.takes, .declaratorsLast hd⟩

theorem isWord_declaration (h : s ∈ ["var", "let", "const"]) : IsWord s.toList := by
  simp only [mem_cons, not_mem_nil, or_false] at h
  rcases h with rfl | rfl | rfl <;> decide

section

variable (hr : r.Sound)

include hr

theorem variableDeclaration_sound (hc : c.Proper)
    (hw : c.current.text ∈ ["var", "let", "const"]) (h : r.variableDeclaration σ c = .ok (n, c')) :
    ∃ ts, c.Takes ts c' ∧ Derives σ.frame .declaration ts [n] := by
  have hk : c.current.kind = .word :=
    (hc.spelled c.current (by simp [Cursor.tokens])).kind_of_isWord (isWord_declaration hw)
  unfold variableDeclaration at h
  rw [next_bind] at h
  obtain ⟨ts, ns, c₁, hd, hat, h⟩ :=
    (declaratorsRule_sound hr).bind (hc.behind.next_kind hk (by simp)) h
  exact hat.builds h (.declaration hk hw hd) (by simp) rfl

theorem declarationStatement_sound (hc : c.Proper) (hw : c.current.text ∈ ["var", "let", "const"])
    (h : r.declarationStatement σ c = .ok (n, c')) : States σ c n c' := by
  unfold declarationStatement at h
  rw [peek_bind] at h
  obtain ⟨d, c₁, h₁, h⟩ := bind_ok.1 h
  obtain ⟨ts, hts, hd⟩ := variableDeclaration_sound hr hc hw h₁
  obtain ⟨semi, c₂, hs, hat, h⟩ := (hc.behind.append hts).semicolon h
  have hk : d.kind = .variableDeclaration := by
    cases hd
    rfl
  exact hat.states h (.declarationStatement hd hs) (by simp) (dangles_elim (by simp [hk]))

-- == loops

theorem ifStatement_sound : SoundWord "if" r.ifStatement := by
  intro σ c n c' hc hif h
  unfold ifStatement at h
  rw [next_bind] at h
  obtain ⟨_, test, c₁, ⟨lp, ts, rp, rfl, hlp, hd, hrp⟩, hat, h⟩ :=
    (parenthesized_gives hr).bind (hc.behind.next_is hif) h
  obtain ⟨ys, yes, c₂, ⟨hdy, he⟩, hat, h⟩ := hr.statement.bind hat h
  rcases hat.eat h with ⟨hw, hat, h⟩ | ⟨hw, h⟩
  · obtain ⟨_, c₃, h₃, h⟩ := bind_ok.1 h
    obtain ⟨no, hno, rfl⟩ := map_ok.1 h₃
    obtain ⟨ns, hns, hdn, he'⟩ := hr.statement hat.proper hno
    -- the `else` would have gone to a dangling `if`
    have hy : dangles yes = false := by
      cases hda : dangles yes with
      | false => rfl
      | true =>
        rw [he hda] at hw
        cases hw
    refine (hat.append hns).states h (.ifStatement hif hlp hd hrp hdy
      (.some (.alternate hw hdn)) fun _ => hy) (by simp) ?_
    rw [dangles_if rfl]
    exact he'
  · exact hat.states h (.ifStatement hif hlp hd hrp hdy .none (absurd rfl)) (by simp) fun _ => hw

theorem headedStatement_sound {word key : String} (hj : IsHeaded word kind key) :
    SoundWord word (r.headedStatement kind key) := by
  intro σ c n c' hc hw h
  unfold headedStatement at h
  rw [next_bind] at h
  obtain ⟨_, head, c₁, ⟨lp, ts, rp, rfl, hlp, hdh, hrp⟩, hat, h⟩ :=
    (parenthesized_gives hr).bind (hc.behind.next_is hw) h
  obtain ⟨bs, body, c₂, ⟨hd, he⟩, hat, h⟩ := hr.statement.bind hat h
  obtain ⟨rfl, rfl, rfl⟩ | ⟨rfl, rfl, rfl⟩ := hj
  · exact hat.states h (.whileStatement hw hlp hdh hrp hd) (by simp) (dangles_of_body (by simp) rfl he)
  · exact hat.states h (.withStatement hw hlp hdh hrp hd) (by simp) (dangles_of_body (by simp) rfl he)

theorem doWhileStatement_sound : SoundWord "do" r.doWhileStatement := by
  intro σ c n c' hc hdo h
  unfold doWhileStatement at h
  rw [next_bind] at h
  obtain ⟨bs, body, c₁, ⟨hd, -⟩, hat, h⟩ := hr.statement.bind (hc.behind.next_is hdo) h
  obtain ⟨hw, hat, h⟩ := hat.expect h
  obtain ⟨_, test, c₂, ⟨lp, ts, rp, rfl, hlp, hdt, hrp⟩, hat, h⟩ :=
    (parenthesized_gives hr).bind hat h
  have hst := fun semi (hse : Perhaps ";" semi) =>
    Derives.doWhileStatement hdo hd hw hlp hdt hrp hse
  rcases hat.eat h with ⟨hs, hat, h⟩ | ⟨-, h⟩
  · exact hat.states h (hst _ (.inr ⟨_, hs, rfl⟩)) (by simp) (dangles_elim (by simp))
  · exact hat.states h (hst [] (.inl rfl)) (by simp) (dangles_elim (by simp))

theorem forInit_sound : SoundOption .forInit r.forInit := by
  intro σ c n c' hc h
  unfold forInit at h
  rw [peek_bind] at h
  split at h
  · cases h
    exact ⟨[], .nil _, .none⟩
  split at h
  · next hw =>
    obtain ⟨d, hd, rfl⟩ := map_ok.1 h
    obtain ⟨ts, hts, hdd⟩ := variableDeclaration_sound hr hc (by simpa using hw) hd
    exact ⟨ts, hts, .some (.initDeclaration hdd)⟩
  · obtain ⟨e, he, rfl⟩ := map_ok.1 h
    obtain ⟨ts, hts, hde⟩ := hr.expression.withIn _ hc he
    exact ⟨ts, hts, .some (.initExpression hde)⟩

theorem optionalExpression_sound (stop : String) :
    SoundOption .expression (r.optionalExpression stop) := by
  intro σ c n c' hc h
  unfold optionalExpression at h
  rw [bind_run_ok (atToken_run _ _ _)] at h
  split at h
  · cases h
    exact ⟨[], .nil _, .none⟩
  · obtain ⟨e, he, rfl⟩ := map_ok.1 h
    obtain ⟨ts, hts, hde⟩ := hr.expression.withIn _ hc he
    exact ⟨ts, hts, .some hde⟩

theorem forInRest_sound {ls : List Token} {left : Node}
    (hat : Behind c ([t] ++ [lp] ++ ls) c₁) (hf : t.is "for" = true) (hlp : lp.is "(" = true)
    (hdl : Derives σ.frame .forInit ls [left]) (hin : c₁.current.is "in" = true)
    (h : r.forInRest c.current.span.start left σ c₁ = .ok (n, c')) : States σ c n c' := by
  unfold forInRest at h
  rw [next_bind] at h
  split at h
  · next ht =>
    obtain ⟨rs, right, c₂, hdr, hat, h⟩ :=
      (hr.expression.withIn true).bind (hat.next_is hin) h
    obtain ⟨hrp, hat, h⟩ := hat.expect h
    obtain ⟨bs, body, c₃, ⟨hd, he⟩, hat, h⟩ := hr.statement.bind hat h
    exact hat.states h (.forInStatement hf hlp hdl ht hin hdr hrp hd) (by simp)
      (dangles_of_body (by simp) rfl he)
  · cases h

theorem forRest_sound {is : List Token} {init : Option Node}
    (hat : Behind c ([t] ++ [lp] ++ is) c₁) (hf : t.is "for" = true) (hlp : lp.is "(" = true)
    (hdi : Derives σ.frame (.maybe .forInit) is init.toList)
    (h : r.forRest c.current.span.start init σ c₁ = .ok (n, c')) : States σ c n c' := by
  obtain ⟨hs, hat, h⟩ := hat.expect h
  obtain ⟨us, test, c₂, hdt, hat, h⟩ := (optionalExpression_sound hr ";").bind hat h
  obtain ⟨hs', hat, h⟩ := hat.expect h
  obtain ⟨vs, update, c₃, hdu, hat, h⟩ := (optionalExpression_sound hr ")").bind hat h
  obtain ⟨hrp, hat, h⟩ := hat.expect h
  obtain ⟨bs, body, c₄, ⟨hd, he⟩, hat, h⟩ := hr.statement.bind hat h
  rw [← ofNode?_toList_head? init, ← ofNode?_toList_head? test, ← ofNode?_toList_head? update] at h
  exact hat.states h (.forStatement hf hlp hdi hs hdt hs' hdu hrp hd) (by simp)
    (dangles_of_body (by simp) rfl he)

theorem forStatement_sound : SoundWord "for" r.forStatement := by
  intro σ c n c' hc hf h
  unfold forStatement at h
  rw [next_bind] at h
  obtain ⟨hlp, hat, h⟩ := (hc.behind.next_is hf).expect h
  obtain ⟨is, init, c₁, hd, hat, h⟩ := (forInit_sound hr).bind hat h
  rw [bind_run_ok (atToken_run _ _ _)] at h
  cases init with
  | none => exact forRest_sound hr hat hf hlp hd h
  | some left =>
    cases hin : c₁.current.is "in" with
    | false =>
      rw [hin] at h
      exact forRest_sound hr hat hf hlp hd h
    | true =>
      rw [hin] at h
      cases hd with
      | some hdl => exact forInRest_sound hr hat hf hlp hdl hin h

-- == jumps

theorem returnStatement_sound (hc : c.Proper)
    (hre : c.current.is "return" = true) (hf : σ.inFunction = true)
    (h : r.argumentStatement .returnStatement σ c = .ok (n, c')) : States σ c n c' := by
  unfold argumentStatement at h
  rw [next_bind, peek_bind] at h
  have hat := hc.behind.next_is hre
  split at h
  · rw [if_pos (by rfl)] at h
    obtain ⟨semi, c₁, hs, hat, h⟩ := hat.semicolon h
    exact hat.states h (.returnStatement hf hre .none hs) (by simp) (dangles_elim (by simp))
  · obtain ⟨ts, e, c₁, hd, hat, h⟩ := hr.expression.bind hat h
    obtain ⟨semi, c₂, hs, hat, h⟩ := hat.semicolon h
    exact hat.states h (.returnStatement hf hre (.some hd) hs) (by simp) (dangles_elim (by simp))

theorem throwStatement_sound : SoundWord "throw" (r.argumentStatement .throwStatement) := by
  intro σ c n c' hc ht h
  unfold argumentStatement at h
  rw [next_bind, peek_bind] at h
  split at h
  · cases h
  · obtain ⟨ts, e, c₁, hd, hat, h⟩ := hr.expression.bind (hc.behind.next_is ht) h
    obtain ⟨semi, c₂, hs, hat, h⟩ := hat.semicolon h
    exact hat.states h (.throwStatement ht hd hs) (by simp) (dangles_elim (by simp))

end

theorem jumpStatement_sound {word : String} (hj : word = "break" ∧ kind = .breakStatement ∨
      word = "continue" ∧ kind = .continueStatement) : SoundWord word (jumpStatement kind) := by
  intro σ c n c' hc hw h
  unfold jumpStatement at h
  rw [next_bind, peek_bind] at h
  have hat := hc.behind.next_is hw
  have hki : ∀ {ts props}, dangles (spanned kind props ts) = true → False := by
    rcases hj with ⟨-, rfl⟩ | ⟨-, rfl⟩ <;> exact dangles_elim (by simp)
  have hj : c.current.is "break" = true ∧ kind = .breakStatement ∨
      c.current.is "continue" = true ∧ kind = .continueStatement := by
    rcases hj with ⟨rfl, rfl⟩ | ⟨rfl, rfl⟩ <;> simp [hw]
  split at h
  · rw [bind_run_ok (read_run _ _)] at h
    split at h
    · next hl =>
      obtain ⟨label, c₁, h₁, h⟩ := bind_ok.1 h
      obtain ⟨ls, hls, hd⟩ := identifier_sound hat.proper h₁
      obtain ⟨semi, c₂, hs, hat, h⟩ := (hat.append hls).semicolon h
      cases hd with
      | identifier hk hr =>
        obtain ⟨rfl, -⟩ := hls.advance_eq
        exact hat.states h (.jumpTo hj (.identifier hk hr)
          (by simpa [Scope.frame] using hl) hs) (by simp) (False.elim ∘ hki)
    · cases h
  · obtain ⟨semi, c₁, hs, hat, h⟩ := hat.semicolon h
    exact hat.states h (.jump hj hs) (by simp) (False.elim ∘ hki)

theorem labeledStatement_sound (hr : r.Sound) : SoundStatement r.labeledStatement := by
  intro σ c n c' hc h
  unfold labeledStatement at h
  rw [peek_bind, bind_run_ok (read_run _ _)] at h
  split at h
  · cases h
  · next hl =>
    obtain ⟨label, c₁, h₁, h⟩ := bind_ok.1 h
    obtain ⟨ls, hls, hd⟩ := identifier_sound hc h₁
    obtain ⟨hco, hat, h⟩ := (hc.behind.append hls).expect h
    obtain ⟨body, c₂, h₂, h⟩ := bind_ok.1 h
    obtain ⟨bs, hbs, hdb, he⟩ := hr.statement hat.proper h₂
    cases hd with
    | identifier hk hr =>
      obtain ⟨rfl, -⟩ := hls.advance_eq
      exact (hat.append hbs).states h (.labeledStatement (.identifier hk hr)
        (by simpa [Scope.frame] using hl) hco hdb) (by simp)
        (dangles_of_body (by simp) rfl he)

-- == other compounds

theorem catchClause_sound (hr : r.Sound) : SoundOption .handler r.catchClause := by
  intro σ c n c' hc h
  unfold catchClause at h
  rw [bind_run_ok (atToken_run _ _ _)] at h
  split at h
  · next hca =>
    rw [next_bind] at h
    obtain ⟨hlp, hat, h⟩ := (hc.behind.next_is hca).expect h
    obtain ⟨ps, param, c₁, hdp, hat, h⟩ := identifier_sound.bind hat h
    obtain ⟨hrp, hat, h⟩ := hat.expect h
    obtain ⟨bs, body, c₂, hdb, hat, h⟩ := (blockStatement_sound hr).bind hat h
    obtain ⟨clause, hcl, rfl⟩ := map_ok.1 h
    obtain ⟨ts, hts, hd⟩ := hat.builds hcl (.handler hca hlp hdp hrp hdb) (by simp) rfl
    exact ⟨ts, hts, .some hd⟩
  · cases h
    exact ⟨[], .nil _, .none⟩

theorem tryStatement_sound (hr : r.Sound) : SoundWord "try" r.tryStatement := by
  intro σ c n c' hc ht h
  unfold tryStatement at h
  rw [next_bind] at h
  obtain ⟨bs, body, c₁, hd, hat, h⟩ :=
    (blockStatement_sound hr).bind (hc.behind.next_is ht) h
  obtain ⟨hs, handler, c₂, hdh, hat, h⟩ := (catchClause_sound hr).bind hat h
  obtain ⟨fs, finalizer, c₃, hdf, hat, h⟩ :=
    (blockStatement_sound hr).announced .finalizer hat h
  dsimp only at h
  split at h
  · cases h
  · next hb =>
    rw [← ofNode?_toList_head? handler, ← ofNode?_toList_head? finalizer] at h
    refine hat.states h (.tryStatement ht hd hdh hdf ?_) (by simp) (dangles_elim (by simp))
    cases handler <;> cases finalizer <;> simp_all

theorem casesRule_sound (hr : r.Sound) : SoundClosed .cases "\x7d" r.casesRule := by
  intro σ c ns c' hc h
  rcases hc.behind.eat h with ⟨hrb, hat, h⟩ | ⟨-, h⟩
  · cases h
    exact ⟨_, hat.takes, [], _, rfl, hrb, .casesNil⟩
  simp only [Bool.false_eq_true, if_false] at h
  rw [peek_bind] at h
  -- one case, and what is done behind it
  have hca : ∃ (n : Node) (ts : List Token) (c₁ : Cursor), Behind c ts c₁ ∧
      Derives σ.frame .switchCase ts [n] ∧
      (do return n :: (← r.cases)) σ c₁ = .ok (ns, c') := by
    rcases hc.behind.eat h with ⟨hde, hat, h⟩ | ⟨-, h⟩
    · rw [if_pos rfl, bind_run_ok (pure_run _ _ _)] at h
      obtain ⟨hco, hat, h⟩ := hat.expect h
      obtain ⟨ss, body, c₁, hdb, hat, h⟩ := hr.caseBody.bind hat h
      exact ⟨_, _, c₁, hat, .caseDefault hde hco hdb, hat.finish_bind (by simp) h⟩
    · obtain ⟨hca, hat, h⟩ := hc.behind.expect h
      obtain ⟨_, c₁, h₁, h⟩ := bind_ok.1 h
      obtain ⟨test, ht, rfl⟩ := map_ok.1 h₁
      obtain ⟨ts, hts, hdt⟩ := hr.expression hat.proper ht
      obtain ⟨hco, hat, h⟩ := (hat.append hts).expect h
      obtain ⟨ss, body, c₂, hdb, hat, h⟩ := hr.caseBody.bind hat h
      simp only [nil_append, append_assoc] at hat
      exact ⟨_, _, c₂, hat, .caseTest hca hdt hco hdb, hat.finish_bind (by simp) h⟩
  obtain ⟨n, ts, c₁, hat, hd, h⟩ := hca
  obtain ⟨_, ns, c₂, ⟨us, rb, rfl, hrb, hds⟩, hat, h⟩ := hr.cases.bind hat h
  cases h
  exact ⟨_, hat.takes, _, rb, by simp, hrb, .casesCons hd hds⟩

theorem switchStatement_sound (hr : r.Sound) : SoundWord "switch" r.switchStatement := by
  intro σ c n c' hc hs h
  unfold switchStatement at h
  rw [next_bind] at h
  obtain ⟨_, d, c₁, ⟨lp, ts, rp, rfl, hlp, hdd, hrp⟩, hat, h⟩ :=
    (parenthesized_gives hr).bind (hc.behind.next_is hs) h
  obtain ⟨hlb, hat, h⟩ := hat.expect h
  obtain ⟨_, list, c₂, ⟨cs, rb, rfl, hrb, hd⟩, hat, h⟩ := hr.cases.bind hat h
  exact hat.states h (.switchStatement hs hlp hdd hrp hlb hd hrb) (by simp) (dangles_elim (by simp))

-- == statements

theorem expressionStatement_sound (hr : r.Sound) : SoundStatement r.expressionStatement := by
  intro σ c n c' hc h
  unfold expressionStatement at h
  rw [peek_bind] at h
  obtain ⟨ts, e, c₁, hd, hat, h⟩ := (expressionRule_sound hr).bind hc.behind h
  obtain ⟨semi, c₂, hs, hat, h⟩ := hat.semicolon h
  exact hat.states h (.expressionStatement hd hs) (by simp) (dangles_elim (by simp))

theorem debuggerStatement_sound : SoundWord "debugger" debuggerStatement := by
  intro σ c n c' hc hw h
  unfold debuggerStatement at h
  rw [next_bind] at h
  obtain ⟨semi, c₁, hs, hat, h⟩ := (hc.behind.next_is hw).semicolon h
  exact hat.states h (.debugger hw hs) (by simp) (dangles_elim (by simp))

theorem wordStatement_sound (hr : r.Sound) (hc : c.Proper) (hk : c.current.kind = .word)
    (h : r.wordStatement c.current σ c = .ok (n, c')) : States σ c n c' := by
  have hw : ∀ {s}, c.current.text = s → c.current.is s = true := Token.is_of_word hk
  generalize hp : r.wordStatement c.current = p at h
  unfold wordStatement at hp
  split at hp <;> subst hp
  case h_1 heq | h_2 heq | h_3 heq => exact declarationStatement_sound hr hc (by simp [heq]) h
  case h_4 heq =>
    obtain ⟨ts, hts, hd⟩ := function_sound hr (.inr rfl) hc h
    refine ⟨ts, hts, .ofFunctionDeclaration hd, ?_⟩
    cases hd
    exact dangles_elim (by simp)
  case h_5 heq => exact ifStatement_sound hr hc (hw heq) h
  case h_6 heq => exact forStatement_sound hr hc (hw heq) h
  case h_7 heq => exact headedStatement_sound hr (.inl ⟨rfl, rfl, rfl⟩) hc (hw heq) h
  case h_8 heq => exact doWhileStatement_sound hr hc (hw heq) h
  case h_9 heq =>
    rw [bind_run_ok (read_run _ _)] at h
    split at h
    · next hf => exact returnStatement_sound hr hc (hw heq) hf h
    · cases h
  case h_10 heq => exact throwStatement_sound hr hc (hw heq) h
  case h_11 heq => exact jumpStatement_sound (.inl ⟨rfl, rfl⟩) hc (hw heq) h
  case h_12 heq => exact jumpStatement_sound (.inr ⟨rfl, rfl⟩) hc (hw heq) h
  case h_13 heq => exact tryStatement_sound hr hc (hw heq) h
  case h_14 heq => exact switchStatement_sound hr hc (hw heq) h
  case h_15 heq => exact headedStatement_sound hr (.inr ⟨rfl, rfl, rfl⟩) hc (hw heq) h
  case h_16 heq => exact debuggerStatement_sound hc (hw heq) h
  case h_17 =>
    rw [bind_run_ok (peekSecond_run _ _)] at h
    split at h
    · exact labeledStatement_sound hr hc h
    · exact expressionStatement_sound hr hc h

theorem statementRule_sound (hr : r.Sound) : SoundStatement r.statementRule := by
  intro σ c n c' hc h
  unfold statementRule at h
  rw [peek_bind] at h
  cases hk : c.current.kind with
  | word =>
    simp only [hk] at h
    exact wordStatement_sound hr hc hk h
  | punct =>
    simp only [hk] at h
    split at h
    · obtain ⟨ts, hts, hd⟩ := blockStatement_sound hr hc h
      refine ⟨ts, hts, .ofBlock hd, ?_⟩
      cases hd
      exact dangles_elim (by simp)
    · split at h
      · next hs =>
        have hs := Token.is_of_punct hk (beq_iff_eq.1 hs)
        exact (hc.behind.next_is hs).states h (.empty hs) (by simp) (dangles_elim (by simp))
      · exact expressionStatement_sound hr hc h
  | number | string | regex | eof =>
    simp only [hk] at h
    exact expressionStatement_sound hr hc h

theorem consStatement_sound {p : Rule Node} {q : Rule (List Node)} (hp : SoundStatement p)
    (hq : SoundList .statements q) : SoundList .statements (do let n ← p; return n :: (← q)) := by
  intro σ c ns c' hc h
  obtain ⟨ts, n, c₁, ⟨hd, -⟩, hat, h⟩ := hp.bind hc.behind h
  obtain ⟨us, ns, c₂, hds, hat, h⟩ := hq.bind hat h
  cases h
  exact ⟨_, hat.takes, .statementsCons hd hds⟩

theorem caseBodyRule_sound (hr : r.Sound) : SoundList .statements r.caseBodyRule := by
  intro σ c ns c' hc h
  unfold caseBodyRule at h
  rw [peek_bind] at h
  split at h
  · cases h
    exact ⟨[], .nil c, .statementsNil⟩
  split at h
  · cases h
  exact consStatement_sound (statementRule_sound hr) hr.caseBody hc h

theorem blockRule_sound (hr : r.Sound) : SoundClosed .statements "\x7d" r.blockRule := by
  intro σ c ns c' hc h
  rcases hc.behind.eat h with ⟨hrb, hat, h⟩ | ⟨-, h⟩
  · cases h
    exact ⟨_, hat.takes, [], _, rfl, hrb, .statementsNil⟩
  simp only [Bool.false_eq_true, if_false] at h
  rw [peek_bind] at h
  split at h
  · cases h
  obtain ⟨ts, n, c₁, ⟨hd, -⟩, hat, h⟩ := (statementRule_sound hr).bind hc.behind h
  obtain ⟨_, ns, c₂, ⟨us, rb, rfl, hrb, hds⟩, hat, h⟩ := hr.block.bind hat h
  cases h
  exact ⟨_, hat.takes, _, rb, by simp, hrb, .statementsCons hd hds⟩

theorem programRule_sound (hr : r.Sound) : SoundList .statements r.programRule := by
  intro σ c ns c' hc h
  unfold programRule at h
  rw [peek_bind] at h
  split at h
  · cases h
    exact ⟨[], .nil c, .statementsNil⟩
  exact consStatement_sound (statementRule_sound hr) hr.program hc h

-- == levels

theorem atEnd_ok {α : Type} {x : α × Cursor} : (atEnd : Rule α) σ c ≠ .ok x := by
  intro h
  cases h

/-- The end of the input takes no tokens. -/
theorem ground_sound : ground.Sound where
  program := by
    intro σ c ns c' hc h
    cases h
    exact ⟨[], .nil c, .statementsNil⟩
  sequence := by
    intro σ c ns c' hc h
    cases h
    exact ⟨[], .nil c, .sequenceNil⟩
  binaryTail := by
    intro least σ c₀ ts₀ c e n c' hat hd h
    cases h
    exact ⟨_, hat.takes, hd⟩
  callTail := by
    intro σ c₀ ts₀ c e n c' hat hd h
    cases h
    exact ⟨_, hat.takes, hd⟩
  memberTail := by
    intro σ c₀ ts₀ c start e n c' hat hd hs h
    cases h
    exact ⟨_, hat.takes, hd⟩
  statement := fun _ _ _ _ _ h => (atEnd_ok h).elim
  block := fun _ _ _ _ _ h => (atEnd_ok h).elim
  caseBody := fun _ _ _ _ _ h => (atEnd_ok h).elim
  cases := fun _ _ _ _ _ h => (atEnd_ok h).elim
  declarators := fun _ _ _ _ _ h => (atEnd_ok h).elim
  params := fun _ _ _ _ _ h => (atEnd_ok h).elim
  expression := fun _ _ _ _ _ h => (atEnd_ok h).elim
  assignment := fun _ _ _ _ _ h => (atEnd_ok h).elim
  binary := fun _ _ _ _ _ _ h => (atEnd_ok h).elim
  unary := fun _ _ _ _ _ h => (atEnd_ok h).elim
  newExpression := fun _ _ _ _ _ h => (atEnd_ok h).elim
  arguments := fun _ _ _ _ _ h => (atEnd_ok h).elim
  elements := fun _ _ _ _ _ h => (atEnd_ok h).elim
  properties := fun _ _ _ _ _ h => (atEnd_ok h).elim

theorem above_sound (hr : r.Sound) : r.above.Sound where
  program := programRule_sound hr
  statement := statementRule_sound hr
  block := blockRule_sound hr
  caseBody := caseBodyRule_sound hr
  cases := casesRule_sound hr
  declarators := declaratorsRule_sound hr
  params := paramsRule_sound hr
  expression := expressionRule_sound hr
  sequence := sequenceRule_sound hr
  assignment := assignmentRule_sound hr
  binary := binaryRule_sound hr
  binaryTail := binaryTailRule_sound hr
  unary := unaryRule_sound hr
  callTail := callTailRule_sound hr
  memberTail := memberTailRule_sound hr
  newExpression := newExpressionRule_sound hr
  arguments := argumentsRule_sound hr
  elements := elementsRule_sound hr
  properties := propertiesRule_sound hr

theorem level_sound (n : Nat) : (level n).Sound := by
  induction n with
  | zero => exact ground_sound
  | succ n ih => exact above_sound ih

end Rules

theorem Lexed.Formed.proper (hf : lexed.Formed) {rest : List Token} (ht : lexed.tokens = t :: rest) :
    Cursor.Proper ⟨t, rest, 0⟩ := by
  obtain ⟨ts, e, hto, he, -⟩ := hf.ended
  refine ⟨⟨e, ?_, he⟩, ?_⟩
  · rw [Cursor.tokens, ← ht, hto, getLast?_concat]
  · rw [Cursor.tokens, ← ht]
    exact hf.spelled

theorem statements_sound (hf : lexed.Formed) (h : statements lexed.tokens = .ok ns) :
    ∃ ts e, lexed.tokens = ts ++ [e] ∧ e.isEnd = true ∧ (∀ t ∈ ts, t.isEnd = false) ∧
      Derives .top .statements ts ns := by
  obtain ⟨ts, e, hto, he, hts⟩ := hf.ended
  obtain ⟨t, rest, ht⟩ := exists_cons_of_ne_nil (l := lexed.tokens) (by simp [hto])
  have hc := hf.proper ht
  rw [ht, statements_eq_rule hc.ends] at h
  obtain ⟨⟨ns', c'⟩, hr, rfl⟩ := map_eq_ok_iff.1 h
  obtain ⟨us, hus, hd⟩ := Rules.programRule_sound (Rules.level_sound _) hc hr
  change Derives .top .statements us ns' at hd
  have hs := Rules.programRule_isEnd hc.ends (Nat.le_refl _) hr
  rw [hus.eq_of_isEnd (ht.symm.trans hto) hts hs] at hd
  exact ⟨ts, e, hto, he, hts, hd⟩

theorem soleExpression_sound (hf : lexed.Formed) (h : soleExpression lexed.tokens = .ok n) :
    ∃ ts e, lexed.tokens = ts ++ [e] ∧ e.isEnd = true ∧ (∀ t ∈ ts, t.isEnd = false) ∧
      Derives .top .expression ts [n] := by
  obtain ⟨ts, e, hto, hen, hts⟩ := hf.ended
  obtain ⟨t, rest, ht⟩ := exists_cons_of_ne_nil (l := lexed.tokens) (by simp [hto])
  have hc := hf.proper ht
  rw [ht, soleExpression_eq_rule hc.ends] at h
  obtain ⟨⟨n', c'⟩, hr, rfl⟩ := map_eq_ok_iff.1 h
  obtain ⟨n'', c'', he, hr⟩ := Rule.bind_ok.1 hr
  obtain ⟨us, hus, hd⟩ := Rules.expressionRule_sound (Rules.level_sound _) hc he
  rw [Rule.bind_run_ok (Rule.peek_run _ _)] at hr
  split at hr
  · next hs =>
    cases hr
    rw [hus.eq_of_isEnd (ht.symm.trans hto) hts hs] at hd
    exact ⟨ts, e, hto, hen, hts, hd⟩
  · cases hr

end Inlay.Script
