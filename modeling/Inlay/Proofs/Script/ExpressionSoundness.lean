/-
Every rule for expressions finds a derivation.

`Rules.Sound r` says of each rule of a level that what it returns is
derived from the tokens it takes. Each rule is sound if the level it goes
on with is; `Soundness` ties the levels together. The rules behind an
operand go on from the derivation of the node so far (`SoundTail`,
`SoundMembers`).

A run is followed part by part: `Behind c₀ ts c` says which tokens were
taken since the rule was entered, and the node at the end spans them all.
-/
import Inlay.Proofs.Script.Derivation
import Inlay.Proofs.Script.Lexis

namespace Inlay.Script

open Rule

variable {allowIn : Bool} {us : List Token} {n : Node} {t : Token}

-- == proper cursors

/-- A cursor on spelled tokens that come to an end. -/
structure Cursor.Proper (c : Cursor) : Prop where
  ends : c.Ends
  spelled : ∀ t ∈ c.tokens, t.IsSpelled

namespace Cursor

variable {c c' : Cursor} {ts : List Token}

theorem Takes.proper (h : Takes c ts c') (hc : c.Proper) : c'.Proper := by
  refine ⟨h.ends hc.ends, fun t ht => hc.spelled t ?_⟩
  rw [h.tokens_eq]
  exact List.mem_append_right _ ht

/-- The nodes that a rule builds span the tokens it takes. -/
theorem Takes.extent_eq (h : Takes c ts c') (hne : ts ≠ []) :
    extent ts = ⟨c.current.span.start, c'.lastEnd⟩ := by
  unfold extent
  rw [h.head?_eq hne, h.lastEnd_eq hne]
  rfl

theorem Proper.takes (hc : c.Proper) (h : c.current.isEnd = false) :
    Takes c [c.current] c.advance := hc.ends.takes h

theorem Proper.takes_is (hc : c.Proper) {s : String} (h : c.current.is s = true) :
    Takes c [c.current] c.advance := hc.takes (Token.isEnd_of_is h)

theorem Proper.takes_kind (hc : c.Proper) {k : TokenKind} (h : c.current.kind = k)
    (hk : k ≠ .eof) : Takes c [c.current] c.advance :=
  hc.takes (by simp [Token.isEnd, h, hk])

/-- A node from the first token taken to the last one spans them all. -/
theorem Takes.spanned_eq (h : Takes c ts c') (hne : ts ≠ []) (kind : Kind) (props : Node.Props) :
    ({ Node.bare kind props with range := some ⟨c.current.span.start, c'.lastEnd⟩ } : Node)
      = spanned kind props ts := by
  rw [spanned, h.extent_eq hne]

/-- A member ends with the last token taken, wherever it starts. -/
theorem Takes.memberNode_eq (h : Takes c ts c') (hne : ts ≠ []) {computed : Bool}
    {object property : Node} {start : Nat} :
    memberNode computed object property start ts = { Node.bare .memberExpression
          [("computed", .ofBool computed), ("object", .node object),
           ("property", .node property)] with
        range := some ⟨start, c'.lastEnd⟩ } := by
  rw [memberNode, h.extent_eq hne]

end Cursor

-- == following a run

/-- The tokens `ts` were taken since a proper cursor. -/
structure Behind (c₀ : Cursor) (ts : List Token) (c : Cursor) : Prop where
  origin : c₀.Proper
  takes : c₀.Takes ts c

theorem Cursor.Proper.behind {c : Cursor} (hc : c.Proper) : Behind c [] c := ⟨hc, .nil c⟩

section

variable {α β : Type}  {f : α → Rule β} {σ : Scope} {c₀ c c' : Cursor}
  {ts : List Token} {b : β}

namespace Behind

variable {s : String} {props : Node.Props} {kind : Kind}

variable (hat : Behind c₀ ts c)

include hat

theorem proper : c.Proper := hat.takes.proper hat.origin

theorem append (h : c.Takes us c') : Behind c₀ (ts ++ us) c' := ⟨hat.origin, hat.takes.append h⟩

theorem next (h : c.current.isEnd = false) :
    Behind c₀ (ts ++ [c.current]) c.advance := hat.append (hat.proper.takes h)

theorem next_is (h : c.current.is s = true) :
    Behind c₀ (ts ++ [c.current]) c.advance := hat.append (hat.proper.takes_is h)

theorem next_kind {k : TokenKind} (h : c.current.kind = k)
    (hk : k ≠ .eof) : Behind c₀ (ts ++ [c.current]) c.advance :=
  hat.append (hat.proper.takes_kind h hk)

theorem expect {f : Token → Rule β} (h : (Rule.expect s >>= f) σ c = .ok (b, c')) :
    c.current.is s = true ∧ Behind c₀ (ts ++ [c.current]) c.advance ∧
      f c.current σ c.advance = .ok (b, c') := by
  obtain ⟨t, c₁, h₁, h⟩ := bind_ok.1 h
  obtain ⟨hs, rfl, rfl⟩ := expect_ok.1 h₁
  exact ⟨hs, hat.next_is hs, h⟩

theorem eat {f : Bool → Rule β} (h : (Rule.eat s >>= f) σ c = .ok (b, c')) :
    c.current.is s = true ∧ Behind c₀ (ts ++ [c.current]) c.advance ∧
        f true σ c.advance = .ok (b, c') ∨
      c.current.is s = false ∧ f false σ c = .ok (b, c') := by
  rw [bind_run, eat_run] at h
  cases hs : c.current.is s with
  | true =>
    rw [if_pos hs] at h
    exact .inl ⟨rfl, hat.next_is hs, h⟩
  | false =>
    rw [if_neg (by simp [hs])] at h
    exact .inr ⟨rfl, h⟩

theorem semicolon {f : Unit → Rule β} (h : (Rule.semicolon >>= f) σ c = .ok (b, c')) :
    ∃ semi c₁, Perhaps ";" semi ∧ Behind c₀ (ts ++ semi) c₁ ∧ f () σ c₁ = .ok (b, c') := by
  obtain ⟨u, c₁, h₁, hf⟩ := bind_ok.1 h
  rcases semicolon_ok h₁ with rfl | ⟨hs, rfl⟩
  · exact ⟨[], _, .inl rfl, by simpa using hat, hf⟩
  · exact ⟨[c.current], _, .inr ⟨_, hs, rfl⟩, hat.next_is hs, hf⟩

/-- The node that is built spans all tokens taken. -/
theorem finish (hne : ts ≠ [])
    (h : Rule.finish (m := Rule) c₀.current.span.start kind props σ c = .ok (n, c')) :
    c₀.Takes ts c' ∧ n = spanned kind props ts := by
  cases h
  exact ⟨hat.takes, hat.takes.spanned_eq hne _ _⟩

theorem finish_bind {f : Node → Rule β} (hne : ts ≠ [])
    (h : (Rule.finish c₀.current.span.start kind props >>= f) σ c = .ok (b, c')) :
    f (spanned kind props ts) σ c = .ok (b, c') := by
  rwa [bind_run_ok (finish_run _ _ _ _ _), hat.takes.spanned_eq hne] at h

/-- A rule ends by building the node of a derivation. -/
theorem builds {s : Symbol} (h : Rule.finish (m := Rule) c₀.current.span.start kind props σ c = .ok (n, c'))
    (hd : Derives σ.frame s us [spanned kind props us]) (hts : ts = us) (hs : s.isSolid = true) :
    ∃ ts, c₀.Takes ts c' ∧ Derives σ.frame s ts [n] := by
  subst hts
  obtain ⟨ha, rfl⟩ := hat.finish (hd.ne_nil hs) h
  exact ⟨_, ha, hd⟩

end Behind

end

-- == what is claimed

/-- What a rule returns, and where it stops, is as `B` says of the tokens
it takes. -/
def Gives {α : Type} (B : Frame → List Token → α → Cursor → Prop) (p : Rule α) : Prop :=
  ∀ ⦃σ c a c'⦄, Cursor.Proper c → p σ c = .ok (a, c') →
    ∃ ts, c.Takes ts c' ∧ B σ.frame ts a c'

/-- The node a rule returns is derived from the tokens it takes. -/
def Sound (s : Symbol) (p : Rule Node) : Prop :=
  Gives (fun F ts n _ => Derives F s ts [n]) p

/-- The same of a rule that returns several nodes. -/
def SoundList (s : Symbol) (p : Rule (List Node)) : Prop :=
  Gives (fun F ts ns _ => Derives F s ts ns) p

/-- The same of a rule that takes the token that closes a list. -/
def SoundClosed (s : Symbol) (close : String) (p : Rule (List Node)) : Prop :=
  Gives (fun F ts ns _ => ∃ us t, ts = us ++ [t] ∧ t.is close = true ∧ Derives F s us ns) p

/-- The same of a rule that returns a node or nothing. -/
def SoundOption (s : Symbol) (p : Rule (Option Node)) : Prop :=
  Gives (fun F ts n _ => Derives F (.maybe s) ts n.toList) p

/-- The same of a statement; no `else` follows that would belong to
it. -/
def SoundStatement (p : Rule Node) : Prop :=
  Gives (fun F ts n c => Derives F .statement ts [n] ∧
    (dangles n = true → c.current.is "else" = false)) p

/-- A rule that goes on behind an expression. -/
def SoundTail (p : Nat → Node → Rule Node) : Prop :=
  ∀ ⦃σ c₀ ts₀ c e n c'⦄, Behind c₀ ts₀ c → Derives σ.frame .expression ts₀ [e] →
    p c₀.current.span.start e σ c = .ok (n, c') →
    ∃ ts, c₀.Takes ts c' ∧ Derives σ.frame .expression ts [n]

/-- A rule for the members behind the callee of `new`. -/
def SoundMembers (p : Nat → Node → Rule Node) : Prop :=
  ∀ ⦃σ c₀ ts₀ c start e n c'⦄, Behind c₀ ts₀ c → Derives σ.frame .expression ts₀ [e] →
    e.range.map (·.start) = some start → p start e σ c = .ok (n, c') →
    ∃ ts, c₀.Takes ts c' ∧ Derives σ.frame .expression ts [n]

/-- All rules of a level find derivations. -/
structure Rules.Sound (r : Rules Rule) : Prop where
  program : SoundList .statements r.program
  statement : SoundStatement r.statement
  block : SoundClosed .statements "\x7d" r.block
  caseBody : SoundList .statements r.caseBody
  cases : SoundClosed .cases "\x7d" r.cases
  declarators : SoundList .declarators r.declarators
  params : SoundClosed .params ")" r.params
  expression : Script.Sound .expression r.expression
  sequence : SoundList .sequence r.sequence
  assignment : Script.Sound .expression r.assignment
  binary : ∀ least, Script.Sound .expression (r.binary least)
  binaryTail : ∀ least, SoundTail fun start => r.binaryTail start least
  unary : Script.Sound .expression r.unary
  callTail : SoundTail r.callTail
  memberTail : SoundMembers r.memberTail
  newExpression : Script.Sound .expression r.newExpression
  arguments : SoundClosed .arguments ")" r.arguments
  elements : SoundClosed .elements "]" r.elements
  properties : SoundClosed .properties "\x7d" r.properties

-- == parts of a run

section

variable {β : Type} {σ : Scope} {c₀ c c' : Cursor} {ts : List Token} {b : β} {s : Symbol} {α : Type}
  {item : Symbol} {q : Rule (List Node)} {close : String} {f : α → Rule β}
  {B : Frame → List Token → α → Cursor → Prop} {p : Rule Node}

theorem Gives.bind {p : Rule α} (hp : Gives B p) (hat : Behind c₀ ts c)
    (h : (p >>= f) σ c = .ok (b, c')) :
    ∃ us a c₁, B σ.frame us a c₁ ∧ Behind c₀ (ts ++ us) c₁ ∧ f a σ c₁ = .ok (b, c') := by
  obtain ⟨a, c₁, h₁, h⟩ := bind_ok.1 h
  obtain ⟨us, hus, ha⟩ := hp hat.proper h₁
  exact ⟨us, a, c₁, ha, hat.append hus, h⟩

theorem Gives.withIn {B : Frame → List Token → α → Cursor → Prop} {p : Rule α} (hp : Gives B p)
    (allowIn : Bool) : Gives B (withIn allowIn p) :=
  fun σ _ _ _ hc h => hp (σ := { σ with allowIn }) hc h

theorem Gives.either {p q : Rule α} {w : Bool} (hp : Gives B p) (hq : Gives B q)
    (hat : Behind c₀ ts c) (h : (if w = true then p >>= f else q >>= f) σ c = .ok (b, c')) :
    ∃ us a c₁, B σ.frame us a c₁ ∧ Behind c₀ (ts ++ us) c₁ ∧ f a σ c₁ = .ok (b, c') := by
  split at h
  · exact hp.bind hat h
  · exact hq.bind hat h

theorem Sound.announced {s' : Symbol} {f : Option Node → Rule β} {word : String} (hp : Sound s p)
    (hw : ∀ {F t ts n}, t.is word = true → Derives F s ts [n] → Derives F s' (t :: ts) [n])
    (hat : Behind c₀ ts c) (h : (do
      let there ← eat word
      if there = true then (some <$> p) >>= f else pure none >>= f) σ c = .ok (b, c')) :
    ∃ us n c₁, Derives σ.frame (.maybe s') us n.toList ∧ Behind c₀ (ts ++ us) c₁ ∧
      f n σ c₁ = .ok (b, c') := by
  rcases hat.eat h with ⟨ht, hat', h⟩ | ⟨-, h⟩
  · obtain ⟨o, c₁, h₁, h⟩ := bind_ok.1 h
    obtain ⟨n, hn, rfl⟩ := map_ok.1 h₁
    obtain ⟨us, hus, hd⟩ := hp hat'.proper hn
    exact ⟨_, _, c₁, .some (hw ht hd), by simpa using hat'.append hus, h⟩
  · exact ⟨[], none, c, .none, by simpa using hat, h⟩

/-- An item of a list, a comma unless the list closes, and the rest. -/
theorem separated_ok {ns : List Node}
    (hcon : ∀ {F ts sep us n ns}, Derives F item ts [n] → Perhaps "," sep →
      Derives F s us ns → Derives F s (ts ++ (sep ++ us)) (n :: ns)) (hp : Sound item p)
    (hq : SoundClosed s close q) (hc : c.Proper) (h : (do
      let n ← p
      if !(← atToken close) then
        let _ ← expect ","
      return n :: (← q)) σ c = .ok (ns, c')) :
    ∃ ts, c.Takes ts c' ∧ ∃ us t, ts = us ++ [t] ∧ t.is close = true ∧ Derives σ.frame s us ns := by
  obtain ⟨ts, n, c₁, hd, hat, h⟩ := hp.bind hc.behind h
  rw [bind_run_ok (atToken_run _ _ _)] at h
  have hs : ∃ sep c₂, Perhaps "," sep ∧ Behind c (ts ++ sep) c₂ ∧
      (do return n :: (← q)) σ c₂ = .ok (ns, c') := by
    dsimp only at h
    split at h
    · obtain ⟨hco, hat, h⟩ := hat.expect h
      exact ⟨_, _, .inr ⟨_, hco, rfl⟩, hat, h⟩
    · exact ⟨[], _, .inl rfl, by simpa using hat, h⟩
  obtain ⟨sep, c₂, hs, hat, h⟩ := hs
  obtain ⟨_, ns, c₃, ⟨us, t, rfl, ht, hds⟩, hat, h⟩ := hq.bind hat h
  cases h
  exact ⟨_, hat.takes, _, t, by simp, ht, hcon hd hs hds⟩

/-- A list of items with commas between them. -/
theorem separated_sound (hn : ∀ {F}, Derives F s [] [])
    (hco : ∀ {F ts sep us n ns}, Derives F item ts [n] → Perhaps "," sep →
      Derives F s us ns → Derives F s (ts ++ (sep ++ us)) (n :: ns)) (hp : Sound item p)
    (hq : SoundClosed s close q) :
    SoundClosed s close (do
      if ← eat close then return []
      let n ← p
      if !(← atToken close) then
        let _ ← expect ","
      return n :: (← q)) := by
  intro σ c ns c' hc h
  rcases hc.behind.eat h with ⟨hcl, hat, h⟩ | ⟨-, h⟩
  · cases h
    exact ⟨_, hat.takes, [], _, rfl, hcl, hn⟩
  · exact separated_ok hco hp hq hc h

theorem enclosed_sound {list : Symbol} {opening key : String} {kind : Kind} (hs : s.isSolid = true)
    (hm : ∀ {F lb ts rb ns}, lb.is opening = true → Derives F list ts ns →
      rb.is close = true → Derives F s (lb :: (ts ++ [rb]))
        [spanned kind [(key, .nodes ns)] (lb :: (ts ++ [rb]))]) (hq : SoundClosed list close q) :
    Sound s (do
      let start := (← expect opening).span.start
      let ns ← q
      finish start kind [(key, .nodes ns)]) := by
  intro σ c n c' hc h
  obtain ⟨hlb, hat, h⟩ := hc.behind.expect h
  obtain ⟨_, ns, c₁, ⟨us, rb, rfl, hrb, hd⟩, hat, h⟩ := hq.bind hat h
  exact hat.builds h (hm hlb hd hrb) (by simp) hs

end

namespace Rules

variable {r : Rules Rule} {kind : Kind} {start strength : Nat} {c' c : Cursor}

-- == words and literals

theorem identifierName_sound : Script.Sound .name identifierName := by
  intro σ c n c' hc h
  unfold identifierName at h
  rw [peek_bind] at h
  split at h
  · next hk =>
    have hk : c.current.kind = .word := by simpa using hk
    exact (hc.behind.next_kind hk (by simp)).builds h (.name hk) (by simp) rfl
  · cases h

theorem identifier_sound : Script.Sound .identifier identifier := by
  intro σ c n c' hc h
  unfold identifier at h
  rw [peek_bind] at h
  split at h
  · next hk =>
    simp only [Bool.and_eq_true, beq_iff_eq, Bool.not_eq_true'] at hk
    obtain ⟨ts, ht, hd⟩ := identifierName_sound hc h
    cases hd
    cases ht.advance_eq.1
    exact ⟨_, ht, .identifier hk.1 hk.2⟩
  · cases h

theorem literalToken_sound {σ : Scope} (hc : c.Proper)
    (h : literalToken (m := Rule) c.current σ c = .ok (n, c')) :
    c.Takes [c.current] c' ∧ Derives σ.frame .literal [c.current] [n] := by
  unfold literalToken at h
  cases hk : c.current.kind with
  | number =>
    simp only [hk] at h
    rw [next_bind] at h
    have hat := hc.behind.next_kind hk (by simp)
    cases hv : numberValue? c.current.text with
    | none =>
      simp only [hv] at h
      cases h
    | some v =>
      simp only [hv] at h
      obtain ⟨ha, rfl⟩ := hat.finish (by simp) h
      exact ⟨ha, .number hk hv⟩
  | string =>
    simp only [hk] at h
    rw [next_bind] at h
    have hat := hc.behind.next_kind hk (by simp)
    cases hv : unquote? c.current.text with
    | none =>
      simp only [hv] at h
      cases h
    | some v =>
      simp only [hv] at h
      obtain ⟨ha, rfl⟩ := hat.finish (by simp) h
      exact ⟨ha, .string hk hv⟩
  | regex =>
    simp only [hk] at h
    rw [next_bind] at h
    obtain ⟨ha, rfl⟩ := (hc.behind.next_kind hk (by simp)).finish (by simp) h
    exact ⟨ha, .regex hk⟩
  | word | punct | eof =>
    simp only [hk] at h
    cases h

theorem propertyKey_sound : Script.Sound .key propertyKey := by
  intro σ c n c' hc h
  unfold propertyKey at h
  rw [peek_bind] at h
  cases hk : c.current.kind with
  | string =>
    simp only [hk] at h
    obtain ⟨ht, hd⟩ := literalToken_sound hc h
    exact ⟨_, ht, .keyLiteral (.inl hk) hd⟩
  | number =>
    simp only [hk] at h
    obtain ⟨ht, hd⟩ := literalToken_sound hc h
    exact ⟨_, ht, .keyLiteral (.inr hk) hd⟩
  | word =>
    simp only [hk] at h
    obtain ⟨ts, ht, hd⟩ := identifierName_sound hc h
    exact ⟨ts, ht, .keyName hd⟩
  | regex | punct | eof =>
    simp only [hk] at h
    cases h

-- == functions

section

variable (hr : r.Sound)

include hr

theorem blockStatement_sound : Script.Sound .block r.blockStatement :=
  enclosed_sound rfl .block hr.block

/-- The parameters and the body of a function, wherever it starts. -/
theorem functionRest_sound {id : Option Node} {σ : Scope} (hc : c.Proper)
    (h : r.functionRest kind id start σ c = .ok (n, c')) :
    ∃ ts params body, c.Takes ts c' ∧ Derives σ.frame .callable ts (body :: params) ∧
      Rule.finish (m := Rule) start kind
        [("id", .ofNode? id), ("params", .nodes params), ("body", .node body)] σ c'
          = .ok (n, c') := by
  obtain ⟨hlp, hat, h⟩ := hc.behind.expect h
  obtain ⟨_, params, c₁, ⟨ps, rp, rfl, hrp, hdp⟩, hat, h⟩ := hr.params.bind hat h
  obtain ⟨body, c₂, h₂, h⟩ := bind_ok.1 h
  obtain ⟨bs, hbs, hd⟩ := blockStatement_sound hr hat.proper h₂
  have ha : c.Takes (c.current :: (ps ++ rp :: bs)) c₂ := by
    simpa using (hat.append hbs).takes
  cases h
  exact ⟨_, params, body, ha, .callable hlp hdp hrp hd, rfl⟩

theorem function_sound (hk : kind = .functionExpression ∨ kind = .functionDeclaration) :
    Script.Sound (.function kind) (r.function kind) := by
  intro σ c n c' hc h
  obtain ⟨hf, hat, h⟩ := hc.behind.expect h
  rw [bind_run_ok (atToken_run _ _ _)] at h
  split at h
  · next ha =>
    obtain ⟨cs, params, body, hcs, hd, h⟩ := functionRest_sound hr hat.proper h
    have hk : kind = .functionExpression := by simp_all
    exact (hat.append hcs).builds h (.function hf .none (.inl hk) hd) (by simp) rfl
  · obtain ⟨_, c₂, h₂, h⟩ := bind_ok.1 h
    obtain ⟨id, hid, rfl⟩ := map_ok.1 h₂
    obtain ⟨is, his, hdi⟩ := identifier_sound hat.proper hid
    have hat := hat.append his
    obtain ⟨cs, params, body, hcs, hd, h⟩ := functionRest_sound hr hat.proper h
    exact (hat.append hcs).builds h
      (.function hf (.some hdi) (hk.imp_right fun h => ⟨h, by simp⟩) hd) (by simp) rfl

theorem paramsRule_sound : SoundClosed .params ")" r.paramsRule :=
  separated_sound .paramsNil .paramsCons identifier_sound hr.params

-- == arrays and objects

theorem array_sound : Script.Sound .expression r.array :=
  enclosed_sound rfl .array (hr.elements.withIn true)

theorem object_sound : Script.Sound .expression r.object :=
  enclosed_sound rfl .object (hr.properties.withIn true)

theorem property_sound : Script.Sound .property r.property := by
  intro σ c n c' hc h
  unfold property at h
  rw [peek_bind] at h
  simp only at h
  rw [bind_run_ok (peekSecond_run σ c)] at h
  split at h
  · next ha =>
    simp only [Bool.and_eq_true, Bool.or_eq_true, beq_iff_eq] at ha
    obtain ⟨⟨hk, hw⟩, -⟩ := ha
    rw [next_bind] at h
    obtain ⟨ks, key, c₁, hdk, hat, h⟩ :=
      propertyKey_sound.bind (hc.behind.next_kind hk (by simp)) h
    rw [peek_bind] at h
    obtain ⟨value, c₂, h₂, h⟩ := bind_ok.1 h
    obtain ⟨cs, params, body, hcs, hd, hv⟩ := functionRest_sound hr hat.proper h₂
    cases hv
    rw [hcs.spanned_eq (hd.ne_nil rfl)] at h
    exact (hat.append hcs).builds h (.propertyAccessor hk hw hdk hd) (by simp) rfl
  · obtain ⟨ks, key, c₁, hdk, hat, h⟩ := propertyKey_sound.bind hc.behind h
    obtain ⟨hco, hat, h⟩ := hat.expect h
    obtain ⟨vs, value, c₂, hdv, hat, h⟩ := hr.assignment.bind hat h
    exact hat.builds h (.propertyInit hdk hco hdv) (by simp) rfl

theorem propertiesRule_sound : SoundClosed .properties "\x7d" r.propertiesRule :=
  separated_sound .propertiesNil .propertiesCons (property_sound hr) hr.properties

-- == primary and calls

theorem parenthesized_gives :
    Gives (fun F ts n _ => ∃ lp us rp, ts = lp :: (us ++ [rp]) ∧ lp.is "(" = true ∧
      Derives F .expression us [n] ∧ rp.is ")" = true) r.parenthesized := by
  intro σ c n c' hc h
  obtain ⟨hlp, hat, h⟩ := hc.behind.expect h
  obtain ⟨us, n, c₁, hd, hat, h⟩ := (hr.expression.withIn true).bind hat h
  obtain ⟨hrp, hat, h⟩ := hat.expect h
  cases h
  exact ⟨_, hat.takes, _, us, _, by simp, hlp, hd, hrp⟩

theorem primary_sound : Script.Sound .expression r.primary := by
  intro σ c n c' hc h
  unfold primary at h
  rw [peek_bind] at h
  cases hk : c.current.kind with
  | word =>
    have hat := hc.behind.next_kind hk (by simp)
    simp only [hk] at h
    split at h
    · obtain ⟨ts, hts, hd⟩ := function_sound hr (.inl rfl) hc h
      exact ⟨ts, hts, .ofFunction hd⟩
    split at h
    · next hth => exact hat.builds h (.this hk (by simpa using hth)) (by simp) rfl
    split at h
    · next hn => exact hat.builds h (.null hk (by simpa using hn)) (by simp) rfl
    split at h
    · next hb => exact hat.builds h (.truth hk (by simpa using hb)) (by simp) rfl
    · obtain ⟨ts, hts, hd⟩ := identifier_sound hc h
      exact ⟨ts, hts, .ofIdentifier hd⟩
  | punct =>
    simp only [hk] at h
    split at h
    · obtain ⟨ts, hts, lp, us, rp, rfl, hlp, hd, hrp⟩ := parenthesized_gives hr hc h
      exact ⟨_, hts, .parens hlp hd hrp⟩
    split at h
    · exact array_sound hr hc h
    split at h
    · exact object_sound hr hc h
    · cases h
  | number | string | regex | eof =>
    simp only [hk] at h
    obtain ⟨ht, hd⟩ := literalToken_sound hc h
    exact ⟨_, ht, .ofLiteral hd⟩

theorem argumentList_gives :
    Gives (fun F ts ns _ => ∃ lp us rp, ts = lp :: (us ++ [rp]) ∧ lp.is "(" = true ∧
      Derives F .arguments us ns ∧ rp.is ")" = true) r.argumentList := by
  intro σ c ns c' hc h
  obtain ⟨hlp, hat, h⟩ := hc.behind.expect h
  obtain ⟨_, hus, us, rp, rfl, hrp, hd⟩ := hr.arguments.withIn true hat.proper h
  exact ⟨_, (hat.append hus).takes, _, us, rp, rfl, hlp, hd, hrp⟩

/-- A member behind an object, which starts where the member does or
with its tokens. -/
theorem member_bind {f : Node → Rule Node} {σ : Scope} {c₀ : Cursor}
    {ts : List Token} {e : Node} (hat : Behind c₀ ts c) (hd : Derives σ.frame .expression ts [e])
    (hs : StartsMember start e ts) (h : (r.member start e >>= f) σ c = .ok (n, c')) :
    ∃ us m c₁, Derives σ.frame .expression us [m] ∧ m.range.map (·.start) = some start ∧
      Behind c₀ us c₁ ∧ f m σ c₁ = .ok (n, c') := by
  obtain ⟨m, c₁, h₁, h⟩ := bind_ok.1 h
  rcases hat.eat h₁ with ⟨hdo, hat, h₁⟩ | ⟨-, h₁⟩
  · obtain ⟨ps, p, c₂, hdp, hat, h₁⟩ := identifierName_sound.bind hat h₁
    have hat : Behind c₀ (ts ++ c.current :: ps) c₂ := by simpa using hat
    cases h₁
    refine ⟨_, _, _, ?_, rfl, hat, h⟩
    rw [← hat.takes.memberNode_eq (by simp)]
    exact .dot hd hdo hdp hs
  · obtain ⟨hlb, hat, h₁⟩ := hat.expect h₁
    obtain ⟨ps, p, c₂, hdp, hat, h₁⟩ := (hr.expression.withIn true).bind hat h₁
    obtain ⟨hrb, hat, h₁⟩ := hat.expect h₁
    have hat : Behind c₀ (ts ++ c.current :: (ps ++ [c₂.current])) c₂.advance := by
      simpa using hat
    cases h₁
    refine ⟨_, _, _, ?_, rfl, hat, h⟩
    rw [← hat.takes.memberNode_eq (by simp)]
    exact .index hd hlb hdp hrb hs

theorem callTailRule_sound : SoundTail r.callTailRule := by
  intro σ c₀ ts₀ c e n c' hat hd h
  unfold callTailRule at h
  rw [peek_bind] at h
  split at h
  · obtain ⟨_, as, c₁, ⟨lp, us, rp, rfl, hlp, hda, hrp⟩, hat, h⟩ :=
      (argumentList_gives hr).bind hat h
    exact hr.callTail hat (.call hd hlp hda hrp) (hat.finish_bind (by simp) h)
  split at h
  · have hs : StartsMember c₀.current.span.start e ts₀ :=
      .inl (by rw [hat.takes.extent_eq (hd.ne_nil rfl)])
    obtain ⟨us, m, c₁, hdm, -, hat, h⟩ := member_bind hr hat hd hs h
    exact hr.callTail hat hdm h
  · cases h
    exact ⟨_, hat.takes, hd⟩

theorem memberTailRule_sound : SoundMembers r.memberTailRule := by
  intro σ c₀ ts₀ c start e n c' hat hd hs h
  unfold memberTailRule at h
  rw [peek_bind] at h
  split at h
  · obtain ⟨us, m, c₁, hdm, hm, hat, h⟩ := member_bind hr hat hd (.inr hs) h
    exact hr.memberTail hat hdm hm h
  · cases h
    exact ⟨_, hat.takes, hd⟩

/-- `new` with its callee; the members of the callee start where the
callee does. -/
theorem newExpressionRule_sound : Script.Sound .expression r.newExpressionRule := by
  intro σ c n c' hc h
  obtain ⟨hn, hat, h⟩ := hc.behind.expect h
  rw [bind_run_ok (atToken_run _ _ _)] at h
  obtain ⟨ts, e, c₁, hd, ha, h⟩ := hr.newExpression.either (primary_sound hr) hat.proper.behind h
  obtain ⟨callee, c₂, h₂, h⟩ := bind_ok.1 h
  obtain ⟨range, hra⟩ := Option.isSome_iff_exists.1 (hd.range_isSome rfl e (by simp))
  rw [hra] at h₂
  obtain ⟨us, hus, hdc⟩ := memberTailRule_sound hr ha hd (by rw [hra]; rfl) h₂
  have hat := hat.append hus
  rw [bind_run_ok (atToken_run _ _ _)] at h
  split at h
  · obtain ⟨_, as, c₃, ⟨lp, vs, rp, rfl, hlp, hda, hrp⟩, hat, h⟩ :=
      (argumentList_gives hr).bind hat h
    exact hat.builds h (.new hn hdc hlp hda hrp) (by simp) rfl
  · exact hat.builds h (.newBare hn hdc) (by simp) rfl

theorem callMember_sound : Script.Sound .expression r.callMember := by
  intro σ c n c' hc h
  unfold callMember at h
  rw [peek_bind, bind_run_ok (atToken_run _ _ _)] at h
  obtain ⟨ts, e, c₁, hd, hat, h⟩ :=
    (newExpressionRule_sound hr).either (primary_sound hr) hc.behind h
  exact callTailRule_sound hr hat hd h

end

-- == operators

theorem isEnd_of_isPrefixOperator (h : isPrefixOperator t = true) : t.isEnd = false := by
  unfold isPrefixOperator at h
  cases hk : t.kind <;> simp_all [Token.isEnd]

theorem isEnd_of_isUpdateOperator (h : isUpdateOperator t = true) : t.isEnd = false := by
  simp only [isUpdateOperator, Bool.or_eq_true] at h
  exact h.elim Token.isEnd_of_is Token.isEnd_of_is

theorem unaryRule_sound (hr : r.Sound) : Script.Sound .expression r.unaryRule := by
  intro σ c n c' hc h
  unfold unaryRule at h
  rw [peek_bind] at h
  split at h
  · next hop =>
    rw [next_bind] at h
    have hat := hc.behind.next (isEnd_of_isPrefixOperator hop)
    obtain ⟨ts, e, c₁, hd, hat, h⟩ := hr.unary.bind hat h
    exact hat.builds h (.unary hop hd) (by simp) rfl
  split at h
  · next hop =>
    rw [next_bind] at h
    have hat := hc.behind.next (isEnd_of_isUpdateOperator hop)
    obtain ⟨ts, e, c₁, hd, hat, h⟩ := hr.unary.bind hat h
    split at h
    · next ht => exact hat.builds h (.updateBefore hop hd ht) (by simp) rfl
    · cases h
  · obtain ⟨ts, e, c₁, hd, hat, h⟩ := (callMember_sound hr).bind hc.behind h
    rw [peek_bind] at h
    split at h
    · next hop =>
      simp only [Bool.and_eq_true] at hop
      split at h
      · next ht =>
        have hat := hat.next (isEnd_of_isUpdateOperator hop.1)
        exact hat.builds h (.updateBehind hd hop.1 ht) (by simp) rfl
      · cases h
    · cases h
      exact ⟨ts, hat.takes, hd⟩

/-- An operator in the head of a `for` is one everywhere. -/
theorem operatorStrength?_true (h : operatorStrength? t allowIn = some strength) :
    operatorStrength? t true = some strength := by
  cases allowIn with
  | true => exact h
  | false =>
    unfold operatorStrength? at h ⊢
    split at h
    · next hk =>
      rw [if_pos hk]
      unfold strength? at h ⊢
      split at h <;> simp_all
    · cases h

theorem isEnd_of_operatorStrength?
    (h : operatorStrength? t allowIn = some strength) : t.isEnd = false := by
  unfold operatorStrength? at h
  split at h
  · next hk =>
    simp only [Bool.or_eq_true, beq_iff_eq] at hk
    rcases hk with hk | hk <;> simp [Token.isEnd, hk]
  · cases h

variable (hr : r.Sound)

include hr

theorem binaryTailRule_sound (least : Nat) :
    SoundTail fun start => r.binaryTailRule start least := by
  intro σ c₀ ts₀ c e n c' hat hd h
  simp only [binaryTailRule] at h
  rw [peek_bind, bind_run_ok (read_run σ c)] at h
  cases hop : operatorStrength? c.current σ.allowIn with
  | none =>
    simp only [hop] at h
    cases h
    exact ⟨_, hat.takes, hd⟩
  | some strength =>
    simp only [hop] at h
    split at h
    · cases h
      exact ⟨_, hat.takes, hd⟩
    · rw [next_bind] at h
      have hat := hat.next (isEnd_of_operatorStrength? hop)
      obtain ⟨rs, right, c₁, hdr, hat, h⟩ := (hr.binary _).bind hat h
      rw [List.append_assoc] at hat
      exact hr.binaryTail least hat (.binary hd (operatorStrength?_true hop) hdr)
        (hat.finish_bind (by simp) h)

theorem binaryRule_sound (least : Nat) : Script.Sound .expression (r.binaryRule least) := by
  intro σ c n c' hc h
  unfold binaryRule at h
  rw [peek_bind] at h
  obtain ⟨ts, e, c₁, hd, hat, h⟩ := (unaryRule_sound hr).bind hc.behind h
  exact binaryTailRule_sound hr least hat hd h

theorem conditional_sound : Script.Sound .expression r.conditional := by
  intro σ c n c' hc h
  unfold conditional at h
  rw [peek_bind] at h
  obtain ⟨ts, test, c₁, hd, hat, h⟩ := (binaryRule_sound hr 1).bind hc.behind h
  rcases hat.eat h with ⟨hq, hat, h⟩ | ⟨-, h⟩
  · obtain ⟨ys, yes, c₂, hdy, hat, h⟩ := (hr.assignment.withIn true).bind hat h
    obtain ⟨hco, hat, h⟩ := hat.expect h
    obtain ⟨ns, no, c₃, hdn, hat, h⟩ := hr.assignment.bind hat h
    exact hat.builds h (.conditional hd hq hdy hco hdn) (by simp) rfl
  · cases h
    exact ⟨ts, hat.takes, hd⟩

theorem assignmentRule_sound : Script.Sound .expression r.assignmentRule := by
  intro σ c n c' hc h
  unfold assignmentRule at h
  rw [peek_bind] at h
  obtain ⟨ls, left, c₁, hd, hat, h⟩ := (conditional_sound hr).bind hc.behind h
  rw [peek_bind] at h
  split at h
  · next hop =>
    simp only [Bool.and_eq_true, beq_iff_eq, List.contains_iff_mem] at hop
    split at h
    · next ht =>
      rw [next_bind] at h
      obtain ⟨rs, right, c₂, hdr, hat, h⟩ :=
        hr.assignment.bind (hat.next_kind hop.1 (by simp)) h
      exact hat.builds h (.assignment hd ht hop.1 hop.2 hdr) (by simp) rfl
    · cases h
  · cases h
    exact ⟨ls, hat.takes, hd⟩

theorem sequenceRule_sound : SoundList .sequence r.sequenceRule := by
  intro σ c ns c' hc h
  rcases hc.behind.eat h with ⟨hco, hat, h⟩ | ⟨-, h⟩
  · obtain ⟨ts, n, c₁, hd, hat, h⟩ := hr.assignment.bind hat h
    obtain ⟨us, ns, c₂, hds, hat, h⟩ := hr.sequence.bind hat h
    cases h
    exact ⟨_, by simpa using hat.takes, .sequenceCons hco hd hds⟩
  · cases h
    exact ⟨[], .nil c, .sequenceNil⟩

theorem expressionRule_sound : Script.Sound .expression r.expressionRule := by
  intro σ c n c' hc h
  unfold expressionRule at h
  rw [peek_bind] at h
  obtain ⟨ts, first, c₁, hd, hat, h⟩ := (assignmentRule_sound hr).bind hc.behind h
  obtain ⟨us, more, c₂, hdm, hat, h⟩ := (sequenceRule_sound hr).bind hat h
  cases more with
  | nil =>
    cases h
    cases hdm
    exact ⟨ts, by simpa using hat.takes, hd⟩
  | cons m more => exact hat.builds h (.sequence hd hdm (by simp)) (by simp) rfl

-- == their lists

theorem argumentsRule_sound : SoundClosed .arguments ")" r.argumentsRule :=
  separated_sound .argumentsNil .argumentsCons (assignmentRule_sound hr) hr.arguments

theorem elementsRule_sound : SoundClosed .elements "]" r.elementsRule := by
  intro σ c ns c' hc h
  rcases hc.behind.eat h with ⟨hrb, hat, h⟩ | ⟨-, h⟩
  · cases h
    exact ⟨_, hat.takes, [], _, rfl, hrb, .elementsNil⟩
  rcases hc.behind.eat h with ⟨hh, hat, h⟩ | ⟨-, h⟩
  · obtain ⟨_, ns, c₁, ⟨us, rb, rfl, hrb, hds⟩, hat, h⟩ := hr.elements.bind hat h
    cases h
    exact ⟨_, hat.takes, _, rb, rfl, hrb, .elementsHole hh hds⟩
  · exact separated_ok .elementsCons (assignmentRule_sound hr) hr.elements hc h

end Rules

end Inlay.Script
