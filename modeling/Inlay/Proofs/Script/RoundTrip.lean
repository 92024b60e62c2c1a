/-
Generated code reads back as the tree it was made from.

Whatever a rule reads is faithful (`Derives.returns`): by induction over
the derivation, the code of the node reads back as a node like it, but for
numbers that are not finite. If every slash is read as what it was written
for, the text is read as the tokens it was drawn from (`lex_draw`). The
pieces say what the script said (`gist_draft`), so one whose slashes do not
hold cannot give the same tree.
-/
import Inlay.Tech
import Inlay.Proofs.Script.Drafts
import Inlay.Proofs.Script.StatementCode
import Inlay.Proofs.Script.Writing
import Inlay.Proofs.Tree.Renaming

namespace Inlay

open List

variable {tree : Tree}

namespace Script

open Rule Rules Node

variable {F : Frame} {s : Symbol} {t : Token} {ts : List Token} {n : Node} {ns : List Node}
  {lexed : Lexed} {P : List Piece} {tree : Tree} {source : Option String} {text : List Char}

-- == plain tokens

/-- The token is no division, no regular expression and no number
without a finite value. -/
def Token.isPlain (t : Token) : Bool :=
  !(t.is "/" || t.is "/=") && t.kind != .regex &&
    (t.kind != .number ||
      match numberValue? t.text with
      | some .infinite => false
      | _ => true)

/-- A text of plain tokens only. -/
def isPlain (text : List Char) : Bool :=
  match lex text with
  | .ok lexed => lexed.tokens.all Token.isPlain
  | .error _ => false

/-- The token is no number without a finite value. -/
def Token.isFinite (t : Token) : Bool :=
  t.kind != .number ||
    match numberValue? t.text with
    | some .infinite => false
    | _ => true

/-- A text whose numbers are all finite. -/
def isFinite (text : List Char) : Bool :=
  match lex text with
  | .ok lexed => lexed.tokens.all Token.isFinite
  | .error _ => false

theorem Token.isFinite_of_isPlain (h : t.isPlain = true) : t.isFinite = true :=
  (Bool.and_eq_true_iff.1 h).2

theorem isFinite_of_isPlain (h : isPlain text = true) : isFinite text = true := by
  unfold isPlain at h
  unfold isFinite
  split at h
  · rw [all_eq_true] at h ⊢
    exact fun t ht => Token.isFinite_of_isPlain (h t ht)
  · cases h

theorem Token.head?_ne_of_isPlain (hs : t.IsSpelled) (h : t.isPlain = true) :
    t.text.toList.head? ≠ some '/' := by
  simp only [Token.isPlain, Bool.and_eq_true, Bool.not_eq_true', Bool.or_eq_false_iff,
    bne_iff_ne, ne_eq] at h
  obtain ⟨⟨⟨hsl, he⟩, hr⟩, -⟩ := h
  intro hh
  obtain ⟨cs, ht⟩ := head?_eq_some_iff.1 hh
  rw [Token.IsSpelled, ht] at hs
  cases hk : t.kind with
  | word =>
    rw [hk] at hs
    obtain ⟨c, rest, heq, hc, -⟩ := hs
    cases heq
    cases hc
  | number | string =>
    rw [hk] at hs
    obtain ⟨c, rest, heq, hc | hc⟩ := hs <;> cases heq <;> cases hc
  | regex => exact hr hk
  | punct =>
    rw [hk] at hs
    rcases slash_punctuators _ hs rfl with heq | heq
    · have his : t.is "/" = true := by
        simp [Token.is, hk, ← String.toList_inj, ht, heq]
      rw [his] at hsl
      cases hsl
    · have his : t.is "/=" = true := by
        simp [Token.is, hk, ← String.toList_inj, ht, heq]
      rw [his] at he
      cases he
  | eof =>
    rw [hk] at hs
    cases hs

/-- What is said as a text is the text of a token, or `null`. -/
theorem Token.text_of_sense? {s : String} (h : t.sense? = some (.text s)) :
    s = t.text ∨ s = "null" := by
  unfold Token.sense? at h
  split at h
  · cases h
  · split at h <;> cases h
    exact .inl rfl
  · split at h <;> cases h
    · exact .inr rfl
    · exact .inl rfl
  all_goals
    split at h <;> cases h
    exact .inl rfl

/-- A token whose code can be generated. -/
structure Token.IsFit (t : Token) : Prop where
  spelled : t.IsSpelled
  renders : t.kind = .number → ∀ v, numberValue? t.text = some v → Renders v

theorem Token.isFit (hs : t.IsSpelled) (h : t.isFinite = true) : t.IsFit := by
  simp only [Token.isFinite, bne_iff_ne, Bool.or_eq_true] at h
  refine ⟨hs, fun hk v hv => ?_⟩
  cases v with
  | finite d => exact renders_finite hv
  | infinite =>
    rw [hv] at h
    exact absurd hk (h.resolve_right (by decide))

theorem Token.IsFit.isWord (h : t.IsFit) (hk : t.kind = .word) : IsWord t.text.toList := by
  have hs := h.spelled
  rw [Token.IsSpelled, hk] at hs
  exact hs

theorem Token.IsFit.isRegex (h : t.IsFit) (hk : t.kind = .regex) : IsRegex t.text.toList := by
  have hs := h.spelled
  rw [Token.IsSpelled, hk] at hs
  exact hs

-- == what returns

theorem Faithful.kind_ne (h : Faithful n) : n.kind ≠ .variableDeclaration := by
  intro hk
  obtain ⟨P, hc, -⟩ := h true 0
  rw [Code.expressionBody] at hc
  simp only [hk] at hc
  cases hc

/-- A function of the given kind. -/
def IsFunction (kind : Kind) (n : Node) : Prop :=
  ∃ id params body ts, n = functionOf kind id params body ts ∧
    (∀ i ∈ id, IsIdentifier i) ∧ (∀ p ∈ params, IsIdentifier p) ∧
    FaithfulBlock .function body ∧ (kind = .functionExpression ∨ id ≠ none)

/-- A declaration, without its semicolon. -/
def IsDeclaration (n : Node) : Prop :=
  ∃ word ns ts, n = declarationOf word ns ts ∧ word ∈ ["var", "let", "const"] ∧ ns ≠ [] ∧
    ∀ n ∈ ns, FaithfulDeclarator n

/-- What is known of the nodes that are read as the symbol. -/
def Returns (F : Frame) : Symbol → List Node → Prop
  | .identifier, ns | .params, ns => ∀ n ∈ ns, IsIdentifier n
  | .name, ns => ∀ n ∈ ns, ∃ (w : String) (ts : List Token), n = nameNode w ts ∧ IsWord w.toList
  | .literal, ns => ∀ n ∈ ns, Faithful n
  | .key, ns => ∀ n ∈ ns, IsKey n
  | .property, ns | .properties, ns => ∀ n ∈ ns, FaithfulProperty n
  | .elements, ns => ∀ n ∈ ns, n = hole ∨ Faithful n
  | .expression, ns | .arguments, ns | .sequence, ns | .initializer, ns => ∀ n ∈ ns, Faithful n
  | .callable, ns => ∃ body params, ns = body :: params ∧ FaithfulBlock .function body ∧
      ∀ n ∈ params, IsIdentifier n
  | .function kind, ns => ∀ n ∈ ns, IsFunction kind n
  | .declarator, ns | .declarators, ns => ∀ n ∈ ns, FaithfulDeclarator n
  | .declaration, ns => ∀ n ∈ ns, IsDeclaration n
  | .forInit, ns => ∀ n ∈ ns, FaithfulInit n
  | .block, ns => ∀ n ∈ ns, FaithfulBlock F n ∧ n.kind = .blockStatement
  | .finalizer, ns => ∀ n ∈ ns, FaithfulBlock F n
  | .handler, ns => ∀ n ∈ ns, FaithfulHandler F n
  | .switchCase, ns | .cases, ns => ∀ n ∈ ns, FaithfulCase F n
  | .alternate, ns | .statement, ns | .statements, ns => ∀ n ∈ ns, FaithfulStatement F n
  | .maybe s, ns => ns = [] ∨ Returns F s ns

theorem IsDeclaration.statement (h : IsDeclaration n) :
    FaithfulStatement F (spanned n.kind n.props ts) := by
  obtain ⟨word, ns, us, rfl, hw, hne, hns⟩ := h
  exact faithful_declaration hw hne hns

theorem IsFunction.expression (h : IsFunction .functionExpression n) : Faithful n := by
  obtain ⟨id, params, body, ts, rfl, hid, hp, hb, -⟩ := h
  exact faithful_function hid hp hb

theorem IsFunction.statement (h : IsFunction .functionDeclaration n) : FaithfulStatement F n := by
  obtain ⟨id, params, body, ts, rfl, hid, hp, hb, hk⟩ := h
  obtain ⟨i, rfl⟩ := Option.ne_none_iff_exists'.1 (hk.resolve_left (by decide))
  exact faithful_functionDeclaration (hid i rfl) hp hb

theorem mem_of_isPrefixOperator (h : isPrefixOperator t = true) :
    t.text ∈ ["!", "~", "+", "-", "typeof", "void", "delete"] := by
  unfold isPrefixOperator at h
  split at h
  · simp only [contains_iff_mem, mem_cons, not_mem_nil, or_false] at h
    rcases h with h | h | h | h <;> simp [h]
  · simp only [contains_iff_mem, mem_cons, not_mem_nil, or_false] at h
    rcases h with h | h | h <;> simp [h]
  · cases h

theorem mem_of_isUpdateOperator (h : isUpdateOperator t = true) : t.text ∈ ["++", "--"] := by
  simp only [isUpdateOperator, Bool.or_eq_true] at h
  rcases h with h | h <;> simp [Token.text_of_is h]

theorem forall_head? {p : Node → Prop} (h : ns = [] ∨ ∀ n ∈ ns, p n) : ∀ n ∈ ns.head?, p n := by
  intro n hn
  rcases h with rfl | h
  · cases hn
  · exact h n (mem_of_mem_head? hn)

theorem Derives.label {l : Token} {label : Node} (h : Derives F .identifier [l] [label])
    (hl : l.IsFit) :
    IsWord l.text.toList ∧ isReserved l.text = false ∧ label = nameNode l.text [l] := by
  cases h with
  | identifier hk hr => exact ⟨hl.isWord hk, hr, rfl⟩

theorem Derives.isKey (h : Derives F .literal [t] ns) (hk : t.kind = .string ∨ t.kind = .number)
    (ht : t.IsFit) : ∀ n ∈ ns, IsKey n := by
  cases h with
  | number hk hv =>
    exact forall_mem_singleton.2 (.inr (.inr ⟨_, _, _, rfl, ht.renders hk _ hv⟩))
  | string => exact forall_mem_singleton.2 (.inr (.inl ⟨_, _, _, rfl⟩))
  | regex hr => rcases hk with hk | hk <;> cases hk.symm.trans hr

theorem jump_kind {kind : Kind} (h : t.is "break" = true ∧ kind = .breakStatement ∨
    t.is "continue" = true ∧ kind = .continueStatement) :
    kind = .breakStatement ∨ kind = .continueStatement :=
  h.imp And.right And.right

/-- Whatever is read from fit tokens has code that reads back. -/
theorem Derives.returns (h : Derives F s ts ns) (hts : ∀ t ∈ ts, t.IsFit) : Returns F s ns := by
  -- most parts of a node are single, so that what is known of the part is
  -- known of the only node of a list
  have one : ∀ {p : Node → Prop} {n : Node}, (∀ x ∈ [n], p x) → p n :=
    fun h => h _ (mem_singleton_self _)
  have only : ∀ {p : Node → Prop} {n : Node}, p n → ∀ x ∈ [n], p x := forall_mem_singleton.2
  induction h with
    try simp only [forall_mem_cons, forall_mem_append] at hts
  | none => exact .inl rfl
  | some _ ih => exact .inr (ih hts)
  | paramsNil | elementsNil | propertiesNil | argumentsNil | sequenceNil | statementsNil
  | casesNil => exact forall_mem_nil _
  | paramsCons _ _ _ ih ihs | propertiesCons _ _ _ ih ihs | argumentsCons _ _ _ ih ihs
  | declaratorsCons _ _ _ ih ihs => exact forall_mem_cons.2 ⟨one (ih hts.1), ihs hts.2.2⟩
  | sequenceCons _ _ _ ih ihs => exact forall_mem_cons.2 ⟨one (ih hts.2.1), ihs hts.2.2⟩
  | statementsCons _ _ ih ihs | casesCons _ _ ih ihs =>
    exact forall_mem_cons.2 ⟨one (ih hts.1), ihs hts.2⟩
  | ofLiteral _ ih | declaratorsLast _ ih => exact ih hts
  | initializer _ _ ih | alternate _ _ ih => exact ih hts.2
  -- words and literals
  | identifier hk hr => exact only ⟨_, _, rfl, hts.1.isWord hk, hr⟩
  | name hk => exact only ⟨_, _, rfl, hts.1.isWord hk⟩
  | @number F t v hk hv => exact only (faithful_number (hts.1.renders hk v hv) t.text)
  | @string F t v hk hv => exact only (faithful_string v t.text)
  | regex hk => exact only (faithful_regex (hts.1.isRegex hk))
  | keyName _ ih => exact fun n hn => .inl (ih hts n hn)
  | keyLiteral hk hd => exact hd.isKey hk hts.1
  | this => exact only faithful_this
  | null => exact only (faithful_null _)
  | truth => exact only (faithful_bool _ _)
  -- expressions
  | callable _ _ _ _ ihp ihb => exact ⟨_, _, rfl, (one (ihb hts.2.2.2)).1, ihp hts.2.1⟩
  | function _ _ hki _ ihi ihc =>
    obtain ⟨body, params, heq, hbo, hpa⟩ := ihc hts.2.2
    obtain ⟨rfl, rfl⟩ := List.cons.inj heq
    refine only ⟨_, _, _, _, rfl, forall_head? (ihi hts.2.1), hpa, hbo, hki.imp_right fun hk => ?_⟩
    simpa using hk.2
  | ofIdentifier _ ih =>
    intro n hn
    obtain ⟨w, ts, rfl, hw, hr⟩ := ih hts n hn
    exact faithful_identifier hw hr
  | ofFunction _ ih => exact fun n hn => (ih hts n hn).expression
  | parens _ _ _ ih => exact ih hts.2.1
  | elementsHole _ _ ih => exact forall_mem_cons.2 ⟨.inl rfl, ih hts.2⟩
  | elementsCons _ _ _ ih ihs =>
    exact forall_mem_cons.2 ⟨.inr (one (ih hts.1)), ihs hts.2.2⟩
  | array _ _ _ ih => exact only (faithful_array (ih hts.2.1))
  | propertyInit _ _ _ ihk ihv =>
    exact only (faithful_property_init (one (ihk hts.1)) (one (ihv hts.2.2)))
  | propertyAccessor _ hwo _ _ ihk ihc =>
    obtain ⟨body, params, heq, hbo, hpa⟩ := ihc hts.2.2
    obtain ⟨rfl, rfl⟩ := List.cons.inj heq
    exact only (faithful_property_accessor hwo (one (ihk hts.2.1)) hpa hbo)
  | object _ _ _ ih => exact only (faithful_object (ih hts.2.1))
  | dot _ _ _ _ iho ihp =>
    obtain ⟨w, us, rfl, hw⟩ := one (ihp hts.2.2)
    exact only (faithful_dot (one (iho hts.1)) hw)
  | index _ _ _ _ _ iho ihp =>
    exact only (faithful_index (one (iho hts.1)) (one (ihp hts.2.2.1)))
  | call _ _ _ _ ihc iha => exact only (faithful_call (one (ihc hts.1)) (iha hts.2.2.1))
  | newBare _ _ ih => exact only (faithful_new (one (ih hts.2)) (forall_mem_nil _))
  | new _ _ _ _ _ ihc iha => exact only (faithful_new (one (ihc hts.2.1)) (iha hts.2.2.2.1))
  | unary hop _ ih => exact only (faithful_unary (mem_of_isPrefixOperator hop) (one (ih hts.2)))
  | updateBefore hop _ hta ih =>
    exact only (faithful_update_before (mem_of_isUpdateOperator hop) (one (ih hts.2)) hta)
  | updateBehind _ hop hta ih =>
    exact only (faithful_update_behind (mem_of_isUpdateOperator hop) (one (ih hts.1)) hta)
  | binary _ hs _ ihl ihr =>
    exact only (faithful_binary (mem_binaryOperators hs) (one (ihl hts.1)) (one (ihr hts.2.2)))
  | conditional _ _ _ _ _ iht ihy ihn =>
    exact only (faithful_conditional (one (iht hts.1)) (one (ihy hts.2.2.1))
      (one (ihn hts.2.2.2.2)))
  | assignment _ hta hk hop _ ihl ihr =>
    exact only (faithful_assignment hop hta (one (ihl hts.1)) (one (ihr hts.2.2)))
  | sequence _ _ hne ih ihs =>
    obtain ⟨n', ns, rfl⟩ := exists_cons_of_ne_nil hne
    exact only (faithful_sequence (forall_mem_cons.2 ⟨one (ih hts.1), ihs hts.2⟩))
  -- statements
  | declarator _ _ ihi ihv =>
    exact only ⟨_, _, _, rfl, one (ihi hts.1), forall_head? (ihv hts.2)⟩
  | declaration _ hwo hd ih =>
    refine only ⟨_, _, _, rfl, hwo, ?_, ih hts.2⟩
    rintro rfl
    cases hd
  | block _ _ _ ih => exact only ⟨faithful_block (ih hts.2.1), rfl⟩
  | ofBlock _ ih => exact fun n hn => (ih hts n hn).1.statement (ih hts n hn).2
  | ofFunctionDeclaration _ ih => exact fun n hn => (ih hts n hn).statement
  | empty => exact only faithful_empty
  | debugger => exact only faithful_debugger
  | expressionStatement _ _ ih => exact only (faithful_expressionStatement (one (ih hts.1)))
  | declarationStatement _ _ ih =>
    have hd : IsDeclaration _ := one (ih hts.1)
    exact only hd.statement
  | ifStatement _ _ _ _ _ hn hda iht ihy ihn =>
    have hte := one (iht hts.2.2.1)
    have hy := one (ihy hts.2.2.2.2.1)
    refine only ?_
    cases hn with
    | none => exact faithful_if hte hy
    | some =>
      have hno := (ihn hts.2.2.2.2.2).resolve_left (cons_ne_nil _ _)
      exact faithful_if_else hte hy (hda (cons_ne_nil _ _)) (one hno)
  | initDeclaration _ ih => exact fun n hn => .inr (ih hts n hn)
  | initExpression _ ih => exact fun n hn => .inl ⟨ih hts n hn, (ih hts n hn).kind_ne⟩
  | forStatement _ _ _ _ _ _ _ _ _ ihi iht ihu ihb =>
    obtain ⟨-, -, hi, -, ht, -, hu, -, hb⟩ := hts
    exact only (faithful_for (forall_head? (ihi hi)) (forall_head? (iht ht))
      (forall_head? (ihu hu)) (one (ihb hb)))
  | forInStatement _ _ _ hta _ _ _ _ ihl ihr ihb =>
    obtain ⟨-, -, hl, -, hr, -, hb⟩ := hts
    exact only (faithful_forIn (one (ihl hl)) hta (one (ihr hr)) (one (ihb hb)))
  | whileStatement _ _ _ _ _ iht ihb =>
    obtain ⟨-, -, ht, -, hb⟩ := hts
    exact only (faithful_headed (.inl ⟨rfl, rfl, rfl⟩) (one (iht ht)) (one (ihb hb)))
  | doWhileStatement _ _ _ _ _ _ _ ihb iht =>
    obtain ⟨-, hb, -, -, ht, -, -⟩ := hts
    exact only (faithful_doWhile (one (iht ht)) (one (ihb hb)))
  | returnStatement hF _ _ _ ih => exact only (faithful_return hF (forall_head? (ih hts.2.1)))
  | throwStatement _ _ _ ih => exact only (faithful_throw (one (ih hts.2.1)))
  | jump hki => exact only (faithful_jump (jump_kind hki))
  | jumpTo hki hl hla =>
    obtain ⟨hw, hr, rfl⟩ := hl.label hts.2.1
    exact only (faithful_jumpTo (jump_kind hki) hw hr hla)
  | labeledStatement hl hla _ _ _ ih =>
    obtain ⟨hw, hr, rfl⟩ := hl.label hts.1
    exact only (faithful_labeled hw hr hla (one (ih hts.2.2)))
  | withStatement _ _ _ _ _ iho ihb =>
    obtain ⟨-, -, ho, -, hb⟩ := hts
    exact only (faithful_headed (.inr ⟨rfl, rfl, rfl⟩) (one (iho ho)) (one (ihb hb)))
  | handler _ _ _ _ _ ihp ihb =>
    obtain ⟨-, -, hp, -, hb⟩ := hts
    exact only ⟨_, _, _, rfl, one (ihp hp), (one (ihb hb)).1⟩
  | finalizer _ _ ih => exact fun n hn => (ih hts.2 n hn).1
  | tryStatement _ _ hh hf hbot ihb ihh ihf =>
    obtain ⟨-, hb, hhs, hfs⟩ := hts
    refine only (faithful_try (one (ihb hb)).1 (forall_head? (ihh hhs)) (forall_head? (ihf hfs)) ?_)
    simpa using hbot
  | caseDefault _ _ _ ih => exact only ⟨_, _, _, rfl, by simp, ih hts.2.2⟩
  | caseTest _ _ _ _ iht ih =>
    refine only ⟨_, _, _, rfl, fun x hx => ?_, ih hts.2.2.2⟩
    obtain rfl := Option.some.inj hx
    exact one (iht hts.2.1)
  | switchStatement _ _ _ _ _ _ _ ihd ihc =>
    obtain ⟨-, -, hd, -, -, hc, -⟩ := hts
    exact only (faithful_switch (one (ihd hd)) (ihc hc))

-- == whole texts

/-- Comments change nothing that the code depends on. -/
theorem attachAll_alike (tokens : List Span) (comments : List Comment) (root : Node) :
    (attachAll tokens comments root).Alike root := by
  have hm := relabels_mapComments fun _ => []
  refine (hm.alike _).symm.trans (Node.Alike.trans ?_ (hm.alike root))
  exact congrArg Node.stripped mapComments_foldl_attach

theorem parse_eq_ok (h : parse text source = .ok tree) :
    ∃ lexed ns, lex text = .ok lexed ∧ statements lexed.tokens = .ok ns ∧
      tree.root.Alike (bare .program [("body", .nodes ns)]) := by
  unfold parse parseWith at h
  obtain ⟨lexed, hl, h⟩ := bind_ok_iff.1 h
  obtain ⟨ns, hns, h⟩ := bind_ok_iff.1 h
  cases h
  exact ⟨lexed, ns, hl, hns, (attachAll_alike _ _ _).trans (((relabels_locate _ _).alike _).trans rfl)⟩

theorem parse_of_statements (hl : lex text = .ok lexed) (hns : statements lexed.tokens = .ok ns)
    (source : Option String) :
    ∃ tree, parse text source = .ok tree ∧
      tree.root.Alike (bare .program [("body", .nodes ns)]) := by
  unfold parse parseWith
  rw [hl]
  simp only [bind, Except.bind, hns]
  exact ⟨_, rfl, (attachAll_alike _ _ _).trans (((relabels_locate _ _).alike _).trans rfl)⟩

/-- The tokens of a text say what its statements say. -/
theorem gist_of_statements (hf : lexed.Formed) (h : statements lexed.tokens = .ok ns) :
    gist lexed.tokens = ns.flatMap Node.gist := by
  obtain ⟨ts, e, hto, he, -, hd⟩ := statements_sound hf h
  have hs : gist [e] = [] := by
    have hk : e.kind = .eof := by simpa [Token.isEnd] using he
    simp [gist, Token.sense?, hk]
  rw [hto, gist_append, hs, append_nil]
  exact hd.gist_eq fun t ht => hf.spelled t (by simp [hto, ht])

/-- The pieces are the code of statements like `ns`. -/
structure IsCodeOf (ns : List Node) (P : List Piece) : Prop where
  rests : Rests P false
  reads : ∀ {indented b' : Bool} {c c' : Cursor}, c.Proper → Reads indented P false c b' c' →
    c'.current.isEnd = true → RerunsAll programRule .top ns c c'

namespace IsCodeOf

variable {P : List Piece} {ind : Bool} {lexed : Lexed} {tail : List Char}

variable (h : IsCodeOf ns P)

include h

/-- Tokens that are read as the pieces hold the statements. -/
theorem statements_eq {rest : List Token} {b' : Bool} {c' : Cursor}
    (hf : lexed.Formed) (ht : lexed.tokens = t :: rest)
    (hr : Reads ind P false ⟨t, rest, 0⟩ b' c') (he : c'.current.isEnd = true) :
    ∃ ns', statements lexed.tokens = .ok ns' ∧ AlikeAll ns' ns := by
  obtain ⟨ns', hns', hru⟩ := h.reads (hf.proper ht) hr he
  refine ⟨ns', ?_, hns'⟩
  rw [ht, statements_eq_rule (hf.proper ht).ends, hru.run _ (Nat.le_refl _)]
  rfl

/-- The draft says what the statements say. -/
theorem gist_draft (ind : Bool) : gist (draft ind P) = ns.flatMap Node.gist := by
  let stop : Token := ⟨.eof, "", ⟨0, 0⟩, false⟩
  let lexed : Lexed := ⟨draft ind P ++ [stop], []⟩
  obtain ⟨e', -, hfl⟩ := h.rests .free (.inl rfl)
  have hf : lexed.Formed := by
    refine ⟨?_, draft ind P, stop, rfl, rfl, fun t => isEnd_of_mem_draft⟩
    rw [forall_mem_append]
    exact ⟨draft_isSpelled ind hfl, forall_mem_singleton.2 rfl⟩
  obtain ⟨t, rest, ht⟩ := exists_cons_of_ne_nil
    (append_ne_nil_of_right_ne_nil (draft ind P) (cons_ne_nil stop []))
  obtain ⟨b', c', hr, hs⟩ := reads_draft ht.symm false 0
  obtain ⟨ns', hns', ha⟩ := h.statements_eq hf ht hr (by rw [hs]; rfl)
  have hg := (gist_of_statements hf hns').trans ha.gist_eq
  rwa [show gist lexed.tokens = gist (draft ind P) ++ gist [stop] from gist_append _ _,
    show gist [stop] = [] from rfl, append_nil] at hg

/-- If the slashes hold, the statements are read from the code, with or
without a postscript. -/
theorem statements_postscript (hs : slashesHold ind true P = true) (ht : Postscript tail) :
    ∃ lexed ns', lex ((draw ind P).code ++ tail) = .ok lexed ∧
      statements lexed.tokens = .ok ns' ∧ AlikeAll ns' ns := by
  obtain ⟨t, rest, comments, hl, hre⟩ := lex_draw h.rests hs ht
  obtain ⟨b', c', hr, he⟩ := hre 0
  obtain ⟨ns', hns', ha⟩ := h.statements_eq (lex_formed hl) rfl hr he
  exact ⟨_, ns', hl, hns', ha⟩

theorem statements_draw (hs : slashesHold ind true P = true) :
    ∃ lexed ns', lex (draw ind P).code = .ok lexed ∧ statements lexed.tokens = .ok ns' ∧
      AlikeAll ns' ns := by
  simpa using h.statements_postscript hs .none

/-- If the slashes hold, a program of the statements is read from the
code. -/
theorem parse_draw (hs : slashesHold ind true P = true) (ht : Postscript tail)
    {root : Node} (hr : root.Alike (bare .program [("body", .nodes ns)])) (source : Option String) :
    ∃ tree, parse ((draw ind P).code ++ tail) source = .ok tree ∧ tree.root.Alike root := by
  obtain ⟨lexed, ns', hl, hns', ha⟩ := h.statements_postscript hs ht
  obtain ⟨tree, hp, hr'⟩ := parse_of_statements hl hns' source
  refine ⟨tree, hp, hr'.trans (Node.Alike.trans ?_ hr.symm)⟩
  exact alike_of_props rfl rfl (.nodes ha .nil)

/-- If the statements are read from the code, its slashes hold. -/
theorem slashesHold_eq {ns' : List Node}
    (hl : lex (draw ind P).code = .ok lexed) (hns' : statements lexed.tokens = .ok ns')
    (ha : AlikeAll ns' ns) : slashesHold ind true P = true := by
  obtain ⟨e', -, hf⟩ := h.rests .free (.inl rfl)
  have hg := (gist_of_statements (lex_formed hl) hns').trans
    (ha.gist_eq.trans (h.gist_draft ind).symm)
  cases hs : slashesHold ind true P with
  | true => rfl
  | false => exact absurd hg (gist_ne_of_misread hf Pen.start [] (by exact hs) hl)

end IsCodeOf

theorem Derives.exists_code {root : Node} (hd : Derives .top .statements ts ns)
    (hfi : ∀ t ∈ ts, t.IsFit) (hro : root.Alike (bare .program [("body", .nodes ns)])) :
    ∃ P, Code.program 0 root = .ok P ∧ IsCodeOf ns P := by
  obtain ⟨Q, hco, hre, hr⟩ := code_program (d := 0) (hd.returns hfi)
  obtain ⟨P, hco', ht⟩ := program_of_alike hro hco
  have hf := flowing_filter.1 (ht ▸ flowing_filter.2 hre)
  refine ⟨P, hco', hf, fun hc h he => ?_⟩
  rw [← reads_filter, ht, reads_filter] at h
  exact hr hc h he

theorem exists_code (hp : parse text source = .ok tree) (hf : isFinite text = true) :
    ∃ lexed ns P, lex text = .ok lexed ∧ statements lexed.tokens = .ok ns ∧
      tree.root.Alike (bare .program [("body", .nodes ns)]) ∧
      Code.program 0 tree.root = .ok P ∧ IsCodeOf ns P := by
  obtain ⟨lexed, ns, hl, hns, hr⟩ := parse_eq_ok hp
  have hfo := lex_formed hl
  obtain ⟨ts, e, hto, -, -, hd⟩ := statements_sound hfo hns
  have hfi : ∀ t ∈ ts, t.IsFit := by
    intro t ht
    have hm : t ∈ lexed.tokens := by simp [hto, ht]
    simp only [isFinite, hl, all_eq_true] at hf
    exact Token.isFit (hfo.spelled t hm) (hf t hm)
  obtain ⟨P, hc, hP⟩ := hd.exists_code hfi hr
  exact ⟨lexed, ns, P, hl, hns, hr, hc, hP⟩

/-- The code of statements that plain tokens say has no slash to be
misread. -/
theorem IsCodeOf.slashesHold_of_gist (hP : IsCodeOf ns P) (hsp : ∀ t ∈ ts, t.IsSpelled)
    (hp : ∀ t ∈ ts, t.isPlain = true) (hg : gist ts = ns.flatMap Node.gist)
    (ind : Bool) : slashesHold ind true P = true := by
  refine Script.slashesHold_of_gist (fun s hs => ?_) true
  rw [hP.gist_draft, ← hg] at hs
  obtain ⟨t, ht, hse⟩ := mem_filterMap.1 hs
  rcases Token.text_of_sense? hse with rfl | rfl
  · exact Token.head?_ne_of_isPlain (hsp t ht) (hp t ht)
  · decide

theorem slashesHold_of_isPlain (hl : lex text = .ok lexed) (hp : isPlain text = true)
    (hns : statements lexed.tokens = .ok ns) (hP : IsCodeOf ns P) (ind : Bool) :
    slashesHold ind true P = true := by
  have hf := lex_formed hl
  simp only [isPlain, hl, all_eq_true] at hp
  exact hP.slashesHold_of_gist hf.spelled hp (gist_of_statements hf hns) ind

theorem generate_of_program (h : Code.program 0 tree.root = .ok P) (ind : Bool) :
    ∃ code, generate ind tree = .ok code ∧ code.code.toList = (draw ind P).code := by
  let drawing := draw ind P
  refine ⟨⟨String.ofList drawing.code, SourceMap.ofEntries drawing.entries⟩, ?_,
    String.toList_ofList⟩
  rw [generate, h]
  rfl

/-- The tree of a plain text has code, and what is read from the code is
like it. -/
theorem parse_generate (hp : parse text source = .ok tree) (hpl : isPlain text = true)
    (ind : Bool) (source' : Option String) :
    ∃ code tree', generate ind tree = .ok code ∧
      parse code.code.toList source' = .ok tree' ∧ tree'.root.Alike tree.root := by
  obtain ⟨lexed, ns, P, hl, hns, hr, hc, hP⟩ :=
    exists_code hp (isFinite_of_isPlain hpl)
  have hs := slashesHold_of_isPlain hl hpl hns hP ind
  obtain ⟨tree', hp', ha⟩ := hP.parse_draw hs .none hr source'
  obtain ⟨code, hg, ht⟩ := generate_of_program hc ind
  rw [append_nil] at hp'
  exact ⟨code, tree', hg, by rwa [ht], ha⟩

end Script

/-- The code of a script's tree is a script again, with the same tree up
to positions, comments and the raw texts of literals. This holds of every
script without divisions, regular expressions and infinite numbers,
whether the code is indented or not. -/
theorem Tech.stripped_of_generate {text : String} {source : Option String} {tree : Tree}
    (hparse : Tech.js.parse text source = .ok tree)
    (hplain : Script.isPlain text.toList = true) (indented : Bool) (source' : Option String) :
    ∃ generated tree', Tech.js.generate indented tree = .ok generated ∧
      Tech.js.parse generated.code source' = .ok tree' ∧
      tree'.root.stripped = tree.root.stripped := by
  have hscript : Script.parse text.toList source = .ok tree := by
    rw [Tech.parse] at hparse
    cases h : Script.parse text.toList source with
    | error e =>
      rw [h] at hparse
      cases hparse
    | ok tree' =>
      rw [h] at hparse
      cases hparse
      rfl
  obtain ⟨generated, tree', hgenerate, hparse', halike⟩ :=
    Script.parse_generate hscript hplain indented source'
  refine ⟨generated, tree', ?_, ?_, halike⟩
  · rw [Tech.generate, hgenerate]
    rfl
  · rw [Tech.parse, hparse']
    rfl

/-- A script in which parentheses, blanks and quotes all matter. -/
def Script.knotty : String :=
  "for (var i = (1 in x); ; ) a(- -b, [, 1.5e300], new (f())(), \x7b get 'k'() \x7b return; \x7d \x7d);"

theorem Tech.stripped_of_generate_knotty :
    ∃ tree, Tech.js.parse Script.knotty none = .ok tree ∧
      Script.isPlain Script.knotty.toList = true ∧
      ∃ generated tree', Tech.js.generate false tree = .ok generated ∧
        Tech.js.parse generated.code none = .ok tree' ∧
        tree'.root.stripped = tree.root.stripped := by
  have hplain : Script.isPlain Script.knotty.toList = true := by decide +kernel
  have hok : (Tech.js.parse Script.knotty none).toBool = true := by decide +kernel
  obtain ⟨tree, hparse⟩ := exists_of_toBool hok
  exact ⟨tree, hparse, hplain, Tech.stripped_of_generate hparse hplain false none⟩

-- == what the code says

theorem Tech.parse_js_eq_ok_iff {text : String} {source : Option String} :
    Tech.js.parse text source = .ok tree ↔ Script.parse text.toList source = .ok tree :=
  mapError_eq_ok_iff

theorem Tech.generate_js_of_ok {ind : Bool} {code : Script.Generated}
    (h : Script.generate ind tree = .ok code) : Tech.js.generate ind tree = .ok code := by
  rw [Tech.generate, h]
  rfl

/-- Generated code has the tokens of the script it was made from, in
their order: strings and numbers with the same values, all others with
the same texts. Only parentheses, semicolons and commas may come and
go. -/
theorem Tech.gist_of_generate {text : String} {source : Option String} {tree : Tree}
    (hparse : Tech.js.parse text source = .ok tree)
    (hplain : Script.isPlain text.toList = true) (indented : Bool) :
    ∃ generated lexed lexed', Tech.js.generate indented tree = .ok generated ∧
      Script.lex text.toList = .ok lexed ∧ Script.lex generated.code.toList = .ok lexed' ∧
      Script.gist lexed'.tokens = Script.gist lexed.tokens := by
  obtain ⟨lexed, ns, P, hlex, hns, -, hcode, hP⟩ :=
    Script.exists_code (Tech.parse_js_eq_ok_iff.1 hparse) (Script.isFinite_of_isPlain hplain)
  have hslashes := Script.slashesHold_of_isPlain hlex hplain hns hP indented
  obtain ⟨lexed', ns', hlex', hns', halike⟩ := hP.statements_draw hslashes
  obtain ⟨code, hgenerate, htext⟩ := Script.generate_of_program hcode indented
  refine ⟨code, lexed, lexed', Tech.generate_js_of_ok hgenerate, hlex, by rwa [htext], ?_⟩
  calc Script.gist lexed'.tokens
      = ns'.flatMap Node.gist := Script.gist_of_statements (Script.lex_formed hlex') hns'
    _ = ns.flatMap Node.gist := halike.gist_eq
    _ = Script.gist lexed.tokens := (Script.gist_of_statements (Script.lex_formed hlex) hns).symm

/-- A script that leaves out and adds what may come and go. -/
def Script.loose : String :=
  "do ; while ((0)) if (a) { b } else c = ['x\x41', 0x10,]; l: for (;;) break l"

theorem Tech.gist_of_generate_loose :
    ∃ tree, Tech.js.parse Script.loose none = .ok tree ∧
      Script.isPlain Script.loose.toList = true ∧
      ∃ generated lexed lexed', Tech.js.generate true tree = .ok generated ∧
        Script.lex Script.loose.toList = .ok lexed ∧
        Script.lex generated.code.toList = .ok lexed' ∧
        Script.gist lexed'.tokens = Script.gist lexed.tokens := by
  have hplain : Script.isPlain Script.loose.toList = true := by decide +kernel
  have hok : (Tech.js.parse Script.loose none).toBool = true := by decide +kernel
  obtain ⟨tree, hparse⟩ := exists_of_toBool hok
  exact ⟨tree, hparse, hplain, Tech.gist_of_generate hparse hplain true⟩

-- == slashes

/-- The code of every script with finite numbers is a script with the
same tree, up to positions, comments and raw texts, exactly if each slash
of the code is read as what it was written for: a division behind the end
of an operand, a regular expression where an operand may start and not
directly before something like a flag. -/
theorem Tech.stripped_of_generate_iff {text : String} {source : Option String} {tree : Tree}
    (hparse : Tech.js.parse text source = .ok tree)
    (hfinite : Script.isFinite text.toList = true) (indented : Bool) (source' : Option String) :
    ∃ pieces generated, Script.Code.program 0 tree.root = .ok pieces ∧
      Tech.js.generate indented tree = .ok generated ∧
      ((∃ tree', Tech.js.parse generated.code source' = .ok tree' ∧
        tree'.root.stripped = tree.root.stripped) ↔
          Script.slashesHold indented true pieces = true) := by
  obtain ⟨lexed, ns, P, -, -, hroot, hcode, hP⟩ :=
    Script.exists_code (Tech.parse_js_eq_ok_iff.1 hparse) hfinite
  obtain ⟨code, hgenerate, htext⟩ := Script.generate_of_program hcode indented
  refine ⟨P, code, hcode, Tech.generate_js_of_ok hgenerate, ?_, ?_⟩
  · rintro ⟨tree', hparse', halike⟩
    rw [Tech.parse_js_eq_ok_iff, htext] at hparse'
    obtain ⟨lexed', ns', hlex', hns', hroot'⟩ := Script.parse_eq_ok hparse'
    have hbodies := (hroot'.symm.trans halike).trans hroot
    obtain ⟨body, hbody, hbodya⟩ := hbodies.children "body" (by decide) rfl
    cases hbody
    exact hP.slashesHold_eq hlex' hns' hbodya
  · intro hslashes
    obtain ⟨tree', hparse', halike⟩ := hP.parse_draw hslashes .none hroot source'
    rw [append_nil] at hparse'
    exact ⟨tree', by rwa [Tech.parse_js_eq_ok_iff, htext], halike⟩

/-- A script whose slashes are divisions and regular expressions. -/
def Script.slashed : String := "a = b++ / 2 / c; d /= /[/]\\//g.test(e) / (/f/.g)"

theorem Tech.stripped_of_generate_iff_slashed :
    ∃ tree, Tech.js.parse Script.slashed none = .ok tree ∧
      Script.isFinite Script.slashed.toList = true ∧
      ∃ pieces generated, Script.Code.program 0 tree.root = .ok pieces ∧
        Tech.js.generate false tree = .ok generated ∧
        ((∃ tree', Tech.js.parse generated.code none = .ok tree' ∧
          tree'.root.stripped = tree.root.stripped) ↔
            Script.slashesHold false true pieces = true) := by
  have hfinite : Script.isFinite Script.slashed.toList = true := by decide +kernel
  have hok : (Tech.js.parse Script.slashed none).toBool = true := by decide +kernel
  obtain ⟨tree, hparse⟩ := exists_of_toBool hok
  exact ⟨tree, hparse, hfinite, Tech.stripped_of_generate_iff hparse hfinite false none⟩

/-- The slashes of generated code need not hold: behind a reserved word
that names a property, a division is taken for a regular expression once
its parentheses are gone. -/
theorem Tech.generate_unread :
    ∃ tree generated, Tech.js.parse "(a.if) / b" none = .ok tree ∧
      Script.isFinite "(a.if) / b".toList = true ∧
      Tech.js.generate false tree = .ok generated ∧
      ∀ tree', Tech.js.parse generated.code none ≠ .ok tree' := by
  have hcode : ((Tech.js.parse "(a.if) / b" none).toOption.bind fun tree =>
      (Tech.js.generate false tree).toOption.map (·.code)) = some "a.if/b;" := by cbv
  have hunread : (Tech.js.parse "a.if/b;" none).toBool = false := by decide +kernel
  obtain ⟨tree, htree, hcode⟩ := Option.bind_eq_some_iff.1 hcode
  obtain ⟨generated, hgenerated, hcode⟩ := Option.map_eq_some_iff.1 hcode
  refine ⟨tree, generated, eq_ok_of_toOption htree, by decide +kernel,
    eq_ok_of_toOption hgenerated, fun tree' htree' => ?_⟩
  rw [hcode] at htree'
  rw [htree'] at hunread
  cases hunread

end Inlay
