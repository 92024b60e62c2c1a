/-
What a script says.

The gist of a list of tokens is what is left when spelling does not count:
strings and numbers by their values, everything else by its text, without
the punctuators that a script may have more or fewer of. The gist of a tree
is put together from its nodes. Every derivation keeps it
(`Derives.gist_eq`), so two texts with alike trees have the same gist.
-/
import Inlay.Proofs.Script.Numerals

namespace Inlay

open List

namespace Script

variable {t : Token} {ts : List Token} {s : String}

-- == tokens

/-- What a token says. -/
inductive Sense where
  | text (s : String)
  | number (value : Double)
  | string (value : String)
  deriving DecidableEq

/-- The punctuators that say nothing by themselves. -/
def separators : List String := ["(", ")", ";", ","]

/-- What a token says; separators and the end say nothing. A number too
large to be finite is kept as `null`, and so that is what it says. -/
def Token.sense? (t : Token) : Option Sense :=
  match t.kind with
  | .eof => none
  | .string =>
      match unquote? t.text with
      | some value => some (.string value)
      | none => some (.text t.text)
  | .number =>
      match numberValue? t.text with
      | some (.finite d) => some (.number d)
      | some .infinite => some (.text "null")
      | none => some (.text t.text)
  | .word | .punct | .regex => if separators.any t.is then none else some (.text t.text)

/-- What a list of tokens says. -/
def gist (ts : List Token) : List Sense := ts.filterMap Token.sense?

@[simp] theorem gist_nil : gist [] = [] := rfl

@[simp] theorem gist_append (ts us : List Token) : gist (ts ++ us) = gist ts ++ gist us :=
  filterMap_append

theorem gist_cons (t : Token) (ts : List Token) : gist (t :: ts) = gist [t] ++ gist ts :=
  gist_append [t] ts

theorem Token.sense?_of_is (h : t.is s = true) :
    t.sense? = if separators.contains s then none else some (.text s) := by
  have ht := Token.text_of_is h
  have ha : separators.any t.is = separators.contains s := by
    rw [Bool.eq_iff_iff, any_eq_true, contains_iff_mem]
    constructor
    · rintro ⟨s', hs', his⟩
      rwa [← ht, Token.text_of_is his]
    · exact fun hs => ⟨s, hs, h⟩
  simp only [Token.is, Bool.and_eq_true, Bool.or_eq_true, beq_iff_eq] at h
  rcases h.1 with hk | hk <;> simp only [Token.sense?, hk, ha, ht]

/-- A word or punctuator says its text. -/
theorem gist_of_is (h : t.is s = true) (hs : separators.contains s = false := by decide) :
    gist (t :: ts) = .text s :: gist ts := by
  rw [gist, filterMap_cons, Token.sense?_of_is h, hs]
  rfl

theorem gist_of_separator (h : t.is s = true) (hs : separators.contains s = true := by decide) :
    gist (t :: ts) = gist ts := by
  rw [gist, filterMap_cons, Token.sense?_of_is h, hs]
  rfl

theorem gist_of_perhaps (h : Perhaps s ts) (hs : separators.contains s = true := by decide) :
    gist ts = [] := by
  rcases h with rfl | ⟨t, ht, rfl⟩
  · rfl
  · exact gist_of_separator ht hs

end Script

-- == trees

namespace Phrase

open Script (Sense)

/-! The parts of a phrase: what stands under a key, once each child is
replaced by what it says. -/

abbrev Parts := List (String × Field (List Sense))

/-- A child, nothing if there is none. -/
@[simp] def child (key : String) (ps : Parts) : List Sense :=
  match ps.lookup key with
  | some (.node part) => part
  | _ => []

/-- A child with a word before it, nothing if there is none. -/
@[simp] def led (word : String) (key : String) (ps : Parts) : List Sense :=
  match ps.lookup key with
  | some (.node part) => .text word :: part
  | _ => []

/-- A list of children. -/
@[simp] def children (key : String) (ps : Parts) : List Sense :=
  match ps.lookup key with
  | some (.nodes parts) => parts.flatten
  | _ => []

/-- A name or operator. -/
@[simp] def name (key : String) (ps : Parts) : List Sense :=
  match ps.lookup key with
  | some (.data (.str s)) => [.text s]
  | _ => []

@[simp] def flag (key : String) (ps : Parts) : Bool :=
  match ps.lookup key with
  | some (.data (.bool b)) => b
  | _ => false

/-- A literal by its value, a regular expression by its text. -/
def literal (ps : Parts) : List Sense :=
  match ps.lookup "regex", ps.lookup "value" with
  | some (.data regex), _ =>
      let part (key : String) : String := ((regex.get? key).bind Json.string?).getD ""
      [.text ("/" ++ part "pattern" ++ "/" ++ part "flags")]
  | _, some (.data (.str s)) => [.string s]
  | _, some (.data (.num n)) => (n.toDouble?.map Sense.number).toList
  | _, some (.data (.bool b)) => [.text (if b then "true" else "false")]
  | _, some (.data .null) => [.text "null"]
  | _, _ => []

/-- A property. The function of an accessor goes without its word. -/
def property (ps : Parts) : List Sense :=
  if name "kind" ps = [.text "init"] then child "key" ps ++ .text ":" :: child "value" ps
  else name "kind" ps ++ child "key" ps ++ (child "value" ps).tail

/-- What a node of a kind says, given what its children say. -/
@[simp] def ofKind : Kind → Parts → List Sense
  | .program, ps => children "body" ps
  | .blockStatement, ps => .text "\x7b" :: children "body" ps ++ [.text "\x7d"]
  | .expressionStatement, ps => child "expression" ps
  | .variableDeclaration, ps => name "kind" ps ++ children "declarations" ps
  | .variableDeclarator, ps => child "id" ps ++ led "=" "init" ps
  | .functionDeclaration, ps | .functionExpression, ps =>
      .text "function" :: child "id" ps ++ children "params" ps ++ child "body" ps
  | .returnStatement, ps => .text "return" :: child "argument" ps
  | .throwStatement, ps => .text "throw" :: child "argument" ps
  | .ifStatement, ps =>
      .text "if" :: child "test" ps ++ child "consequent" ps ++ led "else" "alternate" ps
  | .forStatement, ps =>
      .text "for" :: child "init" ps ++ child "test" ps ++ child "update" ps ++ child "body" ps
  | .forInStatement, ps =>
      .text "for" :: child "left" ps ++ .text "in" :: child "right" ps ++ child "body" ps
  | .whileStatement, ps => .text "while" :: child "test" ps ++ child "body" ps
  | .doWhileStatement, ps =>
      .text "do" :: child "body" ps ++ .text "while" :: child "test" ps
  | .breakStatement, ps => .text "break" :: child "label" ps
  | .continueStatement, ps => .text "continue" :: child "label" ps
  | .labeledStatement, ps => child "label" ps ++ .text ":" :: child "body" ps
  | .withStatement, ps => .text "with" :: child "object" ps ++ child "body" ps
  | .tryStatement, ps =>
      .text "try" :: child "block" ps ++ child "handler" ps ++ led "finally" "finalizer" ps
  | .catchClause, ps => .text "catch" :: child "param" ps ++ child "body" ps
  | .switchStatement, ps =>
      .text "switch" :: child "discriminant" ps
        ++ .text "\x7b" :: children "cases" ps ++ [.text "\x7d"]
  | .switchCase, ps =>
      let test := led "case" "test" ps
      (if test.isEmpty then [.text "default"] else test) ++ .text ":" :: children "consequent" ps
  | .debuggerStatement, _ => [.text "debugger"]
  | .identifier, ps => name "name" ps
  | .literal, ps => literal ps
  | .thisExpression, _ => [.text "this"]
  | .arrayExpression, ps => .text "[" :: children "elements" ps ++ [.text "]"]
  | .objectExpression, ps => .text "\x7b" :: children "properties" ps ++ [.text "\x7d"]
  | .property, ps => property ps
  | .unaryExpression, ps => name "operator" ps ++ child "argument" ps
  | .updateExpression, ps =>
      if flag "prefix" ps then name "operator" ps ++ child "argument" ps
      else child "argument" ps ++ name "operator" ps
  | .binaryExpression, ps | .logicalExpression, ps | .assignmentExpression, ps =>
      child "left" ps ++ name "operator" ps ++ child "right" ps
  | .conditionalExpression, ps =>
      child "test" ps ++ .text "?" :: child "consequent" ps
        ++ .text ":" :: child "alternate" ps
  | .callExpression, ps => child "callee" ps ++ children "arguments" ps
  | .newExpression, ps => .text "new" :: child "callee" ps ++ children "arguments" ps
  | .memberExpression, ps =>
      if flag "computed" ps then
        child "object" ps ++ .text "[" :: child "property" ps ++ [.text "]"]
      else child "object" ps ++ .text "." :: child "property" ps
  | .sequenceExpression, ps => children "expressions" ps
  | .emptyStatement, _ | .elision, _ | .other _, _ => []

end Phrase

namespace Node

open Script (Sense)

mutual
/-- What a tree says. -/
def gist : Node → List Sense
  | ⟨kind, props, _, _, _, _⟩ => Phrase.ofKind kind (gistProps props)

def gistProps : List (String × Field Node) → Phrase.Parts
  | [] => []
  | (key, .node n) :: rest => (key, .node n.gist) :: gistProps rest
  | (key, .nodes ns) :: rest => (key, .nodes (gistNodes ns)) :: gistProps rest
  | (key, .data j) :: rest => (key, .data j) :: gistProps rest

def gistNodes : List Node → List (List Sense)
  | [] => []
  | n :: rest => n.gist :: gistNodes rest
end

@[simp] theorem gistNodes_eq_map (ns : List Node) : gistNodes ns = ns.map gist := by
  induction ns with
  | nil => rfl
  | cons n rest ih => rw [gistNodes, ih, map_cons]

theorem gist_eq_ofKind (n : Node) : n.gist = Phrase.ofKind n.kind (gistProps n.props) := by
  cases n
  rfl

/-! What a tree says is the same when it is stripped. -/

/-- The text of a literal is not part of what it says. -/
theorem literal_eq_of_lookup {ps qs : Phrase.Parts}
    (h : ∀ key, key ≠ "raw" → ps.lookup key = qs.lookup key) :
    Phrase.ofKind .literal ps = Phrase.ofKind .literal qs := by
  simp only [Phrase.ofKind, Phrase.literal, h "regex" (by decide), h "value" (by decide)]

mutual
theorem gist_stripped (n : Node) : n.stripped.gist = n.gist := by
  obtain ⟨kind, props, range, loc, leading, trailing⟩ := n
  simp only [stripped, gist]
  by_cases hk : kind = .literal
  · subst hk
    refine literal_eq_of_lookup fun key hke => ?_
    exact (gistProps_strippedProps _ props).2 key hke
  · have hl : (kind == Kind.literal) = false := by simpa using hk
    rw [hl, (gistProps_strippedProps false props).1 rfl]

/-- All properties say the same, but for the raw text of a literal. -/
theorem gistProps_strippedProps (literal : Bool) (props : Node.Props) :
    (literal = false → gistProps (strippedProps literal props) = gistProps props) ∧
      ∀ key, key ≠ "raw" →
        (gistProps (strippedProps literal props)).lookup key = (gistProps props).lookup key := by
  match props with
  | [] => exact ⟨fun _ => rfl, fun _ _ => rfl⟩
  | (k, .node n) :: rest =>
    have ih := gistProps_strippedProps literal rest
    refine ⟨fun hl => ?_, fun key hk => ?_⟩
    · simp only [strippedProps, gistProps, gist_stripped n, ih.1 hl]
    · simp only [strippedProps, gistProps, gist_stripped n, lookup_cons, ih.2 key hk]
  | (k, .nodes ns) :: rest =>
    have ih := gistProps_strippedProps literal rest
    have hns := gistNodes_stripped ns
    simp only [strippedNodes_eq_map] at hns
    refine ⟨fun hl => ?_, fun key hk => ?_⟩
    · simp only [strippedProps, strippedNodes_eq_map, gistProps, hns, ih.1 hl]
    · simp only [strippedProps, strippedNodes_eq_map, gistProps, hns, lookup_cons, ih.2 key hk]
  | (k, .data j) :: rest =>
    have ih := gistProps_strippedProps literal rest
    refine ⟨fun hl => ?_, fun key hk => ?_⟩
    · subst hl
      simp only [strippedProps, Bool.false_and, Bool.false_eq_true, if_false, gistProps, ih.1]
    · simp only [strippedProps]
      split
      · next hr =>
        simp only [Bool.and_eq_true, beq_iff_eq] at hr
        rw [ih.2 key hk, gistProps, lookup_cons, hr.2, beq_eq_false_iff_ne.2 hk]
      · simp only [gistProps, lookup_cons, ih.2 key hk]

theorem gistNodes_stripped (ns : List Node) : gistNodes (strippedNodes ns) = gistNodes ns := by
  match ns with
  | [] => rfl
  | n :: rest => simp only [strippedNodes, gistNodes, gist_stripped n, gistNodes_stripped rest]
end

theorem AlikeAll.gist_eq {ms ns : List Node} (h : AlikeAll ms ns) :
    ms.flatMap gist = ns.flatMap gist := by
  have hm : ∀ ns : List Node, ns.flatMap gist = (ns.map stripped).flatMap gist := by
    intro ns
    rw [flatMap_map]
    exact congrArg (ns.flatMap ·) (funext fun n => (gist_stripped n).symm)
  rw [hm ms, h, ← hm]

end Node

namespace Script

-- == derivations

/-- What the nodes that are read as a symbol say together with the word
that the symbol starts with. -/
@[simp] def Symbol.gist : Symbol → List Node → List Sense
  | .callable, body :: ps => ps.flatMap Node.gist ++ body.gist
  | .initializer, ns => .text "=" :: ns.flatMap Node.gist
  | .alternate, ns => .text "else" :: ns.flatMap Node.gist
  | .finalizer, ns => .text "finally" :: ns.flatMap Node.gist
  | .maybe _, [] => []
  | .maybe s, n :: ns => s.gist (n :: ns)
  | _, ns => ns.flatMap Node.gist

@[simp] theorem gist_spanned (kind : Kind) (props : Node.Props) (ts : List Token) :
    (spanned kind props ts).gist = Phrase.ofKind kind (Node.gistProps props) := rfl

variable {F : Frame} {s : Symbol} {ts : List Token} {ns : List Node} {t : Token}

@[simp] theorem gist_memberNode (computed : Bool) (object property : Node) (start : Nat)
    (ts : List Token) :
    (memberNode computed object property start ts).gist = Phrase.ofKind .memberExpression
        (Node.gistProps [("computed", .ofBool computed), ("object", .node object),
          ("property", .node property)]) := rfl

theorem Token.is_text (h : t.kind = .word ∨ t.kind = .punct) : t.is t.text = true := by
  rcases h with h | h <;> simp [Token.is, h]

theorem separators_of_isWord {s : String} (h : IsWord s.toList) : separators.contains s = false := by
  obtain ⟨c, rest, hs, hc, -⟩ := h
  have ha : ∀ s ∈ separators, s.toList.head?.all (!Lexeme.isWordStart ·) = true := by decide
  rw [Bool.eq_false_iff, Ne, contains_iff_mem]
  intro hm
  have hh := ha s hm
  rw [hs, head?_cons, Option.all_some, hc] at hh
  cases hh

theorem gist_of_word (ht : t.IsSpelled) (hk : t.kind = .word) (ts : List Token) :
    gist (t :: ts) = .text t.text :: gist ts := by
  rw [Token.IsSpelled, hk] at ht
  exact gist_of_is (Token.is_text (.inl hk)) (separators_of_isWord ht)

/-! Operators are no separators. -/

theorem gist_of_isPrefixOperator (h : Rules.isPrefixOperator t = true) (ts : List Token) :
    gist (t :: ts) = .text t.text :: gist ts := by
  unfold Rules.isPrefixOperator at h
  split at h
  · next hk =>
    refine gist_of_is (Token.is_text (.inr hk)) ?_
    simp only [contains_iff_mem, mem_cons, not_mem_nil, or_false] at h
    rcases h with h | h | h | h <;> rw [h] <;> decide
  · next hk =>
    refine gist_of_is (Token.is_text (.inl hk)) ?_
    simp only [contains_iff_mem, mem_cons, not_mem_nil, or_false] at h
    rcases h with h | h | h <;> rw [h] <;> decide
  · cases h

theorem gist_of_isUpdateOperator (h : Rules.isUpdateOperator t = true) (ts : List Token) :
    gist (t :: ts) = .text t.text :: gist ts := by
  simp only [Rules.isUpdateOperator, Bool.or_eq_true] at h
  rcases h with h | h <;> rw [gist_of_is h, Token.text_of_is h]

theorem gist_of_operatorStrength? {k : Nat} (h : Rules.operatorStrength? t true = some k)
    (ts : List Token) : gist (t :: ts) = .text t.text :: gist ts := by
  have hm := mem_binaryOperators h
  have ha : ∀ op ∈ binaryOperators, separators.contains op = false := by decide
  refine gist_of_is (Token.is_text ?_) (ha _ hm)
  unfold Rules.operatorStrength? at h
  split at h
  · next hk => simpa [or_comm] using hk
  · cases h

attribute [local simp] Node.gistProps List.lookup List.flatMap Field.ofNode? Field.ofString
  Field.ofBool Phrase.property Phrase.literal functionProps

/-- A derivation loses nothing that its tokens say and keeps it in order. -/
theorem Derives.gist_eq (h : Derives F s ts ns) (hts : ∀ t ∈ ts, t.IsSpelled) :
    gist ts = s.gist ns := by
  induction h with
    try simp only [forall_mem_cons, forall_mem_append] at hts
  | identifier hk | name hk =>
    rw [gist_of_word hts.1 hk]
    rfl
  | @number F t v hk hv =>
    cases v with
    | infinite =>
      simp [gist, Token.sense?, hk, hv, literalProps, NumberValue.toJson]
    | finite d =>
      obtain ⟨number, hj, hd⟩ := toDouble?_of_toJson hv
      simp [gist, Token.sense?, hk, hv, literalProps, hj, hd]
  | string hk hv =>
    simp [gist, Token.sense?, hk, hv, literalProps]
  | @regex F t hk =>
    have hsp := hts.1
    rw [Token.IsSpelled, hk] at hsp
    obtain ⟨pattern, flags, hte, hfl⟩ := hsp.split
    have hsepa : separators.any t.is = false := by simp [separators, Token.is, hk]
    have hwh : t.text = "/" ++ String.ofList pattern ++ "/" ++ String.ofList flags := by
      rw [← String.toList_inj, hte]
      simp
    have hle : gist [t] = [.text t.text] := by simp [gist, Token.sense?, hk, hsepa]
    rw [hle, regexProps_eq hte hfl]
    simp [Json.get?, Json.members?, Json.string?, hwh]
  | keyName _ ih | ofIdentifier _ ih | ofLiteral _ ih | ofFunction _ ih | ofBlock _ ih
  | ofFunctionDeclaration _ ih | initDeclaration _ ih | initExpression _ ih
  | declaratorsLast _ ih | some _ ih => exact ih hts
  | keyLiteral _ _ ih => exact ih (forall_mem_singleton.2 hts.1)
  | none => rfl
  | paramsNil | elementsNil | propertiesNil | argumentsNil | sequenceNil | statementsNil
  | casesNil => rfl
  | paramsCons _ hsep _ ih ihs | propertiesCons _ hsep _ ih ihs | argumentsCons _ hsep _ ih ihs
  | elementsCons _ hsep _ ih ihs =>
    rw [gist_append, gist_append, gist_of_perhaps hsep, ih hts.1, ihs hts.2.2]
    simp
  | callable hlp _ hrp _ ihp ihb =>
    rw [gist_of_separator hlp, gist_append, gist_of_separator hrp, ihp hts.2.1, ihb hts.2.2.2]
    simp
  | function ht hi hki _ ihi ihc =>
    rw [gist_of_is ht, gist_append, ihi hts.2.1, ihc hts.2.2]
    rcases hki with rfl | ⟨rfl, -⟩ <;> cases hi <;> simp
  | this hk hte | null hk hte =>
    rw [gist_of_word hts.1 hk, hte]
    rfl
  | truth hk hte =>
    rw [gist_of_word hts.1 hk]
    rcases hte with hte | hte <;> rw [hte] <;> rfl
  | parens hlp _ hrp ih =>
    rw [gist_of_separator hlp, gist_append, gist_of_separator hrp, ih hts.2.1, gist_nil, append_nil]
  | elementsHole ht _ ih =>
    rw [gist_of_separator ht, ih hts.2]
    rfl
  | array hlb _ hrb ih | object hlb _ hrb ih | block hlb _ hrb ih =>
    rw [gist_of_is hlb, gist_append, gist_of_is hrb, ih hts.2.1]
    simp
  | propertyInit _ ht _ ihk ihv =>
    rw [gist_append, gist_of_is ht, ihk hts.1, ihv hts.2.2]
    simp
  | propertyAccessor hk hwo _ _ ihk ihc =>
    rw [gist_of_word hts.1 hk, gist_append, ihk hts.2.1, ihc hts.2.2]
    rcases hwo with hwo | hwo <;> simp [hwo]
  | dot _ ht _ _ iho ihp =>
    rw [gist_append, gist_of_is ht, iho hts.1, ihp hts.2.2]
    simp
  | index _ hlb _ hrb _ iho ihp =>
    rw [gist_append, gist_of_is hlb, gist_append, gist_of_is hrb, iho hts.1, ihp hts.2.2.1]
    simp
  | call _ hlp _ hrp ihc iha =>
    rw [gist_append, gist_of_separator hlp, gist_append,
      gist_of_separator hrp, ihc hts.1, iha hts.2.2.1]
    simp
  | newBare ht _ ih =>
    rw [gist_of_is ht, ih hts.2]
    simp
  | new ht _ hlp _ hrp ihc iha =>
    rw [gist_of_is ht, gist_append, gist_of_separator hlp, gist_append,
      gist_of_separator hrp, ihc hts.2.1, iha hts.2.2.2.1]
    simp
  | unary hop _ ih =>
    rw [gist_of_isPrefixOperator hop, ih hts.2]
    simp
  | updateBefore hop _ _ ih =>
    rw [gist_of_isUpdateOperator hop, ih hts.2]
    simp
  | updateBehind _ hop _ ih =>
    rw [gist_append, gist_of_isUpdateOperator hop, ih hts.1]
    simp
  | @binary _ _ t _ _ _ _ _ hs _ ihl ihr =>
    rw [gist_append, gist_of_operatorStrength? hs, ihl hts.1, ihr hts.2.2]
    rcases binaryKind_cases t.text with hki | hki <;> rw [hki] <;> simp
  | conditional _ hq _ hc _ iht ihy ihn =>
    rw [gist_append, gist_of_is hq, gist_append, gist_of_is hc,
      iht hts.1, ihy hts.2.2.1, ihn hts.2.2.2.2]
    simp
  | assignment _ _ hk hop _ ihl ihr =>
    have ha : ∀ op ∈ Rules.assignmentOperators, separators.contains op = false := by decide
    rw [gist_append, gist_of_is (Token.is_text (.inr hk)) (ha _ hop), ihl hts.1, ihr hts.2.2]
    simp
  | sequenceCons ht _ _ ih ihs =>
    rw [gist_of_separator ht, gist_append, ih hts.2.1, ihs hts.2.2]
    simp
  | sequence _ _ _ ih ihs =>
    rw [gist_append, ih hts.1, ihs hts.2]
    simp
  | initializer ht _ ih | alternate ht _ ih | finalizer ht _ ih =>
    rw [gist_of_is ht, ih hts.2]
    simp
  | declarator _ hin ihi ihv =>
    rw [gist_append, ihi hts.1, ihv hts.2]
    cases hin <;> simp
  | declaratorsCons _ ht _ ih ihs =>
    rw [gist_append, gist_of_separator ht, ih hts.1, ihs hts.2.2]
    simp
  | declaration hk _ _ ih =>
    rw [gist_of_word hts.1 hk, ih hts.2]
    simp
  | statementsCons _ _ ih ihs | casesCons _ _ ih ihs =>
    rw [gist_append, ih hts.1, ihs hts.2]
    simp
  | empty ht => exact gist_of_separator ht
  | debugger ht hse =>
    rw [gist_of_is ht, gist_of_perhaps hse]
    rfl
  | expressionStatement _ hse ih =>
    rw [gist_append, gist_of_perhaps hse, ih hts.1]
    simp
  | declarationStatement _ hse ih =>
    rw [gist_append, gist_of_perhaps hse, ih hts.1, append_nil]
    simp only [Symbol.gist, flatMap_singleton]
    rw [gist_spanned, Node.gist_eq_ofKind]
  | ifStatement ht hlp _ hrp _ hno _ iht ihy ihn =>
    obtain ⟨-, -, h1, -, h2, h3⟩ := hts
    rw [gist_of_is ht, gist_of_separator hlp, gist_append,
      gist_of_separator hrp, gist_append, iht h1, ihy h2, ihn h3]
    cases hno <;> simp
  | forStatement ht hlp hi hs ht' hs' hu hrp _ ihi iht ihu ihb =>
    obtain ⟨-, -, h1, -, h2, -, h3, -, h4⟩ := hts
    rw [gist_of_is ht, gist_of_separator hlp, gist_append,
      gist_of_separator hs, gist_append, gist_of_separator hs',
      gist_append, gist_of_separator hrp, ihi h1, iht h2, ihu h3, ihb h4]
    cases hi <;> cases ht' <;> cases hu <;> simp
  | forInStatement ht hlp _ _ hi _ hrp _ ihl ihr ihb =>
    obtain ⟨-, -, h1, -, h2, -, h3⟩ := hts
    rw [gist_of_is ht, gist_of_separator hlp, gist_append,
      gist_of_is hi, gist_append, gist_of_separator hrp, ihl h1, ihr h2,
      ihb h3]
    simp
  | whileStatement ht hlp _ hrp _ iht ihb | withStatement ht hlp _ hrp _ iht ihb
  | handler ht hlp _ hrp _ iht ihb =>
    obtain ⟨-, -, h1, -, h2⟩ := hts
    rw [gist_of_is ht, gist_of_separator hlp, gist_append, gist_of_separator hrp, iht h1, ihb h2]
    simp
  | doWhileStatement ht _ hw hlp _ hrp hse ihb iht =>
    obtain ⟨-, h1, -, -, h2, -, -⟩ := hts
    rw [gist_of_is ht, gist_append, gist_of_is hw,
      gist_of_separator hlp, gist_append, gist_of_separator hrp,
      gist_of_perhaps hse, ihb h1, iht h2]
    simp
  | returnStatement _ ht har hse ih =>
    rw [gist_of_is ht, gist_append, gist_of_perhaps hse, ih hts.2.1]
    cases har <;> simp
  | throwStatement ht _ hse ih =>
    rw [gist_of_is ht, gist_append, gist_of_perhaps hse, ih hts.2.1]
    simp
  | jump hki hse =>
    rcases hki with ⟨ht, rfl⟩ | ⟨ht, rfl⟩ <;> rw [gist_of_is ht, gist_of_perhaps hse] <;> rfl
  | jumpTo hki _ _ hse ihl =>
    have hl := ihl (by simpa using hts.2.1)
    rcases hki with ⟨ht, rfl⟩ | ⟨ht, rfl⟩ <;>
      rw [gist_of_is ht, gist_cons, hl, gist_of_perhaps hse] <;>
      simp
  | labeledStatement _ _ ht _ ihl ihb =>
    rw [gist_cons, ihl (by simpa using hts.1), gist_of_is ht, ihb hts.2.2]
    simp
  | tryStatement ht _ hh hf _ ihb ihh ihf =>
    obtain ⟨-, h1, h2, h3⟩ := hts
    rw [gist_of_is ht, gist_append, gist_append, ihb h1, ihh h2, ihf h3]
    cases hh <;> cases hf <;> simp
  | caseDefault ht hc _ ih =>
    rw [gist_of_is ht, gist_of_is hc, ih hts.2.2]
    simp
  | caseTest ht _ hc _ iht ih =>
    rw [gist_of_is ht, gist_append, gist_of_is hc, iht hts.2.1, ih hts.2.2.2]
    simp
  | switchStatement ht hlp _ hrp hlb _ hrb ihd ihc =>
    obtain ⟨-, -, h1, -, -, h2, -⟩ := hts
    rw [gist_of_is ht, gist_of_separator hlp, gist_append,
      gist_of_separator hrp, gist_of_is hlb, gist_append,
      gist_of_is hrb, ihd h1, ihc h2]
    simp

end Script

end Inlay
