/-
Scripts have code.

Whatever the grammar builds meets what the generator looks for and has
nothing beyond it: each rule gives a node the children it needs, of kinds
that can be written there, and the node is regular (`Derives.fills`).
-/
import Inlay.Proofs.Script.Anatomy
import Inlay.Proofs.Script.Numerals
import Inlay.Proofs.Tree.Loading

namespace Inlay

open List

variable {t : Tree} {source : Option String} {text : String} {tech : Tech}

namespace Script

open Rules (binaryKind)

/-- The kinds of the nodes that a symbol stands for. -/
def Symbol.admits (kind : Kind) : Symbol → Bool
  | identifier | name | literal | key | arguments | params | expression | sequence | initializer =>
      Role.expression.admits kind
  | property | properties => Role.property.admits kind
  | elements => Role.element.admits kind
  | function kind' => kind == kind'
  -- the body is the first of the nodes, the others are parameters
  | callable => true
  | declarator | declarators => Role.declarator.admits kind
  | declaration => kind == .variableDeclaration
  | forInit => Role.loopHead.admits kind
  | block | finalizer => Role.block.admits kind
  | alternate | statement | statements => Role.statement.admits kind
  | handler => Role.handler.admits kind
  | switchCase | cases => Role.switchCase.admits kind
  | maybe s => s.admits kind

/-- What every node of a script is. -/
structure Composed (n : Node) : Prop where
  writable : Writable n
  regular : Regular n

/-- A node that the symbol can stand for, composed in all its nodes. -/
def Provides (s : Symbol) (n : Node) : Prop := s.admits n.kind = true ∧ n.Every Composed

variable {F : Frame} {s : Symbol} {t : Token} {ts : List Token} {n : Node} {ns : List Node}
  {kind : Kind} {props : Node.Props} {key : String} {role : Role} {list : List Node}

-- == nodes

theorem every_spanned {P : Node → Prop} (hs : P (spanned kind props ts))
    (hp : ∀ m ∈ props.flatMap (·.2.children), m.Every P) : (spanned kind props ts).Every P :=
  Node.every_iff_props.2 ⟨hs, forall_mem_flatMap.1 hp⟩

theorem provides_spanned (ha : s.admits kind = true) (hki : kind.isKnown = true ∧
      kind ∉ [Kind.literal, .property, .elision, .sequenceExpression])
    (hm : Meets (spanned kind props ts) (wants kind))
    (hpr : ∀ m ∈ props.flatMap (·.2.children), m.Every Composed)
    (hp : props.all (isPart kind) = true
      := by first | rfl | simp [isPart_ofNode?, soleKeys, Want.isList, wants]) :
    ∀ n ∈ [spanned kind props ts], Provides s n := by
  have ho {k : Kind} {p : Prop}
      (hk : k ∈ [Kind.literal, .property, .elision, .sequenceExpression]) (h : kind = k) : p :=
    absurd (h ▸ hk) hki.2
  refine forall_mem_singleton.2 ⟨ha, every_spanned ⟨⟨hm, ?_, ?_⟩, hki.1,
    all_eq_true.1 hp, ?_, ?_, ?_⟩ hpr⟩
  all_goals exact ho (by simp)

theorem provides_literal (ha : s.admits .literal = true)
    (hc : (Code.literal (spanned .literal props ts)).toBool = true)
    (hp : props.all (isPart .literal) = true) (hpr : props.flatMap (·.2.children) = []) :
    ∀ n ∈ [spanned .literal props ts], Provides s n := by
  refine forall_mem_singleton.2 ⟨ha, every_spanned ⟨⟨trivial, fun _ => hc, by rintro ⟨⟩⟩,
    rfl, all_eq_true.1 hp, by rintro ⟨⟩, by rintro ⟨⟩, by rintro ⟨⟩⟩ ?_⟩
  rw [hpr]
  exact forall_mem_nil _

theorem isMet_list (hg : n.children? key = some list) (h : ∀ m ∈ list, role.admits m.kind = true) :
    (Want.list role).isMet n key = true := by
  rw [Want.isMet, hg]
  exact all_eq_true.2 h

/-- A child that may be missing is in a list of at most one. -/
theorem isMet_optional (hg : n.get? key = some (.ofNode? list.head?))
    (h : ∀ m ∈ list, role.admits m.kind = true) : (Want.optional role).isMet n key = true := by
  rw [Want.isMet, Option.all_eq_true]
  intro c hc
  rw [Node.child?, hg] at hc
  cases list with
  | nil => cases hc
  | cons m rest =>
    cases hc
    exact h _ (.head _)

theorem provides_literal_of_value {value : Json} {raw : String} (ha : s.admits .literal = true)
    (hv : value = .null ∨ (∃ b, value = .bool b) ∨ (∃ text, value = .str text) ∨
      ∃ number d, value = .num number ∧ number.toDouble? = some d) :
    ∀ n ∈ [spanned .literal (literalProps value raw) ts], Provides s n := by
  obtain rfl | ⟨b, rfl⟩ | ⟨text, rfl⟩ | ⟨number, d, rfl, hd⟩ := hv
  · exact provides_literal ha rfl rfl rfl
  · exact provides_literal ha rfl rfl rfl
  · exact provides_literal ha rfl rfl rfl
  · refine provides_literal ha ?_ rfl rfl
    rw [Node.code_number rfl rfl hd]
    rfl

-- == the grammar

/-- The nodes are such as the symbol stands for. -/
def Fills : Symbol → List Node → Prop
  | .callable, ns => ∃ body params, ns = body :: params ∧ Provides .block body ∧
      ∀ p ∈ params, Provides .params p
  | s, ns => ∀ n ∈ ns, Provides s n

theorem Fills.single (h : Fills s [n]) : Provides s n := by
  cases s with
  | callable =>
    obtain ⟨body, params, heq, hb, -⟩ := h
    cases heq
    exact ⟨rfl, hb.2⟩
  | _ => exact h n (.head _)

theorem fills_function {id params : List Node} {body : Node} (ha : s.admits kind = true)
    (hk : kind = .functionExpression ∨ kind = .functionDeclaration)
    (hid : ∀ m ∈ id, Provides (.maybe .identifier) m) (hb : Provides .block body)
    (hpa : ∀ p ∈ params, Provides .params p) (hh : id.head?.toList = id) :
    ∀ n ∈ [spanned kind (functionProps id params body) ts], Provides s n := by
  have hme : Meets (spanned kind (functionProps id params body) ts) (wants .functionExpression) :=
    ⟨isMet_optional rfl fun m hm => (hid m hm).1, isMet_list rfl fun p hp => (hpa p hp).1,
      hb.1, trivial⟩
  have hpr : ∀ m ∈ (functionProps id params body).flatMap (·.2.children), m.Every Composed := by
    simp only [functionProps, flatMap_cons, flatMap_nil, Field.children_ofNode?, hh,
      Field.children_nodes, Field.children_node, append_nil, forall_mem_append,
      forall_mem_singleton]
    exact ⟨fun m hm => (hid m hm).2, fun p hp => (hpa p hp).2, hb.2⟩
  have hpar : (functionProps id params body).all (isPart .functionExpression) = true := by
    simp [functionProps, isPart_ofNode?, soleKeys, listKeys, Want.isList, wants]
  rcases hk with rfl | rfl
  · exact provides_spanned ha (by decide) hme hpr hpar
  · exact provides_spanned ha (by decide) hme hpr hpar

theorem provides_member {computed : Bool} {object property : Node} {start : Nat}
    (ho : isExpression object.kind = true) (ho' : object.Every Composed)
    (hp : isExpression property.kind = true) (hp' : property.Every Composed) :
    ∀ n ∈ [memberNode computed object property start ts], Provides .expression n := by
  refine forall_mem_singleton.2 ⟨rfl, Node.every_iff_props.2 ⟨⟨⟨?_, nofun, nofun⟩, rfl,
    all_eq_true.1 rfl, nofun, nofun, nofun⟩, ?_⟩⟩
  · exact ⟨ho, hp, trivial⟩
  · simpa [memberNode, Node.bare] using ⟨ho', hp'⟩

/-- A property; the function of an accessor is not named. -/
theorem provides_property {key value : Node} {word : String} (hk : Provides .key key)
    (hv : Provides .expression value)
    (ha : word = "get" ∨ word = "set" →
      value.kind = .functionExpression ∧ value.child? "id" = none) :
    ∀ n ∈ [spanned .property
      [("key", .node key), ("value", .node value), ("kind", .ofString word)] ts],
      Provides .property n := by
  have hw (h : isGetterOrSetter (spanned .property [("key", .node key),
      ("value", .node value), ("kind", .ofString word)] ts) = true) :
      value.kind = .functionExpression ∧ value.child? "id" = none := by
    change (word == "get" || word == "set") = true at h
    exact ha (by simpa using h)
  refine forall_mem_singleton.2 ⟨rfl, every_spanned ⟨⟨?_, nofun, fun _ h => ?_⟩, rfl,
    all_eq_true.1 rfl, nofun, nofun, fun _ h f hf => ?_⟩ ?_⟩
  · exact ⟨hk.1, hv.1, trivial⟩
  · exact beq_iff_eq.2 (hw h).1
  · cases hf
    exact hw h
  · simpa using ⟨hk.2, hv.2⟩

/-- The nodes of every derivation are writable and regular. -/
theorem Derives.fills (h : Derives F s ts ns) : Fills s ns := by
  induction h with
  | none | paramsNil | elementsNil | propertiesNil | argumentsNil | sequenceNil | statementsNil
  | casesNil => exact forall_mem_nil _
  | paramsCons _ _ _ ih ih' | propertiesCons _ _ _ ih ih' | argumentsCons _ _ _ ih ih'
  | sequenceCons _ _ _ ih ih' | declaratorsCons _ _ _ ih ih' | statementsCons _ _ ih ih'
  | casesCons _ _ ih ih' => exact forall_mem_cons.2 ⟨ih.single, ih'⟩
  | keyName _ ih | keyLiteral _ _ ih | ofIdentifier _ ih | ofLiteral _ ih | parens _ _ _ ih
  | initializer _ _ ih | declaratorsLast _ ih | alternate _ _ ih | finalizer _ _ ih => exact ih
  | ofFunction _ ih | ofBlock _ ih | ofFunctionDeclaration _ ih | initDeclaration _ ih =>
    intro n hn
    obtain ⟨hk, he⟩ := ih n hn
    exact ⟨by rw [eq_of_beq hk]; rfl, he⟩
  | some _ ih => exact forall_mem_singleton.2 ih.single
  | initExpression _ ih => exact fun n hn => ⟨Bool.or_eq_true_iff.2 (.inl (ih n hn).1), (ih n hn).2⟩
  -- words and literals
  | identifier | name => exact provides_spanned rfl (by decide) ⟨rfl, trivial⟩ (by simp)
  | @number _ _ v _ hv =>
    refine provides_literal_of_value rfl ?_
    cases v with
    | infinite => exact .inl rfl
    | finite d =>
      obtain ⟨number, hj, hd⟩ := toDouble?_of_toJson hv
      exact .inr (.inr (.inr ⟨number, d, hj, hd⟩))
  | string => exact provides_literal_of_value rfl (.inr (.inr (.inl ⟨_, rfl⟩)))
  | regex => exact provides_literal rfl rfl rfl rfl
  | null => exact provides_literal_of_value rfl (.inl rfl)
  | truth => exact provides_literal_of_value rfl (.inr (.inl ⟨_, rfl⟩))
  -- functions
  | callable _ _ _ _ ih ih' => exact ⟨_, _, rfl, ih'.single, ih⟩
  | function _ hid hk _ ih ih' =>
    obtain ⟨body, params, heq, hb, hp⟩ := ih'
    cases heq
    exact fills_function (beq_self_eq_true _) (hk.imp_right (·.1)) ih hb hp hid.toList_head?
  | propertyInit _ _ _ ih ih' => exact provides_property ih.single ih'.single (by simp)
  | @propertyAccessor _ _ _ cs _ body params _ _ _ _ ih ih' =>
    obtain ⟨_, _, heq, hb, hp⟩ := ih'
    cases heq
    have hva : ∀ n ∈ [spanned .functionExpression (functionProps [] params body) cs],
        Provides .expression n :=
      fills_function rfl (.inl rfl) (by simp) hb hp rfl
    exact provides_property ih.single (hva _ (.head _)) fun _ => ⟨rfl, rfl⟩
  -- one or more children that are always there
  | this | empty | debugger => exact provides_spanned rfl (by decide) trivial (by simp)
  | expressionStatement _ _ ih | throwStatement _ _ _ ih =>
    refine provides_spanned rfl (by decide) ⟨ih.single.1, trivial⟩ ?_
    simpa using ih.single.2
  | unary _ _ ih | updateBefore _ _ _ ih | updateBehind _ _ _ ih =>
    refine provides_spanned rfl (by decide) ⟨rfl, ih.single.1, trivial⟩ ?_
    simpa using ih.single.2
  | assignment _ _ _ _ _ ih ih' | whileStatement _ _ _ _ _ ih ih' | labeledStatement _ _ _ _ ih ih'
  | withStatement _ _ _ _ _ ih ih' | handler _ _ _ _ _ ih ih' =>
    refine provides_spanned rfl (by decide) ⟨ih.single.1, ih'.single.1, trivial⟩ ?_
    simpa using ⟨ih.single.2, ih'.single.2⟩
  | doWhileStatement _ _ _ _ _ _ _ ih ih' =>
    refine provides_spanned rfl (by decide) ⟨ih'.single.1, ih.single.1, trivial⟩ ?_
    simpa using ⟨ih.single.2, ih'.single.2⟩
  | conditional _ _ _ _ _ ih ih' ih'' | forInStatement _ _ _ _ _ _ _ _ ih ih' ih'' =>
    refine provides_spanned rfl (by decide) ⟨ih.single.1, ih'.single.1, ih''.single.1, trivial⟩ ?_
    simpa using ⟨ih.single.2, ih'.single.2, ih''.single.2⟩
  | @binary _ _ t _ _ _ _ _ _ _ ih ih' =>
    rcases binaryKind_cases t.text with hk | hk
    all_goals
      rw [hk]
      refine provides_spanned rfl (by decide) ⟨rfl, ih.single.1, ih'.single.1, trivial⟩ ?_
      simpa using ⟨ih.single.2, ih'.single.2⟩
  | jump hk _ =>
    obtain ⟨-, rfl⟩ | ⟨-, rfl⟩ := hk <;> exact provides_spanned rfl (by decide) ⟨rfl, trivial⟩ (by simp)
  | jumpTo hk _ _ _ ih =>
    obtain ⟨-, rfl⟩ | ⟨-, rfl⟩ := hk
    all_goals
      refine provides_spanned rfl (by decide) ⟨ih.single.1, trivial⟩ ?_
      simpa using ih.single.2
  | dot _ _ _ _ ih ih' | index _ _ _ _ _ ih ih' =>
    exact provides_member ih.single.1 ih.single.2 ih'.single.1 ih'.single.2
  -- lists
  | elementsHole _ _ ih =>
    refine forall_mem_cons.2 ⟨⟨rfl, Node.every_iff.2 ⟨⟨⟨trivial, by rintro ⟨⟩, by rintro ⟨⟩⟩, ?_⟩, by rintro _ ⟨⟩⟩⟩, ih⟩
    exact ⟨rfl, by rintro _ ⟨⟩, fun _ => rfl, by rintro ⟨⟩, by rintro ⟨⟩⟩
  | elementsCons _ _ _ ih ih' =>
    refine forall_mem_cons.2 ⟨⟨?_, ih.single.2⟩, ih'⟩
    exact Bool.or_eq_true_iff.2 (.inl ih.single.1)
  | array _ _ _ ih | object _ _ _ ih | declaration _ _ _ ih =>
    refine provides_spanned rfl (by decide) ⟨isMet_list rfl fun m hm => (ih m hm).1, trivial⟩ ?_
    simpa using fun m hm => (ih m hm).2
  | block _ _ _ ih =>
    refine provides_spanned rfl (by decide) ⟨isMet_list rfl fun m hm => ?_, trivial⟩ ?_
    · exact Bool.or_eq_true_iff.2 (.inl (ih m hm).1)
    · simpa using fun m hm => (ih m hm).2
  | caseDefault _ _ _ ih =>
    refine provides_spanned rfl (by decide)
      ⟨rfl, isMet_list rfl fun m hm => (ih m hm).1, trivial⟩ ?_
    simpa using fun m hm => (ih m hm).2
  | call _ _ _ _ ih ih' | new _ _ _ _ _ ih ih' | caseTest _ _ _ _ ih ih'
  | switchStatement _ _ _ _ _ _ _ ih ih' =>
    refine provides_spanned rfl (by decide)
      ⟨ih.single.1, isMet_list rfl fun m hm => (ih' m hm).1, trivial⟩ ?_
    simpa using ⟨ih.single.2, fun m hm => (ih' m hm).2⟩
  | newBare _ _ ih =>
    refine provides_spanned rfl (by decide) ⟨ih.single.1, rfl, trivial⟩ ?_
    simpa using ih.single.2
  | sequence _ _ _ ih ih' =>
    have ha := forall_mem_cons.2 ⟨ih.single, ih'⟩
    refine forall_mem_singleton.2 ⟨rfl, every_spanned ⟨⟨?_, by rintro ⟨⟩, by rintro ⟨⟩⟩, rfl,
      all_eq_true.1 rfl, by rintro ⟨⟩, by rintro _ ⟨⟩, by rintro ⟨⟩⟩ ?_⟩
    · exact ⟨isMet_list rfl fun m hm => (ha m hm).1, trivial⟩
    · simpa using ⟨ih.single.2, fun m hm => (ih' m hm).2⟩
  -- children that may be missing
  | declarator _ hi ih ih' =>
    refine provides_spanned rfl (by decide)
      ⟨ih.single.1, isMet_optional rfl fun m hm => (ih' m hm).1, trivial⟩ ?_
    simpa [hi.toList_head?] using ⟨ih.single.2, fun m hm => (ih' m hm).2⟩
  | declarationStatement h _ ih =>
    obtain ⟨hk, he⟩ := ih.single
    cases h with
    | declaration =>
      obtain ⟨hs, hpr⟩ := Node.every_iff_props.1 he
      exact provides_spanned rfl ⟨rfl, (by decide : Kind.variableDeclaration ∉ _)⟩
        hs.writable.wants (forall_mem_flatMap.2 hpr)
  | ifStatement _ _ _ _ _ hno _ ih ih' ih'' =>
    refine provides_spanned rfl (by decide)
      ⟨ih.single.1, ih'.single.1, isMet_optional rfl fun m hm => (ih'' m hm).1, trivial⟩ ?_
    simpa [hno.toList_head?] using ⟨ih.single.2, ih'.single.2, fun m hm => (ih'' m hm).2⟩
  | forStatement _ _ h _ h' _ h'' _ _ ih ih' ih'' ih₃ =>
    refine provides_spanned rfl (by decide)
      ⟨isMet_optional rfl fun m hm => (ih m hm).1, isMet_optional rfl fun m hm => (ih' m hm).1,
        isMet_optional rfl fun m hm => (ih'' m hm).1, ih₃.single.1, trivial⟩ ?_
    simpa [h.toList_head?, h'.toList_head?, h''.toList_head?, or_imp, forall_and] using
      ⟨fun m hm => (ih m hm).2, fun m hm => (ih' m hm).2, fun m hm => (ih'' m hm).2, ih₃.single.2⟩
  | returnStatement _ _ h _ ih =>
    refine provides_spanned rfl (by decide) ⟨isMet_optional rfl fun m hm => (ih m hm).1, trivial⟩ ?_
    simpa [h.toList_head?] using fun m hm => (ih m hm).2
  | tryStatement _ _ h h' _ ih ih' ih'' =>
    refine provides_spanned rfl (by decide)
      ⟨ih.single.1, isMet_optional rfl fun m hm => (ih' m hm).1,
        isMet_optional rfl fun m hm => (ih'' m hm).1, trivial⟩ ?_
    simpa [h.toList_head?, h'.toList_head?, or_imp, forall_and] using
      ⟨ih.single.2, fun m hm => (ih' m hm).2, fun m hm => (ih'' m hm).2⟩

-- == files

theorem writable_programOf {text : List Char} (hns : ∀ n ∈ ns, Role.item.admits n.kind = true) :
    Writable (programOf text ns) :=
  ⟨⟨isMet_list rfl hns, trivial⟩, nofun, nofun⟩

end Script

open Script (Composed Regular Writable)

variable (h : tech.parse text source = .ok t)

include h

/-- The nodes that a file has at its top level can stand there. -/
theorem Tech.exists_composed : ∃ ns, Parsed tech text.toList source ns t ∧
      ∀ n ∈ ns, Script.Role.item.admits n.kind = true ∧ n.Every Composed := by
  obtain ⟨ns, hr, hp⟩ := exists_read h
  refine ⟨ns, hp, ?_⟩
  cases hr with
  | statements _ _ hd =>
    exact fun n hn => ⟨Bool.or_eq_true_iff.2 (.inl (hd.fills n hn).1), (hd.fills n hn).2⟩
  | expression hd =>
    refine forall_mem_singleton.2 ⟨Bool.or_eq_true_iff.2 (.inr hd.fills.single.1), ?_⟩
    exact hd.fills.single.2
  | text =>
    refine forall_mem_singleton.2 ⟨rfl, Node.every_iff.2 ⟨⟨⟨trivial, fun _ => rfl, nofun⟩, ?_⟩,
      nofun⟩⟩
    exact ⟨rfl, all_eq_true.1 rfl, nofun, nofun, nofun⟩

/-- The nodes of every file are regular. -/
theorem Tech.regular_of_parse : t.root.Every Regular := by
  obtain ⟨ns, hp, hns⟩ := exists_composed h
  refine hp.every_of_root (fun _ hf => hf.regular_iff) ?_
    fun n hn m hm => ((hns n hn).2 m hm).regular
  exact ⟨rfl, all_eq_true.1 rfl, nofun, nofun, nofun⟩

theorem Tech.writable_of_parse : t.root.Every Writable := by
  obtain ⟨ns, hp, hns⟩ := exists_composed h
  exact hp.every_of_root (fun _ hf => hf.writable_iff)
    (Script.writable_programOf fun n hn => (hns n hn).1)
    fun n hn m hm => ((hns n hn).2 m hm).writable

end Inlay
