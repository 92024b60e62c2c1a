/-
What is written for a node.

The code of a node depends on its kind, its data and its children. Where
it comes from shows in the marks only, and nothing is written only where a
need of the node is not met (`Agree`). The functions that write children
are told by their roles (`Serves`), in one induction over the tree.

Alike trees have the same code (`generateCode_eq_of_alike`), a tree whose
nodes are writable has code (`program_succeeds`), and all marks are of
nodes of the tree (`isMark_of_program`), each before a token
(`program_flushed`).
-/
import Inlay.Proofs.Script.Anatomy
import Inlay.Proofs.Script.Placement
import Inlay.Script.Generate

namespace Inlay.Script

open List Node

open Node (Alike AlikeAll)

-- == results

/-- Two computations have results that are related, or fail alike, if they
may fail. -/
inductive Agree {ε α β : Type} (fails : Prop) (R : α → β → Prop) :
    Except ε α → Except ε β → Prop
  | ok {a b} (h : R a b) : Agree fails R (.ok a) (.ok b)
  | error (h : fails) (e : ε) : Agree fails R (.error e) (.error e)

section Results

variable {ε α β γ δ : Type} {fails : Prop} {R R' : α → β → Prop} {Q : γ → δ → Prop}
  {x : Except ε α} {y : Except ε β}

theorem Agree.bind {f : α → Except ε γ} {g : β → Except ε δ} (h : Agree fails R x y)
    (hfg : ∀ a b, R a b → Agree fails Q (f a) (g b)) : Agree fails Q (x >>= f) (y >>= g) := by
  cases h with
  | ok hab => exact hfg _ _ hab
  | error hf e => exact .error hf e

theorem Agree.imp (h : Agree fails R x y) (hR : ∀ a b, x = .ok a → R a b → R' a b) :
    Agree fails R' x y := by
  cases h with
  | ok hab => exact .ok (hR _ _ rfl hab)
  | error hf e => exact .error hf e

end Results

-- == schemes

/-- Whether marks before the piece get its position. -/
def Piece.isToken : Piece → Bool
  | .token _ | .string _ => true
  | _ => false

@[simp] theorem Piece.isToken_token (text : String) : (token text).isToken = true := rfl

/-- What follows the mark of an identifier. -/
def Names (n : Node) (ps : List Piece) : Prop :=
  ∃ name, n.string? "name" = some name ∧ (ps = [.token name] ∨ ps = n.marks ++ [.token name])

/-- What is to be known of code. -/
structure Scheme where
  /-- There may be none. -/
  fails : Prop
  /-- All parts of the trees are in place. -/
  whole : Prop
  /-- What the pieces are like. -/
  good : List Piece → Prop
  sound : whole → ¬fails
  nil : good []
  append {ps qs} : good ps → (good (ps ++ qs) ↔ good qs)
  piece {p} : p.isMark = false → good [p]

/-- The marks that are written with a child of a node of the kind. A hole
has none, and neither has the function of an accessor. -/
inductive Shows (S : Scheme) : Kind → Node → Piece → Prop
  | own {kind n p} (hwhole : S.whole) (hhole : n.kind ≠ .elision)
      (hmethod : n.kind = .functionExpression → kind ≠ .property) (hp : p ∈ n.marks) :
      Shows S kind n p
  | kid {kind n w k p} (hw : w ∈ wants n.kind) (hk : k ∈ w.2.found n w.1)
      (h : Shows S n.kind k p) : Shows S kind n p

/-- The marks that are written with children of a node of the kind. -/
def ShowsAny (S : Scheme) (kind : Kind) (ns : List Node) (p : Piece) : Prop :=
  ∃ n ∈ ns, Shows S kind n p

variable {S : Scheme} {kind : Kind} {p : Piece} {ps qs ps' qs' sep : List Piece} {m n : Node}
  {ms : List Node} {depth : Nat}

theorem Shows.whole (h : Shows S kind n p) : S.whole := by
  induction h with
  | own hw => exact hw
  | kid _ _ _ ih => exact ih

@[simp] theorem showsAny_nil : ¬ShowsAny S kind [] p := nofun

@[simp] theorem showsAny_cons :
    ShowsAny S kind (n :: ms) p ↔ Shows S kind n p ∨ ShowsAny S kind ms p := by
  simp [ShowsAny]

-- == pieces

/-- The same pieces but for marks, and the first are good. -/
structure SameText (S : Scheme) (ps qs : List Piece) : Prop where
  text : ps.filter (!·.isMark) = qs.filter (!·.isMark)
  good : S.good ps

namespace SameText

variable {depth : Nat}

@[simp] theorem nil : SameText S [] [] := ⟨rfl, S.nil⟩

@[simp] theorem append_iff (h : SameText S ps qs) :
    SameText S (ps ++ ps') (qs ++ qs') ↔ SameText S ps' qs' := by
  constructor
  · intro h'
    refine ⟨?_, (S.append h.good).1 h'.good⟩
    have ht := h'.text
    rw [filter_append, filter_append, h.text] at ht
    exact append_cancel_left ht
  · intro h'
    refine ⟨?_, (S.append h.good).2 h'.good⟩
    rw [filter_append, filter_append, h.text, h'.text]

theorem append (h : SameText S ps qs) (h' : SameText S ps' qs') :
    SameText S (ps ++ ps') (qs ++ qs') :=
  (append_iff h).2 h'

theorem cons_iff (hp : p.isMark = false) : SameText S (p :: ps) (p :: qs) ↔ SameText S ps qs :=
  append_iff (⟨rfl, S.piece hp⟩ : SameText S [p] [p])

@[simp] theorem token_iff {text : String} :
    SameText S (.token text :: ps) (.token text :: qs) ↔ SameText S ps qs := cons_iff rfl

@[simp] theorem space_iff : SameText S (.space :: ps) (.space :: qs) ↔ SameText S ps qs :=
  cons_iff rfl

@[simp] theorem newline_iff :
    SameText S (.newline depth :: ps) (.newline depth :: qs) ↔ SameText S ps qs := cons_iff rfl

@[simp] theorem resume_iff :
    SameText S (Code.resume depth n :: ps) (Code.resume depth n :: qs) ↔ SameText S ps qs := by
  unfold Code.resume
  split <;> simp

end SameText

/-- The code of a node without its mark: there is a token in it, and the
marks of all that was looked for. -/
@[simp] abbrev Comprises (S : Scheme) (kind : Kind) (ws : List (String × Want)) (m : Node)
    (a b : List Piece) : Prop :=
  SameText S a b ∧ (S.whole → a.any Piece.isToken = true) ∧
    ∀ w ∈ ws, ∀ p, ShowsAny S kind (w.2.found m w.1) p → p ∈ a

/-- The code of a child of a node of the kind. -/
@[simp] abbrev Covers (S : Scheme) (kind : Kind) (m : Node) (a b : List Piece) : Prop :=
  SameText S a b ∧ (S.whole → a.any Piece.isToken = true) ∧ ∀ p, Shows S kind m p → p ∈ a

/-- The code of an item of an array, which may be a hole. -/
inductive CoversItem (S : Scheme) (kind : Kind) (m : Node) :
    Option (List Piece) → Option (List Piece) → Prop
  | some {a b} (h : Covers S kind m a b) : CoversItem S kind m (some a) (some b)
  | none (h : ∀ p, ¬Shows S kind m p) : CoversItem S kind m none none

/-- The code of a list of nodes. -/
@[simp] abbrev CoversAll (S : Scheme) (kind : Kind) (ms : List Node) (a b : List Piece) : Prop :=
  SameText S a b ∧ ∀ p, ShowsAny S kind ms p → p ∈ a

theorem Covers.comprises (h : Covers S .program m ps qs) (hki : m.kind = kind) :
    Comprises S kind (wants kind) m ps qs := by
  refine ⟨h.1, h.2.1, fun w hw p hp => ?_⟩
  subst hki
  obtain ⟨k, hk, hs⟩ := hp
  exact h.2.2 p (.kid hw hk hs)

theorem Covers.cons (h : Covers S kind m ps qs) (hp : p.isMark = false) :
    Covers S kind m (p :: ps) (p :: qs) := by
  refine ⟨(SameText.cons_iff hp).2 h.1, fun hw => ?_, fun p hs => .tail _ (h.2.2 p hs)⟩
  simp [h.2.1 hw]

theorem Covers.all (h : Covers S kind m ps qs) : CoversAll S kind [m] ps qs := by
  simpa using ⟨h.1, h.2.2⟩

theorem CoversAll.cons (h : CoversAll S kind [m] ps qs) (h' : CoversAll S kind ms ps' qs') :
    CoversAll S kind (m :: ms) (ps ++ ps') (qs ++ qs') := by
  refine ⟨h.1.append h'.1, fun p hp => ?_⟩
  rcases showsAny_cons.1 hp with hp | hp
  · exact mem_append_left _ (h.2 p (showsAny_cons.2 (.inl hp)))
  · exact mem_append_right _ (h'.2 p hp)

theorem Covers.parens (h : Covers S kind m ps qs) :
    Covers S kind m (Code.parens ps) (Code.parens qs) := by
  simp +contextual [Code.parens, h]

-- == parts

/-- Codes of nodes, node by node. -/
inductive Parts {α : Type} (R : Node → α → α → Prop) : List Node → List α → List α → Prop
  | nil : Parts R [] [] []
  | cons {m ms a b as bs} (h : R m a b) (hrest : Parts R ms as bs) :
      Parts R (m :: ms) (a :: as) (b :: bs)

theorem any_braces {as : List (List Piece)} :
    (Code.braces depth sep as).any Piece.isToken = true := by
  unfold Code.braces
  split <;> simp [Code.openBrace]

namespace Parts

variable {as bs : List (List Piece)}

section

variable (h : Parts (Covers S kind) ms as bs)

include h

theorem intercalate (sep : List Piece) (hs : SameText S sep sep) :
    CoversAll S kind ms (List.intercalate sep as) (List.intercalate sep bs) := by
  have hc : ∀ (part next : List Piece) (parts : List (List Piece)),
      List.intercalate sep (part :: next :: parts) =
        part ++ (sep ++ List.intercalate sep (next :: parts)) := by
    simp [List.intercalate]
  induction h with
  | nil => simp [List.intercalate]
  | cons hab hr ih =>
    cases hr with
    | nil => simpa [List.intercalate] using ⟨hab.1, hab.2.2⟩
    | cons =>
      rw [hc, hc]
      exact CoversAll.cons hab.all ⟨hs.append ih.1, fun p hp => mem_append_right _ (ih.2 p hp)⟩

theorem any_isToken (hms : ms ≠ []) (hw : S.whole) :
    (List.intercalate sep as).any Piece.isToken = true := by
  cases h with
  | nil => exact absurd rfl hms
  | cons hab hr =>
    cases hr with
    | nil => simpa [List.intercalate] using hab.2.1 hw
    | cons => simpa [List.intercalate] using .inl (by simpa using hab.2.1 hw)

theorem commas : CoversAll S kind ms (Code.commas as) (Code.commas bs) :=
  h.intercalate _ (by simp)

theorem flatten : CoversAll S kind ms as.flatten bs.flatten := by
  induction h with
  | nil => simp
  | cons hab _ ih => exact CoversAll.cons hab.all ih

theorem lines (depth : Nat) :
    Parts (Covers S kind) ms (as.map (.newline depth :: ·)) (bs.map (.newline depth :: ·)) := by
  induction h with
  | nil => exact .nil
  | cons hab _ ih => exact .cons (Covers.cons hab rfl) ih

theorem braces (sep : List Piece) (depth : Nat) (hs : SameText S sep sep) :
    CoversAll S kind ms (Code.braces depth sep as) (Code.braces depth sep bs) := by
  have hl := (h.lines (depth + 1)).intercalate sep hs
  have he : as.isEmpty = bs.isEmpty ∧ (bs.isEmpty = true → ms = []) := by cases h <;> simp
  unfold Code.braces
  rw [he.1]
  split
  · next hn => simp [Code.openBrace, Code.closeBrace, he.2 hn]
  · simp +contextual [Code.openBrace, Code.closeBrace, hl]

end

variable {as bs : List (Option (List Piece))}

variable (h : Parts (CoversItem S kind) ms as bs)

include h

theorem behind : CoversAll S kind ms (as.flatMap fun part => .token "," :: match part with
      | some code => .space :: code
      | none => [])
    (bs.flatMap fun part => .token "," :: match part with
      | some code => .space :: code
      | none => []) := by
  induction h with
  | nil => simp
  | cons hab _ ih =>
    refine CoversAll.cons ?_ ih
    cases hab with
    | none hab => simp [hab]
    | some hab => simp +contextual [hab]

/-- A comma stands behind a hole at the end of both or of neither. -/
theorem last : SameText S (match as.getLast? with | some none => [.token ","] | _ => [])
    (match bs.getLast? with | some none => [.token ","] | _ => []) := by
  induction h with
  | nil => exact .nil
  | cons hab hr ih =>
    cases hr with
    | nil => cases hab <;> simp
    | cons => simpa only [getLast?_cons_cons] using ih

theorem brackets : CoversAll S kind ms (Code.brackets as) (Code.brackets bs) := by
  have hc := h.last
  unfold Code.brackets
  cases h with
  | nil => simp
  | @cons m ms a b as bs hab hr =>
    have hf : CoversAll S kind [m] (a.getD []) (b.getD []) := by
      cases hab with
      | none hab => simpa using hab
      | some hab => exact hab.all
    have ha := CoversAll.cons hf hr.behind
    simp only [cons_append]
    refine ⟨SameText.token_iff.2 ((ha.1.append hc).append (by simp)), fun p hp => .tail _ ?_⟩
    exact mem_append_left _ (mem_append_left _ (ha.2 p hp))

end Parts

section Roles

variable (S : Scheme)

/-- The code of two children, or why there is none. -/
abbrev Covered (kind : Kind) (m : Node) : Code → Code → Prop :=
  Agree S.fails (Covers S kind m)

/-- What follows the marks of two nodes, or why there is nothing. -/
abbrev Written (kind : Kind) (m : Node) : Code → Code → Prop :=
  Agree S.fails (Comprises S kind (wants kind) m)

/-- The code of two children of nodes of the kind agrees in the role. -/
def Serves (kind : Kind) (m n : Node) : Role → Prop
  | .expression => ∀ required allowIn depth, Covered S kind m
      (Code.expression required allowIn depth m) (Code.expression required allowIn depth n)
  | .element => ∀ allowIn depth, Agree S.fails (CoversItem S kind m)
      (Code.element allowIn depth m) (Code.element allowIn depth n)
  | .statement => ∀ depth,
      Covered S kind m (Code.statement depth m) (Code.statement depth n) ∧
      Covered S kind m (Code.substatement depth m) (Code.substatement depth n)
  | .item => ∀ depth,
      Covered S kind m (Code.statement depth m) (Code.statement depth n)
  | .loopHead => ∀ depth,
      Covered S kind m (Code.forLeft depth m) (Code.forLeft depth n)
  | .block => ∀ depth, Covered S kind m (Code.block depth m) (Code.block depth n)
  | .declarator => ∀ allowIn depth, Agree S.fails
      (fun a b => Covers S kind m (m.marks ++ a) (n.marks ++ b))
      (Code.declarator allowIn depth m) (Code.declarator allowIn depth n)
  | .handler => ∀ depth,
      Covered S kind m (Code.catchClause depth m) (Code.catchClause depth n)
  | .switchCase => ∀ depth, Agree S.fails
      (fun a b => Covers S kind m (m.marks ++ a) (n.marks ++ b))
      (Code.switchCase depth m) (Code.switchCase depth n)
  | .property => ∀ allowIn depth, Agree S.fails
      (fun a b => Covers S kind m (m.marks ++ a) (n.marks ++ b))
      (Code.property allowIn depth m) (Code.property allowIn depth n)
  | .method => ∀ allowIn depth, Agree S.fails
      (Comprises S .functionExpression [("params", .list .expression), ("body", .child .block)] m)
      (Code.functionRest allowIn depth m) (Code.functionRest allowIn depth n)

/-- Alike nodes whose code agrees in the role. -/
structure Twins (kind : Kind) (role : Role) (m n : Node) : Prop where
  alike : m.Alike n
  serves : Serves S kind m n role

/-- Alike nodes whose children agree in all roles that they can have. -/
structure Paired (m n : Node) : Prop where
  alike : m.Alike n
  marks : ∀ a, (S.whole → a.any Piece.isToken = true ∧
    (m.kind = .identifier → Names m a)) → S.good a → S.good (m.marks ++ a)
  writable : S.fails ∨ Writable n
  regular : S.whole → Regular m
  kids : ∀ k' ∈ m.kids, ∀ k ∈ n.kids, k'.2.Alike k.2 → ∀ (kind : Kind) (role : Role),
    S.fails ∨ role.admits k.2.kind = true → Twins S kind role k'.2 k.2

/-- Paired nodes that are written as nodes of the kind are. -/
structure Poised (kind : Kind) (m n : Node) : Prop extends Paired S m n where
  same : S.fails ∨ wants n.kind = wants kind

end Roles

section Lists

variable {ns : List Node} {α β : Type}

/-- What is done for each node of a list. -/
theorem agree_list {R : Node → β → β → Prop} {one : Node → Except GenerateError α}
    {wrap : Node → α → β} {all : List Node → Except GenerateError (List β)}
    (h : List.Forall₂ (fun m n =>
      Agree S.fails (fun a b => R m (wrap m a) (wrap n b)) (one m) (one n)) ms ns)
    (hni : all [] = .ok []) (hc : ∀ n ns, all (n :: ns) = do
      let a ← one n
      let as ← all ns
      return wrap n a :: as) :
    Agree S.fails (Parts R ms) (all ms) (all ns) := by
  induction h with
  | nil =>
    rw [hni]
    exact .ok .nil
  | cons hn _ ih =>
    rw [hc, hc]
    exact hn.bind fun a b hab => ih.bind fun as bs ha => .ok (.cons hab ha)

theorem statements_agree (h : List.Forall₂ (Twins S kind .item) ms ns) (depth : Nat) :
    Agree S.fails (Parts (Covers S kind) ms)
      (Code.statements depth ms) (Code.statements depth ns) :=
  agree_list (h.imp fun _ _ hn => hn.serves depth) (by rw [Code.statements])
    fun _ _ => by rw [Code.statements]

theorem expressions_agree (h : List.Forall₂ (Twins S kind .expression) ms ns) (allowIn : Bool)
    (depth : Nat) : Agree S.fails (Parts (Covers S kind) ms)
      (Code.expressions allowIn depth ms) (Code.expressions allowIn depth ns) :=
  agree_list (h.imp fun _ _ hn => hn.serves _ allowIn depth) (by rw [Code.expressions])
    fun _ _ => by rw [Code.expressions]

theorem elements_agree (h : List.Forall₂ (Twins S kind .element) ms ns) (allowIn : Bool)
    (depth : Nat) : Agree S.fails (Parts (CoversItem S kind) ms)
      (Code.elements allowIn depth ms) (Code.elements allowIn depth ns) :=
  agree_list (h.imp fun _ _ hn => hn.serves allowIn depth) (by rw [Code.elements])
    fun _ _ => by rw [Code.elements]

theorem cases_agree (h : List.Forall₂ (Twins S kind .switchCase) ms ns) (depth : Nat) :
    Agree S.fails (Parts (Covers S kind) ms) (Code.cases depth ms) (Code.cases depth ns) :=
  agree_list (h.imp fun _ _ hn => (hn.serves depth).imp fun _ _ _ hab => Covers.cons hab rfl)
    (by rw [Code.cases]) fun _ _ => by rw [Code.cases]; rfl

theorem declarators_agree (h : List.Forall₂ (Twins S kind .declarator) ms ns) (allowIn : Bool)
    (depth : Nat) : Agree S.fails (Parts (Covers S kind) ms)
      (Code.declarators allowIn depth ms) (Code.declarators allowIn depth ns) :=
  agree_list
    (h.imp fun _ _ hn => (hn.serves allowIn depth).imp fun _ _ _ hab => Covers.cons hab rfl)
    (by rw [Code.declarators]) fun _ _ => by rw [Code.declarators]; rfl

theorem properties_agree (h : List.Forall₂ (Twins S kind .property) ms ns) (allowIn : Bool)
    (depth : Nat) : Agree S.fails (Parts (Covers S kind) ms)
      (Code.properties allowIn depth ms) (Code.properties allowIn depth ns) :=
  agree_list (h.imp fun _ _ hn => hn.serves allowIn depth) (by rw [Code.properties])
    fun _ _ => by rw [Code.properties]

end Lists

-- == lookups

section Nodes

variable {key : String} {role : Role} {α β : Type} {R : α → β → Prop} {a b : List Piece}
  {depth : Nat}

theorem Paired.covers {kind' : Kind} (h : Paired S m n) (hki : S.whole → m.kind = kind')
    (hn : kind' = .identifier → Names m a) (hab : Comprises S kind' (wants kind') m a b) :
    Covers S kind m (m.marks ++ a) (n.marks ++ b) := by
  have hm (n : Node) : n.marks.filter (!·.isMark) = [] := by
    unfold Node.marks
    split <;> rfl
  have ht (hwh : S.whole) := hab.2.1 hwh
  refine ⟨⟨?_, ?_⟩, fun hwh => ?_, fun p hp => ?_⟩
  · rw [filter_append, filter_append, hm, hm, hab.1.text]
  · refine h.marks a (fun hwh => ⟨ht hwh, fun hid => hn ?_⟩) hab.1.good
    exact (hki hwh).symm.trans hid
  · rw [any_append, ht hwh, Bool.or_true]
  · have hki := hki hp.whole
    cases hp with
    | own _ _ _ hp => exact mem_append_left _ hp
    | kid hw hk hp =>
      rw [hki] at hw hp
      exact mem_append_right _ (hab.2.2 _ hw p ⟨_, hk, hp⟩)

namespace Poised

theorem meets (h : Poised S kind m n) {want : Want} (hm : (key, want) ∈ wants kind) :
    S.fails ∨ want.isMet n key = true := by
  rcases h.same with hf | hw
  · exact .inl hf
  · exact h.writable.imp_right fun hn => meets_iff.1 hn.wants _ (hw ▸ hm)

end Poised

theorem Paired.twins_of_child? (h : Paired S m n) {c' c : Node} (hc' : m.child? key = some c')
    (hc : n.child? key = some c) (ha : c'.Alike c)
    (hr : S.fails ∨ role.admits c.kind = true) : Twins S kind role c' c :=
  h.kids _ (mem_kids_of_child? hc') _ (mem_kids_of_child? hc) ha kind role hr

theorem Paired.bind_met (h : Paired S m n) (hk : key ≠ "raw")
    (hm : S.fails ∨ (Want.child role).isMet n key = true)
    {f : { c : Node // c.size < m.size } → Except GenerateError α}
    {g : { c : Node // c.size < n.size } → Except GenerateError β}
    (hfg : ∀ c' c, m.child? key = some c'.1 → Twins S kind role c'.1 c.1 →
      Agree S.fails R (f c') (g c)) :
    Agree S.fails R (m.need key >>= f) (n.need key >>= g) := by
  rw [Want.isMet] at hm
  cases hc : n.child? key with
  | none =>
    rw [hc] at hm
    rw [need_eq_error (h.alike.child_none key hk hc), need_eq_error hc, h.alike.kind_eq]
    exact .error (hm.resolve_right Bool.false_ne_true) _
  | some c =>
    rw [hc] at hm
    obtain ⟨c', hc', ha⟩ := h.alike.child key hk hc
    rw [need_bind hc', need_bind hc]
    exact hfg _ _ hc' (h.twins_of_child? hc' hc ha hm)

namespace Poised

variable (h : Poised S kind m n)

include h

theorem need (role : Role) (hm : (key, .child role) ∈ wants kind)
    {f : { c : Node // c.size < m.size } → Except GenerateError α}
    {g : { c : Node // c.size < n.size } → Except GenerateError β}
    (hfg : ∀ c' c, m.child? key = some c'.1 → Twins S kind role c'.1 c.1 →
      Agree S.fails R (f c') (g c)) :
    Agree S.fails R (m.need key >>= f) (n.need key >>= g) :=
  h.bind_met (ne_raw_of_mem_wants hm) (h.meets hm) hfg

theorem child (role : Role) (hm : (key, .child role) ∈ wants kind) {one : Node → Code}
    {f g : List Piece → Except GenerateError α} {R : α → α → Prop}
    (ho : ∀ {c' c}, Twins S kind role c' c → Covered S kind c' (one c') (one c))
    (hfg : ∀ a b, (SameText S a b ∧ (S.whole → a.any Piece.isToken = true) ∧
      ∀ p, ShowsAny S kind (m.child? key).toList p → p ∈ a) → Agree S.fails R (f a) (g b)) :
    Agree S.fails R (m.need key >>= fun c => one c.1 >>= f)
      (n.need key >>= fun c => one c.1 >>= g) := by
  refine h.need role hm fun c' c hl hc => (ho hc).bind fun a b hab => hfg a b ?_
  rw [hl]
  exact ⟨hab.1, hab.2.1, hab.all.2⟩

theorem needList (role : Role) (hme : (key, .list role) ∈ wants kind)
    {f : { cs : List Node // Node.sizeOfNodes cs < m.size } → Except GenerateError α}
    {g : { cs : List Node // Node.sizeOfNodes cs < n.size } → Except GenerateError β}
    (hfg : ∀ cs' cs, m.children? key = some cs'.1 →
      List.Forall₂ (Twins S kind role) cs'.1 cs.1 → Agree S.fails R (f cs') (g cs)) :
    Agree S.fails R (m.needList key >>= f) (n.needList key >>= g) := by
  have hm := h.meets hme
  have hk := ne_raw_of_mem_wants hme
  rw [Want.isMet] at hm
  cases hcs : n.children? key with
  | none =>
    rw [hcs] at hm
    have heq := h.alike.children?_eq hk
    rw [hcs, Option.map_none, Option.map_eq_none_iff] at heq
    rw [needList_eq_error heq, needList_eq_error hcs, h.alike.kind_eq]
    exact .error (hm.resolve_right Bool.false_ne_true) _
  | some cs =>
    rw [hcs] at hm
    obtain ⟨cs', hcs', ha⟩ := h.alike.children key hk hcs
    rw [needList_bind hcs', needList_bind hcs]
    have hal : List.Forall₂ (fun c' c => c'.stripped = c.stripped) cs' cs := by
      rw [← forall₂_map_right_iff, ← forall₂_map_left_iff, forall₂_eq_eq_eq]
      exact ha
    obtain ⟨hl, hal⟩ := forall₂_iff_zip.1 hal
    refine hfg _ _ hcs' (forall₂_iff_zip.2 ⟨hl, fun hc => ?_⟩)
    obtain ⟨i, hi⟩ := mem_kids_of_children? hcs' (of_mem_zip hc).1
    obtain ⟨j, hj⟩ := mem_kids_of_children? hcs (of_mem_zip hc).2
    refine h.kids _ hi _ hj (hal hc) kind role (hm.imp_right fun hal => ?_)
    exact all_eq_true.1 hal _ (of_mem_zip hc).2

theorem needString (hm : (key, .text) ∈ wants kind)
    {f : String → Except GenerateError α} {g : String → Except GenerateError β}
    (hfg : ∀ s, Agree S.fails R (f s) (g s)) :
    Agree S.fails R (m.needString key >>= f) (n.needString key >>= g) := by
  have hme := h.meets hm
  unfold Node.needString
  rw [h.alike.string?_eq (ne_raw_of_mem_wants hm), h.alike.kind_eq]
  split
  · exact hfg _
  · next hn =>
    rw [Want.isMet, hn] at hme
    exact .error (hme.resolve_right Bool.false_ne_true) _

/-- A child that may be missing is there in both or in none. -/
theorem optional (key : String) (role : Role) (hme : (key, .optional role) ∈ wants kind) :
    (m.child? key = none ∧ m.optional key = none ∧ n.optional key = none) ∨
      ∃ c' c, m.child? key = some c'.1 ∧ m.optional key = some c' ∧ n.optional key = some c ∧
        Twins S kind role c'.1 c.1 := by
  have hm := h.meets hme
  have hk := ne_raw_of_mem_wants hme
  rw [Want.isMet] at hm
  cases hc : n.child? key with
  | none =>
    have hc' := h.alike.child_none key hk hc
    exact .inl ⟨hc', optional_none hc', optional_none hc⟩
  | some c =>
    rw [hc] at hm
    obtain ⟨c', hc', ha⟩ := h.alike.child key hk hc
    exact .inr ⟨⟨c', _⟩, _, hc', optional_some hc', optional_some hc,
      h.twins_of_child? hc' hc ha hm⟩

theorem spaced (depth : Nat) (hme : (key, .optional .expression) ∈ wants kind) :
    Agree S.fails (CoversAll S kind (m.child? key).toList)
      (Code.spaced key depth m) (Code.spaced key depth n) := by
  rw [Code.spaced, Code.spaced]
  rcases h.optional key .expression hme with ⟨hl, hm, hn⟩ | ⟨c', c, hl, hm, hn, hc⟩ <;>
    rw [hl, hm, hn]
  · exact .ok (by simp)
  · exact (hc.serves _ _ _).bind fun a b hab => .ok (by simp +contextual [hab])

theorem label (depth : Nat) (hme : ("label", .optional .expression) ∈ wants kind) :
    Agree S.fails (CoversAll S kind (m.child? "label").toList)
      (Code.label depth m) (Code.label depth n) := by
  rw [Code.label, Code.label]
  rcases h.optional "label" .expression hme with ⟨hl, hm, hn⟩ | ⟨c', c, hl, hm, hn, hc⟩ <;>
    rw [hl, hm, hn]
  · exact .ok (by simp)
  · exact (hc.serves _ _ _).imp fun a b _ hab => hab.all

end Poised

theorem Twins.headed (h : Twins S kind .expression m n) (word : String) (depth : Nat) :
    Covered S kind m (Code.headed word depth m) (Code.headed word depth n) := by
  rw [Code.headed, Code.headed]
  exact (h.serves _ _ _).bind fun a b hab => .ok (by simp +contextual [Code.head, hab])

namespace Poised

-- == functions

theorem functionRest (h : Poised S kind m n) (hk : wants kind = wants .functionExpression)
    (allowIn : Bool) (depth : Nat) : Agree S.fails
      (Comprises S kind [("params", .list .expression), ("body", .child .block)] m)
      (Code.functionRest allowIn depth m) (Code.functionRest allowIn depth n) := by
  rw [Code.functionRest, Code.functionRest]
  refine h.needList .expression (hk ▸ by decide) fun cs' cs hl hp => ?_
  refine (expressions_agree hp allowIn depth).bind fun as bs ha => ?_
  refine h.need .block (hk ▸ by decide) fun c' c hl' hb => ?_
  refine (hb.serves depth).bind fun a b hab => .ok ?_
  simp +contextual [Code.parens, hl, hl', ha.commas, hab]

theorem function (h : Poised S kind m n) (hk : wants kind = wants .functionExpression)
    (allowIn : Bool) (depth : Nat) :
    Agree S.fails (Comprises S kind (wants .functionExpression) m)
      (Code.function allowIn depth m) (Code.function allowIn depth n) := by
  have hr := h.functionRest hk allowIn depth
  rw [Code.function, Code.function]
  dsimp only
  rcases h.optional "id" .expression (hk ▸ by decide) with
    ⟨hl, hm, hn⟩ | ⟨c', c, hl, hm, hn, hc⟩ <;> rw [hm, hn]
  · refine hr.bind fun a b hab => .ok ?_
    simp only [Comprises, forall_mem_cons, Want.found] at hab
    simp +contextual [wants, hl, hab]
  · refine (hc.serves _ _ _).bind fun a b hab => ?_
    refine hr.bind fun a' b' hab' => .ok ?_
    simp only [Comprises, forall_mem_cons, Want.found] at hab'
    simp +contextual [wants, hl, hab, hab']

end Poised

-- == expressions

theorem exists_of_expressionBody {allowIn : Bool} (hk : m.kind = .identifier)
    (h : Code.expressionBody allowIn depth m = .ok a) :
    ∃ name, m.string? "name" = some name ∧ a = [.token name] := by
  rw [Code.expressionBody, hk] at h
  obtain ⟨name, hn, h⟩ := bind_ok_iff.1 h
  cases h
  unfold Node.needString at hn
  split at hn
  · next heq =>
    cases hn
    exact ⟨_, heq, rfl⟩
  · cases hn

/-- The function of an accessor is written without a mark and a name. -/
theorem Comprises.mem_of_method (h : Comprises S .functionExpression
      [("params", .list .expression), ("body", .child .block)] m a b)
    (hm : S.whole → m.kind = .functionExpression ∧ m.child? "id" = none) (p : Piece)
    (hp : Shows S .property m p) : p ∈ a := by
  obtain ⟨hki, hid⟩ := hm hp.whole
  cases hp with
  | own _ _ hme => exact absurd rfl (hme hki)
  | kid hw hk hp =>
    rw [hki] at hw hp
    rcases mem_cons.1 hw with rfl | hw
    · simp [hid] at hk
    · exact h.2.2 _ hw p ⟨_, hk, hp⟩

namespace Paired

variable (h : Paired S m n)

include h

theorem literal (hk : n.kind = .literal) :
    Written S .literal m (Code.literal m) (Code.literal n) := by
  have heq : Code.literal m = Code.literal n := by
    rw [Code.literal, Code.literal, h.alike.data?_eq (by decide), h.alike.data?_eq (by decide),
      h.alike.kind_eq]
  rw [heq]
  cases hc : Code.literal n with
  | ok code =>
    refine .ok ?_
    unfold Code.literal at hc
    have hpi : ∃ p : Piece, code = [p] ∧ p.isToken = true := by
      repeat' split at hc
      all_goals cases hc <;> exact ⟨_, rfl, rfl⟩
    obtain ⟨p, rfl, hp⟩ := hpi
    refine ⟨(SameText.cons_iff ?_).2 .nil, fun _ => by rw [any_cons, hp]; rfl, forall_mem_nil _⟩
    cases p <;> first | rfl | cases hp
  | error e =>
    refine .error (h.writable.resolve_right fun hn => ?_) e
    have hok := hn.literal hk
    rw [hc] at hok
    cases hok

theorem expressionBody (hr : S.fails ∨ isExpression n.kind = true)
    (allowIn : Bool) (depth : Nat) : Written S n.kind m
      (Code.expressionBody allowIn depth m) (Code.expressionBody allowIn depth n) := by
  rw [Code.expressionBody, Code.expressionBody, h.alike.kind_eq]
  obtain ⟨kind, hk⟩ : ∃ kind, n.kind = kind := ⟨_, rfl⟩
  have h' : Poised S kind m n := ⟨h, .inr (congrArg wants hk)⟩
  rw [hk] at hr ⊢
  cases kind <;> dsimp only
  case sequenceExpression =>
    refine h'.needList .expression (by decide) fun cs' cs hl hli => ?_
    refine (expressions_agree hli allowIn depth).bind fun as bs habs => .ok ?_
    have ht (hw : S.whole) : (Code.commas as).any Piece.isToken = true := by
      refine habs.any_isToken (fun hni => ?_) hw
      exact (h.regular hw).sequence (h.alike.kind_eq.trans hk) (hl.trans (congrArg some hni))
    exact ⟨habs.commas.1, ht, by simpa [wants, hl] using habs.commas.2⟩
  case assignmentExpression =>
    rw [h.alike.string?_eq (by decide)]
    refine h'.child .expression (by decide) (·.serves _ _ _) fun a b hab => ?_
    refine h'.child .expression (by decide) (·.serves _ _ _) fun a' b' hab' => .ok ?_
    simp +contextual [wants, hab, hab']
  case conditionalExpression =>
    refine h'.child .expression (by decide) (·.serves _ _ _) fun a b hab => ?_
    refine h'.child .expression (by decide) (·.serves _ _ _) fun a' b' hab' => ?_
    refine h'.child .expression (by decide) (·.serves _ _ _) fun a'' b'' hab'' => .ok ?_
    simp +contextual [wants, hab, hab', hab'']
  case logicalExpression | binaryExpression =>
    refine h'.needString (by decide) fun operator => ?_
    refine h'.child .expression (by decide) (·.serves _ _ _) fun a b hab => ?_
    refine h'.child .expression (by decide) (·.serves _ _ _) fun a' b' hab' => .ok ?_
    simp +contextual [wants, hab, hab']
  case unaryExpression =>
    refine h'.needString (by decide) fun operator => ?_
    refine h'.child .expression (by decide) (·.serves _ _ _) fun a b hab => .ok ?_
    simp +contextual [wants, hab]
  case updateExpression =>
    refine h'.needString (by decide) fun operator => ?_
    refine h'.need .expression (by decide) fun c' c hl ha => ?_
    rw [h.alike.flag_eq (by decide)]
    split <;> exact (ha.serves _ _ _).bind fun a b hab => .ok (by simp +contextual [wants, hl, hab])
  case callExpression =>
    refine h'.child .expression (by decide) (·.serves _ _ _) fun a b hab => ?_
    refine h'.needList .expression (by decide) fun cs' cs hl' hli => ?_
    refine (expressions_agree hli allowIn depth).bind fun as bs habs => .ok ?_
    simp +contextual [Code.parens, wants, hl', hab, habs.commas]
  case newExpression =>
    refine h'.need .expression (by decide) fun c' c hl hc => ?_
    rw [hasCall_eq hc.alike]
    split
    all_goals
      refine (hc.serves _ _ _).bind fun a b hab => ?_
      refine h'.needList .expression (by decide) fun cs' cs hl' hli => ?_
      refine (expressions_agree hli allowIn depth).bind fun as bs habs => .ok ?_
      simp +contextual [Code.parens, wants, hl, hl', hab, habs.commas]
  case memberExpression =>
    refine h'.need .expression (by decide) fun o' o hl ho => ?_
    refine h'.need .expression (by decide) fun p' p hl' hn => ?_
    rw [h.alike.flag_eq (by decide), isNumber_eq ho.alike]
    split
    · refine (ho.serves _ _ _).bind fun a b hab => ?_
      refine (hn.serves _ _ _).bind fun a' b' hab' => .ok ?_
      simp +contextual [wants, hl, hl', hab, hab']
    · split
      all_goals
        refine (ho.serves _ _ _).bind fun a b hab => ?_
        refine (hn.serves _ _ _).bind fun a' b' hab' => .ok ?_
        simp +contextual [Code.parens, wants, hl, hl', hab, hab']
  case functionExpression => exact h'.function rfl allowIn depth
  case arrayExpression =>
    refine h'.needList .element (by decide) fun cs' cs hl hli => ?_
    refine (elements_agree hli allowIn depth).bind fun as bs habs => .ok ?_
    simpa [wants, hl] using ⟨habs.brackets.1, by simp [Code.brackets], habs.brackets.2⟩
  case objectExpression =>
    refine h'.needList .property (by decide) fun cs' cs hl hli => ?_
    refine (properties_agree hli allowIn (depth + 1)).bind fun as bs habs => .ok ?_
    have hb := habs.braces [.token ","] depth (by simp)
    exact ⟨hb.1, fun _ => any_braces, by simpa [wants, hl] using hb.2⟩
  case identifier => exact h'.needString (by decide) fun name => .ok (by simp [wants])
  case literal => exact h.literal hk
  case thisExpression => exact .ok (by simp [wants])
  all_goals exact .error (hr.resolve_right Bool.false_ne_true) _

theorem expression (kind : Kind) (hr : S.fails ∨ isExpression n.kind = true)
    (required : Nat) (allowIn : Bool) (depth : Nat) : Covered S kind m
      (Code.expression required allowIn depth m) (Code.expression required allowIn depth n) := by
  rw [Code.expression, Code.expression, Level.ofNode_eq h.alike, isIn_eq h.alike]
  have hc (a b : List Piece) (inside : Bool) (ha : Code.expressionBody inside depth m = .ok a)
      (hab : Comprises S n.kind (wants n.kind) m a b) :
      Covers S kind m (m.marks ++ a) (n.marks ++ b) :=
    h.covers (fun _ => h.alike.kind_eq) (fun hid =>
      (exists_of_expressionBody (h.alike.kind_eq.trans hid) ha).imp fun _ => And.imp_right .inl) hab
  refine ((h.expressionBody hr _ depth).imp fun a b => hc a b _).bind fun a b hab => ?_
  split
  · exact .ok (Covers.parens hab)
  · exact .ok hab

theorem element (hr : S.fails ∨ Role.element.admits n.kind = true)
    (allowIn : Bool) (depth : Nat) : Agree S.fails (CoversItem S kind m)
      (Code.element allowIn depth m) (Code.element allowIn depth n) := by
  rw [Code.element, Code.element, h.alike.kind_eq]
  split
  · next hk =>
    have hk' := h.alike.kind_eq.trans hk
    refine .ok (.none fun p hp => ?_)
    cases hp with
    | own _ hh => exact hh hk'
    | kid hw =>
      rw [hk'] at hw
      cases hw
  · next hk =>
    have he : S.fails ∨ isExpression n.kind = true := by
      simpa [Role.admits, hk] using hr
    exact (h.expression kind he _ _ _).bind fun a b hab => .ok (.some hab)

theorem property (hk : S.fails ∨ n.kind = .property) (allowIn : Bool)
    (depth : Nat) : Written S .property m
      (Code.property allowIn depth m) (Code.property allowIn depth n) := by
  have h' : Poised S .property m n := ⟨h, hk.imp_right (congrArg wants)⟩
  rw [Code.property, Code.property, h.alike.string?_eq (by decide)]
  refine h'.need .expression (by decide) fun k' k hl hke => ?_
  dsimp only
  split
  · next ha =>
    have hw : isGetterOrSetter n = true := by simpa [isGetterOrSetter] using ha
    have hw' : isGetterOrSetter m = true := by
      rwa [isGetterOrSetter, h.alike.string?_eq (by decide), ← isGetterOrSetter]
    have hm : S.fails ∨ (Want.child .method).isMet n "value" = true :=
      hk.elim .inl fun hk => h.writable.imp_right fun hn => hn.accessor hk hw
    refine (hke.serves _ _ _).bind fun a b hab => ?_
    refine h.bind_met (by decide) hm fun v' v hl' (hv : Twins S .property .method v'.1 v.1) => ?_
    refine (hv.serves _ _).bind fun a' b' hab' => .ok ?_
    have hv := Comprises.mem_of_method hab' fun hwh => (h.regular hwh).accessor
      (h.alike.kind_eq.trans (hk.resolve_left (S.sound hwh))) hw' _ hl'
    simp +contextual [wants, hl, hl', hab, hab'.1, hv]
  · rw [hke.alike.kind_eq]
    split
    all_goals
      refine (hke.serves _ _ _).bind fun a b hab => ?_
      refine h'.child .expression (by decide) (·.serves _ _ _) fun a' b' hab' => .ok ?_
      simp +contextual [wants, hl, hab, hab']

end Paired

-- == declarations

namespace Poised

theorem declarator (h : Poised S .variableDeclarator m n) (allowIn : Bool) (depth : Nat) :
    Written S .variableDeclarator m
      (Code.declarator allowIn depth m) (Code.declarator allowIn depth n) := by
  rw [Code.declarator, Code.declarator]
  refine h.child .expression (by decide) (·.serves _ _ _) fun a b hab => ?_
  dsimp only
  rcases h.optional "init" .expression (by decide) with
    ⟨hl', hm, hn⟩ | ⟨i', i, hl', hm, hn, hi⟩ <;> rw [hm, hn]
  · exact .ok (by simp +contextual [wants, hl', hab])
  · refine (hi.serves _ _ _).bind fun a' b' hab' => .ok ?_
    simp +contextual [wants, hl', hab, hab']

theorem declarations (h : Poised S .variableDeclaration m n) (allowIn : Bool) (depth : Nat) :
    Written S .variableDeclaration m
      (Code.declarations allowIn depth m) (Code.declarations allowIn depth n) := by
  rw [Code.declarations, Code.declarations, h.alike.string?_eq (by decide)]
  refine h.needList .declarator (by decide) fun cs' cs hl hli => ?_
  refine (declarators_agree hli allowIn depth).bind fun as bs ha => .ok ?_
  simp +contextual [wants, hl, ha.intercalate [.token ","] (by simp)]

end Poised

theorem Paired.forLeft (h : Paired S m n) (hr : S.fails ∨ Role.loopHead.admits n.kind = true)
    (depth : Nat) : Covered S kind m (Code.forLeft depth m) (Code.forLeft depth n) := by
  rw [Code.forLeft, Code.forLeft, h.alike.kind_eq]
  split
  · next hk =>
    have h' : Poised S .variableDeclaration m n := ⟨h, .inr (congrArg wants hk)⟩
    refine (h'.declarations false depth).bind fun a b hab => .ok ?_
    exact h.covers (fun _ => h.alike.kind_eq.trans hk) nofun hab
  · next hk => exact h.expression kind (by simpa [Role.admits, hk] using hr) _ _ _

-- == statements

namespace Poised

theorem program (h : Poised S .program m n) (kind : Kind) (hk : S.whole → m.kind = .program)
    (hb : S.whole → m.children? "body" ≠ some []) (depth : Nat) :
    Covered S kind m (Code.program depth m) (Code.program depth n) := by
  rw [Code.program, Code.program]
  refine h.needList .item (by decide) fun cs' cs hl hli => ?_
  refine (statements_agree hli depth).bind fun as bs ha => .ok ?_
  have hal := ha.intercalate [.newline depth] (by simp)
  refine h.covers hk nofun ⟨hal.1, fun hw => ?_, by simpa [wants, hl] using hal.2⟩
  refine ha.any_isToken (fun hn => ?_) hw
  exact hb hw (hl.trans (congrArg some hn))

theorem block (h : Poised S .blockStatement m n) (hk : S.whole → m.kind = .blockStatement)
    (depth : Nat) : Covered S kind m (Code.block depth m) (Code.block depth n) := by
  rw [Code.block, Code.block]
  refine h.needList .item (by decide) fun cs' cs hl hli => ?_
  refine (statements_agree hli (depth + 1)).bind fun as bs hab => .ok ?_
  have ha := hab.braces [] depth (by simp)
  exact h.covers hk nofun ⟨ha.1, fun _ => any_braces, by simpa [wants, hl] using ha.2⟩

theorem catchClause (h : Poised S .catchClause m n) (hk : S.whole → m.kind = .catchClause)
    (depth : Nat) : Covered S kind m (Code.catchClause depth m) (Code.catchClause depth n) := by
  rw [Code.catchClause, Code.catchClause]
  refine h.child .expression (by decide) (·.serves _ _ _) fun a b hab => ?_
  refine h.child .block (by decide) (·.serves _) fun a' b' hab' => .ok ?_
  simp only [cons_append, append_assoc]
  refine Covers.cons (h.covers hk nofun ?_) rfl
  simp +contextual [Code.head, wants, hab, hab']

theorem switchCase (h : Poised S .switchCase m n) (depth : Nat) : Written S .switchCase m
      (Code.switchCase depth m) (Code.switchCase depth n) := by
  have hlin {cs' cs : List Node} (hli : List.Forall₂ (Twins S .switchCase .statement) cs' cs) :
      Agree S.fails (fun as bs => CoversAll S .switchCase cs'
        (as.flatMap (.newline (depth + 2) :: ·)) (bs.flatMap (.newline (depth + 2) :: ·)))
        (Code.statements (depth + 2) cs') (Code.statements (depth + 2) cs) := by
    have hi := hli.imp fun c' c hc =>
      (⟨hc.alike, fun depth => (hc.serves depth).1⟩ : Twins S .switchCase .item c' c)
    refine (statements_agree hi (depth + 2)).imp fun as bs _ ha => ?_
    simpa [List.flatMap] using (ha.lines (depth + 2)).flatten
  rw [Code.switchCase, Code.switchCase]
  dsimp only
  rcases h.optional "test" .expression (by decide) with
    ⟨hl, hm, hn⟩ | ⟨c', c, hl, hm, hn, ht⟩ <;> rw [hm, hn]
  · refine h.needList .statement (by decide) fun cs' cs hl' hli => ?_
    refine (hlin hli).bind fun as bs ha => .ok ?_
    simp +contextual [wants, hl, hl', ha, -mem_flatMap]
  · refine (ht.serves _ _ _).bind fun a b hab => ?_
    refine h.needList .statement (by decide) fun cs' cs hl' hli => ?_
    refine (hlin hli).bind fun as bs ha => .ok ?_
    simp +contextual [wants, hl, hl', hab, ha, -mem_flatMap]

end Poised

theorem names_statementBody (hk : m.kind = .identifier) (h : Code.statementBody depth m = .ok a) :
    Names m a := by
  have hw : (decide (Level.ofNode m < Level.sequence) || Code.isIn m && !true) = false := by
    simp [Level.ofNode, hk, Level.sequence]
  rw [Code.statementBody, hk] at h
  change Code.expression Level.sequence true depth m = _ at h
  rw [Code.expression, hw] at h
  obtain ⟨code, hc, h⟩ := bind_ok_iff.1 h
  cases h
  obtain ⟨name, hn, rfl⟩ := exists_of_expressionBody hk hc
  exact ⟨name, hn, .inr rfl⟩

namespace Paired

theorem statementBody (h : Paired S m n) (hr : S.fails ∨ Role.item.admits n.kind = true)
    (depth : Nat) : Written S n.kind m
      (Code.statementBody depth m) (Code.statementBody depth n) := by
  have he := h.expression .program
  have hki := h.alike.kind_eq
  rw [Code.statementBody, Code.statementBody, h.alike.kind_eq]
  obtain ⟨kind, hk⟩ : ∃ kind, n.kind = kind := ⟨_, rfl⟩
  have h' : Poised S kind m n := ⟨h, .inr (congrArg wants hk)⟩
  rw [hk] at hr he hki ⊢
  cases kind <;> dsimp only
  case program =>
    have hfa : S.fails := hr.resolve_right Bool.false_ne_true
    exact (h'.program .program (fun _ => hki) (fun hwh => absurd hfa (S.sound hwh))
      depth).imp fun a b _ hab => Covers.comprises hab hki
  case blockStatement =>
    exact (h'.block (fun _ => hki) depth).imp fun a b _ hab => Covers.comprises hab hki
  case emptyStatement => exact .ok (by simp [wants])
  case debuggerStatement => exact .ok (by simp [wants])
  case expressionStatement =>
    refine h'.need .expression (by decide) fun c' c hl hi => ?_
    refine (hi.serves _ _ _).bind fun a b hab => .ok ?_
    rw [startsLikeStatement_eq hi.alike]
    split <;> simp +contextual [Code.parens, wants, hl, hab]
  case variableDeclaration =>
    refine (h'.declarations true depth).bind fun a b hab => .ok ?_
    exact ⟨hab.1.append (by simp), fun _ => by simp,
      fun w hw p hp => mem_append_left _ (hab.2.2 w hw p hp)⟩
  case functionDeclaration => exact h'.function rfl true depth
  case returnStatement | throwStatement =>
    rw [Code.argument, Code.argument]
    exact (h'.spaced depth (by decide)).bind fun a b hab => .ok (by simp +contextual [wants, hab])
  case breakStatement | continueStatement =>
    exact (h'.label depth (by decide)).bind fun a b hab => .ok (by simp +contextual [wants, hab])
  case labeledStatement =>
    refine h'.child .expression (by decide) (·.serves _ _ _) fun a b hab => ?_
    refine h'.child .statement (by decide) (fun hc => (hc.serves _).1) fun a' b' hab' => .ok ?_
    simp +contextual [wants, hab, hab']
  case withStatement =>
    refine h'.child .expression (by decide) (·.headed "with" depth) fun a b hab => ?_
    refine h'.child .statement (by decide) (fun hc => (hc.serves _).2) fun a' b' hab' => .ok ?_
    simp +contextual [wants, hab, hab']
  case ifStatement =>
    refine h'.child .expression (by decide) (·.headed "if" depth) fun a b hab => ?_
    refine h'.need .statement (by decide) fun c' c hc hco => ?_
    refine (hco.serves depth).2.bind fun a' b' hab' => ?_
    rcases h'.optional "alternate" .statement (by decide) with
      ⟨hl, hm, hn⟩ | ⟨o', o, hl, hm, hn, ho⟩ <;> rw [hm, hn]
    · exact .ok (by simp +contextual [wants, hc, hl, hab, hab'])
    · dsimp only
      rw [ho.alike.kind_eq, Code.resume, hco.alike.kind_eq, ← Code.resume]
      split
      · refine (ho.serves _).1.bind fun x y hxy => .ok ?_
        simp +contextual [wants, hc, hl, hab, hab', hxy]
      · refine (ho.serves _).2.bind fun x y hxy => .ok ?_
        simp +contextual [wants, hc, hl, hab, hab', hxy]
  case forStatement =>
    rcases h'.optional "init" .loopHead (by decide) with ⟨hl, hm, hn⟩ | ⟨i', i, hl, hm, hn, hin⟩ <;>
      rw [hm, hn]
    · refine (h'.spaced depth (by decide)).bind fun a b hab => ?_
      refine (h'.spaced depth (by decide)).bind fun a' b' hab' => ?_
      refine h'.child .statement (by decide) (fun hc => (hc.serves depth).2) fun p q hpq => .ok ?_
      simp +contextual [Code.head, wants, hl, hab, hab', hpq]
    · refine (hin.serves depth).bind fun x y hxy => ?_
      refine (h'.spaced depth (by decide)).bind fun a b hab => ?_
      refine (h'.spaced depth (by decide)).bind fun a' b' hab' => ?_
      refine h'.child .statement (by decide) (fun hc => (hc.serves depth).2) fun p q hpq => .ok ?_
      simp +contextual [Code.head, wants, hl, hxy, hab, hab', hpq]
  case forInStatement =>
    refine h'.child .loopHead (by decide) (·.serves depth) fun a b hab => ?_
    refine h'.child .expression (by decide) (·.serves _ _ _) fun a' b' hab' => ?_
    refine h'.child .statement (by decide) (fun hc => (hc.serves depth).2) fun p q hpq => .ok ?_
    simp +contextual [Code.head, wants, hab, hab', hpq]
  case whileStatement =>
    refine h'.child .expression (by decide) (·.headed "while" depth) fun a b hab => ?_
    refine h'.child .statement (by decide) (fun hc => (hc.serves depth).2) fun a' b' hab' => .ok ?_
    simp +contextual [wants, hab, hab']
  case doWhileStatement =>
    refine h'.need .statement (by decide) fun c' c hl hb => ?_
    refine (hb.serves depth).2.bind fun a b hab => ?_
    refine h'.need .expression (by decide) fun t' t hl' ht => ?_
    rw [Code.resume, hb.alike.kind_eq, ← Code.resume]
    refine (ht.serves _ _ _).bind fun a' b' hab' => .ok ?_
    simp +contextual [Code.head, wants, hl, hl', hab, hab']
  case tryStatement =>
    refine h'.child .block (by decide) (·.serves depth) fun a b hab => ?_
    rcases h'.optional "handler" .handler (by decide) with
        ⟨hc, hm, hn⟩ | ⟨k', k, hc, hm, hn, hh⟩ <;>
      rcases h'.optional "finalizer" .block (by decide) with
        ⟨hf, hm', hn'⟩ | ⟨f', f, hf, hm', hn', hfi⟩ <;>
      rw [hm, hn, hm', hn']
    · exact .ok (by simp +contextual [wants, hc, hf, hab])
    · refine (hfi.serves depth).bind fun x y hxy => .ok ?_
      simp +contextual [wants, hc, hf, hab, hxy]
    · refine (hh.serves depth).bind fun a' b' hab' => .ok ?_
      simp +contextual [wants, hc, hf, hab, hab']
    · refine (hh.serves depth).bind fun a' b' hab' => ?_
      refine (hfi.serves depth).bind fun x y hxy => .ok ?_
      simp +contextual [wants, hc, hf, hab, hab', hxy]
  case switchStatement =>
    refine h'.child .expression (by decide) (·.headed "switch" depth) fun a b hab => ?_
    refine h'.needList .switchCase (by decide) fun cs' cs hl' hli => ?_
    refine (cases_agree hli depth).bind fun as bs ha => .ok ?_
    simp +contextual [Code.openBrace, Code.closeBrace, wants, hl', hab, ha.flatten, -mem_flatten]
  all_goals first
    | exact (he (.inr rfl) Level.sequence true depth).imp
        fun a b _ hab => Covers.comprises hab hki
    | exact .error (hr.resolve_right Bool.false_ne_true) _

theorem statement (h : Paired S m n) (hr : S.fails ∨ Role.item.admits n.kind = true) (depth : Nat) :
    Covered S kind m (Code.statement depth m) (Code.statement depth n) := by
  rw [Code.statement, Code.statement]
  refine ((h.statementBody hr depth).imp fun a b ha hab => ?_).bind fun a b hab => .ok hab
  exact h.covers (fun _ => h.alike.kind_eq)
    (fun hid => names_statementBody (h.alike.kind_eq.trans hid) ha) hab

theorem substatement (h : Paired S m n) (hr : S.fails ∨ Role.item.admits n.kind = true)
    (depth : Nat) : Covered S kind m (Code.substatement depth m) (Code.substatement depth n) := by
  have hki := h.alike.kind_eq
  rw [Code.substatement, Code.substatement, hki]
  split
  · next hk =>
    have h' : Poised S .blockStatement m n := ⟨h, .inr (congrArg wants hk)⟩
    exact (h'.block (fun _ => hki.trans hk) depth).bind fun a b hab => .ok (Covers.cons hab rfl)
  · next hk => exact .ok (h.covers (fun _ => hki.trans hk) (by simp) (by simp [wants]))
  · exact (h.statement hr _).bind fun a b hab => .ok (Covers.cons hab rfl)

theorem twins (h : Paired S m n) (role : Role) (hr : S.fails ∨ role.admits n.kind = true) :
    Twins S kind role m n := by
  refine ⟨h.alike, ?_⟩
  have hp {kind : Kind} (hk : S.fails ∨ (n.kind == kind) = true) : Poised S kind m n :=
    ⟨h, hk.imp_right fun hk => by rw [eq_of_beq hk]⟩
  have hk {kind : Kind} (hk : S.fails ∨ (n.kind == kind) = true) (hw : S.whole) :
      m.kind = kind :=
    h.alike.kind_eq.trans (eq_of_beq (hk.resolve_left (S.sound hw)))
  cases role with
  | expression => exact h.expression kind hr
  | element => exact h.element hr
  | statement =>
    have hi : S.fails ∨ Role.item.admits n.kind = true :=
      hr.imp_right fun hr => Bool.or_eq_true_iff.2 (.inl hr)
    exact fun depth => ⟨h.statement hi depth, h.substatement hi depth⟩
  | item => exact h.statement hr
  | loopHead => exact h.forLeft hr
  | block => exact (hp hr).block (hk hr)
  | declarator =>
    exact fun allowIn depth => ((hp hr).declarator allowIn depth).imp
      fun a b _ hab => h.covers (hk hr) nofun hab
  | handler => exact (hp hr).catchClause (hk hr)
  | switchCase =>
    exact fun depth => ((hp hr).switchCase depth).imp fun a b _ hab => h.covers (hk hr) nofun hab
  | property =>
    exact fun allowIn depth => (h.property (hr.imp_right eq_of_beq) allowIn depth).imp
      fun a b _ hab => h.covers (hk hr) nofun hab
  | method => exact (hp hr).functionRest rfl

end Paired

theorem paired (ha : m.Alike n) (hm : ∀ k ∈ m.preorder, ∀ a, (S.whole → a.any Piece.isToken = true ∧
      (k.kind = .identifier → Names k a)) → S.good a → S.good (k.marks ++ a))
    (hwr : S.fails ∨ n.Every Writable) (hr : S.whole → m.Every Regular) :
    Paired S m n := by
  induction n using induction_kids generalizing m with
  | _ n ih =>
    refine ⟨ha, hm m (mem_preorder_self m), hwr.imp_right fun h => (every_iff.1 h).1,
      fun hw => (every_iff.1 (hr hw)).1,
      fun k' hk' k hk ha' kind role hro => ?_⟩
    refine (ih k hk ha' (fun c hc => hm c (mem_preorder_of_kid hk' hc)) ?_ ?_).twins role hro
    · exact hwr.imp_right fun h => (every_iff.1 h).2 k hk
    · exact fun hw => (every_iff.1 (hr hw)).2 k' hk'

end Nodes

-- == texts and marks

/-- The marks have a property, and nothing else is known of the trees. -/
def Scheme.marking (fails : Prop) (P : Mark → Prop) : Scheme where
  fails := fails
  whole := False
  good ps := ∀ m, .mark m ∈ ps → P m
  sound := False.elim
  nil := nofun
  append h := by simp only [mem_append, or_imp, forall_and, and_iff_right h]
  piece hp m hm := by
    cases mem_singleton.1 hm
    cases hp

theorem program_agree {fails : Prop} {P : Mark → Prop} (hal : m.Alike n)
    (hm : ∀ k ∈ m.preorder, ∀ mark, .mark mark ∈ k.marks → P mark)
    (hn : fails ∨ n.kind = .program ∧ n.Every Writable) (depth : Nat) :
    Agree fails (SameText (.marking fails P)) (Code.program depth m) (Code.program depth n) := by
  have hp : Paired (.marking fails P) m n := by
    refine paired hal (fun k hk a _ ha => ?_) (hn.imp_right And.right) False.elim
    exact ((Scheme.marking fails P).append (hm k hk)).2 ha
  have hpo : Poised (.marking fails P) .program m n :=
    ⟨hp, hn.imp_right fun hn => congrArg wants hn.1⟩
  exact (hpo.program .program False.elim False.elim depth).imp fun a b _ hab => hab.1

/-- Alike trees have the same code, or none for the same reason. -/
theorem generateCode_eq_of_alike {t u : Tree} (h : t.root.Alike u.root) (ind : Bool) :
    generateCode ind t = generateCode ind u := by
  unfold generateCode
  have ha := program_agree (P := fun _ => True) h (fun _ _ _ _ => trivial) (.inl trivial) 0
  generalize Code.program 0 t.root = x at ha
  generalize Code.program 0 u.root = y at ha
  cases ha with
  | ok hs =>
    exact congrArg (fun ps => Except.ok (String.ofList (draw ind ps).code)) hs.text
  | error _ e => rfl

/-- If one of two alike programs has code, the other has the same but for
its marks. -/
theorem program_of_alike {Q : List Piece} (h : m.Alike n) (hQ : Code.program depth n = .ok Q) :
    ∃ P, Code.program depth m = .ok P ∧ P.filter (!·.isMark) = Q.filter (!·.isMark) := by
  have ha := program_agree (P := fun _ => True) h (fun _ _ _ _ => trivial) (.inl trivial) depth
  rw [hQ] at ha
  generalize Code.program depth m = x at ha ⊢
  cases ha with
  | ok hs => exact ⟨_, rfl, hs.text⟩

/-- A program all of whose nodes are writable has code. -/
theorem program_succeeds (h : n.Every Writable) (hk : n.kind = .program) (depth : Nat) :
    ∃ code, Code.program depth n = .ok code := by
  have ha := program_agree (P := fun _ => True) (.refl n) (fun _ _ _ _ => trivial)
    (.inr ⟨hk, h⟩ : False ∨ _) depth
  generalize Code.program depth n = x at ha ⊢
  cases ha with
  | ok => exact ⟨_, rfl⟩
  | error hf => exact hf.elim

/-- The marks of code are of nodes of the tree. -/
theorem isMark_of_program {root : Node} {code : List Piece} (h : Code.program depth root = .ok code)
    {mark : Mark} (hm : .mark mark ∈ code) : ∃ n ∈ root.preorder, .mark mark ∈ n.marks := by
  have ha := program_agree (P := fun mark => ∃ n ∈ root.preorder, .mark mark ∈ n.marks)
    (.refl root) (fun n hn mark hm => ⟨n, hn, hm⟩) (.inl trivial) depth
  rw [h] at ha
  cases ha with
  | ok hs => exact hs.good mark hm

-- == tokens of marks

/-- Every mark has a token behind it. One with a name has its name behind
it, or itself once more. -/
def Flushed : List Piece → Prop
  | [] => True
  | .mark m :: ps => ps.any Piece.isToken = true ∧ (∀ name, m.name = some name →
      ps.head? = some (.token name) ∨ ps.head? = some (.mark m)) ∧ Flushed ps
  | _ :: ps => Flushed ps

def Scheme.flushing : Scheme where
  fails := False
  whole := True
  good := Flushed
  sound _ := False.elim
  nil := trivial
  append {ps qs} h := by
    fun_induction Flushed ps with
    | case1 => rfl
    | case2 m ps ih =>
      obtain ⟨htoken, hname, h⟩ := h
      rw [cons_append, Flushed, any_append, htoken, ih h]
      refine ⟨fun h => h.2.2, fun h => ⟨rfl, fun name hm => ?_, h⟩⟩
      rw [head?_append]
      exact (hname name hm).imp (by simp +contextual) (by simp +contextual)
    | case3 p ps hp ih =>
      rw [cons_append, Flushed.eq_3 _ _ hp]
      exact ih h
  piece {p} hp := by cases p <;> trivial

theorem flushed_marks (h : ps.any Piece.isToken = true) (hn : n.kind = .identifier → Names n ps)
    (hps : Flushed ps) : Flushed (n.marks ++ ps) := by
  cases hma : n.marks with
  | nil => exact hps
  | cons p rest =>
    have hm := hma
    unfold Node.marks at hm
    split at hm <;> cases hm
    refine ⟨h, fun name heq => ?_, hps⟩
    change (if n.kind = .identifier then n.string? "name" else none) = some name at heq
    split at heq
    · next hk =>
      obtain ⟨name', hn', hps⟩ := hn hk
      cases heq.symm.trans hn'
      refine hps.imp (fun hps => ?_) fun hps => ?_
      · rw [hps]
        rfl
      · rw [hps, hma]
        rfl
    · cases heq

/-- If nothing in a program is out of place, the marks of what is written
are there, and each has its token. -/
theorem program_flushed (hk : n.kind = .program) (hw : n.Every Writable)
    (hr : n.Every Regular) (hb : n.children? "body" ≠ some []) (depth : Nat) :
    ∃ code, Code.program depth n = .ok code ∧ Flushed code ∧
      ∀ p, Shows .flushing .program n p → p ∈ code := by
  have hp : Paired .flushing n n :=
    paired (.refl n) (fun k _ a ha => flushed_marks (ha trivial).1 (ha trivial).2) (.inr hw)
      (fun _ => hr)
  have hpo : Poised .flushing .program n n := ⟨hp, .inr (congrArg wants hk)⟩
  have hag := hpo.program .program (fun _ => hk) (fun _ => hb) depth
  generalize Code.program depth n = x at hag ⊢
  cases hag with
  | ok h => exact ⟨_, rfl, h.1.good, h.2.2⟩
  | error hf => exact hf.elim

end Inlay.Script
