/-
What the nodes of scripts are made of.

The nodes of foreign documents may have any properties. Those of scripts
have the children that the generator looks for and some notes, which are
plain data, and nothing else (`isPart`). What is known of a node by itself
is `Regular`.
-/
import Inlay.Proofs.Script.Writable
import Inlay.Proofs.Tree.Relabels
import Inlay.Tree.Document

namespace Inlay

open List

variable {f : Node → Node}

/-- Data that has neither the shape of a node nor that of a list. -/
def Json.isPlain : Json → Bool
  | .arr _ => false
  | .obj members => !isNodeJson (.obj members)
  | _ => true

namespace Script

-- == parts

def Want.isList : Want → Bool
  | list _ => true
  | _ => false

/-- The keys under which a node of the kind has lists. -/
def listKeys (kind : Kind) : List String := ((wants kind).filter (·.2.isList)).map (·.1)

/-- The keys under which a node of the kind has a child or a text. -/
def soleKeys (kind : Kind) : List String := ((wants kind).filter (!·.2.isList)).map (·.1)

/-- The keys of the data that tell nodes of the kind apart. -/
def noteKeys : Kind → List String
  | .literal => ["value", "raw", "regex"]
  | .property | .variableDeclaration => ["kind"]
  | .memberExpression => ["computed"]
  | .unaryExpression | .updateExpression => ["prefix"]
  | .assignmentExpression => ["operator"]
  | .forInStatement => ["each"]
  | _ => []

/-- Whether the property is one that nodes of the kind have. -/
def isPart (kind : Kind) (e : String × Field Node) : Bool :=
  match e.2 with
  | .node _ => (soleKeys kind).contains e.1
  | .nodes _ => (listKeys kind).contains e.1
  | .data j => j.isPlain && (soleKeys kind ++ noteKeys kind).contains e.1

/-- What is known of a node of a script, its children apart. -/
@[mk_iff]
structure Regular (n : Node) : Prop where
  known : n.kind.isKnown = true
  parts : ∀ e ∈ n.props, isPart n.kind e = true
  hole : n.kind = .elision → n.range = none
  sequence : n.kind = .sequenceExpression → n.children? "expressions" ≠ some []
  /-- The function of an accessor has no name of its own. -/
  accessor : n.kind = .property → isGetterOrSetter n = true → ∀ f, n.child? "value" = some f →
    f.kind = .functionExpression ∧ f.child? "id" = none

variable {n : Node} {kind : Kind} {key : String} {want : Want} {e : String × Field Node} {m : Node}

@[simp] theorem isPart_node (n : Node) :
    isPart kind (key, .node n) = (soleKeys kind).contains key := rfl

@[simp] theorem isPart_nodes (ns : List Node) :
    isPart kind (key, .nodes ns) = (listKeys kind).contains key := rfl

@[simp] theorem isPart_data (j : Json) :
    isPart kind (key, .data j) = (j.isPlain && (soleKeys kind ++ noteKeys kind).contains key) :=
  rfl

theorem isPart_ofNode? (hk : (soleKeys kind).contains key = true) (n : Option Node) :
    isPart kind (key, .ofNode? n) = true := by
  cases n with
  | none =>
    show (soleKeys kind ++ noteKeys kind).contains key = true
    rw [contains_append, hk, Bool.true_or]
  | some n => exact hk

theorem Regular.mem_keys (h : Regular n) (hk : key ∈ n.keys) :
    key ∈ listKeys n.kind ++ (soleKeys n.kind ++ noteKeys n.kind) := by
  obtain ⟨⟨key, field⟩, he, rfl⟩ := mem_map.1 hk
  have hp := h.parts _ he
  cases field with
  | node _ =>
    exact mem_append_right _ (mem_append_left _ (contains_iff_mem.1 hp))
  | nodes _ => exact mem_append_left _ (contains_iff_mem.1 hp)
  | data j =>
    exact mem_append_right _ (contains_iff_mem.1 (Bool.and_eq_true_iff.1 hp).2)

/-- What is found under a key that is looked for is fit for its role. -/
theorem Writable.admits_child {c : Node} (h : Writable n)
    (hw : (key, want) ∈ Script.wants n.kind) (hg : n.get? key = some (.node c)) :
    ∃ role : Role, (want = .child role ∨ want = .optional role) ∧ role.admits c.kind = true := by
  have hm := meets_iff.1 h.wants _ hw
  cases want with
  | child role =>
    refine ⟨role, .inl rfl, ?_⟩
    rwa [Want.isMet, Node.child?, hg] at hm
  | optional role =>
    refine ⟨role, .inr rfl, ?_⟩
    rwa [Want.isMet, Node.child?, hg] at hm
  | list role =>
    rw [Want.isMet, Node.children?, hg] at hm
    cases hm
  | text =>
    rw [Want.isMet, Node.string?, Node.data?, hg] at hm
    cases hm

theorem Writable.admits_item {cs : List Node} (h : Writable n)
    (hw : (key, want) ∈ Script.wants n.kind) (hl : want.isList = true)
    (hg : n.get? key = some (.nodes cs)) :
    ∃ role : Role, want = .list role ∧ ∀ c ∈ cs, role.admits c.kind = true := by
  have hm := meets_iff.1 h.wants _ hw
  cases want with
  | list role =>
    rw [Want.isMet, Node.children?, hg] at hm
    exact ⟨role, rfl, all_eq_true.1 hm⟩
  | _ => cases hl

-- == holes

theorem Role.eq_element {role : Role} (h : role.admits .elision = true) : role = .element := by
  cases role with
  | element => rfl
  | _ => cases h

theorem wants_element (h : (key, want) ∈ wants kind) :
    want ≠ .child .element ∧ want ≠ .optional .element ∧
      (want = .list .element → kind = .arrayExpression ∧ key = "elements") := by
  cases kind <;> simp only [wants, mem_cons, Prod.mk.injEq, not_mem_nil, or_false] at h <;> grind

/-- All children are found, and are fit for their roles. -/
theorem Regular.exists_found (h : Regular n) (hk : n.keys.Nodup) (hwr : Writable n)
    (he : e ∈ n.props) (hm : m ∈ e.2.children) :
    ∃ want role, (e.1, want) ∈ wants n.kind ∧ m ∈ want.found n e.1 ∧ role.admits m.kind = true ∧
      (want = .child role ∨ want = .optional role ∨ want = .list role ∧ e.2.isList = true) := by
  obtain ⟨key, field⟩ := e
  have hg : n.get? key = some field := Entries.lookup_of_mem hk he
  have hp := h.parts _ he
  cases field with
  | data j => cases hm
  | node c =>
    cases mem_singleton.1 hm
    obtain ⟨⟨_, want⟩, hme, rfl⟩ := mem_map.1 (contains_iff_mem.1 hp)
    have hw := (mem_filter.1 hme).1
    obtain ⟨role, rfl | rfl, hr⟩ := hwr.admits_child hw hg
    · exact ⟨_, role, hw, by simp [Node.child?, hg], hr, .inl rfl⟩
    · exact ⟨_, role, hw, by simp [Node.child?, hg], hr, .inr (.inl rfl)⟩
  | nodes cs =>
    obtain ⟨⟨_, want⟩, hme, rfl⟩ := mem_map.1 (contains_iff_mem.1 hp)
    obtain ⟨hw, hl⟩ := mem_filter.1 hme
    obtain ⟨role, rfl, hro⟩ := hwr.admits_item hw hl hg
    exact ⟨_, role, hw, by simpa [Node.children?, hg] using hm, hro m hm, .inr (.inr ⟨rfl, rfl⟩)⟩

/-- A child that is a hole is an item of an array. -/
theorem Regular.list_of_elision (h : Regular n) (hk : n.keys.Nodup) (hwr : Writable n)
    (he : e ∈ n.props) (hm : m ∈ e.2.children) (hki : m.kind = .elision) :
    e.2.isList = true ∧ n.kind = .arrayExpression ∧ e.1 = "elements" := by
  obtain ⟨want, role, hw, -, hr, heq⟩ := h.exists_found hk hwr he hm
  obtain ⟨hc, ho, hl⟩ := wants_element hw
  rw [hki] at hr
  cases Role.eq_element hr
  rcases heq with heq | heq | ⟨heq, hf⟩
  · exact absurd heq hc
  · exact absurd heq ho
  · exact ⟨hf, hl heq⟩

-- == changes

/-- The node can stand wherever the other one can. -/
def StandsFor (c' c : Node) : Prop := ∀ role : Role, role.admits c.kind = true → role.admits c'.kind = true

/-- A node like a writable one: its data are the same, and its children
can stand for those of the other; a body may have further items. -/
theorem Writable.transfer (h : Writable n) (hk : m.kind = n.kind)
    (hd : ∀ key, m.data? key = n.data? key)
    (hch : ∀ key c, n.child? key = some c → ∃ c', m.child? key = some c' ∧ StandsFor c' c)
    (hb : ∀ key c', m.child? key = some c' → ∃ c, n.child? key = some c ∧ StandsFor c' c)
    (hl : ∀ key cs, n.children? key = some cs → ∃ cs', m.children? key = some cs' ∧
      ∀ c' ∈ cs', (∃ c ∈ cs, StandsFor c' c) ∨
        (n.kind.isContainer = true ∧ key = "body" ∧ Role.item.admits c'.kind = true)) :
    Writable m := by
  have hch' {key : String} {role : Role} (hm : (Want.child role).isMet n key = true) :
      (Want.child role).isMet m key = true := by
    rw [Want.isMet, Option.any_eq_true] at hm ⊢
    obtain ⟨c, hc, hr⟩ := hm
    obtain ⟨c', hc', hs⟩ := hch key c hc
    exact ⟨c', hc', hs role hr⟩
  refine ⟨meets_iff.2 fun want hw => ?_, fun hli => ?_, fun hp ha => ?_⟩
  · rw [hk] at hw
    have hm := meets_iff.1 h.wants want hw
    obtain ⟨key, want⟩ := want
    cases want with
    | child role => exact hch' hm
    | optional role =>
      rw [Want.isMet, Option.all_eq_true] at hm ⊢
      intro c' hc'
      obtain ⟨c, hc, hs⟩ := hb key c' hc'
      exact hs role (hm c hc)
    | list role =>
      rw [Want.isMet, Option.any_eq_true] at hm ⊢
      obtain ⟨cs, hcs, hro⟩ := hm
      obtain ⟨cs', hcs', hit⟩ := hl key cs hcs
      refine ⟨cs', hcs', all_eq_true.2 fun c' hc' => ?_⟩
      rcases hit c' hc' with ⟨c, hc, hs⟩ | ⟨hco, rfl, hi⟩
      · exact hs role (all_eq_true.1 hro c hc)
      · -- only the bodies of programs and blocks have further items
        have hr : role = .item := by
          cases hn : n.kind <;> rw [hn] at hco hw <;> cases hco
          · cases mem_singleton.1 hw
            rfl
          · cases mem_singleton.1 hw
            rfl
        exact hr ▸ hi
    | text =>
      rw [Want.isMet, Node.string?] at hm ⊢
      rw [hd]
      exact hm
  · have hcod : Code.literal m = Code.literal n := by
      rw [Code.literal, Code.literal, hd, hd, hk]
    rw [hcod]
    exact h.literal (hk ▸ hli)
  · refine hch' (h.accessor (hk ▸ hp) ?_)
    rw [isGetterOrSetter, Node.string?] at ha ⊢
    rwa [← hd]

end Script

open Script (Regular isPart isGetterOrSetter Writable Want Code.literal)

theorem Relabels.isGetterOrSetter_eq (h : Relabels f) (n : Node) :
    isGetterOrSetter (f n) = isGetterOrSetter n := by
  rw [isGetterOrSetter, isGetterOrSetter, Node.string?, Node.string?, h.data?]

theorem Relabels.regular_iff (h : Relabels f) (n : Node) : Regular (f n) ↔ Regular n := by
  have hp : (∀ e ∈ (f n).props, isPart n.kind e = true) ↔ ∀ e ∈ n.props, isPart n.kind e = true := by
    rw [h.props, forall_mem_map]
    refine forall₂_congr fun e _ => ?_
    obtain ⟨key, field⟩ := e
    cases field <;> rfl
  rw [Script.regular_iff, Script.regular_iff, h.kind, hp, h.isGetterOrSetter_eq]
  simp [h.kind, h.range, h.children?, h.child?]

theorem Relabels.writable_iff (h : Relabels f) (n : Node) : Writable (f n) ↔ Writable n := by
  have hm (key : String) (want : Want) : want.isMet (f n) key = want.isMet n key := by
    cases want <;> simp [Want.isMet, Node.string?, h.child?, h.children?, h.data?, h.kind,
      Option.any_map, Option.all_map, Function.comp_def]
  have hl : Code.literal (f n) = Code.literal n := by
    rw [Code.literal, Code.literal, h.data?, h.data?, h.kind]
  rw [Script.writable_iff, Script.writable_iff, Script.meets_iff, Script.meets_iff, hl, h.kind,
    h.isGetterOrSetter_eq]
  simp only [hm]

end Inlay
