/-
What two spellings of a tree have in common.

`Node.stripped` is a tree without ranges and locations, comments, and the
raw text of literals; two trees are alike if they are the same once
stripped. Alike nodes have the same kind, the same data under every key but
`raw`, and alike children, which is all the code of a tree depends on.
-/
import Inlay.Tree.Basic
import Mathlib

namespace Inlay

namespace Node

-- == stripping

mutual
/-- The subtree without positions, comments and raw texts. -/
def stripped : Node → Node
  | ⟨kind, props, _, _, _, _⟩ =>
      ⟨kind, strippedProps (kind == .literal) props, none, none, [], []⟩

/-- The properties of a node, stripped. Only a literal loses its raw
text. -/
def strippedProps (literal : Bool) : List (String × Field Node) → List (String × Field Node)
  | [] => []
  | (key, .node n) :: rest => (key, .node n.stripped) :: strippedProps literal rest
  | (key, .nodes ns) :: rest => (key, .nodes (strippedNodes ns)) :: strippedProps literal rest
  | (key, .data j) :: rest =>
      if literal && key == "raw" then strippedProps literal rest
      else (key, .data j) :: strippedProps literal rest

def strippedNodes : List Node → List Node
  | [] => []
  | n :: rest => n.stripped :: strippedNodes rest
end

@[simp] theorem strippedNodes_eq_map (ns : List Node) : strippedNodes ns = ns.map stripped := by
  induction ns with
  | nil => rfl
  | cons n rest ih => rw [strippedNodes, ih, List.map_cons]

@[simp] theorem kind_stripped (n : Node) : n.stripped.kind = n.kind := by
  cases n
  rfl

theorem props_stripped (n : Node) :
    n.stripped.props = strippedProps (n.kind == .literal) n.props := by
  cases n
  rfl

/-- A property, stripped. -/
def strippedField : Field Node → Field Node
  | .node n => .node n.stripped
  | .nodes ns => .nodes (ns.map stripped)
  | .data j => .data j

theorem lookup_strippedProps {literal : Bool} {key : String}
    (hke : literal = true → key ≠ "raw") (props : Node.Props) :
    (strippedProps literal props).lookup key = (props.lookup key).map strippedField := by
  induction props with
  | nil => rfl
  | cons entry rest ih =>
    obtain ⟨k, field⟩ := entry
    cases field with
    | node n =>
      simp only [strippedProps, List.lookup_cons, ih]
      split <;> rfl
    | nodes ns =>
      simp only [strippedProps, strippedNodes_eq_map, List.lookup_cons, ih]
      split <;> rfl
    | data j =>
      simp only [strippedProps, List.lookup_cons]
      split
      · next hr =>
        simp only [Bool.and_eq_true, beq_iff_eq] at hr
        have hk : (key == k) = false := by
          rw [beq_eq_false_iff_ne, hr.2]
          exact hke hr.1
        rw [ih, hk]
      · simp only [List.lookup_cons, ih]
        split <;> rfl

/-! What a node holds under a key, read off the stripped property. -/

theorem map_stripped_child? (n : Node) (key : String) :
    (n.child? key).map stripped = match (n.get? key).map strippedField with
      | some (.node c) => some c
      | _ => none := by
  unfold child?
  rcases n.get? key with _ | (_ | _ | _) <;> rfl

theorem map_stripped_children? (n : Node) (key : String) :
    (n.children? key).map (·.map stripped) = match (n.get? key).map strippedField with
      | some (.nodes cs) => some cs
      | _ => none := by
  unfold children?
  rcases n.get? key with _ | (_ | _ | _) <;> rfl

theorem data?_eq_stripped (n : Node) (key : String) :
    n.data? key = match (n.get? key).map strippedField with
      | some (.data j) => some j
      | _ => none := by
  unfold data?
  rcases n.get? key with _ | (_ | _ | _) <;> rfl

-- == alike nodes

/-- The nodes are the same once stripped. -/
def Alike (m n : Node) : Prop := m.stripped = n.stripped

/-- Node by node the same once stripped. -/
def AlikeAll (ms ns : List Node) : Prop := ms.map stripped = ns.map stripped

namespace Alike

variable {l m n : Node} {key : String}

theorem refl (n : Node) : n.Alike n := rfl

theorem symm (h : m.Alike n) : n.Alike m := Eq.symm h

theorem trans (h : l.Alike m) (h' : m.Alike n) : l.Alike n := Eq.trans h h'

variable (h : m.Alike n)

include h

theorem kind_eq : m.kind = n.kind := by
  rw [← kind_stripped m, ← kind_stripped n, h]

theorem get?_eq (hk : key ≠ "raw") :
    (m.get? key).map strippedField = (n.get? key).map strippedField := by
  have hp := congrArg Node.props h
  rw [props_stripped, props_stripped, h.kind_eq] at hp
  unfold get?
  rw [← lookup_strippedProps fun _ => hk, hp, lookup_strippedProps fun _ => hk]

theorem child?_eq (hk : key ≠ "raw") :
    (m.child? key).map stripped = (n.child? key).map stripped := by
  rw [map_stripped_child?, map_stripped_child?, h.get?_eq hk]

theorem children?_eq (hk : key ≠ "raw") :
    (m.children? key).map (·.map stripped) = (n.children? key).map (·.map stripped) := by
  rw [map_stripped_children?, map_stripped_children?, h.get?_eq hk]

theorem data?_eq (hk : key ≠ "raw") : m.data? key = n.data? key := by
  rw [data?_eq_stripped, data?_eq_stripped, h.get?_eq hk]

theorem string?_eq (hk : key ≠ "raw") : m.string? key = n.string? key := by
  rw [string?, string?, h.data?_eq hk]

theorem flag_eq (hk : key ≠ "raw") : m.flag key = n.flag key := by
  rw [flag, flag, h.data?_eq hk]

/-- A child has its like in every node that is alike. -/
theorem child {c : Node} (key : String) (hk : key ≠ "raw")
    (hc : n.child? key = some c) : ∃ c', m.child? key = some c' ∧ c'.Alike c := by
  have heq := h.child?_eq hk
  rw [hc, Option.map_some, Option.map_eq_some_iff] at heq
  exact heq

theorem child_none (key : String) (hk : key ≠ "raw") (hc : n.child? key = none) :
    m.child? key = none := by
  have heq := h.child?_eq hk
  rw [hc, Option.map_none, Option.map_eq_none_iff] at heq
  exact heq

theorem children {cs : List Node} (key : String) (hk : key ≠ "raw")
    (hcs : n.children? key = some cs) : ∃ cs', m.children? key = some cs' ∧ AlikeAll cs' cs := by
  have heq := h.children?_eq hk
  rw [hcs, Option.map_some, Option.map_eq_some_iff] at heq
  exact heq

end Alike

namespace AlikeAll

variable {m n : Node} {ms ns : List Node}

theorem nil_iff : AlikeAll ms [] ↔ ms = [] := by simp [AlikeAll]

theorem cons_iff :
    AlikeAll ms (n :: ns) ↔ ∃ m ms', ms = m :: ms' ∧ m.Alike n ∧ AlikeAll ms' ns := by
  rw [AlikeAll, List.map_cons, List.map_eq_cons_iff]
  rfl

theorem nil : AlikeAll [] [] := rfl

theorem cons (h : m.Alike n) (hs : AlikeAll ms ns) : AlikeAll (m :: ms) (n :: ns) :=
  cons_iff.2 ⟨m, ms, rfl, h, hs⟩

theorem length_eq (h : AlikeAll ms ns) : ms.length = ns.length := by
  simpa using congrArg List.length h

end AlikeAll

-- == alike properties

/-- The same or alike nodes, or none. -/
def AlikeOption (a b : Option Node) : Prop := a.map stripped = b.map stripped

/-- Property by property the same once stripped. -/
def PropsAlike (literal : Bool) (ps qs : List (String × Field Node)) : Prop :=
  strippedProps literal ps = strippedProps literal qs

namespace PropsAlike

variable {literal : Bool} {key : String} {ps qs : Node.Props}

theorem nil : PropsAlike literal [] [] := rfl

theorem node {m n : Node} (h : m.Alike n) (hs : PropsAlike literal ps qs) :
    PropsAlike literal ((key, .node m) :: ps) ((key, .node n) :: qs) := by
  simp only [PropsAlike, strippedProps]
  rw [h, hs]

theorem nodes {ms ns : List Node} (h : AlikeAll ms ns) (hs : PropsAlike literal ps qs) :
    PropsAlike literal ((key, .nodes ms) :: ps) ((key, .nodes ns) :: qs) := by
  simp only [PropsAlike, strippedProps, strippedNodes_eq_map]
  rw [h, hs]

theorem same {f : Field Node} (hs : PropsAlike literal ps qs) :
    PropsAlike literal ((key, f) :: ps) ((key, f) :: qs) := by
  cases f with
  | node n => exact node (.refl n) hs
  | nodes ns => exact nodes rfl hs
  | data j =>
    simp only [PropsAlike, strippedProps]
    rw [hs]

theorem node? {a b : Option Node} (h : AlikeOption a b) (hs : PropsAlike literal ps qs) :
    PropsAlike literal ((key, .ofNode? a) :: ps) ((key, .ofNode? b) :: qs) := by
  cases a with
  | none =>
    cases b with
    | none => exact same hs
    | some n => cases h
  | some m =>
    cases b with
    | none => cases h
    | some n => exact node (Option.some.inj h) hs

theorem raw {j j' : Json} (hs : PropsAlike true ps qs) :
    PropsAlike true (("raw", .data j) :: ps) (("raw", .data j') :: qs) := hs

/-! What is like the properties of a node that is no literal. -/

theorem eq_nil (h : PropsAlike false ps []) : ps = [] := by
  rcases ps with _ | ⟨⟨k, _ | _ | _⟩, ps⟩ <;> first | rfl | cases h

theorem exists_node {n : Node} (h : PropsAlike false ps ((key, .node n) :: qs)) :
    ∃ m ps', ps = (key, .node m) :: ps' ∧ m.Alike n ∧ PropsAlike false ps' qs := by
  rcases ps with _ | ⟨⟨k, m | _ | _⟩, ps⟩ <;> simp [PropsAlike, strippedProps] at h
  obtain ⟨⟨rfl, hm⟩, hps⟩ := h
  exact ⟨m, ps, rfl, hm, hps⟩

theorem exists_nodes {ns : List Node} (h : PropsAlike false ps ((key, .nodes ns) :: qs)) :
    ∃ ms ps', ps = (key, .nodes ms) :: ps' ∧ AlikeAll ms ns ∧ PropsAlike false ps' qs := by
  rcases ps with _ | ⟨⟨k, _ | ms | _⟩, ps⟩ <;> simp [PropsAlike, strippedProps] at h
  obtain ⟨⟨rfl, hms⟩, hps⟩ := h
  exact ⟨ms, ps, rfl, hms, hps⟩

theorem exists_data {j : Json} (h : PropsAlike false ps ((key, .data j) :: qs)) :
    ∃ ps', ps = (key, .data j) :: ps' ∧ PropsAlike false ps' qs := by
  rcases ps with _ | ⟨⟨k, _ | _ | j'⟩, ps⟩ <;> simp [PropsAlike, strippedProps] at h
  obtain ⟨⟨rfl, rfl⟩, hps⟩ := h
  exact ⟨ps, rfl, hps⟩

end PropsAlike

/-- Nodes of one kind are alike if their properties are. -/
theorem alike_of_props {k : Kind} {m n : Node} (hm : m.kind = k) (hn : n.kind = k)
    (h : PropsAlike (k == .literal) m.props n.props) : m.Alike n := by
  subst hm
  cases m
  cases n
  cases hn
  simp only [Alike, stripped]
  rw [h]

end Node

end Inlay
