/-
Trees with other labels.

A change of nodes relabels a tree if a changed node is of the same kind and
range and has the changed children under the same keys. Whatever is read off
a tree by its structure is then the changed value of what it was.
-/
import Inlay.Proofs.Tree.Kids

namespace Inlay

open List

/-- The property with its children changed. -/
def Field.map (f : Node → Node) : Field Node → Field Node
  | .node n => .node (f n)
  | .nodes ns => .nodes (ns.map f)
  | .data j => .data j

theorem items_map (f : Node → Node) (key : String) (i : Nat) (ns : List Node) :
    items key i (ns.map f) = (items key i ns).map fun k => (k.1, f k.2) := by
  induction ns generalizing i with
  | nil => rfl
  | cons n ns ih => rw [map_cons, items, ih, items, map_cons]

theorem Field.kids_map (f : Node → Node) (key : String) (field : Field Node) :
    (field.map f).kids key = (field.kids key).map fun k => (k.1, f k.2) := by
  cases field with
  | node n => rfl
  | nodes ns => exact items_map ..
  | data j => rfl

/-- A change of nodes that keeps the tree. -/
structure Relabels (f : Node → Node) : Prop where
  kind : ∀ n, (f n).kind = n.kind
  range : ∀ n, (f n).range = n.range
  props : ∀ n, (f n).props = n.props.map fun e => (e.1, e.2.map f)

namespace Relabels

open Node

variable {f g : Node → Node}

section

variable (h : Relabels f)

include h

theorem keys (n : Node) : (f n).keys = n.keys := by
  rw [Node.keys, h.props, map_map]
  rfl

theorem get? (n : Node) (key : String) : (f n).get? key = (n.get? key).map (Field.map f) := by
  rw [Node.get?, Node.get?, h.props, Entries.lookup_map]

theorem children? (n : Node) (key : String) :
    (f n).children? key = (n.children? key).map (List.map f) := by
  rw [Node.children?, Node.children?, h.get?]
  cases n.get? key with
  | none => rfl
  | some field => cases field <;> rfl

theorem child? (n : Node) (key : String) : (f n).child? key = (n.child? key).map f := by
  rw [Node.child?, Node.child?, h.get?]
  cases n.get? key with
  | none => rfl
  | some field => cases field <;> rfl

theorem data? (n : Node) (key : String) : (f n).data? key = n.data? key := by
  rw [Node.data?, Node.data?, h.get?]
  cases n.get? key with
  | none => rfl
  | some field => cases field <;> rfl

theorem stringValue? (n : Node) : (f n).stringValue? = n.stringValue? := by
  rw [Node.stringValue?, Node.stringValue?, h.kind, Node.string?, Node.string?, h.data?]

theorem kids (n : Node) : (f n).kids = n.kids.map fun k => (k.1, f k.2) := by
  rw [Node.kids, Node.kids, h.props]
  induction n.props with
  | nil => rfl
  | cons e props ih =>
    rw [map_cons, kidsOf_cons, kidsOf_cons, map_append, ih, Field.kids_map]

theorem step? (n : Node) (s : Step) : (f n).step? s = (n.step? s).map f := by
  rw [Node.step?, Node.step?, h.get?]
  cases n.get? s.key with
  | none => rfl
  | some field =>
    cases field <;> cases s.index <;> simp [Field.map, Field.item?]

theorem at? (n : Node) (p : Path) : (f n).at? p = (n.at? p).map f := by
  induction p generalizing n with
  | nil => rfl
  | cons s p ih =>
    rw [at?_cons, at?_cons, h.step?]
    cases n.step? s with
    | none => rfl
    | some m => exact ih m

theorem preorder (n : Node) : (f n).preorder = n.preorder.map f := by
  induction n using induction_kids with
  | h n ih =>
    rw [preorder_eq, preorder_eq, h.kids, map_cons, flatMap_map, map_flatMap]
    congr 1
    exact flatMap_congr fun k hk => ih k hk

theorem places (n : Node) : (f n).places = n.places.map fun place => (place.1, f place.2) := by
  induction n using induction_kids with
  | h n ih =>
    rw [places_eq, places_eq, h.kids, map_cons, flatMap_map, map_flatMap]
    congr 1
    refine flatMap_congr fun k hk => ?_
    rw [ih k hk, map_map, map_map]
    rfl

/-- What all nodes are, the nodes of the relabeled tree are. -/
theorem every_iff {P Q : Node → Prop} (hPQ : ∀ m, Q (f m) ↔ P m) (n : Node) :
    (f n).Every Q ↔ n.Every P := by
  unfold Node.Every
  rw [h.preorder, forall_mem_map]
  exact forall_congr' fun m => imp_congr_right fun _ => hPQ m

theorem keyed_iff (n : Node) : (f n).Keyed ↔ n.Keyed :=
  h.every_iff (fun m => by rw [h.keys]) n

theorem size (n : Node) : (f n).size = n.size := by
  induction n using induction_kids with
  | h n ih =>
    rw [size_eq, size_eq, h.kids, map_map]
    congr 2
    exact map_congr_left fun k hk => ih k hk

end

theorem id : Relabels fun n => n where
  kind _ := rfl
  range _ := rfl
  props n := by
    have hm : ∀ field : Field Node, field.map (fun n => n) = field := by
      intro field
      cases field with
      | node n => rfl
      | nodes ns => exact congrArg Field.nodes (map_id ns)
      | data j => rfl
    simp only [hm]
    exact (map_id n.props).symm

theorem comp (hg : Relabels g) (hf : Relabels f) : Relabels fun n => g (f n) where
  kind n := by rw [hg.kind, hf.kind]
  range n := by rw [hg.range, hf.range]
  props n := by
    rw [hg.props, hf.props, map_map]
    refine map_congr_left fun e _ => ?_
    obtain ⟨key, field⟩ := e
    cases field <;> simp [Field.map]

/-- Relabelings that give the nodes of a tree the same labels give the
same tree. -/
theorem eq_of_labels (hf : Relabels f) (hg : Relabels g) {n : Node}
    (h : ∀ m ∈ n.preorder, (f m).loc = (g m).loc ∧ (f m).leading = (g m).leading ∧
      (f m).trailing = (g m).trailing) : f n = g n := by
  induction n using induction_kids with
  | h n ih =>
    have hkid : ∀ k ∈ n.kids, f k.2 = g k.2 := by
      intro k hk
      refine ih k hk fun m hm => h m ?_
      rw [preorder_eq]
      exact mem_cons_of_mem _ (mem_flatMap.2 ⟨k, hk, hm⟩)
    have hfi : ∀ e ∈ n.props, e.2.map f = e.2.map g := by
      intro e he
      have hme : ∀ k ∈ e.2.kids e.1, f k.2 = g k.2 :=
        fun k hk => hkid k (mem_flatMap.2 ⟨e, he, hk⟩)
      obtain ⟨key, field⟩ := e
      cases field with
      | node m => exact congrArg Field.node (hme (⟨key, none⟩, m) (mem_singleton.2 rfl))
      | data j => rfl
      | nodes ns =>
        refine congrArg Field.nodes ?_
        rw [← map_snd_items key 0 ns, map_map, map_map]
        exact map_congr_left fun k hk => hme k hk
    have hp : (f n).props = (g n).props := by
      rw [hf.props, hg.props]
      exact map_congr_left fun e he => by rw [hfi e he]
    have hki : (f n).kind = (g n).kind := (hf.kind n).trans (hg.kind n).symm
    have hr : (f n).range = (g n).range := (hf.range n).trans (hg.range n).symm
    obtain ⟨hlo, hl, ht⟩ := h n (by rw [preorder_eq]; exact mem_cons_self ..)
    generalize f n = a at hp hki hr hlo hl ht
    generalize g n = b at hp hki hr hlo hl ht
    cases a
    cases b
    dsimp only at *
    rw [hki, hp, hr, hlo, hl, ht]

end Relabels

/-- A relabeling that does not look at properties: a node gets the same
labels whatever children it has. -/
structure Recolors (f : Node → Node) : Prop extends Relabels f where
  of_props : ∀ (n : Node) (props : List (String × Field Node)),
    f { n with props } = { f n with props := props.map fun e => (e.1, e.2.map f) }

end Inlay
