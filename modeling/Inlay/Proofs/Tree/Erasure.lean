/-
Trees with other comments.

`Node.mapComments` changes the comment lists of a tree and nothing else, so
it can be pulled through all that reads or changes a tree
(`relabels_mapComments`). Erasing comments is such a change.
-/
import Inlay.Proofs.Tree.Relabels

namespace Inlay

namespace Node

-- == changes

mutual
/-- The subtree with all comment lists changed. -/
def mapComments (f : List Comment → List Comment) : Node → Node
  | ⟨kind, props, range, loc, leading, trailing⟩ =>
      ⟨kind, mapCommentsInProps f props, range, loc, f leading, f trailing⟩

def mapCommentsInProps (f : List Comment → List Comment) :
    List (String × Field Node) → List (String × Field Node)
  | [] => []
  | (key, .node n) :: rest => (key, .node (n.mapComments f)) :: mapCommentsInProps f rest
  | (key, .nodes ns) :: rest => (key, .nodes (mapCommentsInNodes f ns)) :: mapCommentsInProps f rest
  | (key, .data j) :: rest => (key, .data j) :: mapCommentsInProps f rest

def mapCommentsInNodes (f : List Comment → List Comment) : List Node → List Node
  | [] => []
  | n :: rest => n.mapComments f :: mapCommentsInNodes f rest
end

/-- The tree without some comments. -/
abbrev eraseAll (cs : List Comment) (n : Node) : Node := n.mapComments (·.diff cs)

mutual
/-- Erasing a comment takes it from every list. -/
theorem eraseComment_eq (c : Comment) : ∀ n : Node, n.eraseComment c = n.mapComments (·.erase c)
  | ⟨kind, props, range, loc, leading, trailing⟩ => by
      rw [eraseComment, mapComments, eraseCommentInProps_eq]

theorem eraseCommentInProps_eq (c : Comment) : ∀ props : Node.Props,
    eraseCommentInProps c props = mapCommentsInProps (·.erase c) props
  | [] => rfl
  | (key, .node n) :: rest => by
      rw [eraseCommentInProps, mapCommentsInProps, eraseComment_eq c n, eraseCommentInProps_eq c rest]
  | (key, .nodes ns) :: rest => by
      rw [eraseCommentInProps, mapCommentsInProps, eraseCommentInNodes_eq c ns,
        eraseCommentInProps_eq c rest]
  | (key, .data j) :: rest => by
      rw [eraseCommentInProps, mapCommentsInProps, eraseCommentInProps_eq c rest]

theorem eraseCommentInNodes_eq (c : Comment) : ∀ ns : List Node,
    eraseCommentInNodes c ns = mapCommentsInNodes (·.erase c) ns
  | [] => rfl
  | n :: rest => by
      rw [eraseCommentInNodes, mapCommentsInNodes, eraseComment_eq c n, eraseCommentInNodes_eq c rest]
end

variable (f : List Comment → List Comment) (n : Node)

-- == nodes

/-- The items of a list are changed one by one. -/
theorem mapCommentsInNodes_eq (ns : List Node) :
    mapCommentsInNodes f ns = ns.map (mapComments f) := by
  induction ns with
  | nil => rfl
  | cons n ns ih => rw [mapCommentsInNodes, ih, List.map_cons]

/-- The properties are those of before, with their nodes changed. -/
theorem props_mapComments :
    (n.mapComments f).props = n.props.map fun e => (e.1, e.2.map (mapComments f)) := by
  obtain ⟨kind, props, range, loc, leading, trailing⟩ := n
  rw [mapComments]
  dsimp only
  induction props with
  | nil => rfl
  | cons e props ih =>
    obtain ⟨key, field⟩ := e
    cases field <;> simp [mapCommentsInProps, ih, Field.map, mapCommentsInNodes_eq]

@[simp] theorem kind_mapComments : (n.mapComments f).kind = n.kind := by
  cases n
  rw [mapComments]

@[simp] theorem range_mapComments : (n.mapComments f).range = n.range := by
  cases n
  rw [mapComments]

@[simp] theorem loc_mapComments : (n.mapComments f).loc = n.loc := by
  cases n
  rw [mapComments]

@[simp] theorem leading_mapComments : (n.mapComments f).leading = f n.leading := by
  cases n
  rw [mapComments]

@[simp] theorem trailing_mapComments : (n.mapComments f).trailing = f n.trailing := by
  cases n
  rw [mapComments]

/-- Comments are labels: whatever a tree has by its structure is there
again. -/
theorem relabels_mapComments : Relabels (mapComments f) :=
  ⟨kind_mapComments f, range_mapComments f, props_mapComments f⟩

/-- Two changes are one. -/
theorem mapComments_mapComments (f g : List Comment → List Comment) (n : Node) :
    (n.mapComments f).mapComments g = n.mapComments (g ∘ f) := by
  have hc := (relabels_mapComments g).comp (relabels_mapComments f)
  refine hc.eq_of_labels (relabels_mapComments (g ∘ f)) fun m _ => ?_
  simp only [loc_mapComments, leading_mapComments, trailing_mapComments, Function.comp_apply,
    and_self]

/-- Comments that are erased in turn are erased together. -/
theorem eraseAll_append (cs ds : List Comment) (n : Node) :
    n.eraseAll (cs ++ ds) = (n.eraseAll cs).eraseAll ds := by
  rw [eraseAll, eraseAll, eraseAll, mapComments_mapComments]
  congr 1
  funext l
  rw [Function.comp_apply, List.diff_append]

/-- Erasing one comment is erasing a list of one. -/
theorem eraseComment_eq_eraseAll (c : Comment) (n : Node) : n.eraseComment c = n.eraseAll [c] := by
  rw [eraseComment_eq, eraseAll]
  congr 1
  funext l
  rw [List.diff_cons, List.diff_nil]

@[simp] theorem keys_mapComments : (n.mapComments f).keys = n.keys :=
  (relabels_mapComments f).keys n

theorem children?_mapComments (key : String) :
    (n.mapComments f).children? key = (n.children? key).map (List.map (mapComments f)) :=
  (relabels_mapComments f).children? n key

/-- The value of a literal does not depend on its comments. -/
theorem stringValue?_mapComments : (n.mapComments f).stringValue? = n.stringValue? :=
  (relabels_mapComments f).stringValue? n

@[simp] theorem source?_mapComments : (n.mapComments f).source? = n.source? := by
  rw [source?, source?, loc_mapComments]

-- == subtrees

/-- The children are where they were. -/
theorem kids_mapComments : (n.mapComments f).kids = n.kids.map fun k => (k.1, k.2.mapComments f) :=
  (relabels_mapComments f).kids n

theorem step?_mapComments (s : Step) :
    (n.mapComments f).step? s = (n.step? s).map (mapComments f) := (relabels_mapComments f).step? n s

/-- A path leads to the changed node. -/
theorem at?_mapComments (p : Path) :
    (n.mapComments f).at? p = (n.at? p).map (mapComments f) := (relabels_mapComments f).at? n p

/-- The nodes come in the same order. -/
theorem preorder_mapComments : (n.mapComments f).preorder = n.preorder.map (mapComments f) :=
  (relabels_mapComments f).preorder n

variable {f n}

/-- What each node gains by the change holds of all nodes of the changed
tree. -/
theorem Every.mapComments {P Q : Node → Prop} (h : n.Every P)
    (hPQ : ∀ m : Node, P m → Q (m.mapComments f)) : (n.mapComments f).Every Q := by
  intro m hm
  rw [preorder_mapComments] at hm
  obtain ⟨m', hm', rfl⟩ := List.mem_map.1 hm
  exact hPQ m' (h m' hm')

theorem Keyed.mapComments (h : n.Keyed) (f : List Comment → List Comment) :
    (n.mapComments f).Keyed := ((relabels_mapComments f).keyed_iff n).2 h

/-- A tree whose comment lists do not change stays as it is. -/
theorem mapComments_eq_self (h : ∀ m ∈ n.preorder, f m.leading = m.leading ∧ f m.trailing = m.trailing) :
    n.mapComments f = n :=
  (relabels_mapComments f).eq_of_labels .id fun m hm => by
    rw [loc_mapComments, leading_mapComments, trailing_mapComments, (h m hm).1, (h m hm).2]
    exact ⟨rfl, rfl, rfl⟩

/-- With no comments to erase nothing happens. -/
theorem eraseAll_nil (n : Node) : n.eraseAll [] = n := mapComments_eq_self fun _ _ => ⟨rfl, rfl⟩

end Node

end Inlay
