/-
What inclusion makes of a tree, by recursion over the tree as it was.

A node that is replaced is the node of the last file that was to stand
there. Any other node is there again with its children woven; in a body
each item stands between what was put before and behind it, and an empty
body has the files that were put into it.

An item of a body brings along what all nodes of its surface have, those
with no other body in between: the files that they are led by in the order
of the walk, those that trail them with the nodes in reverse.
-/
import Inlay.Proofs.Inclusion.Conservation

namespace Inlay

open Directive (ofComments ofLiteral? within)

open List

-- == surfaces

namespace Node

variable {n : Node}

mutual
/-- The nodes of the subtree that no body separates from its root, each
before its children. -/
def surface : Node → List Node
  | ⟨kind, props, range, loc, leading, trailing⟩ =>
      let n : Node := ⟨kind, props, range, loc, leading, trailing⟩
      n :: if (n.children? "body").isSome then [] else surfaceOfProps props

def surfaceOfProps : List (String × Field Node) → List Node
  | [] => []
  | (_, .node n) :: rest => n.surface ++ surfaceOfProps rest
  | (_, .nodes ns) :: rest => surfaceOfNodes ns ++ surfaceOfProps rest
  | (_, .data _) :: rest => surfaceOfProps rest

def surfaceOfNodes : List Node → List Node
  | [] => []
  | n :: rest => n.surface ++ surfaceOfNodes rest
end

theorem surfaceOfNodes_eq (ns : List Node) : surfaceOfNodes ns = ns.flatMap surface := by
  induction ns with
  | nil => rfl
  | cons n ns ih => rw [surfaceOfNodes, ih, flatMap_cons]

theorem surfaceOfProps_eq (props : Node.Props) :
    surfaceOfProps props = (kidsOf props).flatMap (·.2.surface) := by
  induction props with
  | nil => rfl
  | cons e props ih =>
    obtain ⟨key, field⟩ := e
    rw [kidsOf_cons, flatMap_append, ← ih]
    cases field with
    | node n => simp [surfaceOfProps, Field.kids]
    | nodes ns => rw [surfaceOfProps, surfaceOfNodes_eq, Field.kids, flatMap_items]
    | data j => simp [surfaceOfProps, Field.kids]

theorem surface_of_body {list : List Node} (h : n.children? "body" = some list) :
    n.surface = [n] := by
  cases n
  rw [surface, h]
  rfl

theorem surface_of_loose (h : n.children? "body" = none) :
    n.surface = n :: n.kids.flatMap (·.2.surface) := by
  cases n
  rw [surface, h, surfaceOfProps_eq]
  rfl

theorem mem_surface_self (n : Node) : n ∈ n.surface := by
  cases n
  rw [surface]
  exact .head _

theorem surface_sublist (n : Node) : n.surface.Sublist n.preorder := by
  induction n using induction_kids with
  | h n ih =>
    rw [preorder_eq]
    cases hb : n.children? "body" with
    | some list =>
      rw [surface_of_body hb]
      exact (nil_sublist _).cons_cons n
    | none =>
      rw [surface_of_loose hb]
      exact (List.Sublist.flatMap_right _ ih).cons_cons n

end Node

namespace Inclusion

-- == directives

/-- What a tree is woven with: the comments of its file, and the nodes of
the files that directives name. -/
structure Weft where
  marker : String
  store : List Comment
  content : Directive → List Node

namespace Weft

variable (w : Weft) (n : Node) {d : Directive} {props : Node.Props}
  {list : List Node}

/-- The directives in an empty list of a node. -/
def inside : List Directive :=
  if lendableKeys.any fun key => (n.children? key).any List.isEmpty then
    n.range.elim [] (within w.marker · w.store)
  else []

/-- The directives whose files take the place of a node, one after the
other. -/
def replacing : List Directive :=
  match ofLiteral? w.marker n with
  | some d => [d]
  | none => if n.kind.isAtomic then w.inside n else []

/-- The directives whose files go into the body of a node. -/
def filling : List Directive := if n.kind.isAtomic then [] else w.inside n

/-- The directives whose files go before a node. A node that is replaced
is gone before they are looked at. -/
def preceding : List Directive :=
  if (w.replacing n).isEmpty then ofComments w.marker n.leading else []

/-- The directives whose files go behind a node. -/
def following : List Directive :=
  if (w.replacing n).isEmpty then ofComments w.marker n.trailing else []

/-- All directives of a node, in the order in which they are resolved. -/
def taken : List Directive :=
  w.replacing n ++ w.filling n ++ w.preceding n ++ (w.following n).reverse

/-- All directives that a node could take: those of its comments, and
those in its empty list. -/
def claims : List Directive :=
  w.inside n ++ ofComments w.marker n.leading ++
    (ofComments w.marker n.trailing).reverse

/-- The comments that are gone below a node. -/
def spent : List Comment := (n.preorder.flatMap w.taken).filterMap (·.comment)

/-- What comes to stand before an item of a body. -/
def front : List Node := n.surface.flatMap fun m => (w.preceding m).flatMap w.content

/-- What comes to stand behind an item of a body. -/
def back : List Node := n.surface.reverse.flatMap fun m => (w.following m).flatMap w.content

-- == trees

/-- What becomes of a node before its children are looked at. -/
def entered : Node :=
  match (w.replacing n).getLast? with
  | some d => (w.content d).headD n
  | none => n.modifyList "body" (· ++ (w.filling n).flatMap w.content)

mutual
/-- The tree that inclusion makes of a tree, comments apart. -/
def weave : Node → Node
  | ⟨kind, props, range, loc, leading, trailing⟩ =>
      let n : Node := ⟨kind, props, range, loc, leading, trailing⟩
      match (w.replacing n).getLast? with
      | some d => (w.content d).headD n
      | none => { n with props := weaveProps ((w.filling n).flatMap w.content) props }

def weaveProps (filling : List Node) : List (String × Field Node) → List (String × Field Node)
  | [] => []
  | (key, .node n) :: rest => (key, .node (weave n)) :: weaveProps filling rest
  | (key, .nodes ns) :: rest =>
      (key, .nodes (if key = "body" then weaveBody ns ++ filling else weaveNodes ns)) ::
        weaveProps filling rest
  | (key, .data j) :: rest => (key, .data j) :: weaveProps filling rest

def weaveBody : List Node → List Node
  | [] => []
  | n :: rest => w.front n ++ weave n :: w.back n ++ weaveBody rest

def weaveNodes : List Node → List Node
  | [] => []
  | n :: rest => weave n :: weaveNodes rest
end

/-- An item of a body with what is put around it. -/
def spread : List Node := w.front n ++ w.weave n :: w.back n

variable {w n}

theorem inside_of_hollow {key : String} {range : Span} (hk : key ∈ lendableKeys)
    (hl : n.children? key = some []) (hr : n.range = some range) :
    w.inside n = within w.marker range w.store := by
  have ha : (lendableKeys.any fun key => (n.children? key).any List.isEmpty) = true :=
    any_eq_true.2 ⟨key, hk, by rw [hl]; rfl⟩
  rw [inside, if_pos ha, hr]
  rfl

theorem hollow_of_inside (h : w.inside n ≠ []) : ∃ key ∈ lendableKeys, ∃ range,
    n.children? key = some [] ∧ n.range = some range := by
  rw [inside] at h
  split at h
  · next ha =>
    obtain ⟨key, hk, hl⟩ := any_eq_true.1 ha
    obtain ⟨list, hl, hn⟩ := (Option.any_eq_true _ _).1 hl
    rw [List.isEmpty_iff.1 hn] at hl
    cases hr : n.range with
    | none =>
      rw [hr] at h
      exact absurd rfl h
    | some range => exact ⟨key, hk, range, hl, rfl⟩
  · exact absurd rfl h

theorem replacing_of_literal (h : ofLiteral? w.marker n = some d) : w.replacing n = [d] := by
  rw [replacing, h]

theorem replacing_of_none (h : ofLiteral? w.marker n = none) :
    w.replacing n = if n.kind.isAtomic then w.inside n else [] := by
  rw [replacing, h]

theorem filling_of_literal (h : ofLiteral? w.marker n = some d) : w.filling n = [] := by
  have hy : Yields w.marker n := .inl (by rw [h]; rfl)
  rw [filling, if_pos hy.isAtomic]

theorem replacing_of_filling (h : w.filling n ≠ []) : w.replacing n = [] := by
  cases hl : ofLiteral? w.marker n with
  | some d => exact absurd (filling_of_literal hl) h
  | none =>
    rw [replacing_of_none hl]
    rw [filling] at h
    split at h
    · exact absurd rfl h
    · next ha => rw [if_neg ha]

/-- What replaces or fills a node without a directive of its own is in its
empty list. -/
theorem replacing_append_filling (h : ofLiteral? w.marker n = none) :
    w.replacing n ++ w.filling n = w.inside n := by
  rw [replacing_of_none h, filling]
  split
  · rw [append_nil]
  · rw [nil_append]

theorem comments_sublist (w : Weft) (n : Node) :
    ((w.replacing n ++ w.filling n).filterMap (·.comment)).Sublist
      ((w.inside n).filterMap (·.comment)) := by
  cases hl : ofLiteral? w.marker n with
  | none => rw [replacing_append_filling hl]
  | some d =>
    rw [replacing_of_literal hl, filling_of_literal hl, append_nil,
      filterMap_cons_none (Directive.comment_of_ofLiteral? hl)]
    exact nil_sublist _

theorem preceding_sublist (w : Weft) (n : Node) :
    (w.preceding n).Sublist (ofComments w.marker n.leading) := by
  rw [preceding]
  split
  · exact List.Sublist.refl _
  · exact nil_sublist _

theorem following_sublist (w : Weft) (n : Node) :
    (w.following n).Sublist (ofComments w.marker n.trailing) := by
  rw [following]
  split
  · exact List.Sublist.refl _
  · exact nil_sublist _

theorem taken_sublist_claims (w : Weft) (n : Node) :
    ((w.taken n).filterMap (·.comment)).Sublist ((w.claims n).filterMap (·.comment)) := by
  have hi := comments_sublist w n
  simp only [taken, claims, filterMap_append] at hi ⊢
  exact (hi.append ((preceding_sublist w n).filterMap _)).append
    ((following_sublist w n).reverse.filterMap _)

theorem replacing_subset_taken (w : Weft) (n : Node) : w.replacing n ⊆ w.taken n := by
  intro d hd
  simp [taken, hd]

theorem entered_of_replacing (h : (w.replacing n).getLast? = some d) :
    w.entered n = (w.content d).headD n := by
  rw [entered, h]

theorem entered_of_nil (h : w.replacing n = []) :
    w.entered n = n.modifyList "body" (· ++ (w.filling n).flatMap w.content) := by
  rw [entered, h]
  rfl

theorem entered_eq_self (h : w.replacing n = []) (hf : w.filling n = []) : w.entered n = n := by
  rw [entered_of_nil h, hf]
  exact Node.modifyList_eq_self "body" append_nil n

theorem preceding_of_nil (h : w.replacing n = []) :
    w.preceding n = ofComments w.marker n.leading := by
  rw [preceding, h]
  rfl

theorem following_of_nil (h : w.replacing n = []) :
    w.following n = ofComments w.marker n.trailing := by
  rw [following, h]
  rfl

theorem preceding_of_replacing (h : w.replacing n ≠ []) : w.preceding n = [] := by
  rw [preceding, if_neg (by rwa [List.isEmpty_iff])]

theorem following_of_replacing (h : w.replacing n ≠ []) : w.following n = [] := by
  rw [following, if_neg (by rwa [List.isEmpty_iff])]

theorem weaveBody_eq (ns : List Node) : w.weaveBody ns = ns.flatMap w.spread := by
  induction ns with
  | nil => rfl
  | cons n ns ih => rw [weaveBody, ih, flatMap_cons, spread]

theorem weaveNodes_eq (ns : List Node) : w.weaveNodes ns = ns.map w.weave := by
  induction ns with
  | nil => rfl
  | cons n ns ih => rw [weaveNodes, ih, map_cons]

theorem weave_of_replacing (h : (w.replacing n).getLast? = some d) :
    w.weave n = (w.content d).headD n := by
  cases n
  rw [weave, h]

theorem weave_eq_entered (h : w.replacing n ≠ []) : w.weave n = w.entered n := by
  cases hl : (w.replacing n).getLast? with
  | none => exact absurd (getLast?_eq_none_iff.1 hl) h
  | some d => rw [weave_of_replacing hl, entered_of_replacing hl]

theorem weave_of_nil (h : w.replacing n = []) :
    w.weave n = { n with props := w.weaveProps ((w.filling n).flatMap w.content) n.props } := by
  cases n
  rw [weave, h]
  rfl

theorem weaveProps_of_loose {filling : List Node}
    (h : ∀ e ∈ props, e.1 = "body" → e.2.isList = false) :
    w.weaveProps filling props = props.map fun e => (e.1, e.2.map w.weave) := by
  induction props with
  | nil => rfl
  | cons e props ih =>
    obtain ⟨key, field⟩ := e
    obtain ⟨he, hp⟩ := forall_mem_cons.1 h
    cases field with
    | node n => rw [weaveProps, ih hp, map_cons, Field.map]
    | nodes ns =>
      have hk : key ≠ "body" := fun hk => by cases he hk
      rw [weaveProps, if_neg hk, weaveNodes_eq, ih hp, map_cons, Field.map]
    | data j => rw [weaveProps, ih hp, map_cons, Field.map]

theorem weave_of_loose (hk : n.keys.Nodup) (hb : n.children? "body" = none)
    (h : w.replacing n = []) :
    w.weave n = { n with props := n.props.map fun e => (e.1, e.2.map w.weave) } := by
  rw [weave_of_nil h, weaveProps_of_loose]
  intro e he hke
  have hl : n.props.lookup e.1 = some e.2 := Entries.lookup_of_mem hk he
  cases hf : e.2 with
  | nodes list =>
    rw [hke, hf, ← Node.children?_eq_some_iff, hb] at hl
    cases hl
  | node | data => rfl

theorem weaveProps_append (filling : List Node) (ps qs : Node.Props) :
    w.weaveProps filling (ps ++ qs) = w.weaveProps filling ps ++ w.weaveProps filling qs := by
  induction ps with
  | nil => rfl
  | cons e ps ih =>
    obtain ⟨key, field⟩ := e
    cases field <;> simp only [cons_append, weaveProps, ih]

theorem weaveProps_of_childless {filling : List Node} (hk : ∀ e ∈ props, e.1 ≠ "body")
    (hki : ∀ e ∈ props, e.2.kids e.1 = []) : w.weaveProps filling props = props := by
  rw [weaveProps_of_loose fun e he hb => absurd hb (hk e he)]
  refine (map_congr_left fun e he => ?_).trans props.map_id
  obtain ⟨key, field⟩ := e
  have hf := hki _ he
  cases field with
  | node => cases hf
  | nodes ns =>
    cases ns with
    | nil => rfl
    | cons => cases hf
  | data => rfl

theorem weave_of_body (hke : n.keys.Nodup) (hb : n.children? "body" = some list)
    (hki : ∀ k ∈ n.kids, k.1.key = "body") (h : w.replacing n = []) :
    w.weave n = n.modifyList "body" fun list =>
      list.flatMap w.spread ++ (w.filling n).flatMap w.content := by
  obtain ⟨front, rest, hp, hf, -, hch⟩ := Node.exists_parts hb 0
  have hr : ∀ e ∈ rest, e.1 ≠ "body" := by
    rw [Node.keys, hp, map_append, nodup_append, map_cons, nodup_cons] at hke
    exact fun e he heq => hke.2.1.1 (mem_map.2 ⟨e, he, heq⟩)
  have hc : ∀ e ∈ n.props, e.1 ≠ "body" → e.2.kids e.1 = [] := by
    intro e he hne
    refine eq_nil_iff_forall_not_mem.2 fun k hk => hne ?_
    rw [← Field.key_of_mem_kids hk]
    exact hki k (mem_flatMap.2 ⟨e, he, hk⟩)
  rw [hp] at hc
  have hp' : w.weaveProps ((w.filling n).flatMap w.content) n.props =
      (n.modifyList "body" fun list =>
        list.flatMap w.spread ++ (w.filling n).flatMap w.content).props := by
    rw [hch, hp, weaveProps_append, weaveProps, if_pos rfl, weaveBody_eq,
      weaveProps_of_childless hf fun e he => hc e (by simp [he]) (hf e he),
      weaveProps_of_childless hr fun e he => hc e (by simp [he]) (hr e he)]
  rw [weave_of_nil h, hp']
  rfl

-- == equations

theorem spent_eq (w : Weft) (n : Node) :
    w.spent n = (w.taken n).filterMap (·.comment) ++ (n.kids.map (·.2)).flatMap w.spent := by
  rw [spent, Node.preorder_eq, flatMap_cons, filterMap_append, flatMap_assoc,
    filterMap_flatMap, flatMap_map]
  rfl

/-- What a node with a body puts around its item is its own. -/
theorem front_of_body (h : n.children? "body" = some list) :
    w.front n = (w.preceding n).flatMap w.content := by
  rw [front, Node.surface_of_body h, flatMap_singleton]

theorem back_of_body (h : n.children? "body" = some list) :
    w.back n = (w.following n).flatMap w.content := by
  rw [back, Node.surface_of_body h, reverse_singleton, flatMap_singleton]

/-- A node without a body comes first, then its children in order. -/
theorem front_of_loose (h : n.children? "body" = none) :
    w.front n = (w.preceding n).flatMap w.content ++ n.kids.flatMap fun k => w.front k.2 := by
  rw [front, Node.surface_of_loose h, flatMap_cons, flatMap_assoc]
  rfl

/-- Behind the item the last child comes first, and the node itself comes
last. -/
theorem back_of_loose (h : n.children? "body" = none) :
    w.back n =
      (n.kids.reverse.flatMap fun k => w.back k.2) ++ (w.following n).flatMap w.content := by
  rw [back, Node.surface_of_loose h, reverse_cons, flatMap_append, flatMap_singleton,
    reverse_flatMap, flatMap_assoc]
  rfl

theorem around_of_childless (h : n.kids = []) :
    w.front n = (w.preceding n).flatMap w.content ∧ w.back n = (w.following n).flatMap w.content := by
  cases hb : n.children? "body" with
  | some list => exact ⟨front_of_body hb, back_of_body hb⟩
  | none =>
    rw [front_of_loose hb, back_of_loose hb, h]
    exact ⟨append_nil _, rfl⟩

/-- A node without a body is the same by itself, with its children
woven. -/
theorem own_weave_of_loose (hk : n.keys.Nodup) (hb : n.children? "body" = none)
    (h : w.replacing n = []) : (w.weave n).own = n.own := by
  rw [weave_of_loose hk hb h, Node.own, Node.own, map_map]
  congr 1
  refine map_congr_left fun e _ => ?_
  obtain ⟨key, field⟩ := e
  cases field <;> rfl

theorem kids_weave_of_loose (hk : n.keys.Nodup) (hb : n.children? "body" = none)
    (h : w.replacing n = []) : (w.weave n).kids = n.kids.map fun k => (k.1, w.weave k.2) := by
  rw [weave_of_loose hk hb h, Node.kids, Node.kids, Node.kidsOf, Node.kidsOf, flatMap_map,
    map_flatMap]
  congr 1
  funext e
  exact Field.kids_map w.weave e.1 e.2

/-- Nothing fills a node without a body. -/
theorem filling_of_loose (hs : Shaped n) (hb : n.children? "body" = none) : w.filling n = [] := by
  rw [filling]
  split
  · rfl
  · next ha =>
    by_contra hne
    obtain ⟨key, hk, range, hl, -⟩ := hollow_of_inside hne
    obtain ⟨rfl, -⟩ := Kind.isContainer_of_listKey (hs.lists key hk [] hl)
      (.inl (by simpa using ha))
    rw [hb] at hl
    cases hl

end Weft

end Inclusion

end Inlay
