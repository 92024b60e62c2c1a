/-
Splices one after the other.

Placing nodes and then more nodes at the same spot is placing all of them
at once: in the same order before an item or at the end of a list, in the
opposite one behind an item, and of nodes that replace one another the last
remains (`splice?_into_append`, …). Labels make no difference to where nodes
can go (`Recolors.splice?`), and comments are labels.
-/
import Inlay.Proofs.Tree.Erasure

namespace Inlay

open Option (bind_eq_some_iff map_eq_some_iff bind_some map_some)

open List Node

variable {list : List Node}

-- == entries

namespace Entries

variable {α : Type} {f : α → α}

theorem lookup_modify (key : String) (f : α → α) (entries : List (String × α)) (k : String) :
    (modify key f entries).lookup k =
      if k = key then (entries.lookup k).map f else entries.lookup k := by
  induction entries with
  | nil => simp [modify]
  | cons entry rest ih =>
    obtain ⟨e, v⟩ := entry
    rw [modify]
    by_cases he : e = key
    · subst he
      by_cases hk : k = e
      · simp [hk]
      · have hne : (k == e) = false := beq_eq_false_iff_ne.2 hk
        simp [hk, lookup_cons, hne]
    · rw [if_neg (by simpa using he), lookup_cons, ih, lookup_cons]
      by_cases hk : k = e
      · subst hk
        simp [he]
      · have hne : (k == e) = false := beq_eq_false_iff_ne.2 hk
        simp [hne]

theorem modify_eq_self (key : String) (h : ∀ v, f v = v) (entries : List (String × α)) :
    modify key f entries = entries := by
  induction entries with
  | nil => rfl
  | cons entry rest ih => rw [modify, h, ih, ite_self]

theorem modify_modify (key : String) (f g : α → α) (entries : List (String × α)) :
    modify key g (modify key f entries) = modify key (g ∘ f) entries := by
  induction entries with
  | nil => rfl
  | cons entry rest ih =>
    obtain ⟨e, v⟩ := entry
    by_cases he : e = key
    · simp [modify, he]
    · simp [modify, he, ih]

theorem modify_map {β : Type} (key : String) {g : β → β} {h : α → β}
    (hc : ∀ v, h (f v) = g (h v)) (entries : List (String × α)) :
    (modify key f entries).map (fun e => (e.1, h e.2)) =
      modify key g (entries.map fun e => (e.1, h e.2)) := by
  induction entries with
  | nil => rfl
  | cons entry rest ih =>
    obtain ⟨e, v⟩ := entry
    by_cases he : e = key
    · simp [modify, he, hc]
    · simp [modify, he, ih]

end Entries

namespace Node

variable {n m : Node} {s : Step}

-- == one child

theorem step?_modifyStep_self (s : Step) (f : Node → Node) (n : Node) :
    (n.modifyStep s f).step? s = (n.step? s).map f := by
  unfold step? modifyStep get?
  rw [Entries.lookup_modify, if_pos rfl]
  cases n.props.lookup s.key with
  | none => rfl
  | some field =>
    cases field <;> cases s.index <;> simp [Field.modifyItem, Field.item?]

theorem step?_modifyStep_of_ne {t : Step} (h : t ≠ s) (f : Node → Node) (n : Node) :
    (n.modifyStep s f).step? t = n.step? t := by
  unfold step? modifyStep get?
  rw [Entries.lookup_modify]
  split
  · next hk =>
    have hin : t.index ≠ s.index := by
      intro hin
      cases s
      cases t
      cases hk
      cases hin
      exact h rfl
    cases n.props.lookup t.key with
    | none => rfl
    | some field =>
      cases field with
      | node m =>
        cases hs : s.index with
        | none =>
          obtain ⟨i, hi⟩ := Option.ne_none_iff_exists'.1 (hs ▸ hin)
          rw [hi]
          rfl
        | some i => rfl
      | nodes ns =>
        cases hs : s.index with
        | none => rfl
        | some i =>
          cases ht : t.index with
          | none => rfl
          | some j =>
            have hne : i ≠ j := fun heq => hin (by rw [hs, ht, heq])
            simp [Field.modifyItem, Field.item?, hne]
      | data j => rfl
  · rfl

theorem modifyStep_modifyStep (s : Step) (f g : Node → Node) (n : Node) :
    (n.modifyStep s f).modifyStep s g = n.modifyStep s (g ∘ f) := by
  have hf : Field.modifyItem s.index g ∘ Field.modifyItem s.index f =
      Field.modifyItem s.index (g ∘ f) := by
    funext field
    cases field <;> cases s.index <;> simp [Field.modifyItem, modify_modify_eq]
  simp only [modifyStep, Entries.modify_modify, hf]

theorem recolors_mapComments (f : List Comment → List Comment) : Recolors (mapComments f) where
  toRelabels := relabels_mapComments f
  of_props n props := by
    have hp := props_mapComments f { n with props }
    obtain ⟨kind, props₀, range, loc, leading, trailing⟩ := n
    rw [mapComments] at hp ⊢
    rw [mapComments]
    dsimp only at hp ⊢
    rw [hp]

end Node

namespace Recolors

variable {f : Node → Node} {g' g : Node → Node}

theorem modifyStep (h : Recolors f) (s : Step) (hc : ∀ m, f (g m) = g' (f m)) (n : Node) :
    f (n.modifyStep s g) = (f n).modifyStep s g' := by
  have hf : ∀ field : Field Node, (field.modifyItem s.index g).map f =
      (field.map f).modifyItem s.index g' := by
    intro field
    cases field with
    | data j => rfl
    | node c => cases s.index <;> simp [Field.modifyItem, Field.map, hc]
    | nodes ns =>
      cases s.index with
      | none => rfl
      | some i =>
        refine congrArg Field.nodes (ext_getElem? fun j => ?_)
        rw [getElem?_map, getElem?_modify, getElem?_modify, getElem?_map]
        cases ns[j]? with
        | none => split <;> rfl
        | some c => split <;> simp [hc]
  rw [Node.modifyStep, h.of_props, Entries.modify_map s.key hf, ← h.props]
  rfl

theorem modifyList (h : Recolors f) (key : String) {g g' : List Node → List Node}
    (hc : ∀ list, (g list).map f = g' (list.map f)) (n : Node) :
    f (n.modifyList key g) = (f n).modifyList key g' := by
  have hf : ∀ field : Field Node, (field.modifyList g).map f = (field.map f).modifyList g' := by
    intro field
    cases field with
    | nodes ns => exact congrArg Field.nodes (hc ns)
    | node c => rfl
    | data j => rfl
  rw [Node.modifyList, h.of_props, Entries.modify_map key hf, ← h.props]
  rfl

theorem modifyAt (h : Recolors f) (hc : ∀ m, f (g m) = g' (f m)) (q : Path) (root : Node) :
    f (root.modifyAt g q) = (f root).modifyAt g' q := by
  induction q generalizing root with
  | nil => exact hc root
  | cons s q ih =>
    rw [Node.modifyAt, Node.modifyAt]
    exact h.modifyStep s ih root

end Recolors

namespace Node

variable {n m o root : Node} {s : Step} {q r : Path} {key : String}

-- == one list

theorem children?_modifyList (key : String) (f : List Node → List Node) (n : Node) :
    (n.modifyList key f).children? key = (n.children? key).map f := by
  unfold children? modifyList get?
  rw [Entries.lookup_modify, if_pos rfl]
  cases n.props.lookup key with
  | none => rfl
  | some field => cases field <;> rfl

theorem children?_modifyList_some (h : n.children? key = some list) (f : List Node → List Node) :
    (n.modifyList key f).children? key = some (f list) := by
  rw [children?_modifyList, h]
  rfl

theorem modifyList_modifyList (key : String) (f g : List Node → List Node) (n : Node) :
    (n.modifyList key f).modifyList key g = n.modifyList key (g ∘ f) := by
  have hf : Field.modifyList g ∘ Field.modifyList f = Field.modifyList (g ∘ f) := by
    funext field
    cases field <;> rfl
  simp only [modifyList, Entries.modify_modify, hf]

theorem modifyList_congr (h : n.children? key = some list) {f g : List Node → List Node}
    (hfg : f list = g list) : n.modifyList key f = n.modifyList key g := by
  obtain ⟨front, rest, -, -, -, hm⟩ := exists_parts h 0
  have hp : (n.modifyList key f).props = (n.modifyList key g).props := by
    rw [hm, hm, hfg]
  exact congrArg (fun props => ({ n with props } : Node)) hp

theorem step?_item (h : n.children? key = some list) (i : Nat) :
    n.step? ⟨key, some i⟩ = list[i]? := by
  unfold children? at h
  unfold step?
  split at h
  · next heq =>
    cases h
    rw [heq]
    rfl
  · cases h

/-- An item of a list under the step it has when nodes were inserted. -/
theorem step?_insertAt (h : n.children? key = some list) {j : Nat}
    (hj : j < list.length) (position : Nat) (nodes : List Node) :
    (n.modifyList key (Splice.insertAt position nodes)).step?
        ⟨key, some (if position ≤ j then j + nodes.length else j)⟩ = n.step? ⟨key, some j⟩ := by
  rw [step?_item h, step?_item (children?_modifyList_some h _), Splice.insertAt, append_assoc]
  split
  · next hle =>
    have hl : (list.take position).length = position := by rw [length_take]; omega
    rw [getElem?_append_right (by omega), getElem?_append_right (by omega), getElem?_drop, hl]
    congr 1
    omega
  · next hlt =>
    rw [getElem?_append_left (by rw [length_take]; omega), getElem?_take, if_pos (by omega)]

-- == paths

/-- Below the node that changes. -/
theorem at?_modifyAt_append (f : Node → Node) (h : root.at? q = some o) (r : Path) :
    (root.modifyAt f q).at? (q ++ r) = (f o).at? r := by
  induction q generalizing root with
  | nil =>
    cases h
    rfl
  | cons s q ih =>
    obtain ⟨m, hs, hm⟩ := at?_cons_eq_some_iff.1 h
    rw [modifyAt, cons_append, at?_cons, step?_modifyStep_self, hs]
    exact ih hm

/-- On the way to the node that changes. -/
theorem at?_modifyAt_take (f : Node → Node) (q : Path) (root : Node) (depth : Nat) :
    (root.modifyAt f q).at? (q.take depth) =
      (root.at? (q.take depth)).map (modifyAt f (q.drop depth)) := by
  induction depth generalizing q root with
  | zero => rfl
  | succ depth ih =>
    cases q with
    | nil => rfl
    | cons s q =>
      rw [modifyAt, take_succ_cons, at?_cons, at?_cons, step?_modifyStep_self, drop_succ_cons]
      cases root.step? s with
      | none => rfl
      | some m => exact ih q m

theorem modifyStep_id (s : Step) (n : Node) : n.modifyStep s (fun m => m) = n := by
  have hf : ∀ field : Field Node, field.modifyItem s.index (fun m => m) = field := by
    intro field
    cases field with
    | node m => rw [Field.modifyItem, ite_self]
    | nodes ns =>
      cases s.index with
      | none => rfl
      | some i => exact congrArg Field.nodes (modify_id i ns)
    | data j => rfl
  cases n
  rw [modifyStep, Entries.modify_eq_self s.key hf]

theorem modifyAt_id (path : Path) (n : Node) : n.modifyAt (fun m => m) path = n := by
  induction path generalizing n with
  | nil => rfl
  | cons s path ih => rw [modifyAt, funext ih, modifyStep_id]

theorem modifyAt_modifyAt (f g : Node → Node) (q : Path) (root : Node) :
    (root.modifyAt f q).modifyAt g q = root.modifyAt (g ∘ f) q := by
  induction q generalizing root with
  | nil => rfl
  | cons s q ih =>
    rw [modifyAt, modifyAt, modifyAt, modifyStep_modifyStep]
    congr 1
    funext m
    exact ih m

theorem modifyAt_congr (h : root.at? q = some o) {f g : Node → Node} (hfg : f o = g o) :
    root.modifyAt f q = root.modifyAt g q := by
  induction q generalizing root with
  | nil =>
    cases h
    exact hfg
  | cons s q ih =>
    obtain ⟨m, hs, hm⟩ := at?_cons_eq_some_iff.1 h
    rw [modifyAt, modifyAt]
    exact modifyStep_congr hs (ih hm)

theorem isSome_children?_modifyAt (key : String) (f : List Node → List Node) (q : Path) (n : Node) :
    ((n.modifyAt (·.modifyList key f) q).children? key).isSome = (n.children? key).isSome := by
  cases q with
  | nil =>
    rw [modifyAt, children?_modifyList]
    cases n.children? key <;> rfl
  | cons s q =>
    rw [modifyAt, children?, children?, modifyStep, get?, get?, Entries.lookup_modify]
    by_cases hk : key = s.key
    · rw [if_pos hk]
      cases n.props.lookup key with
      | none => rfl
      | some field => cases field <;> cases s.index <;> rfl
    · rw [if_neg hk]

end Node

namespace Splice

variable {root root' o m : Node} {path path' q r : Path} {key : String}
  {off j : Nat} {nodes ns ms : List Node}

-- == the owner

/-- The nearest list of the name above the end of the path is one that
the path runs through, at an item. -/
structure Crossing (key : String) (root : Node) (path : Path) (q : Path) (j : Nat) (r : Path) :
    Prop where
  path_eq : path = q ++ ⟨key, some j⟩ :: r
  nearest : ownerDepth? root path key = some q.length

theorem shift_crossing (key : String) (q r : Path) (j depth position count : Nat) (h : depth = q.length) :
    Path.shift ⟨depth, key, position, count⟩ (q ++ ⟨key, some j⟩ :: r) =
      q ++ ⟨key, some (if position ≤ j then j + count else j)⟩ :: r := by
  have hm : ∀ (f : Step → Step) (s : Step) (q : Path),
      (q ++ s :: r).modify q.length f = q ++ f s :: r := by
    intro f s q
    induction q with
    | nil => rfl
    | cons t q ih => rw [length_cons, cons_append, modify_succ_cons, ih, cons_append]
  rw [Path.shift, h, hm, Step.shift, if_pos rfl]
  rfl

theorem insert?_of_crossing (h : Crossing key root path q j r) (ho : root.at? q = some o)
    (hl : o.children? key = some list) (off : Nat) (nodes : List Node) :
    insert? key off nodes root path =
      if accepts o.kind key nodes = true ∧ j + off ≤ list.length then
        some (root.modifyAt (·.modifyList key (insertAt (j + off) nodes)) q,
          q ++ ⟨key, some (if j + off ≤ j then j + nodes.length else j)⟩ :: r)
      else none := by
  have hg : path[q.length]? = some ⟨key, some j⟩ := by simp [h.path_eq]
  have ht : path.take q.length = q := by simp [h.path_eq]
  have hp : position? key off nodes.length root path =
      some ⟨q.length, key, j + off, nodes.length⟩ := by
    simp [position?, h.nearest, hg]
  have hs := shift_crossing key q r j q.length (j + off) nodes.length rfl
  rw [← h.path_eq] at hs
  simp only [insert?, hp, ht, ho, hl, hs, Option.bind_eq_bind, bind_some]

theorem crossing_of_insert? (h : insert? key off nodes root path = some (root', path')) :
    ∃ q j r o list, Crossing key root path q j r ∧ root.at? q = some o ∧
      o.children? key = some list ∧ accepts o.kind key nodes = true ∧ j + off ≤ list.length := by
  obtain ⟨insertion, hp, h⟩ := bind_eq_some_iff.1 h
  obtain ⟨depth, hd, hp⟩ := bind_eq_some_iff.1 hp
  obtain ⟨s, hg, hp⟩ := bind_eq_some_iff.1 hp
  obtain ⟨j, hi, hp⟩ := bind_eq_some_iff.1 hp
  obtain ⟨o, ho, h⟩ := bind_eq_some_iff.1 h
  obtain ⟨list, hli, h⟩ := bind_eq_some_iff.1 h
  split at hp
  · next hk =>
    cases hp
    split at h
    · next ha =>
      obtain ⟨hlt, hs⟩ := List.getElem?_eq_some_iff.1 hg
      obtain ⟨skey, index⟩ := s
      obtain rfl : key = skey := hk.symm
      obtain rfl : index = some j := hi
      have hl : depth = (path.take depth).length := by rw [length_take]; omega
      refine ⟨path.take depth, j, path.drop (depth + 1), o, list, ⟨?_, hl ▸ hd⟩, ho, hli, ha⟩
      rw [← hs, getElem_cons_drop, take_append_drop]
    · cases h
  · cases hp

/-- A path that leads somewhere goes to an item of the list. -/
theorem Crossing.lt_length (h : Crossing key root path q j r) (ho : root.at? q = some o)
    (hl : o.children? key = some list) (hm : root.at? path = some m) : j < list.length := by
  rw [h.path_eq, at?_append, ho, bind_some] at hm
  obtain ⟨c, hc, -⟩ := at?_cons_eq_some_iff.1 hm
  rw [step?_item hl] at hc
  exact (List.getElem?_eq_some_iff.1 hc).1

/-- Nodes that are inserted beside the item leave the owner the
nearest. -/
theorem Crossing.insertAt (h : Crossing key root path q j r) (ho : root.at? q = some o)
    (hl : o.children? key = some list) (hj : j < list.length) (position : Nat) (nodes : List Node) :
    Crossing key (root.modifyAt (·.modifyList key (Splice.insertAt position nodes)) q)
      (q ++ ⟨key, some (if position ≤ j then j + nodes.length else j)⟩ :: r) q
      (if position ≤ j then j + nodes.length else j) r := by
  refine ⟨rfl, ?_⟩
  rw [← h.nearest, ownerDepth?, ownerDepth?, h.path_eq]
  simp only [length_append, length_cons]
  refine find?_congr fun depth hd => ?_
  rcases Nat.lt_or_ge q.length depth with hlt | hle
  · -- below the owner everything is as before
    obtain ⟨k, rfl⟩ := Nat.exists_eq_add_of_lt hlt
    rw [show q.length + k + 1 = q.length + (k + 1) by omega, take_length_add_append,
      take_length_add_append, take_succ_cons, take_succ_cons,
      at?_modifyAt_append _ ho, at?_append, ho, bind_some, at?_cons,
      at?_cons, step?_insertAt hl hj]
  · rw [take_append_of_le_length hle, take_append_of_le_length hle, at?_modifyAt_take]
    cases root.at? (q.take depth) with
    | none => rfl
    | some n =>
      simp only [map_some, bind_some]
      exact isSome_children?_modifyAt key _ _ n

-- == the laws

theorem accepts_append (kind : Kind) (key : String) (ns ms : List Node) :
    accepts kind key (ns ++ ms) = (accepts kind key ns && accepts kind key ms) := by
  rw [accepts, accepts, accepts, all_append]
  cases kind.isContainer <;> cases key == "body" <;> simp

theorem length_insertAt (ns : List Node) (h : j ≤ list.length) :
    (insertAt j ns list).length = list.length + ns.length := by
  rw [insertAt, length_append, length_append, length_take, length_drop]
  omega

theorem insertAt_insertAt (j : Nat) (ns ms list : List Node) :
    insertAt (j + ns.length) ms (insertAt j ns list) = insertAt j (ns ++ ms) list := by
  rcases Nat.le_total j list.length with hle | hle
  · have hl : (list.take j).length = j := by rw [length_take]; omega
    have ht : (list.take j ++ ns ++ list.drop j).take (j + ns.length) = list.take j ++ ns :=
      take_left' (by rw [length_append, hl])
    have hd : (list.take j ++ ns ++ list.drop j).drop (j + ns.length) = list.drop j :=
      drop_left' (by rw [length_append, hl])
    rw [insertAt, insertAt, ht, hd, insertAt]
    simp only [append_assoc]
  · simp only [insertAt, take_of_length_le hle, drop_of_length_le hle, append_nil]
    rw [take_of_length_le (by rw [length_append]; omega),
      drop_of_length_le (by rw [length_append]; omega), append_nil, append_assoc]

theorem insertAt_insertAt_same (ns ms : List Node) (h : j ≤ list.length) :
    insertAt j ns (insertAt j ms list) = insertAt j (ns ++ ms) list := by
  have hl : (list.take j).length = j := by rw [length_take]; omega
  have ht : (list.take j ++ ms ++ list.drop j).take j = list.take j := by
    rw [append_assoc]
    exact take_left' hl
  have hd : (list.take j ++ ms ++ list.drop j).drop j = ms ++ list.drop j := by
    rw [append_assoc]
    exact drop_left' hl
  rw [insertAt, insertAt, ht, hd, insertAt]
  simp only [append_assoc]

end Splice

open Splice

/-- All that a splice can do. -/
inductive Spliced (nodes : List Node) : Placement → Node → Path → Node → Path → Prop
  | replace {root path t a} (hnodes : nodes = [a]) (ht : root.at? path = some t)
      (hatomic : t.kind.isAtomic = true) (hatomic' : a.kind.isAtomic = true) :
      Spliced nodes .replace root path (root.modifyAt (fun _ => a) path) path
  | into {root path t key list} (ht : root.at? path = some t)
      (hlist : t.children? key = some list) (hatomic : t.kind.isAtomic = false)
      (haccepts : accepts t.kind key nodes = true) :
      Spliced nodes (.into key) root path
        (root.modifyAt (·.modifyList key (insertAt list.length nodes)) path) path
  | before {root path key q j r o list} (hcross : Crossing key root path q j r)
      (ho : root.at? q = some o) (hlist : o.children? key = some list) (hj : j < list.length)
      (haccepts : accepts o.kind key nodes = true) :
      Spliced nodes (.before key) root path (root.modifyAt (·.modifyList key (insertAt j nodes)) q)
        (q ++ ⟨key, some (j + nodes.length)⟩ :: r)
  | after {root path key q j r o list} (hcross : Crossing key root path q j r)
      (ho : root.at? q = some o) (hlist : o.children? key = some list) (hj : j < list.length)
      (haccepts : accepts o.kind key nodes = true) :
      Spliced nodes (.after key) root path
        (root.modifyAt (·.modifyList key (insertAt (j + 1) nodes)) q) (q ++ ⟨key, some j⟩ :: r)

variable {root root₁ m : Node} {path path₁ : Path} {key : String} {ns ms : List Node}
  {p : Placement}

/-- Nodes beside an item, and more nodes beside it: together they stand
where the first ones do. -/
theorem insert?_insert? {off : Nat} {as bs all : List Node}
    (h : insert? key off as root path = some (root₁, path₁)) (hm : root.at? path = some m)
    (ha : ∀ kind, accepts kind key all = (accepts kind key as && accepts kind key bs))
    (hlen : all.length = as.length + bs.length)
    (hi : ∀ j (list : List Node), j + off ≤ list.length →
      insertAt ((if j + off ≤ j then j + as.length else j) + off) bs (insertAt (j + off) as list) =
        insertAt (j + off) all list) :
    insert? key off bs root₁ path₁ = insert? key off all root path := by
  obtain ⟨q, j, r, o, list, hc, ho, hl, hac, hle⟩ := crossing_of_insert? h
  have hj := hc.lt_length ho hl hm
  rw [insert?_of_crossing hc ho hl, if_pos ⟨hac, hle⟩] at h
  cases h
  have hc₁ := hc.insertAt ho hl hj (j + off) as
  replace hi := hi j list hle
  generalize hj' : (if j + off ≤ j then j + as.length else j) = j' at hc₁ hi ⊢
  have ho₁ := at?_modifyAt_append (·.modifyList key (insertAt (j + off) as)) ho []
  rw [append_nil] at ho₁
  have hl₁ := children?_modifyList_some hl (insertAt (j + off) as)
  have hle₁ : j' + off ≤ (insertAt (j + off) as list).length := by
    rw [length_insertAt as hle, ← hj']
    split <;> omega
  have hp : (if j' + off ≤ j' then j' + bs.length else j') =
      if j + off ≤ j then j + all.length else j := by
    grind
  have hco : root.modifyAt ((·.modifyList key (insertAt (j' + off) bs)) ∘
      (·.modifyList key (insertAt (j + off) as))) q =
        root.modifyAt (·.modifyList key (insertAt (j + off) all)) q := by
    refine modifyAt_congr ho ?_
    rw [Function.comp_apply, modifyList_modifyList]
    exact modifyList_congr hl hi
  rw [insert?_of_crossing hc₁ ho₁ hl₁, insert?_of_crossing hc ho hl, modifyAt_modifyAt, hco, hp, ha,
    hac]
  simp only [hle, hle₁, Bool.true_and, and_true]
  rfl

/-- Nodes that go before an item, and more nodes. -/
theorem splice?_before_append (h : (Placement.before key).splice? ns root path = some (root₁, path₁))
    (hm : root.at? path = some m) (ms : List Node) :
    (Placement.before key).splice? ms root₁ path₁ =
      (Placement.before key).splice? (ns ++ ms) root path := by
  refine insert?_insert? h hm (accepts_append · key ns ms) length_append fun j list _ => ?_
  simp only [Nat.add_zero, Nat.le_refl, if_true]
  exact insertAt_insertAt j ns ms list

/-- Nodes that go behind an item, and more nodes behind the same. -/
theorem splice?_after_append (h : (Placement.after key).splice? ms root path = some (root₁, path₁))
    (hm : root.at? path = some m) (ns : List Node) :
    (Placement.after key).splice? ns root₁ path₁ =
      (Placement.after key).splice? (ns ++ ms) root path := by
  refine insert?_insert? h hm (fun kind => ?_) ?_ fun j list hj => ?_
  · rw [accepts_append, Bool.and_comm]
  · rw [length_append, Nat.add_comm]
  · rw [if_neg (Nat.not_succ_le_self j)]
    exact insertAt_insertAt_same ns ms hj

theorem append?_of_at? {t : Node} (ht : root.at? path = some t)
    (hl : t.children? key = some list) (nodes : List Node) :
    append? key nodes root path = if (!t.kind.isAtomic && accepts t.kind key nodes) = true then
        some (root.modifyAt (·.modifyList key (· ++ nodes)) path)
      else none := by
  simp only [append?, ht, hl, Option.bind_eq_bind, bind_some]

/-- Nodes that go to the end of a list, and more nodes. -/
theorem splice?_into_append (h : (Placement.into key).splice? ns root path = some (root₁, path₁))
    (ms : List Node) :
    (Placement.into key).splice? ms root₁ path₁ =
      (Placement.into key).splice? (ns ++ ms) root path := by
  obtain ⟨root', ha, heq⟩ := map_eq_some_iff.1 h
  cases heq
  obtain ⟨t, ht, hs⟩ := bind_eq_some_iff.1 ha
  obtain ⟨list, hl, -⟩ := bind_eq_some_iff.1 hs
  rw [append?_of_at? ht hl] at ha
  split at ha
  · next hac =>
    cases ha
    have ht₁ := at?_modifyAt_append (·.modifyList key (· ++ ns)) ht []
    have hl₁ := children?_modifyList_some hl (· ++ ns)
    rw [append_nil] at ht₁
    have hc : (fun n : Node => n.modifyList key (· ++ ms)) ∘
        (fun n : Node => n.modifyList key (· ++ ns)) =
          fun n : Node => n.modifyList key (· ++ (ns ++ ms)) := by
      funext n
      rw [Function.comp_apply, modifyList_modifyList]
      congr 1
      funext list
      exact append_assoc ..
    rw [Bool.and_eq_true] at hac
    simp only [Placement.splice?]
    rw [append?_of_at? ht₁ hl₁, append?_of_at? ht hl, modifyAt_modifyAt, hc,
      accepts_append, hac.2, Bool.true_and]
    rfl
  · cases ha

/-- A node in the place of another, and others in its place. -/
theorem splice?_replace (h : Placement.replace.splice? ns root path = some (root₁, path₁))
    (ms : List Node) :
    Placement.replace.splice? ms root₁ path₁ = Placement.replace.splice? ms root path := by
  obtain ⟨root', hr, heq⟩ := map_eq_some_iff.1 h
  cases heq
  obtain ⟨t, ht, hs⟩ := bind_eq_some_iff.1 hr
  split at hs
  · next node =>
    split at hs
    · next ha =>
      cases hs
      rw [Bool.and_eq_true] at ha
      have ht₁ := at?_modifyAt_append (fun _ => node) ht []
      rw [append_nil] at ht₁
      simp only [Placement.splice?, replace?, ht, ht₁, at?_nil, Option.bind_eq_bind,
        bind_some, ha.1, ha.2, modifyAt_modifyAt]
      rfl
    · cases hs
  · cases hs

theorem spliced_of_splice? (h : p.splice? ns root path = some (root₁, path₁))
    (hm : root.at? path = some m) : Spliced ns p root path root₁ path₁ := by
  cases p with
  | replace =>
    obtain ⟨root', hr, heq⟩ := map_eq_some_iff.1 h
    cases heq
    obtain ⟨t, ht, hs⟩ := bind_eq_some_iff.1 hr
    split at hs
    · split at hs
      · next hat =>
        cases hs
        rw [Bool.and_eq_true] at hat
        exact .replace rfl ht hat.1 hat.2
      · cases hs
    · cases hs
  | into key =>
    obtain ⟨root', hap, heq⟩ := map_eq_some_iff.1 h
    cases heq
    obtain ⟨t, ht, hs⟩ := bind_eq_some_iff.1 hap
    obtain ⟨list, hl, hs⟩ := bind_eq_some_iff.1 hs
    split at hs
    · next ha =>
      cases hs
      rw [Bool.and_eq_true, Bool.not_eq_true'] at ha
      have happ : root.modifyAt (·.modifyList key (· ++ ns)) path =
          root.modifyAt (·.modifyList key (insertAt list.length ns)) path :=
        modifyAt_congr ht (modifyList_congr hl (by simp [insertAt]))
      rw [happ]
      exact .into ht hl ha.1 ha.2
    · cases hs
  | before key =>
    obtain ⟨q, j, r, o, list, hc, ho, hl, ha⟩ := crossing_of_insert? h
    have hj := hc.lt_length ho hl hm
    change insert? key 0 ns root path = _ at h
    rw [insert?_of_crossing hc ho hl, if_pos ha, Nat.add_zero, if_pos (Nat.le_refl j)] at h
    cases h
    exact .before hc ho hl hj ha.1
  | after key =>
    obtain ⟨q, j, r, o, list, hc, ho, hl, ha⟩ := crossing_of_insert? h
    have hj := hc.lt_length ho hl hm
    change insert? key 1 ns root path = _ at h
    rw [insert?_of_crossing hc ho hl, if_pos ha, if_neg (Nat.not_succ_le_self j)] at h
    cases h
    exact .after hc ho hl hj ha.1

/-- The path leads to the same node behind a splice as before, unless
that was replaced; only its own list may have grown. -/
theorem Spliced.exists_at? (h : Spliced ns p root path root₁ path₁) (hm : root.at? path = some m) :
    ∃ m₁, root₁.at? path₁ = some m₁ ∧ (p = .replace ∧ ns = [m₁] ∨
        (∃ key list, p = .into key ∧ m.children? key = some list ∧
          m₁ = m.modifyList key (insertAt list.length ns)) ∨
        (∃ key, (p = .before key ∨ p = .after key) ∧ m₁ = m)) := by
  cases h with
  | @replace root path t a hn ht =>
    have hat := at?_modifyAt_append (fun _ => a) ht []
    rw [append_nil] at hat
    exact ⟨a, hat, .inl ⟨rfl, hn⟩⟩
  | @into root path t key list ht hl =>
    obtain rfl := Option.some.inj (ht.symm.trans hm)
    have hat := at?_modifyAt_append (·.modifyList key (insertAt list.length ns)) ht []
    rw [append_nil] at hat
    exact ⟨_, hat, .inr (.inl ⟨key, list, rfl, hl, rfl⟩)⟩
  | @before root path key q j r o list hc ho hl hj =>
    refine ⟨m, ?_, .inr (.inr ⟨key, .inl rfl, rfl⟩)⟩
    have hs := step?_insertAt hl hj j ns
    rw [if_pos (Nat.le_refl j)] at hs
    rw [at?_modifyAt_append _ ho, at?_cons, hs]
    rwa [hc.path_eq, at?_append, ho] at hm
  | @after root path key q j r o list hc ho hl hj =>
    refine ⟨m, ?_, .inr (.inr ⟨key, .inr rfl, rfl⟩)⟩
    have hs := step?_insertAt hl hj (j + 1) ns
    rw [if_neg (Nat.not_succ_le_self j)] at hs
    rw [at?_modifyAt_append _ ho, at?_cons, hs]
    rwa [hc.path_eq, at?_append, ho] at hm

-- == other labels

theorem accepts_map (kind : Kind) (key : String) {f : Node → Node} (h : ∀ n, (f n).kind = n.kind)
    (nodes : List Node) : accepts kind key (nodes.map f) = accepts kind key nodes := by
  rw [accepts, accepts, all_map]
  congr 3
  funext n
  rw [Function.comp_apply, h]

namespace Recolors

variable {f : Node → Node}

theorem ownerDepth? (h : Recolors f) (root : Node) (path : Path) (key : String) :
    Splice.ownerDepth? (f root) path key = Splice.ownerDepth? root path key := by
  refine find?_congr fun depth _ => ?_
  rw [h.at?]
  cases root.at? (path.take depth) with
  | none => rfl
  | some n =>
    simp only [map_some, bind_some, h.children?, Option.isSome_map]

theorem insert? (h : Recolors f) (key : String) (off : Nat) (nodes : List Node) (root : Node)
    (path : Path) :
    Splice.insert? key off (nodes.map f) (f root) path =
      (Splice.insert? key off nodes root path).map fun r => (f r.1, r.2) := by
  have hp : position? key off (nodes.map f).length (f root) path =
      position? key off nodes.length root path := by
    simp only [position?, h.ownerDepth?, length_map]
  simp only [Splice.insert?, hp, Option.bind_eq_bind]
  cases position? key off nodes.length root path with
  | none => rfl
  | some insertion =>
    simp only [bind_some, h.at?]
    cases root.at? (path.take insertion.depth) with
    | none => rfl
    | some o =>
      have hc : ∀ n : Node, f (n.modifyList key (insertAt insertion.position nodes)) =
          (f n).modifyList key (insertAt insertion.position (nodes.map f)) :=
        h.modifyList key fun list => by
          simp only [insertAt, map_append, map_take, map_drop]
      simp only [map_some, bind_some, h.kind, accepts_map o.kind key h.kind nodes,
        h.children?, ← h.modifyAt hc (path.take insertion.depth) root]
      cases o.children? key with
      | none => rfl
      | some list =>
        simp only [map_some, bind_some, length_map]
        split <;> rfl

theorem splice? (h : Recolors f) (p : Placement) (nodes : List Node) (root : Node) (path : Path) :
    p.splice? (nodes.map f) (f root) path =
      (p.splice? nodes root path).map fun r => (f r.1, r.2) := by
  cases p with
  | before key => exact h.insert? key 0 nodes root path
  | after key => exact h.insert? key 1 nodes root path
  | replace =>
    simp only [Placement.splice?, replace?, h.at?, Option.bind_eq_bind]
    cases root.at? path with
    | none => rfl
    | some t =>
      match nodes with
      | [] => rfl
      | [node] =>
        have hm : f (root.modifyAt (fun _ => node) path) =
            (f root).modifyAt (fun _ => f node) path :=
          h.modifyAt (g := fun _ => node) (fun _ => rfl) path root
        simp only [map_cons, map_nil, map_some, bind_some, h.kind, ← hm]
        split <;> rfl
      | _ :: _ :: _ => rfl
  | into key =>
    simp only [Placement.splice?, append?, h.at?, Option.bind_eq_bind]
    cases root.at? path with
    | none => rfl
    | some t =>
      have hc : ∀ n : Node, f (n.modifyList key (· ++ nodes)) =
          (f n).modifyList key (· ++ nodes.map f) :=
        h.modifyList key fun list => map_append
      simp only [map_some, bind_some, h.children?, h.kind,
        accepts_map t.kind key h.kind nodes, ← h.modifyAt hc path root]
      cases t.children? key with
      | none => rfl
      | some list =>
        simp only [map_some, bind_some]
        split <;> rfl

end Recolors

theorem splice?_mapComments (f : List Comment → List Comment) (p : Placement) (nodes : List Node)
    (root : Node) (path : Path) :
    p.splice? (nodes.map (Node.mapComments f)) (root.mapComments f) path =
      (p.splice? nodes root path).map fun r => (r.1.mapComments f, r.2) :=
  (recolors_mapComments f).splice? p nodes root path

end Inlay
