/-
A node in the list above it.

A sleeve is a tree seen from the nearest body above a node: the items
before and behind the one that leads to the node, and that item with the
path down. Placing nodes around the node is putting them at the end of the
front or at the start of the back (`Sleeve.before_eq`, `Sleeve.after_eq`).

Of a tour it only matters which children are still to come (`ToursOf`).
When one was toured, those behind it come next, wherever it has moved to.
-/
import Inlay.Proofs.Tree.Itinerary
import Inlay.Proofs.Tree.Splicing

namespace Inlay

open List Node

-- == tours

namespace Walk

variable {σ ε : Type} {v : Visitor σ ε} {visit last : Visit σ} {n : Node} {s : Step}

/-- The child that the next step of a tour leads to. -/
theorem exists_next {c c' : Cursor} {root : Node} {path : Path} (hr : root.Keyed)
    (h : (root.at? path).bind c.next? = some (s, c')) :
    ∃ n m, root.at? path = some n ∧ c.ahead n = (s, m) :: (c'.behind s).ahead n ∧
      root.at? (path ++ [s]) = some m ∧ c'.prop = n.keys.idxOf s.key := by
  obtain ⟨n, hn, hne⟩ := Option.bind_eq_some_iff.1 h
  have hk := (hr.at? hn).nodup
  rcases c.next?_eq hk with ⟨hno, -⟩ | ⟨s', c'', m, hs, ha, hp⟩
  · rw [hno] at hne
    cases hne
  · rw [hs] at hne
    cases hne
    refine ⟨n, m, hn, ha, ?_, hp⟩
    obtain ⟨A, hki⟩ := c.exists_kids_eq n
    rw [at?_snoc hn, step?_eq_some_iff hk, hki, ha]
    simp

/-- A tour of the children of the current node that these steps lead
to. -/
def ToursOf (v : Visitor σ ε) (steps : List Step) (visit last : Visit σ) : Prop :=
  ∃ c n, visit.tree.root.at? visit.path = some n ∧ (Cursor.ahead c n).map (·.1) = steps ∧
    Tours v c visit last

theorem Tours.toursOf (h : Tours v .start visit last) (hn : visit.tree.root.at? visit.path = some n) :
    ToursOf v (n.kids.map (·.1)) visit last :=
  ⟨.start, n, hn, by rw [Cursor.ahead_start], h⟩

theorem ToursOf.nil (h : ToursOf v [] visit last) (hr : visit.tree.root.Keyed) : last = visit := by
  obtain ⟨c, n, hn, ha, ht⟩ := h
  cases ht with
  | done => rfl
  | next hne =>
    obtain ⟨n', m, hn', ha', -⟩ := exists_next hr hne
    obtain rfl := Option.some.inj (hn.symm.trans hn')
    rw [ha'] at ha
    cases ha

/-- The first child is entered and toured; then those behind it are, from
wherever the node is by then. -/
theorem ToursOf.cons {steps : List Step} (h : ToursOf v (s :: steps) visit last)
    (hr : visit.tree.root.Keyed) (hle : ∀ visit, v.leave visit = .ok visit)
    (hn : visit.tree.root.at? visit.path = some n) :
    ∃ v₁ v₂, v.enter { visit with path := visit.path ++ [s] } = .ok v₁ ∧ Tours v .start v₁ v₂ ∧
      (∃ c, Tours v c { v₂ with path := v₂.path.dropLast } last) ∧
      ∀ path n₁ s' before behind, v₂.path = path ++ [s'] → s'.key = s.key →
        v₂.tree.root.at? path = some n₁ → n₁.keys = n.keys →
        n₁.kids.map (·.1) = before ++ s' :: behind →
        ToursOf v behind { v₂ with path } last := by
  obtain ⟨c, n', hn', ha, hto⟩ := h
  obtain rfl := Option.some.inj (hn.symm.trans hn')
  cases hto with
  | done hne =>
    rw [hn, Option.bind_some] at hne
    rcases c.next?_eq (hr.at? hn).nodup with ⟨-, hni⟩ | ⟨s', c', m', hs, -⟩
    · rw [hni] at ha
      cases ha
    · rw [hne] at hs
      cases hs
  | @next _ c' s' _ v₁ v₂ v₃ _ hne he hb hl hre =>
    obtain ⟨n'', m', hn'', ha', -, hpr⟩ := exists_next hr hne
    obtain rfl := Option.some.inj (hn.symm.trans hn'')
    rw [ha'] at ha
    cases ha
    rw [hle] at hl
    cases hl
    refine ⟨v₁, v₂, he, hb, ⟨_, hre⟩, fun path n₁ s'' before behind hp hke hn₁ hk hki => ?_⟩
    rw [hp, dropLast_concat, Cursor.past, getLast?_concat] at hre
    refine ⟨_, n₁, hn₁, ?_, hre⟩
    obtain ⟨A, B, hsp, -, hB⟩ := map_eq_append_iff.1 hki
    obtain ⟨⟨t, m⟩, B, rfl, ht, rfl⟩ := map_eq_cons_iff.1 hB
    obtain rfl : t = s'' := ht
    have hno : n₁.keys.Nodup := hk ▸ (hr.at? hn).nodup
    rw [← behind_eq hno hsp, Node.behind, hk, hke, ← hpr]
    rfl

end Walk

-- == nodes

namespace Node

variable {root m n : Node} {list : List Node} {key : String}

theorem filter_key_kids (field : Field Node) {props : Node.Props} (hke : key ∉ props.map (·.1)) :
    (field.kids key ++ kidsOf props).filter (·.1.key = key) = field.kids key ∧
      (field.kids key ++ kidsOf props).filter (·.1.key ≠ key) = kidsOf props := by
  have hf : ∀ k ∈ field.kids key, k.1.key = key := fun k hk => Field.key_of_mem_kids hk
  have hp : ∀ k ∈ kidsOf props, k.1.key ≠ key := fun k hk heq =>
    hke (heq ▸ key_of_mem_kidsOf hk)
  rw [filter_append, filter_append]
  constructor
  · rw [filter_eq_self.2 (by simpa using hf), filter_eq_nil_iff.2 (by simpa using hp), append_nil]
  · rw [filter_eq_nil_iff.2 (by simpa using hf), filter_eq_self.2 (by simpa using hp), nil_append]

theorem eq_of_fieldKids_eq {v w : Field Node} (ho : v.own = w.own)
    (hk : v.kids key = w.kids key) : v = w := by
  cases v <;> cases w <;> cases ho
  · cases hk
    rfl
  · have hn := congrArg (List.map (·.2)) hk
    rw [Field.kids, Field.kids, map_snd_items, map_snd_items] at hn
    rw [hn]
  · rfl

theorem eq_of_kidsOf_eq {ps qs : Node.Props} (hk : (ps.map (·.1)).Nodup)
    (ho : ps.map (fun e => (e.1, e.2.own)) = qs.map fun e => (e.1, e.2.own))
    (hki : kidsOf ps = kidsOf qs) : ps = qs := by
  induction ps generalizing qs with
  | nil => exact (map_eq_nil_iff.1 ho.symm).symm
  | cons e ps ih =>
    obtain ⟨key, v⟩ := e
    obtain ⟨⟨key', w⟩, qs, rfl, hh, hr⟩ := map_eq_cons_iff.1 ho.symm
    obtain ⟨rfl, hvw⟩ := Prod.mk.inj hh
    obtain ⟨hke, hk⟩ := nodup_cons.1 hk
    have hk' : qs.map (·.1) = ps.map (·.1) := by
      have hfs := congrArg (List.map (·.1)) hr
      rw [map_map, map_map] at hfs
      exact hfs
    rw [kidsOf_cons, kidsOf_cons] at hki
    obtain ⟨hv, hps⟩ := filter_key_kids v hke
    obtain ⟨hw, hqs⟩ := filter_key_kids w (hk' ▸ hke)
    have hf : v = w := eq_of_fieldKids_eq hvw.symm (by rw [← hv, hki, hw])
    rw [hf, ih hk hr.symm (by rw [← hps, hki, hqs])]

/-- A node is what it has of its own and its children. -/
theorem eq_of_own_of_kids (hk : n.keys.Nodup) (ho : n.own = m.own) (hki : n.kids = m.kids) :
    n = m := by
  have hp : n.props = m.props := eq_of_kidsOf_eq hk (congrArg Node.props ho) hki
  cases n
  cases m
  obtain ⟨hkin, -, hr, hlo, hl, ht⟩ := Node.mk.inj ho
  cases hkin
  cases hr
  cases hlo
  cases hl
  cases ht
  cases hp
  rfl

theorem modifyAt_append (f : Node → Node) (p q : Path) (n : Node) :
    n.modifyAt f (p ++ q) = n.modifyAt (modifyAt f q) p := by
  induction p generalizing n with
  | nil => rfl
  | cons s p ih =>
    rw [cons_append, modifyAt, modifyAt]
    congr 1
    funext m
    exact ih m

theorem at?_modifyAt {path : Path} (f : Node → Node) (h : root.at? path = some n) :
    (root.modifyAt f path).at? path = some (f n) := by
  have ha := at?_modifyAt_append f h []
  rwa [append_nil] at ha

theorem modifyAt_self {path : Path} (h : root.at? path = some n) :
    root.modifyAt (fun _ => n) path = root := by
  rw [modifyAt_congr h (g := fun m => m) rfl, modifyAt_id]

theorem modifyList_eq_self (key : String) {f : List Node → List Node} (h : ∀ list, f list = list)
    (n : Node) : n.modifyList key f = n := by
  have hf : ∀ field : Field Node, field.modifyList f = field := by
    intro field
    cases field with
    | nodes list => rw [Field.modifyList, h]
    | node | data => rfl
  cases n
  rw [modifyList, Entries.modify_eq_self key hf]

theorem modifyStep_modifyList (key : String) (list : List Node) (i : Nat) (f : Node → Node)
    (n : Node) : (n.modifyList key fun _ => list).modifyStep ⟨key, some i⟩ f =
      n.modifyList key fun _ => list.modify i f := by
  have hf : Field.modifyItem (some i) f ∘ Field.modifyList (fun _ => list) =
      Field.modifyList fun _ => list.modify i f := by
    funext field
    cases field <;> rfl
  simp only [modifyStep, modifyList, Entries.modify_modify, hf]

theorem kids_modifyStep {s : Step} {A B : List (Step × Node)} (hk : n.keys.Nodup)
    (h : n.kids = A ++ (s, m) :: B) (f : Node → Node) :
    (n.modifyStep s f).kids = A ++ (s, f m) :: B := by
  have hm : (s, m) ∈ n.kids := by rw [h]; simp
  obtain ⟨A', B', hs, hc⟩ := kids_split ((step?_eq_some_iff hk).2 hm)
  obtain ⟨hA, -⟩ := ne_of_kids_eq hk h
  obtain ⟨hA', -⟩ := ne_of_kids_eq hk hs
  obtain ⟨rfl, -, rfl⟩ := eq_of_kids_eq hA hA' (h.symm.trans hs)
  exact hc f

theorem kids_modifyList_of_sole (hkey : n.keys.Nodup) (hl : n.children? key = some list)
    (hs : ∀ k ∈ n.kids, k.1.key = key) (f : List Node → List Node) :
    (n.modifyList key f).kids = items key 0 (f list) := by
  obtain ⟨front, rest, hp, hf, -, hc⟩ := exists_parts hl 0
  have hr : ∀ e ∈ rest, e.1 ≠ key := by
    rw [keys, hp, map_append, nodup_append, map_cons, nodup_cons] at hkey
    exact fun e he heq => hkey.2.1.1 (mem_map.2 ⟨e, he, heq⟩)
  have hn {props : List (String × Field Node)} (hsu : props ⊆ n.props)
      (hne : ∀ e ∈ props, e.1 ≠ key) : kidsOf props = [] := by
    refine eq_nil_iff_forall_not_mem.2 fun k hk => ?_
    obtain ⟨e, he, hke⟩ := mem_flatMap.1 hk
    apply hne e he
    rw [← Field.key_of_mem_kids hke]
    exact hs k (mem_flatMap.2 ⟨e, hsu he, hke⟩)
  rw [kids, hc, kidsOf_append, kidsOf_cons, hn (by simp [hp]) hf,
    hn (by simp [hp]) hr, nil_append, append_nil]
  rfl

theorem kids_eq_items (hk : n.keys.Nodup) (hl : n.children? key = some list)
    (hso : ∀ k ∈ n.kids, k.1.key = key) : n.kids = items key 0 list := by
  have hs := kids_modifyList_of_sole hk hl hso fun list => list
  rwa [modifyList_eq_self key (fun _ => rfl)] at hs

theorem source?_modifyAt_modifyList (key : String) (f : List Node → List Node) (n : Node)
    (path : Path) : (n.modifyAt (·.modifyList key f) path).source? = n.source? := by
  cases path with
  | nil => rfl
  | cons => rfl

theorem children?_eq_none_of_own (ho : m.own = n.own) (h : n.children? key = none) :
    m.children? key = none := by
  have hm := children?_own m key
  rw [ho, children?_own, h, Option.map_none] at hm
  exact Option.map_eq_none_iff.1 hm.symm

end Node

-- == sleeves

/-- A tree around an item of a body and a node below the item. -/
structure Sleeve where
  root : Node
  /-- The path to the node that has the body. -/
  above : Path
  front : List Node
  item : Node
  back : List Node
  /-- The path from the item to the node. -/
  below : Path

namespace Sleeve

open Splice

variable {s : Sleeve} {n : Node} {path' : Path} {root' m : Node} {nodes : List Node} {step : Step}

def list (s : Sleeve) : List Node := s.front ++ s.item :: s.back

def tree (s : Sleeve) : Node := s.root.modifyAt (·.modifyList "body" fun _ => s.list) s.above

def path (s : Sleeve) : Path := s.above ++ ⟨"body", some s.front.length⟩ :: s.below

/-- The sleeve is there, and so is the node; no node between the two has a
body. -/
structure Fits (s : Sleeve) (n : Node) : Prop where
  owner : ∃ o list, s.root.at? s.above = some o ∧ o.children? "body" = some list
  node : s.item.at? s.below = some n
  nearest : ∀ k < s.below.length, ∀ m, s.item.at? (s.below.take k) = some m →
    m.children? "body" = none

theorem exists_owner (h : s.Fits n) :
    ∃ o, s.tree.at? s.above = some o ∧ o.children? "body" = some s.list := by
  obtain ⟨o, list, ho, hl⟩ := h.owner
  exact ⟨o.modifyList "body" fun _ => s.list, at?_modifyAt (·.modifyList "body" fun _ => s.list) ho,
    children?_modifyList_some hl _⟩

theorem at?_item (h : s.Fits n) (r : Path) :
    s.tree.at? (s.above ++ ⟨"body", some s.front.length⟩ :: r) = s.item.at? r := by
  obtain ⟨o, ho, hl⟩ := exists_owner h
  rw [at?_append, ho, Option.bind_some, at?_cons, step?_item hl, list]
  simp

theorem at?_path (h : s.Fits n) : s.tree.at? s.path = some n := by
  rw [path, at?_item h, h.node]

theorem crossing (h : s.Fits n) : Crossing "body" s.tree s.path s.above s.front.length s.below := by
  refine ⟨rfl, ?_⟩
  obtain ⟨o, ho, hli⟩ := exists_owner h
  have hl : s.path.length = s.above.length + 1 + s.below.length := by
    simp only [path, length_append, length_cons]
    omega
  rw [ownerDepth?, hl, range_add, range_succ, reverse_append, find?_append,
    reverse_concat, find?_cons_of_pos]
  · -- further down no node has a body
    have hn : (List.map (s.above.length + 1 + ·) (List.range s.below.length)).reverse.find?
        (fun depth => ((s.tree.at? (s.path.take depth)).bind (·.children? "body")).isSome) = none := by
      refine find?_eq_none.2 fun depth hd => ?_
      obtain ⟨k, hk, rfl⟩ := mem_map.1 (mem_reverse.1 hd)
      have ht : s.path.take (s.above.length + 1 + k) =
          s.above ++ ⟨"body", some s.front.length⟩ :: s.below.take k := by
        rw [path, Nat.add_assoc, take_length_add_append, Nat.add_comm 1, take_succ_cons]
      rw [ht, at?_item h]
      cases hm : s.item.at? (s.below.take k) with
      | none => simp
      | some m => simp [h.nearest k (mem_range.1 hk) m hm]
    rw [hn]
    rfl
  · have ht : s.path.take s.above.length = s.above := by rw [path, take_left]
    rw [ht, ho, Option.bind_some, hli]
    rfl

theorem modifyAt_above (s : Sleeve) (f : List Node → List Node) :
    s.tree.modifyAt (·.modifyList "body" f) s.above =
      s.root.modifyAt (·.modifyList "body" fun _ => f s.list) s.above := by
  rw [tree, modifyAt_modifyAt]
  congr 1
  funext o
  rw [Function.comp_apply, modifyList_modifyList]
  rfl

theorem before_eq (h : s.Fits n)
    (hs : (Placement.before "body").splice? nodes s.tree s.path = some (root', path')) :
    root' = { s with front := s.front ++ nodes }.tree ∧
      path' = { s with front := s.front ++ nodes }.path := by
  obtain ⟨o, ho, hl⟩ := exists_owner h
  rw [Placement.splice?, insert?_of_crossing (crossing h) ho hl, modifyAt_above] at hs
  split at hs
  · cases hs
    simp [tree, path, list, insertAt]
  · cases hs

theorem after_eq (h : s.Fits n)
    (hs : (Placement.after "body").splice? nodes s.tree s.path = some (root', path')) :
    root' = { s with back := nodes ++ s.back }.tree ∧
      path' = { s with back := nodes ++ s.back }.path := by
  obtain ⟨o, ho, hl⟩ := exists_owner h
  rw [Placement.splice?, insert?_of_crossing (crossing h) ho hl, modifyAt_above] at hs
  split at hs
  · cases hs
    have hi : insertAt (s.front.length + 1) nodes s.list =
        s.front ++ s.item :: (nodes ++ s.back) := by
      rw [insertAt, list, take_length_add_append, drop_length_add_append]
      simp
    rw [hi]
    simp [tree, path, list]
  · cases hs

theorem modify_list (s : Sleeve) (f : Node → Node) :
    s.list.modify s.front.length f = s.front ++ f s.item :: s.back := by
  rw [list, modify_eq_take_cons_drop (by simp)]
  simp

/-- A change of the node is a change of the item. -/
theorem modifyAt_path (s : Sleeve) (f : Node → Node) :
    s.tree.modifyAt f s.path = { s with item := s.item.modifyAt f s.below }.tree := by
  rw [path, modifyAt_append, tree, modifyAt_modifyAt, tree]
  congr 1
  funext o
  rw [Function.comp_apply, Node.modifyAt, modifyStep_modifyList, modify_list]
  rfl

-- == changes

/-- The sleeve with another node in the place of its own, and with more
nodes before and behind the item. -/
def put (s : Sleeve) (front : List Node) (n : Node) (back : List Node) : Sleeve :=
  { s with
    front := s.front ++ front
    item := s.item.modifyAt (fun _ => n) s.below
    back := back ++ s.back }

theorem put_self (h : s.Fits n) : s.put [] n [] = s := by
  rw [put, modifyAt_self h.node, append_nil, nil_append]

theorem tree_put (s : Sleeve) (n : Node) : (s.put [] n []).tree = s.tree.modifyAt (fun _ => n) s.path := by
  rw [modifyAt_path, put, append_nil, nil_append]

theorem path_put (s : Sleeve) (n : Node) : (s.put [] n []).path = s.path := by
  rw [put, append_nil]
  rfl

theorem put_put (s : Sleeve) (front front' back back' : List Node) (n n' : Node) :
    (s.put front n back).put front' n' back' = s.put (front ++ front') n' (back' ++ back) := by
  simp only [put, modifyAt_modifyAt, append_assoc]
  rfl

theorem children?_modifyAt_eq_none {key : String} {f : Node → Node} {path : Path}
    (h : m.children? key = none) : (m.modifyAt f (step :: path)).children? key = none := by
  apply children?_eq_none_of_own _ h
  rw [Node.modifyAt, own_modifyStep]

theorem Fits.put (h : s.Fits n) (front : List Node) (m : Node) (back : List Node) :
    (s.put front m back).Fits m := by
  refine ⟨h.owner, ?_, fun k hk l hl => ?_⟩
  · exact at?_modifyAt (fun _ => m) h.node
  · rw [Sleeve.put, at?_modifyAt_take] at hl
    obtain ⟨l', hl', rfl⟩ := Option.map_eq_some_iff.1 hl
    have hd : s.below.drop k = s.below[k] :: s.below.drop (k + 1) := drop_eq_getElem_cons hk
    rw [hd]
    exact children?_modifyAt_eq_none (h.nearest k hk l' hl')

theorem source?_tree (s : Sleeve) : s.tree.source? = s.root.source? :=
  source?_modifyAt_modifyList ..

theorem source?_put (s : Sleeve) (front : List Node) (n : Node) (back : List Node) :
    (s.put front n back).tree.source? = s.tree.source? := by
  rw [source?_tree, source?_tree]
  rfl

/-- The sleeve of a child. -/
def descend (s : Sleeve) (step : Step) : Sleeve := { s with below := s.below ++ [step] }

theorem path_descend (s : Sleeve) (step : Step) : (s.descend step).path = s.path ++ [step] := by
  simp [path, descend]

theorem Fits.descend (h : s.Fits n) (hb : n.children? "body" = none) (hm : n.step? step = some m) :
    (s.descend step).Fits m := by
  refine ⟨h.owner, ?_, fun k hk l hl => ?_⟩
  · rw [Sleeve.descend, at?_snoc h.node, hm]
  · rw [Sleeve.descend, length_append, length_singleton] at hk
    by_cases hlt : k < s.below.length
    · rw [Sleeve.descend, take_append_of_le_length (Nat.le_of_lt hlt)] at hl
      exact h.nearest k hlt l hl
    · obtain rfl : k = s.below.length := by omega
      rw [Sleeve.descend, take_left, h.node] at hl
      cases hl
      exact hb

theorem put_descend (h : s.Fits n) (front : List Node) (m : Node) (back : List Node) (step : Step) :
    (s.descend step).put front m back =
      (s.put front (n.modifyStep step fun _ => m) back).descend step := by
  have hi : s.item.modifyAt (fun _ => m) (s.below ++ [step]) =
      s.item.modifyAt (fun _ => n.modifyStep step fun _ => m) s.below := by
    rw [modifyAt_append]
    exact modifyAt_congr h.node rfl
  simp only [put, descend, hi]

theorem fits_item {root o : Node} {path : Path} {list : List Node} (ho : root.at? path = some o)
    (hl : o.children? "body" = some list) (front : List Node) (item : Node) (back : List Node) :
    (⟨root, path, front, item, back, []⟩ : Sleeve).Fits item :=
  ⟨⟨o, list, ho, hl⟩, rfl, fun k hk => by cases hk⟩

end Sleeve

end Inlay
