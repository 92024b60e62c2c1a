/-
The stops that a walk has before it.

While nothing changes, the path and the cursor of a walk determine all
stops that are still to come: the itinerary (`pending`), read off the tree
by following the path from the root (`around`). The walk takes the first
stop and goes on with the rest (`step_eq`). There are at most two stops for
each node, so a visitor that pays for its changes is led through to the end
(`run_ends`).

Seen as a whole a walk is a recursion over the tree: a node is entered, its
children are toured one after the other, and the node is left (`Tours`). A
walk that gets to its end is such a tour, however the tree changes on the way
(`Rests.of_step`, from the last stop backwards).
-/
import Inlay.Proofs.Tree.Kids
import Inlay.Tree.Walk

namespace Inlay

open List Node

-- == rounds

/-- The property without the children it holds. -/
def Field.own : Field Node → Field Node
  | .node _ => .node Node.hole
  | .nodes _ => .nodes []
  | .data j => .data j

/-- The node without its children. -/
def Node.own (n : Node) : Node := { n with props := n.props.map fun e => (e.1, e.2.own) }

namespace Walk

/-- A stop at a node: on the way in or on the way out, with the path to
the node and what the node has of its own. -/
structure Stop where
  entering : Bool
  path : Path
  node : Node

/-- The stop as it is seen from the node that the step goes out from. -/
def Stop.under (s : Step) (stop : Stop) : Stop := { stop with path := s :: stop.path }

def Stop.enter (n : Node) : Stop := ⟨true, [], n.own⟩

def Stop.leave (n : Node) : Stop := ⟨false, [], n.own⟩

end Walk

namespace Node

open Walk (Stop)

/-- The stops at a node and all nodes below it: each node is entered
before its children and left after them. -/
def rounds (n : Node) : List Stop :=
  .enter n :: (n.kids.attach.flatMap (fun k => k.1.2.rounds.map (.under k.1.1)) ++ [.leave n])
termination_by n.size
decreasing_by exact size_lt_of_mem_kids k.2

/-- The stops at some children and all nodes below them. -/
def tour (ks : List (Step × Node)) : List Stop := ks.flatMap fun k => k.2.rounds.map (.under k.1)

theorem rounds_eq (n : Node) : n.rounds = .enter n :: (tour n.kids ++ [.leave n]) := by
  rw [rounds, tour]
  congr 2
  conv => rhs; rw [← attach_map_subtype_val n.kids, flatMap_map]

theorem tour_append (ks ls : List (Step × Node)) : tour (ks ++ ls) = tour ks ++ tour ls :=
  flatMap_append

theorem tour_cons (k : Step × Node) (ks : List (Step × Node)) :
    tour (k :: ks) = k.2.rounds.map (.under k.1) ++ tour ks := flatMap_cons

theorem length_rounds (n : Node) : n.rounds.length = 2 * n.size := by
  induction n using induction_kids with
  | h n ih =>
    have ht : ∀ ks : List (Step × Node), (∀ k ∈ ks, k.2.rounds.length = 2 * k.2.size) →
        (tour ks).length = 2 * (ks.map (·.2.size)).sum := by
      intro ks hks
      induction ks with
      | nil => rfl
      | cons k ks ihk =>
        rw [forall_mem_cons] at hks
        rw [tour_cons, length_append, length_map, hks.1, ihk hks.2, map_cons, sum_cons]
        omega
    rw [rounds_eq, length_cons, length_append, ht n.kids ih, size_eq n]
    simp
    omega

theorem length_tour (ks : List (Step × Node)) : (tour ks).length = 2 * (ks.map (·.2.size)).sum := by
  induction ks with
  | nil => rfl
  | cons k ks ih =>
    rw [tour_cons, length_append, length_map, length_rounds, ih, map_cons, sum_cons]
    omega

end Node

-- == cursors

namespace Walk.Cursor

variable {n m : Node} {s : Step} {c c' : Cursor}

/-- The children at or behind an item of the first of the properties. -/
def aheadIn (item : Nat) : List (String × Field Node) → List (Step × Node)
  | [] => []
  | e :: rest => (e.2.kids e.1).drop item ++ Node.kidsOf rest

theorem aheadIn_zero (props : Node.Props) : aheadIn 0 props = Node.kidsOf props := by
  cases props with
  | nil => rfl
  | cons e rest => rw [aheadIn, drop_zero, kidsOf_cons]

/-- The children of a node that the cursor has before it. -/
def ahead (c : Cursor) (n : Node) : List (Step × Node) := aheadIn c.item (n.props.drop c.prop)

theorem ahead_start (n : Node) : start.ahead n = n.kids := aheadIn_zero n.props

theorem seek_eq (prop item : Nat) (props : Node.Props) :
    (seek prop item props = none ∧ aheadIn item props = []) ∨
      ∃ s c m i e rest, seek prop item props = some (s, c) ∧ c.prop = prop + i ∧
        props.drop i = e :: rest ∧ e.1 = s.key ∧
        aheadIn item props = (s, m) :: aheadIn (s.index.elim 1 (· + 1)) (e :: rest) := by
  induction props generalizing prop item with
  | nil => exact .inl ⟨rfl, rfl⟩
  | cons e props ih =>
    -- a property with nothing ahead is passed by
    have pass : (e.2.kids e.1).drop item = [] →
        seek prop item (e :: props) = seek (prop + 1) 0 props →
        (seek prop item (e :: props) = none ∧ aheadIn item (e :: props) = []) ∨
          ∃ s c m i e' rest, seek prop item (e :: props) = some (s, c) ∧ c.prop = prop + i ∧
            (e :: props).drop i = e' :: rest ∧ e'.1 = s.key ∧
            aheadIn item (e :: props) = (s, m) :: aheadIn (s.index.elim 1 (· + 1)) (e' :: rest) := by
      intro hk hs
      have ha : aheadIn item (e :: props) = aheadIn 0 props := by
        rw [aheadIn, hk, aheadIn_zero, nil_append]
      rw [ha, hs]
      refine (ih (prop + 1) 0).imp_right ?_
      rintro ⟨s, c, m, i, e', rest, hso, hp, hd, hke, heq⟩
      exact ⟨s, c, m, i + 1, e', rest, hso, by omega, hd, hke, heq⟩
    obtain ⟨key, f⟩ := e
    cases f with
    | node n =>
      by_cases hi : item = 0
      · subst hi
        exact .inr ⟨⟨key, none⟩, ⟨prop, 0⟩, n, 0, _, props, by rw [seek, if_pos rfl], rfl, rfl, rfl,
          rfl⟩
      · refine pass ?_ (by rw [seek, if_neg hi])
        obtain ⟨item, rfl⟩ := Nat.exists_eq_succ_of_ne_zero hi
        simp [Field.kids]
    | nodes ns =>
      by_cases hi : item < ns.length
      · refine .inr ⟨⟨key, some item⟩, ⟨prop, item⟩, ns[item], 0, _, props,
          by rw [seek, if_pos hi], rfl, rfl, rfl, ?_⟩
        simp only [aheadIn, Field.kids, Option.elim_some]
        rw [← cons_append, drop_items hi]
      · refine pass ?_ (by rw [seek, if_neg hi])
        rw [drop_eq_nil_iff]
        simp only [Field.kids, length_items]
        omega
    | data j => exact pass (by simp [Field.kids]) rfl

/-- A cursor finds the first child ahead; behind it are the others. -/
theorem next?_eq (c : Cursor) (hk : n.keys.Nodup) :
    (c.next? n = none ∧ c.ahead n = []) ∨
      ∃ s c' m, c.next? n = some (s, c') ∧ c.ahead n = (s, m) :: (c'.behind s).ahead n ∧
        c'.prop = n.keys.idxOf s.key := by
  refine (seek_eq c.prop c.item (n.props.drop c.prop)).imp_right ?_
  rintro ⟨s, c', m, i, e, rest, hs, hp, hd, hke, ha⟩
  rw [drop_drop, ← hp] at hd
  refine ⟨s, c', m, hs, ?_, ?_⟩
  · rw [ahead, ha, ahead]
    simp only [behind, hd]
  · have hg : n.keys[c'.prop]? = some s.key := by
      rw [Node.keys, getElem?_map, ← head?_drop, hd, head?_cons, Option.map_some, hke]
    obtain ⟨hlt, hg⟩ := List.getElem?_eq_some_iff.1 hg
    rw [← hg, hk.idxOf_getElem]

/-- The children ahead are the last ones. -/
theorem exists_kids_eq (c : Cursor) (n : Node) : ∃ A, n.kids = A ++ c.ahead n := by
  have hs := kidsOf_append (n.props.take c.prop) (n.props.drop c.prop)
  rw [take_append_drop] at hs
  unfold ahead
  cases hd : n.props.drop c.prop with
  | nil =>
    rw [hd] at hs
    exact ⟨_, hs⟩
  | cons e rest =>
    rw [hd, kidsOf_cons, ← take_append_drop c.item (e.2.kids e.1)] at hs
    refine ⟨Node.kidsOf (n.props.take c.prop) ++ (e.2.kids e.1).take c.item, ?_⟩
    rw [Node.kids, hs, aheadIn]
    simp only [append_assoc]

end Walk.Cursor

namespace Node

open Walk (Cursor Stop)

variable {n m : Node} {s : Step}

/-- The children behind the one that a step leads to. -/
def behind (n : Node) (s : Step) : List (Step × Node) :=
  Cursor.ahead ⟨n.keys.idxOf s.key, s.index.elim 1 (· + 1)⟩ n

theorem exists_kids_eq_behind (hs : n.step? s = some m) :
    ∃ A, n.kids = A ++ (s, m) :: n.behind s := by
  unfold step? at hs
  obtain ⟨f, hg, hit⟩ := Option.bind_eq_some_iff.1 hs
  obtain ⟨front, rest, hp, hf, -⟩ := Entries.split_of_lookup hg
  have hin : n.keys.idxOf s.key = front.length := by
    rw [keys, hp, map_append, map_cons, idxOf_append_of_notMem, idxOf_cons_self,
      length_map, Nat.add_zero]
    intro hm
    obtain ⟨e, he, heq⟩ := mem_map.1 hm
    exact hf e he heq
  have hb : n.behind s = (f.kids s.key).drop (s.index.elim 1 (· + 1)) ++ kidsOf rest := by
    simp only [behind, Cursor.ahead, hin, hp, drop_left]
    rfl
  have hsp : ∃ B, f.kids s.key = B ++ (s, m) :: (f.kids s.key).drop (s.index.elim 1 (· + 1)) := by
    obtain ⟨key, index⟩ := s
    cases f with
    | node c =>
      cases index with
      | none =>
        cases hit
        exact ⟨[], rfl⟩
      | some i => cases hit
    | data j => cases hit
    | nodes ns =>
      cases index with
      | none => cases hit
      | some i =>
        obtain ⟨hi, rfl⟩ := List.getElem?_eq_some_iff.1 (show ns[i]? = some m from hit)
        refine ⟨(items key 0 ns).take i, ?_⟩
        show items key 0 ns = (items key 0 ns).take i ++ _ :: (items key 0 ns).drop (i + 1)
        rw [← drop_items hi, take_append_drop]
  obtain ⟨B, hB⟩ := hsp
  refine ⟨kidsOf front ++ B, ?_⟩
  rw [hb, kids, hp, kidsOf_append, kidsOf_cons]
  simp only [append_assoc]
  conv => lhs; rw [hB]
  simp only [append_assoc, cons_append]

/-- The child of a step splits the kids in one way only. -/
theorem eq_of_kids_eq {A A' B B' : List (Step × Node)} {m' : Node}
    (hA : ∀ k ∈ A, k.1 ≠ s) (hA' : ∀ k ∈ A', k.1 ≠ s)
    (h : A ++ (s, m) :: B = A' ++ (s, m') :: B') : A = A' ∧ m = m' ∧ B = B' := by
  induction A generalizing A' with
  | nil =>
    cases A' with
    | nil =>
      cases h
      exact ⟨rfl, rfl, rfl⟩
    | cons k A' =>
      obtain ⟨rfl, -⟩ := List.cons.inj h
      exact absurd rfl (hA' _ (mem_cons_self ..))
  | cons k A ih =>
    cases A' with
    | nil =>
      obtain ⟨rfl, -⟩ := List.cons.inj h
      exact absurd rfl (hA _ (mem_cons_self ..))
    | cons k' A' =>
      rw [forall_mem_cons] at hA hA'
      obtain ⟨rfl, hr⟩ := List.cons.inj h
      obtain ⟨rfl, rfl, rfl⟩ := ih hA.2 hA'.2 hr
      exact ⟨rfl, rfl, rfl⟩

theorem behind_eq (hk : n.keys.Nodup) {A B : List (Step × Node)}
    (h : n.kids = A ++ (s, m) :: B) : n.behind s = B := by
  have hs : n.step? s = some m := (step?_eq_some_iff hk).2 (by simp [h])
  obtain ⟨A', hA'⟩ := exists_kids_eq_behind hs
  exact (eq_of_kids_eq (ne_of_kids_eq hk hA').1 (ne_of_kids_eq hk h).1 (hA'.symm.trans h)).2.2

theorem behind_modifyStep (hk : n.keys.Nodup) (hs : n.step? s = some m) (f : Node → Node) :
    (n.modifyStep s f).behind s = n.behind s := by
  obtain ⟨A, B, hki, hc⟩ := kids_split hs
  rw [behind_eq hk hki, behind_eq (by rwa [keys_modifyStep]) (hc f)]

theorem step?_modifyStep (hk : n.keys.Nodup) (hs : n.step? s = some m) (f : Node → Node) :
    (n.modifyStep s f).step? s = some (f m) := by
  obtain ⟨A, B, -, hc⟩ := kids_split hs
  rw [step?_eq_some_iff (by rwa [keys_modifyStep]), hc]
  simp

theorem own_modifyStep (s : Step) (f : Node → Node) (n : Node) : (n.modifyStep s f).own = n.own := by
  have hf : ∀ field : Field Node, (field.modifyItem s.index f).own = field.own := by
    intro field
    cases field with
    | node c =>
      simp only [Field.modifyItem]
      split <;> rfl
    | nodes ns => cases s.index <;> rfl
    | data j => rfl
  simp only [own, modifyStep, Entries.map_modify s.key hf]

theorem own_modifyList (key : String) (f : List Node → List Node) (n : Node) :
    (n.modifyList key f).own = n.own := by
  have hf : ∀ field : Field Node, (field.modifyList f).own = field.own := by
    intro field
    cases field <;> rfl
  simp only [own, modifyList, Entries.map_modify key hf]

theorem children?_own (n : Node) (key : String) :
    n.own.children? key = (n.children? key).map fun _ => [] := by
  unfold children? get? own
  rw [Entries.lookup_map]
  cases n.props.lookup key with
  | none => rfl
  | some field => cases field <;> rfl

end Node

-- == itineraries

namespace Walk

open Node (tour)

variable {n m : Node} {s : Step} {c : Cursor} {p q : Path} {base : List Stop}

/-- The stops around a path: those below its end are given, and those
behind follow on the way up. -/
def around : Node → Path → List Stop → List Stop
  | _, [], base => base
  | n, s :: p, base =>
      ((n.step? s).elim [] (around · p base)).map (.under s) ++ (tour (n.behind s) ++ [.leave n])

/-- The stops at a node that a cursor has before it. -/
def Cursor.todo (c : Cursor) (n : Node) : List Stop := tour (c.ahead n) ++ [.leave n]

/-- All stops that are still to come at a cursor of the node at a
path. -/
def pending (root : Node) (p : Path) (c : Cursor) : List Stop :=
  around root p ((root.at? p).elim [] c.todo)

theorem around_cons (hs : n.step? s = some m) (p : Path) (base : List Stop) :
    around n (s :: p) base =
      (around m p base).map (.under s) ++ (tour (n.behind s) ++ [.leave n]) := by
  rw [around, hs, Option.elim_some]

section

variable (h : n.at? p = some m)

include h

theorem around_append (q : Path) (base : List Stop) :
    around n (p ++ q) base = around n p (around m q base) := by
  induction p generalizing n with
  | nil =>
    cases h
    rfl
  | cons s p ih =>
    obtain ⟨l, hs, hl⟩ := at?_cons_eq_some_iff.1 h
    rw [cons_append, around_cons hs, around_cons hs, ih hl]

/-- The first stop below the end of a path comes first. -/
theorem around_stop (stop : Stop) (base : List Stop) :
    around n p (stop :: base) = { stop with path := p ++ stop.path } :: around n p base := by
  induction p generalizing n with
  | nil => rfl
  | cons s p ih =>
    obtain ⟨l, hs, hl⟩ := at?_cons_eq_some_iff.1 h
    rw [around_cons hs, around_cons hs, ih hl]
    rfl

theorem pending_eq (c : Cursor) : pending n p c = around n p (c.todo m) := by
  rw [pending, h, Option.elim_some]

/-- On the way down the next child is entered. -/
theorem pending_descend {child : Node}
    (hs : m.step? s = some child) (ha : c.ahead m = (s, child) :: m.behind s) :
    pending n p c = ⟨true, p ++ [s], child.own⟩ :: pending n (p ++ [s]) .start := by
  have hc : n.at? (p ++ [s]) = some child := (at?_snoc h s).trans hs
  have ht : c.todo m = .under s (.enter child) :: around m [s] (Cursor.start.todo child) := by
    rw [around_cons hs, Cursor.todo, ha, tour_cons, rounds_eq, Cursor.todo, Cursor.ahead_start]
    simp [around]
  rw [pending_eq h, pending_eq hc, ht, around_stop h, around_append h]
  rfl

theorem length_around (hb : base.length ≤ 2 * m.size) : (around n p base).length ≤ 2 * n.size := by
  induction p generalizing n with
  | nil =>
    cases h
    exact hb
  | cons s p ih =>
    obtain ⟨l, hs, hl⟩ := at?_cons_eq_some_iff.1 h
    obtain ⟨A, hk⟩ := exists_kids_eq_behind hs
    have hsi := size_eq n
    rw [hk, map_append, map_cons, sum_append, sum_cons] at hsi
    have hbe := ih hl
    rw [around_cons hs, length_append, length_append, length_map, length_tour, length_singleton]
    dsimp only at hsi
    omega

/-- An itinerary has at most two stops for each node. -/
theorem length_pending (c : Cursor) : (pending n p c).length ≤ 2 * n.size := by
  rw [pending_eq h]
  refine length_around h ?_
  obtain ⟨A, hk⟩ := c.exists_kids_eq m
  have hs := size_eq m
  rw [hk, map_append, sum_append] at hs
  rw [Cursor.todo, length_append, length_tour, length_singleton]
  omega

theorem pending_ne_nil (c : Cursor) : pending n p c ≠ [] := by
  rw [pending_eq h, Cursor.todo]
  cases tour (c.ahead m) with
  | nil => simp [around_stop h]
  | cons stop stops => simp [around_stop h]

end

-- == cursors

/-- The cursors of the nodes above the end of a path, the root's first,
each at the property that the path goes through. -/
def Aligned : Node → Path → List Cursor → Prop
  | _, [], cs => cs = []
  | n, s :: p, cs => ∃ c more m, cs = c :: more ∧ n.step? s = some m ∧
      c.prop = n.keys.idxOf s.key ∧ Aligned m p more

theorem Aligned.exists_at? {cs : List Cursor} (h : Aligned n p cs) : ∃ m, n.at? p = some m := by
  induction p generalizing n cs with
  | nil => exact ⟨n, rfl⟩
  | cons s p ih =>
    obtain ⟨c, more, m, -, hs, -, hm⟩ := h
    obtain ⟨l, hl⟩ := ih hm
    exact ⟨l, at?_cons_eq_some_iff.2 ⟨m, hs, hl⟩⟩

theorem Aligned.snoc {cs : List Cursor} {child : Node} (h : Aligned n p cs)
    (hm : n.at? p = some m) (hs : m.step? s = some child) (hc : c.prop = m.keys.idxOf s.key) :
    Aligned n (p ++ [s]) (cs ++ [c]) := by
  induction p generalizing n cs with
  | nil =>
    obtain rfl : cs = [] := h
    cases hm
    exact ⟨c, [], child, rfl, hs, hc, rfl⟩
  | cons t p ih =>
    obtain ⟨d, more, l, rfl, ht, hd, hmo⟩ := h
    obtain ⟨l', ht', hm⟩ := at?_cons_eq_some_iff.1 hm
    obtain rfl := Option.some.inj (ht.symm.trans ht')
    exact ⟨d, more ++ [c], l, rfl, ht, hd, ih hmo hm⟩

/-- A change at the end of the path leaves the cursors where they are. -/
theorem Aligned.modifyAt {cs : List Cursor} (h : Aligned n p cs) (hn : n.Keyed)
    (hm : n.at? p = some m) (f : Node → Node) : Aligned (n.modifyAt f p) p cs := by
  induction p generalizing n cs with
  | nil => exact h
  | cons s p ih =>
    obtain ⟨c, more, l, rfl, hs, hc, hl⟩ := h
    obtain ⟨l', hs', hm⟩ := at?_cons_eq_some_iff.1 hm
    obtain rfl := Option.some.inj (hs.symm.trans hs')
    refine ⟨c, more, _, rfl, step?_modifyStep hn.nodup hs _, ?_, ih hl (hn.step hs) hm⟩
    rw [hc, Node.modifyAt, keys_modifyStep]

theorem Aligned.length_eq {cs : List Cursor} (h : Aligned n p cs) : cs.length = p.length := by
  induction p generalizing n cs with
  | nil =>
    obtain rfl : cs = [] := h
    rfl
  | cons s p ih =>
    obtain ⟨c, more, m, rfl, -, -, hm⟩ := h
    rw [length_cons, length_cons, ih hm]

theorem Aligned.of_snoc {cs : List Cursor} (h : Aligned n (p ++ [s]) (cs ++ [c])) :
    ∃ m child, Aligned n p cs ∧ n.at? p = some m ∧ m.step? s = some child ∧
      c.prop = m.keys.idxOf s.key := by
  induction p generalizing n cs with
  | nil =>
    obtain ⟨d, more, m, heq, hs, hd, rfl⟩ := h
    cases cs with
    | nil =>
      cases heq
      exact ⟨n, m, rfl, rfl, hs, hd⟩
    | cons e cs => simp at heq
  | cons t p ih =>
    obtain ⟨d, more, l, heq, ht, hd, hmo⟩ := h
    cases cs with
    | nil =>
      have hl := hmo.length_eq
      rw [nil_append, List.cons.injEq] at heq
      rw [← heq.2] at hl
      simp at hl
    | cons e cs =>
      rw [cons_append, List.cons.injEq] at heq
      obtain ⟨rfl, rfl⟩ := heq
      obtain ⟨m, child, hp, hm, hs, hc⟩ := ih hmo
      exact ⟨m, child, ⟨e, cs, l, rfl, ht, hd, hp⟩, at?_cons_eq_some_iff.2 ⟨l, ht, hm⟩, hs, hc⟩

-- == steps

variable {σ ε : Type} {v : Visitor σ ε}

/-- The stops that a walk has before it. -/
def left (s : State σ) : List Stop :=
  match s.cursors with
  | [] => []
  | c :: _ => pending s.visit.tree.root s.visit.path c

theorem left_cons (visit : Visit σ) (c : Cursor) (above : List Cursor) :
    left ⟨visit, c :: above⟩ = pending visit.tree.root visit.path c := rfl

/-- A walk that knows its way: its tree has distinct keys, and the
cursors belong to its path. -/
structure Standing (s : State σ) : Prop where
  keyed : s.visit.tree.root.Keyed
  aligned : ∀ c above, s.cursors = c :: above →
    Aligned s.visit.tree.root s.visit.path above.reverse

/-- One step of a walk takes the first stop of its itinerary: into the
next child, or out of the current node. -/
theorem step_eq (v : Visitor σ ε) {current : Cursor} {above : List Cursor} {visit : Visit σ}
    (hs : Standing ⟨visit, current :: above⟩) :
    (∃ s cursor m child,
      Standing ⟨{ visit with path := visit.path ++ [s] }, .start :: cursor :: above⟩ ∧
      visit.tree.root.at? visit.path = some m ∧ current.ahead m = (s, child) :: m.behind s ∧
      visit.tree.root.at? (visit.path ++ [s]) = some child ∧
      left ⟨visit, current :: above⟩ = ⟨true, visit.path ++ [s], child.own⟩ ::
        left ⟨{ visit with path := visit.path ++ [s] }, .start :: cursor :: above⟩ ∧
      step v current above visit = (v.enter { visit with path := visit.path ++ [s] }).map
        fun visit' => ⟨visit', .start :: cursor :: above⟩) ∨
    (∃ m, visit.tree.root.at? visit.path = some m ∧ current.ahead m = [] ∧
      left ⟨visit, current :: above⟩ =
        ⟨false, visit.path, m.own⟩ :: around visit.tree.root visit.path [] ∧
      step v current above visit = (v.leave visit).map
        fun visit' => ⟨{ visit' with path := visit'.path.dropLast }, resume visit'.path above⟩) := by
  have hal : Aligned visit.tree.root visit.path above.reverse := hs.aligned current above rfl
  obtain ⟨m, hm⟩ := hal.exists_at?
  have hk : m.keys.Nodup := (hs.keyed.at? hm).nodup
  rcases current.next?_eq hk with ⟨hn, ha⟩ | ⟨s, cursor, child, hso, ha, hp⟩
  · refine .inr ⟨m, hm, ha, ?_, ?_⟩
    · show pending visit.tree.root visit.path current = _
      rw [pending_eq hm, Cursor.todo, ha]
      exact (around_stop hm (.leave m) []).trans (by rw [Stop.leave, append_nil])
    · unfold step
      rw [hm, Option.bind_some, hn]
      dsimp only
      cases v.leave visit <;> rfl
  · have hst : m.step? s = some child := by
      obtain ⟨A, hki⟩ := current.exists_kids_eq m
      rw [step?_eq_some_iff hk, hki, ha]
      simp
    have hb : (cursor.behind s).ahead m = m.behind s := by
      rw [Cursor.behind, Node.behind, hp]
    have hc : visit.tree.root.at? (visit.path ++ [s]) = some child :=
      (at?_snoc hm s).trans hst
    rw [hb] at ha
    refine .inl ⟨s, cursor, m, child, ⟨hs.keyed, ?_⟩, hm, ha, hc, ?_, ?_⟩
    · rintro c more heq
      cases heq
      rw [reverse_cons]
      exact hal.snoc hm hst hp
    · exact pending_descend hm hst ha
    · unfold step
      rw [hm, Option.bind_some, hso]
      dsimp only
      cases v.enter { visit with path := visit.path ++ [s] } <;> rfl

/-- Behind a node that was left, the walk is over, or the cursor of its
parent has before it what stands behind the node. -/
theorem resume_cases {n : Node} {path : Path} {above : List Cursor}
    (h : Aligned n path above.reverse) :
    (path = [] ∧ resume path above = []) ∨
      ∃ q s c above' m child, path = q ++ [s] ∧ resume path above = c :: above' ∧
        Aligned n q above'.reverse ∧ n.at? q = some m ∧ m.step? s = some child ∧
        c.ahead m = m.behind s := by
  have hl := h.length_eq
  cases above with
  | nil => exact .inl ⟨length_eq_zero_iff.1 (by simpa using hl.symm), rfl⟩
  | cons c above =>
    obtain ⟨q, s, rfl⟩ : ∃ q s, path = q ++ [s] := by
      rcases eq_nil_or_concat path with hn | ⟨q, s, hp⟩
      · rw [hn] at hl
        simp at hl
      · exact ⟨q, s, hp.trans (concat_eq_append ..)⟩
    rw [reverse_cons] at h
    obtain ⟨m, child, ha, hm, hs, hpr⟩ := h.of_snoc
    refine .inr ⟨q, s, c.behind s, above, m, child, rfl, ?_, ha, hm, hs, ?_⟩
    · rw [resume, getLast?_concat]
    · rw [Cursor.behind, hpr]
      rfl

/-- Behind a node that was left, the walk goes on with what its parent
has behind it. -/
theorem left_resume {visit : Visit σ} {above : List Cursor} (hk : visit.tree.root.Keyed)
    (ha : Aligned visit.tree.root visit.path above.reverse) :
    Standing ⟨{ visit with path := visit.path.dropLast }, resume visit.path above⟩ ∧
      left ⟨{ visit with path := visit.path.dropLast }, resume visit.path above⟩ =
        around visit.tree.root visit.path [] := by
  rcases resume_cases ha with
    ⟨hp, hr⟩ | ⟨q, s, c, above', m, child, hp, hr, ha', hm, hs, hah⟩
  · rw [hp] at hr ⊢
    rw [hr]
    exact ⟨⟨hk, fun c above h => by cases h⟩, rfl⟩
  · rw [hr, hp, dropLast_concat]
    refine ⟨⟨hk, ?_⟩, ?_⟩
    · rintro d more heq
      cases heq
      exact ha'
    · show pending visit.tree.root q c = _
      rw [pending_eq hm, around_append hm, around_cons hs, Cursor.todo, hah]
      rfl

-- == runs

theorem Standing.left_ne_nil {s : State σ} (hs : Standing s) (h : s.cursors ≠ []) :
    left s ≠ [] := by
  obtain ⟨visit, cursors⟩ := s
  cases cursors with
  | nil => exact absurd rfl h
  | cons c above =>
    obtain ⟨m, hm⟩ := (hs.aligned c above rfl).exists_at?
    exact pending_ne_nil hm c

/-- The bound of a walk is enough for its itinerary. -/
theorem Standing.length_left {s : State σ} (hs : Standing s) : (left s).length ≤ bound s := by
  obtain ⟨visit, cursors⟩ := s
  cases cursors with
  | nil => exact Nat.zero_le _
  | cons c above =>
    obtain ⟨m, hm⟩ := (hs.aligned c above rfl).exists_at?
    exact Nat.le_trans (length_pending hm c) (Nat.le_add_right _ _)

theorem runToChange_congr {f g : Nat → State σ → Except ε (State σ)} {budget : Nat}
    (h : ∀ b < budget, ∀ s, f b s = g b s) (stops : Nat) (s : State σ) :
    runToChange v f budget stops s = runToChange v g budget stops s := by
  induction stops generalizing s with
  | zero => rfl
  | succ stops ih =>
    obtain ⟨visit, cursors⟩ := s
    cases cursors with
    | nil => rfl
    | cons current above =>
      simp only [runToChange]
      cases step v current above visit with
      | error e => rfl
      | ok next =>
        dsimp only
        split
        · exact h _ ‹_› next
        · exact ih next

/-- Each change lowers the budget, so there are no more changes than it
allows. -/
theorem runChanging_congr {i j budget : Nat} (hi : budget ≤ i) (hj : budget ≤ j) (stops : Nat)
    (s : State σ) : runChanging v i budget stops s = runChanging v j budget stops s := by
  induction i generalizing j budget stops s with
  | zero =>
    cases j with
    | zero => rfl
    | succ j => exact runToChange_congr (fun b hb => absurd (Nat.lt_of_lt_of_le hb hi) (Nat.not_lt_zero b)) ..
  | succ i ih =>
    cases j with
    | zero => exact runToChange_congr (fun b hb => absurd (Nat.lt_of_lt_of_le hb hj) (Nat.not_lt_zero b)) ..
    | succ j => exact runToChange_congr (fun b hb s => ih (by omega) (by omega) _ s) ..

theorem run_nil (v : Visitor σ ε) (budget stops : Nat) (visit : Visit σ) :
    run v budget stops ⟨visit, []⟩ = .ok ⟨visit, []⟩ := by
  cases budget <;> cases stops <;> rfl

theorem run_succ (v : Visitor σ ε) (budget stops : Nat) (visit : Visit σ) (current : Cursor)
    (above : List Cursor) :
    run v budget (stops + 1) ⟨visit, current :: above⟩ = match step v current above visit with
      | .error e => .error e
      | .ok next =>
          if v.budget next.visit.memory < budget then
            run v (v.budget next.visit.memory) (bound next) next
          else run v budget stops next := by
  cases budget with
  | zero =>
    simp only [Nat.not_lt_zero, if_false]
    rfl
  | succ budget =>
    simp only [run, runChanging, runToChange]
    cases step v current above visit with
    | error e => rfl
    | ok next =>
      dsimp only
      split
      · exact runChanging_congr (by omega) (Nat.le_refl _) ..
      · rfl

section Ends

variable {I : State σ → Prop} {E : ε → Prop} {memory : σ} {t : Tree} (hst : ∀ s, I s → Standing s)
  (hen : match v.enter ⟨memory, t, []⟩ with
    | .ok visit => I ⟨visit, [.start]⟩
    | .error e => E e)
  (hste : ∀ visit current above, I ⟨visit, current :: above⟩ →
    match step v current above visit with
    | .ok next => I next ∧ (v.budget next.visit.memory < v.budget visit.memory ∨
        v.budget next.visit.memory = v.budget visit.memory ∧
          (left next).length < (left ⟨visit, current :: above⟩).length)
    | .error e => E e)

include hst hste

/-- A walk whose visitor pays for its changes gets to the end: if each
step keeps an invariant and either lowers the budget or takes a stop off
the itinerary, the walk ends with the invariant and nothing before it. -/
theorem run_ends (budget stops : Nat) (s : State σ) (hs : I s)
    (hb : budget = v.budget s.visit.memory) (hsto : (left s).length ≤ stops) :
    match run v budget stops s with
    | .ok last => I last ∧ last.cursors = []
    | .error e => E e := by
  induction budget using Nat.strongRecOn generalizing stops s with
  | ind budget ihbudget =>
    induction stops generalizing s with
    | zero =>
      obtain ⟨visit, cursors⟩ := s
      cases cursors with
      | nil =>
        rw [run_nil]
        exact ⟨hs, rfl⟩
      | cons current above =>
        have hni := eq_nil_of_length_eq_zero (Nat.le_zero.1 hsto)
        exact absurd hni ((hst _ hs).left_ne_nil (cons_ne_nil current above))
    | succ stops ih =>
      obtain ⟨visit, cursors⟩ := s
      cases cursors with
      | nil =>
        rw [run_nil]
        exact ⟨hs, rfl⟩
      | cons current above =>
        have hn := hste visit current above hs
        rw [run_succ]
        cases hok : step v current above visit with
        | error e =>
          rw [hok] at hn
          exact hn
        | ok next =>
          rw [hok] at hn
          by_cases hl : v.budget next.visit.memory < budget
          · simp only [if_pos hl]
            exact ihbudget _ hl _ next hn.1 rfl (hst next hn.1).length_left
          · simp only [if_neg hl]
            obtain ⟨hI, hl' | ⟨heq, hle⟩⟩ := hn
            · exact absurd (hb ▸ hl') hl
            · exact ih next hI (hb.trans heq.symm) (by omega)

include hen

theorem walk_ends :
    (∃ memory' tree path, t.walk v memory = .ok (memory', tree) ∧
      I ⟨⟨memory', tree, path⟩, []⟩) ∨ ∃ e, t.walk v memory = .error e ∧ E e := by
  unfold Tree.walk
  cases he : v.enter ⟨memory, t, []⟩ with
  | error e =>
    rw [he] at hen
    exact .inr ⟨e, rfl, hen⟩
  | ok visit =>
    rw [he] at hen
    have hr := run_ends hst hste (v.budget visit.memory) _ ⟨visit, [.start]⟩ hen rfl
      (hst _ hen).length_left
    simp only [bind, Except.bind]
    cases hl : run v (v.budget visit.memory) (bound ⟨visit, [.start]⟩) ⟨visit, [.start]⟩ with
    | error e =>
      rw [hl] at hr
      exact .inr ⟨e, rfl, hr⟩
    | ok last =>
      rw [hl] at hr
      obtain ⟨⟨memory', tree, path⟩, cursors⟩ := last
      obtain ⟨hI, rfl⟩ := hr
      exact .inl ⟨memory', tree, path, rfl, hI⟩

end Ends

/-- A walk whose visitor changes nothing at any node of the tree. -/
theorem walk_idle {memory : σ} {t : Tree} (ht : t.root.Keyed)
    (he : ∀ path n, t.root.at? path = some n → v.enter ⟨memory, t, path⟩ = .ok ⟨memory, t, path⟩)
    (hle : ∀ visit, v.leave visit = .ok visit) : t.walk v memory = .ok (memory, t) := by
  let I (s : State σ) : Prop := Standing s ∧ s.visit.memory = memory ∧ s.visit.tree = t
  have hen : (∃ memory' tree path, t.walk v memory = .ok (memory', tree) ∧
      I ⟨⟨memory', tree, path⟩, []⟩) ∨ ∃ e, t.walk v memory = .error e ∧ False := by
    refine walk_ends (fun s hs => hs.1) ?_ ?_
    · rw [he [] t.root (at?_nil _)]
      refine ⟨⟨ht, fun c above heq => ?_⟩, rfl, rfl⟩
      cases heq
      exact rfl
    · intro ⟨memory', tree, path⟩ current above ⟨hsta, hm, htr⟩
      obtain rfl : memory' = memory := hm
      obtain rfl : tree = t := htr
      rcases step_eq v hsta with
        ⟨s, cursor, m, child, hn, -, -, hc, hl, hst⟩ | ⟨m, -, -, hl, hst⟩
      · rw [hst, he _ child hc, hl]
        exact ⟨⟨hn, rfl, rfl⟩, .inr ⟨rfl, Nat.lt_succ_self _⟩⟩
      · obtain ⟨hre, hr⟩ := left_resume ht (hsta.aligned _ _ rfl)
        rw [hst, hle, hl]
        refine ⟨⟨hre, rfl, rfl⟩, .inr ⟨rfl, ?_⟩⟩
        show (left _).length < _
        rw [hr]
        exact Nat.lt_succ_self _
  rcases hen with ⟨memory', tree, path, hw, -, hm, htr⟩ | ⟨e, -, hf⟩
  · rw [hw, show memory' = memory from hm, show tree = t from htr]
  · exact hf.elim

end Walk

-- == tours

namespace Walk

variable {σ ε : Type}

/-- The cursor behind the child that was left at the end of a path. -/
def Cursor.past (c : Cursor) (path : Path) : Cursor := path.getLast?.elim c c.behind

theorem resume_cons (path : Path) (c : Cursor) (above : List Cursor) :
    resume path (c :: above) = c.past path :: above := by
  unfold resume Cursor.past
  cases path.getLast? <;> rfl

/-- A tour of the children of the current node that a cursor has before
it. -/
inductive Tours (v : Visitor σ ε) : Cursor → Visit σ → Visit σ → Prop
  | done {c visit} (hnext : (visit.tree.root.at? visit.path).bind c.next? = none) :
      Tours v c visit visit
  | next {c c' s visit v₁ v₂ v₃ last}
      (hnext : (visit.tree.root.at? visit.path).bind c.next? = some (s, c'))
      (henter : v.enter { visit with path := visit.path ++ [s] } = .ok v₁)
      (hbelow : Tours v .start v₁ v₂) (hleave : v.leave v₂ = .ok v₃)
      (hrest : Tours v (c'.past v₃.path) { v₃ with path := v₃.path.dropLast } last) :
      Tours v c visit last

/-- What is left of a walk: for each level a tour of the children that
are still to come. -/
inductive Rests (v : Visitor σ ε) : State σ → Visit σ → Prop
  | over {visit} : Rests v ⟨visit, []⟩ visit
  | level {c above visit v₁ v₂ last} (htours : Tours v c visit v₁) (hleave : v.leave v₁ = .ok v₂)
      (hrest : Rests v ⟨{ v₂ with path := v₂.path.dropLast }, resume v₂.path above⟩ last) :
      Rests v ⟨visit, c :: above⟩ last

theorem Rests.of_step {v : Visitor σ ε} {c : Cursor} {above : List Cursor} {visit last : Visit σ}
    {next : State σ} (hs : step v c above visit = .ok next) (h : Rests v next last) :
    Rests v ⟨visit, c :: above⟩ last := by
  unfold step at hs
  split at hs
  · next s c' hn =>
    cases he : v.enter { visit with path := visit.path ++ [s] } with
    | error e =>
      rw [he] at hs
      cases hs
    | ok v₁ =>
      rw [he] at hs
      cases hs
      cases h with
      | level hb hl hr =>
        rw [resume_cons] at hr
        cases hr with
        | level hr hl' hla => exact .level (.next hn he hb hl hr) hl' hla
  · next hn =>
    cases hl : v.leave visit with
    | error e =>
      rw [hl] at hs
      cases hs
    | ok v₁ =>
      rw [hl] at hs
      cases hs
      exact .level (.done hn) hl h

end Walk

end Inlay
