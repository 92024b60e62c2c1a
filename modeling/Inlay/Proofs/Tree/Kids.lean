/-
The children of a node as one list.

`Node.kids` lists the children of a node with the steps to them, in the
order of a walk. A changed child stands between the same neighbours
(`kids_split`), and nodes that are inserted stand between two parts of which
the second moves up (`kids_insertAt`). A step leads where the list says only
if no key is there twice, at a node and all below it (`Keyed`).
-/
import Inlay.Proofs.Basics
import Inlay.Tree.Measure
import Inlay.Tree.Splice

namespace Inlay

open List

variable {ns : List Node} {key : String}

-- == entries

namespace Entries

variable {α : Type} {entries : List (String × α)} {β : Type}

theorem map_fst_modify (key : String) (f : α → α) (entries : List (String × α)) :
    (modify key f entries).map (·.1) = entries.map (·.1) := by
  induction entries with
  | nil => rfl
  | cons entry rest ih =>
    rw [modify]
    split
    · rfl
    · rw [map_cons, map_cons, ih]

theorem map_modify (key : String) {f : α → α} {g : α → β} (h : ∀ v, g (f v) = g v)
    (entries : List (String × α)) :
    (modify key f entries).map (fun e => (e.1, g e.2)) = entries.map fun e => (e.1, g e.2) := by
  induction entries with
  | nil => rfl
  | cons entry rest ih =>
    rw [modify]
    split
    · rw [map_cons, map_cons, h]
    · rw [map_cons, map_cons, ih]

/-- The entry that a key finds stands behind entries of other keys, and
is the one that changes. -/
theorem split_of_lookup {key : String} {value : α} (h : entries.lookup key = some value) :
    ∃ front rest, entries = front ++ (key, value) :: rest ∧ (∀ e ∈ front, e.1 ≠ key) ∧
      ∀ f, modify key f entries = front ++ (key, f value) :: rest := by
  induction entries with
  | nil => cases h
  | cons entry entries ih =>
    obtain ⟨k, v⟩ := entry
    rw [lookup_cons] at h
    split at h
    · next hk =>
      cases h
      obtain rfl : key = k := beq_iff_eq.1 hk
      exact ⟨[], entries, rfl, forall_mem_nil _, fun f => by simp [modify]⟩
    · next hk =>
      have hne : k ≠ key := fun heq => by simp [heq] at hk
      obtain ⟨front, rest, rfl, hf, hm⟩ := ih h
      refine ⟨(k, v) :: front, rest, rfl, forall_mem_cons.2 ⟨hne, hf⟩, fun f => ?_⟩
      rw [modify, if_neg (by simpa using hne), hm]
      rfl

/-- With distinct keys, each entry is the one that its key finds. -/
theorem lookup_of_mem (hk : (entries.map (·.1)).Nodup) {e : String × α} (he : e ∈ entries) :
    entries.lookup e.1 = some e.2 := by
  obtain ⟨front, rest, rfl⟩ := append_of_mem he
  rw [map_append, map_cons, nodup_append] at hk
  have hn : front.lookup e.1 = none := by
    rw [lookup_eq_none_iff]
    intro p hp
    rw [bne_iff_ne]
    exact fun heq => hk.2.2 p.1 (mem_map_of_mem hp) e.1 (mem_cons_self ..) heq.symm
  rw [lookup_append, hn, lookup_cons, beq_self_eq_true]
  rfl

theorem lookup_map (g : α → β) (entries : List (String × α)) (key : String) :
    (entries.map fun e => (e.1, g e.2)).lookup key = (entries.lookup key).map g := by
  induction entries with
  | nil => rfl
  | cons e entries ih =>
    rw [map_cons, lookup_cons, lookup_cons]
    split
    · rfl
    · exact ih

end Entries

-- == kids

/-- The items of a list with the steps to them, counted from `i` on. -/
def items (key : String) : Nat → List Node → List (Step × Node)
  | _, [] => []
  | i, n :: rest => (⟨key, some i⟩, n) :: items key (i + 1) rest

theorem items_append (key : String) (i : Nat) (ns ms : List Node) :
    items key i (ns ++ ms) = items key i ns ++ items key (i + ns.length) ms := by
  induction ns generalizing i with
  | nil => rfl
  | cons n ns ih =>
    rw [cons_append, items, ih, items, length_cons, cons_append, Nat.add_right_comm, Nat.add_assoc]

theorem length_items (key : String) (i : Nat) (ns : List Node) :
    (items key i ns).length = ns.length := by
  induction ns generalizing i with
  | nil => rfl
  | cons n ns ih => rw [items, length_cons, length_cons, ih]

theorem drop_items {j : Nat} (h : j < ns.length) :
    (items key 0 ns).drop j = (⟨key, some j⟩, ns[j]) :: (items key 0 ns).drop (j + 1) := by
  have hg : ∀ (ns : List Node) (i j : Nat) (h : j < ns.length),
      (items key i ns).drop j = (⟨key, some (i + j)⟩, ns[j]) :: (items key i ns).drop (j + 1) := by
    intro ns
    induction ns with
    | nil => exact fun i j h => absurd h (Nat.not_lt_zero _)
    | cons n ns ih =>
      intro i j h
      cases j with
      | zero => rfl
      | succ j =>
        rw [items, drop_succ_cons, ih (i + 1) j (by simpa using h), drop_succ_cons,
          getElem_cons_succ, Nat.add_right_comm, Nat.add_assoc]
  rw [hg ns 0 j h, Nat.zero_add]

theorem mem_items {i : Nat} {k : Step × Node} (h : k ∈ items key i ns) :
    ∃ j, k.1 = ⟨key, some j⟩ ∧ i ≤ j ∧ j < i + ns.length ∧ ns[j - i]? = some k.2 := by
  induction ns generalizing i with
  | nil => cases h
  | cons n ns ih =>
    rcases mem_cons.1 h with rfl | h
    · exact ⟨i, rfl, Nat.le_refl i, by simp, by simp⟩
    · obtain ⟨j, hs, hle, hlt, hg⟩ := ih h
      refine ⟨j, hs, by omega, by rw [length_cons]; omega, ?_⟩
      rw [show j - i = (j - (i + 1)) + 1 by omega, getElem?_cons_succ]
      exact hg

theorem map_snd_items (key : String) (i : Nat) (ns : List Node) :
    (items key i ns).map (·.2) = ns := by
  induction ns generalizing i with
  | nil => rfl
  | cons n ns ih => rw [items, map_cons, ih]

theorem Step.shift_of_ne {i : Insertion} {s : Step} (h : s.key ≠ i.key) : s.shift i = s := by
  rw [Step.shift, if_neg h]

namespace Field

/-- The children of a property with the steps to them. -/
def kids (key : String) : Field Node → List (Step × Node)
  | .node n => [(⟨key, none⟩, n)]
  | .nodes ns => items key 0 ns
  | .data _ => []

theorem key_of_mem_kids {key : String} {f : Field Node} {k : Step × Node}
    (h : k ∈ f.kids key) : k.1.key = key := by
  cases f with
  | node n =>
    rw [mem_singleton.1 h]
  | nodes ns =>
    obtain ⟨j, hs, -⟩ := mem_items h
    rw [hs]
  | data j => cases h

theorem nodup_steps_kids (key : String) (f : Field Node) : ((f.kids key).map (·.1)).Nodup := by
  cases f with
  | node n => simp [kids]
  | data j => exact nodup_nil
  | nodes ns =>
    have hi : ∀ (i : Nat), ((items key i ns).map (·.1)).Nodup := by
      induction ns with
      | nil => exact fun _ => nodup_nil
      | cons n ns ih =>
        intro i
        rw [items, map_cons, nodup_cons]
        refine ⟨fun hm => ?_, ih (i + 1)⟩
        obtain ⟨k, hk, hs⟩ := mem_map.1 hm
        obtain ⟨j, hj, hle, -⟩ := mem_items hk
        rw [hs, Step.mk.injEq, Option.some_inj] at hj
        omega
    exact hi 0

end Field

namespace Node

variable {n m : Node} {s : Step} {key : String} {ns list : List Node} {j position : Nat}
  {props : Node.Props} {i : Insertion} {k : Step × Node} {P : Node → Prop}
  {f : Node → Node} {path : Path}

def keys (n : Node) : List String := n.props.map (·.1)

/-- The children under properties, with the steps to them. -/
def kidsOf (props : List (String × Field Node)) : List (Step × Node) :=
  props.flatMap fun e => e.2.kids e.1

/-- The children of a node with the steps to them. -/
def kids (n : Node) : List (Step × Node) := kidsOf n.props

theorem kidsOf_append (ps qs : Node.Props) :
    kidsOf (ps ++ qs) = kidsOf ps ++ kidsOf qs := flatMap_append

theorem kidsOf_cons (e : String × Field Node) (ps : Node.Props) :
    kidsOf (e :: ps) = e.2.kids e.1 ++ kidsOf ps := flatMap_cons

theorem key_of_mem_kidsOf (h : k ∈ kidsOf props) : k.1.key ∈ props.map (·.1) := by
  obtain ⟨e, he, hk⟩ := mem_flatMap.1 h
  rw [Field.key_of_mem_kids hk]
  exact mem_map_of_mem he

theorem nodup_steps_kidsOf (h : (props.map (·.1)).Nodup) : ((kidsOf props).map (·.1)).Nodup := by
  induction props with
  | nil => exact nodup_nil
  | cons e props ih =>
    rw [map_cons, nodup_cons] at h
    rw [kidsOf_cons, map_append, nodup_append]
    refine ⟨Field.nodup_steps_kids .., ih h.2, ?_⟩
    intro s hs t ht heq
    obtain ⟨k, hk, rfl⟩ := mem_map.1 hs
    obtain ⟨l, hl, rfl⟩ := mem_map.1 ht
    refine h.1 ?_
    rw [← Field.key_of_mem_kids hk, heq]
    exact key_of_mem_kidsOf hl

-- == folds over kids

theorem preorderOfNodes_eq (ns : List Node) : preorderOfNodes ns = ns.flatMap preorder := by
  induction ns with
  | nil => rfl
  | cons n ns ih => rw [preorderOfNodes, ih, flatMap_cons]

theorem flatMap_items {β : Type} (f : Node → List β) (key : String) (i : Nat) (ns : List Node) :
    (items key i ns).flatMap (fun k => f k.2) = ns.flatMap f := by
  induction ns generalizing i with
  | nil => rfl
  | cons n ns ih => rw [items, flatMap_cons, flatMap_cons, ih]

theorem preorder_eq (n : Node) : n.preorder = n :: n.kids.flatMap (·.2.preorder) := by
  obtain ⟨kind, props, range, loc, leading, trailing⟩ := n
  rw [preorder]
  congr 1
  show _ = (kidsOf props).flatMap _
  induction props with
  | nil => rfl
  | cons e props ih =>
    obtain ⟨key, f⟩ := e
    rw [kidsOf_cons, flatMap_append, ← ih]
    cases f with
    | node n => simp [preorderOfProps, Field.kids]
    | nodes ns =>
      rw [preorderOfProps, preorderOfNodes_eq, Field.kids, flatMap_items]
    | data j => rfl

theorem size_eq (n : Node) : n.size = 1 + (n.kids.map (·.2.size)).sum := by
  have hn : ∀ (ns : List Node), sizeOfNodes ns = (ns.map size).sum := by
    intro ns
    induction ns with
    | nil => rfl
    | cons n ns ih => rw [sizeOfNodes, ih, map_cons, sum_cons]
  obtain ⟨kind, props, range, loc, leading, trailing⟩ := n
  rw [size]
  congr 1
  show _ = ((kidsOf props).map _).sum
  induction props with
  | nil => rfl
  | cons e props ih =>
    obtain ⟨key, f⟩ := e
    rw [kidsOf_cons, map_append, sum_append, ← ih]
    cases f with
    | node n => simp [sizeOfProps, Field.kids]
    | nodes ns =>
      have hs := congrArg (fun ms : List Node => (ms.map size).sum) (map_snd_items key 0 ns)
      rw [map_map] at hs
      rw [sizeOfProps, hn, ← hs]
      rfl
    | data j => simp [sizeOfProps, Field.kids]

theorem size_lt_of_mem_kids (h : k ∈ n.kids) : k.2.size < n.size := by
  obtain ⟨A, B, hk⟩ := append_of_mem h
  rw [size_eq n, hk, map_append, map_cons, sum_append, sum_cons]
  omega

/-- What holds of a node if it holds of its children holds of every
node. -/
theorem induction_kids {p : Node → Prop} (h : ∀ n : Node, (∀ k ∈ n.kids, p k.2) → p n)
    (n : Node) : p n := by
  have hs : ∀ (size : Nat) (n : Node), n.size < size → p n := by
    intro size
    induction size with
    | zero => exact fun n hn => absurd hn (Nat.not_lt_zero _)
    | succ size ih =>
      intro n hn
      refine h n fun k hk => ih k.2 ?_
      have := size_lt_of_mem_kids hk
      omega
  exact hs (n.size + 1) n (Nat.lt_succ_self _)

theorem places_eq (n : Node) :
    n.places = ([], n) :: n.kids.flatMap fun k => k.2.places.map fun p => (k.1 :: p.1, p.2) := by
  have hn : ∀ (key : String) (ns : List Node) (i : Nat), placesOfNodes key i ns =
      (items key i ns).flatMap fun k => k.2.places.map fun p => (k.1 :: p.1, p.2) := by
    intro key ns
    induction ns with
    | nil => exact fun _ => rfl
    | cons n ns ih =>
      intro i
      rw [placesOfNodes, ih, items, flatMap_cons]
  obtain ⟨kind, props, range, loc, leading, trailing⟩ := n
  rw [places]
  congr 1
  show _ = (kidsOf props).flatMap _
  induction props with
  | nil => rfl
  | cons e props ih =>
    obtain ⟨key, f⟩ := e
    rw [kidsOf_cons, flatMap_append, ← ih]
    cases f with
    | node n => simp [placesOfProps, Field.kids]
    | nodes ns => rw [placesOfProps, hn, Field.kids]
    | data j => rfl

-- == one child

/-- A child that a step leads to is between the same neighbours when it
changes. -/
theorem kids_split (h : n.step? s = some m) :
    ∃ A B, n.kids = A ++ (s, m) :: B ∧ ∀ f, (n.modifyStep s f).kids = A ++ (s, f m) :: B := by
  unfold step? at h
  obtain ⟨field, hg, hit⟩ := Option.bind_eq_some_iff.1 h
  obtain ⟨front, rest, hp, -, hm⟩ := Entries.split_of_lookup hg
  obtain ⟨key, index⟩ := s
  -- the property alone
  obtain ⟨A, B, hk, hc⟩ : ∃ A B, field.kids key = A ++ (⟨key, index⟩, m) :: B ∧
      ∀ f, (field.modifyItem index f).kids key = A ++ (⟨key, index⟩, f m) :: B := by
    cases field with
    | node c =>
      cases index with
      | none =>
        cases hit
        exact ⟨[], [], rfl, fun f => rfl⟩
      | some i => cases hit
    | data j => cases hit
    | nodes ns =>
      cases index with
      | none => cases hit
      | some i =>
        change ns[i]? = some m at hit
        obtain ⟨hi, rfl⟩ := List.getElem?_eq_some_iff.1 hit
        have hns : ns = ns.take i ++ ns[i] :: ns.drop (i + 1) := by
          rw [getElem_cons_drop, take_append_drop]
        have hl : (ns.take i).length = i := by rw [length_take]; omega
        refine ⟨items key 0 (ns.take i), items key (i + 1) (ns.drop (i + 1)), ?_, fun f => ?_⟩
        · show items key 0 ns = _
          conv => lhs; rw [hns]
          rw [items_append, items, hl, Nat.zero_add]
        · show items key 0 (ns.modify i f) = _
          rw [modify_eq_take_cons_drop hi, items_append, items, hl, Nat.zero_add]
  refine ⟨kidsOf front ++ A, B ++ kidsOf rest, ?_, fun f => ?_⟩
  · rw [kids, hp, kidsOf_append, kidsOf_cons]
    simp only [hk, append_assoc, cons_append]
  · show kidsOf (Entries.modify key _ n.props) = _
    rw [hm, kidsOf_append, kidsOf_cons]
    simp only [hc, append_assoc, cons_append]

theorem mem_kids_of_step? (h : n.step? s = some m) : (s, m) ∈ n.kids := by
  obtain ⟨A, B, hk, -⟩ := kids_split h
  simp [hk]

/-- A change matters only for the child that is there. -/
theorem modifyStep_congr (h : n.step? s = some m) {g : Node → Node} (hfg : f m = g m) :
    n.modifyStep s f = n.modifyStep s g := by
  unfold step? at h
  obtain ⟨field, hg, hit⟩ := Option.bind_eq_some_iff.1 h
  obtain ⟨front, rest, hp, -, hm⟩ := Entries.split_of_lookup hg
  have hf : field.modifyItem s.index f = field.modifyItem s.index g := by
    cases field with
    | node c =>
      cases hin : s.index with
      | none =>
        rw [hin] at hit
        cases hit
        simp [Field.modifyItem, hfg]
      | some i => rfl
    | data j => rfl
    | nodes ns =>
      cases hin : s.index with
      | none => rfl
      | some i =>
        rw [hin] at hit
        obtain ⟨hi, rfl⟩ := List.getElem?_eq_some_iff.1 (show ns[i]? = some m from hit)
        simp only [Field.modifyItem, modify_eq_take_cons_drop hi, hfg]
  unfold modifyStep
  rw [hm, hm, hf]

theorem keys_modifyStep (s : Step) (f : Node → Node) (n : Node) :
    (n.modifyStep s f).keys = n.keys := Entries.map_fst_modify ..

theorem keys_modifyList (key : String) (f : List Node → List Node) (n : Node) :
    (n.modifyList key f).keys = n.keys := Entries.map_fst_modify ..

-- == insertions

theorem items_shift_of_lt (h : j + ns.length ≤ i.position) :
    (items i.key j ns).map (fun k => (k.1.shift i, k.2)) = items i.key j ns := by
  induction ns generalizing j with
  | nil => rfl
  | cons n ns ih =>
    rw [length_cons] at h
    rw [items, map_cons, ih (by omega), Step.shift, if_pos rfl]
    simp only [Option.map_some]
    rw [if_neg (by omega)]

theorem items_shift_of_le (h : i.position ≤ j) :
    (items i.key j ns).map (fun k => (k.1.shift i, k.2)) = items i.key (j + i.count) ns := by
  induction ns generalizing j with
  | nil => rfl
  | cons n ns ih =>
    rw [items, map_cons, ih (by omega), Step.shift, if_pos rfl, items]
    simp only [Option.map_some]
    rw [if_pos h, Nat.add_right_comm]

theorem kidsOf_shift (h : ∀ e ∈ props, e.1 ≠ i.key) :
    (kidsOf props).map (fun k => (k.1.shift i, k.2)) = kidsOf props := by
  conv => rhs; rw [← map_id (kidsOf props)]
  refine map_congr_left fun k hk => ?_
  obtain ⟨e, he, hke⟩ := mem_map.1 (key_of_mem_kidsOf hk)
  rw [Step.shift_of_ne (fun heq => h e he (hke.trans heq))]
  rfl

theorem children?_eq_some_iff :
    n.children? key = some list ↔ n.props.lookup key = some (.nodes list) := by
  unfold children? get?
  split
  · next heq => rw [heq]; simp
  · next hne => exact ⟨nofun, fun h => absurd h (hne list)⟩

/-- The children before and behind a position of a list. -/
theorem exists_parts (h : n.children? key = some list) (position : Nat) :
    ∃ front rest, n.props = front ++ (key, .nodes list) :: rest ∧ (∀ e ∈ front, e.1 ≠ key) ∧
      n.kids = (kidsOf front ++ items key 0 (list.take position)) ++
        (items key (list.take position).length (list.drop position) ++ kidsOf rest) ∧
      ∀ f, (n.modifyList key f).props = front ++ (key, .nodes (f list)) :: rest := by
  obtain ⟨front, rest, hp, hf, hm⟩ :=
    Entries.split_of_lookup (children?_eq_some_iff.1 h)
  refine ⟨front, rest, hp, hf, ?_, fun f => hm _⟩
  have hl := items_append key 0 (list.take position) (list.drop position)
  rw [take_append_drop, Nat.zero_add] at hl
  rw [kids, hp, kidsOf_append, kidsOf_cons]
  simp only [Field.kids, hl, append_assoc]

/-- Nodes that are inserted into a list stand between two parts of the
children; those of the second move up. -/
theorem kids_insertAt (hk : n.keys.Nodup) (h : n.children? key = some list)
    (hpo : position ≤ list.length) (nodes : List Node) (depth : Nat) :
    ∃ front rest, n.props = front ++ (key, .nodes list) :: rest ∧
      n.kids = (kidsOf front ++ items key 0 (list.take position)) ++
        (items key position (list.drop position) ++ kidsOf rest) ∧
      (n.modifyList key (Splice.insertAt position nodes)).kids =
        (kidsOf front ++ items key 0 (list.take position)).map
          (fun k => (k.1.shift ⟨depth, key, position, nodes.length⟩, k.2)) ++
        items key position nodes ++
        (items key position (list.drop position) ++ kidsOf rest).map
          (fun k => (k.1.shift ⟨depth, key, position, nodes.length⟩, k.2)) := by
  obtain ⟨front, rest, hp, hf, hki, hm⟩ := exists_parts h position
  have hl : (list.take position).length = position := by
    rw [length_take]
    omega
  have hr : ∀ e ∈ rest, e.1 ≠ key := by
    rw [keys, hp, map_append, map_cons, nodup_append, nodup_cons] at hk
    intro e he heq
    exact hk.2.1.1 (mem_map.2 ⟨e, he, heq⟩)
  rw [hl] at hki
  refine ⟨front, rest, hp, hki, ?_⟩
  rw [map_append, map_append, kidsOf_shift hf, kidsOf_shift hr,
    items_shift_of_lt (i := ⟨depth, key, position, nodes.length⟩)
      (show 0 + (list.take position).length ≤ position by omega),
    items_shift_of_le (i := ⟨depth, key, position, nodes.length⟩) (Nat.le_refl _),
    kids, hm, kidsOf_append, kidsOf_cons]
  simp only [Field.kids, Splice.insertAt, items_append, append_assoc, hl, Nat.zero_add]

-- == all subtrees

/-- What holds of a node and of all nodes below it. -/
def Every (P : Node → Prop) (n : Node) : Prop := ∀ m ∈ n.preorder, P m

theorem every_iff : n.Every P ↔ P n ∧ ∀ k ∈ n.kids, k.2.Every P := by
  unfold Every
  rw [preorder_eq, forall_mem_cons]
  refine and_congr_right fun _ => ⟨fun h k hk m hm => ?_, fun h m hm => ?_⟩
  · exact h m (mem_flatMap.2 ⟨k, hk, hm⟩)
  · obtain ⟨k, hk, hm⟩ := mem_flatMap.1 hm
    exact h k hk m hm

theorem Every.self (h : n.Every P) : P n := (every_iff.1 h).1

/-- The nodes of a subtree, in the order of the tree. -/
theorem preorder_sublist (hm : m ∈ n.preorder) : m.preorder.Sublist n.preorder := by
  induction n using induction_kids with
  | h n ih =>
    rw [preorder_eq, mem_cons, mem_flatMap] at hm
    obtain rfl | ⟨k, hk, hm⟩ := hm
    · exact List.Sublist.refl _
    · have hki : k.2.preorder ∈ n.kids.map (·.2.preorder) := mem_map.2 ⟨k, hk, rfl⟩
      rw [preorder_eq n, List.flatMap]
      exact ((ih k hk hm).trans (sublist_flatten_of_mem hki)).cons n

theorem mem_preorder_trans {a : Node} (ha : a ∈ m.preorder) (hm : m ∈ n.preorder) :
    a ∈ n.preorder := (preorder_sublist hm).subset ha

theorem Every.of_mem (h : n.Every P) (hm : m ∈ n.preorder) : m.Every P :=
  fun a ha => h a (mem_preorder_trans ha hm)

theorem mem_preorder_self (n : Node) : n ∈ n.preorder := by
  rw [preorder_eq]
  exact .head _

theorem mem_preorder_of_kid (hk : k ∈ n.kids) (hm : m ∈ k.2.preorder) : m ∈ n.preorder := by
  rw [preorder_eq]
  exact .tail _ (mem_flatMap.2 ⟨k, hk, hm⟩)

theorem Every.step (h : n.Every P) (hs : n.step? s = some m) : m.Every P :=
  (every_iff.1 h).2 _ (mem_kids_of_step? hs)

/-- No key is there twice, in the node and in all nodes below it. -/
def Keyed (n : Node) : Prop := n.Every (·.keys.Nodup)

theorem keyed_iff : n.Keyed ↔ n.keys.Nodup ∧ ∀ k ∈ n.kids, k.2.Keyed := every_iff

theorem Keyed.nodup (h : n.Keyed) : n.keys.Nodup := h.self

theorem Keyed.step (h : n.Keyed) (hs : n.step? s = some m) : m.Keyed := Every.step h hs

/-- With distinct keys, a step leads where the list of kids says. -/
theorem step?_eq_some_iff (h : n.keys.Nodup) : n.step? s = some m ↔ (s, m) ∈ n.kids := by
  refine ⟨mem_kids_of_step?, fun hm => ?_⟩
  obtain ⟨e, he, hk⟩ := mem_flatMap.1 hm
  have hke : s.key = e.1 := Field.key_of_mem_kids hk
  have hl : n.props.lookup s.key = some e.2 := by rw [hke, Entries.lookup_of_mem h he]
  unfold step? get?
  rw [hl, Option.bind_some]
  obtain ⟨key, f⟩ := e
  cases f with
  | node c =>
    cases mem_singleton.1 hk
    rfl
  | nodes ns =>
    obtain ⟨j, hs, -, -, hg⟩ := mem_items hk
    rw [show s = ⟨key, some j⟩ from hs]
    exact hg
  | data j => cases hk

theorem ne_of_kids_eq (hke : n.keys.Nodup) {A B : List (Step × Node)}
    (h : n.kids = A ++ (s, m) :: B) : (∀ k ∈ A, k.1 ≠ s) ∧ ∀ k ∈ B, k.1 ≠ s := by
  have hn := nodup_steps_kidsOf hke
  rw [← kids, h, map_append, map_cons, nodup_append, nodup_cons] at hn
  obtain ⟨-, ⟨hB, -⟩, hA⟩ := hn
  refine ⟨fun k hk heq => ?_, fun k hk heq => ?_⟩
  · exact hA _ (mem_map_of_mem hk) _ (mem_cons_self ..) heq
  · exact hB (mem_map.2 ⟨k, hk, heq⟩)

theorem Every.modifyStep (h : n.Every P) (hs : n.step? s = some m) (hP : P (n.modifyStep s f))
    (hf : (f m).Every P) : (n.modifyStep s f).Every P := by
  obtain ⟨A, B, hki, hc⟩ := kids_split hs
  rw [every_iff, hki] at h
  rw [every_iff, hc]
  refine ⟨hP, fun k hk => ?_⟩
  rcases mem_append.1 hk with hk | hk
  · exact h.2 k (mem_append_left _ hk)
  · rcases mem_cons.1 hk with rfl | hk
    · exact hf
    · exact h.2 k (mem_append_right _ (mem_cons_of_mem _ hk))

theorem Every.insertAt (h : n.Every P) (hn : n.keys.Nodup) {nodes : List Node}
    (hli : n.children? key = some list) (hp : position ≤ list.length)
    (hP : P (n.modifyList key (Splice.insertAt position nodes))) (hno : ∀ m ∈ nodes, m.Every P) :
    (n.modifyList key (Splice.insertAt position nodes)).Every P := by
  obtain ⟨front, rest, -, hki, hc⟩ := kids_insertAt hn hli hp nodes 0
  rw [every_iff, hki] at h
  rw [every_iff, hc]
  refine ⟨hP, fun k hk => ?_⟩
  rcases mem_append.1 hk with hk | hk
  · rcases mem_append.1 hk with hk | hk
    · obtain ⟨l, hl, rfl⟩ := mem_map.1 hk
      exact h.2 l (mem_append_left _ hl)
    · obtain ⟨j, -, -, -, hg⟩ := mem_items hk
      exact hno _ (mem_of_getElem? hg)
  · obtain ⟨l, hl, rfl⟩ := mem_map.1 hk
    exact h.2 l (mem_append_right _ hl)

-- == paths

@[simp] theorem at?_nil (n : Node) : n.at? [] = some n := rfl

theorem at?_cons (n : Node) (s : Step) (path : Path) :
    n.at? (s :: path) = (n.step? s).bind (·.at? path) := rfl

theorem at?_append (n : Node) (p q : Path) : n.at? (p ++ q) = (n.at? p).bind (·.at? q) := by
  induction p generalizing n with
  | nil => rfl
  | cons s p ih =>
    rw [cons_append, at?_cons, at?_cons]
    cases n.step? s with
    | none => rfl
    | some m => exact ih m

theorem at?_snoc {p : Path} (h : n.at? p = some m) (s : Step) : n.at? (p ++ [s]) = m.step? s := by
  rw [at?_append, h, Option.bind_some, at?_cons]
  exact Option.bind_fun_some (m.step? s)

theorem at?_cons_eq_some_iff {c : Node} :
    n.at? (s :: path) = some c ↔ ∃ m, n.step? s = some m ∧ m.at? path = some c :=
  Option.bind_eq_some_iff

theorem Every.at? (h : n.Every P) (hm : n.at? path = some m) : m.Every P := by
  induction path generalizing n with
  | nil =>
    cases hm
    exact h
  | cons s path ih =>
    obtain ⟨l, hs, hl⟩ := at?_cons_eq_some_iff.1 hm
    exact ih (h.step hs) hl

theorem mem_preorder_of_at? (hm : n.at? path = some m) : m ∈ n.preorder :=
  (Every.at? (P := (· ∈ n.preorder)) (fun _ h => h) hm).self

theorem Keyed.at? (h : n.Keyed) (hm : n.at? path = some m) : m.Keyed := Every.at? h hm

theorem Every.modifyAt (h : n.Every P)
    (hst : ∀ n s f, P n → P (n.modifyStep s f))
    (hm : n.at? path = some m) (hf : (f m).Every P) : (n.modifyAt f path).Every P := by
  induction path generalizing n with
  | nil =>
    cases hm
    exact hf
  | cons s path ih =>
    obtain ⟨l, hs, hl⟩ := at?_cons_eq_some_iff.1 hm
    exact h.modifyStep hs (hst n s _ h.self) (ih (h.step hs) hl)

theorem Keyed.modifyAt (h : n.Keyed) (hm : n.at? path = some m) (hf : (f m).Keyed) :
    (n.modifyAt f path).Keyed :=
  Every.modifyAt h (fun n s f hn => by rwa [keys_modifyStep]) hm hf

end Node

end Inlay
