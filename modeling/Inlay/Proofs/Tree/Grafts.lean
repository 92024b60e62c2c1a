/-
Walks over a tree that grows.

A grafter is a visitor that inserts nodes, as many as its budget pays for,
into lists of the nodes on the path. What such a walk does is recorded: for
each place of the growing tree the record knows where its node comes from,
and each stop is logged under that origin. One insertion moves all stops
that are still to come along and puts those at the new nodes among them,
unless the walk is past the place (`around_grafted`).
-/
import Inlay.Proofs.Tree.Itinerary

namespace Inlay

namespace Walk

open List Node

open Node (tour)

variable {σ ε : Type} {n m n' : Node} {p p' : Path} {s : Step} {ks : List (Step × Node)} {g : Graft}
  {above : List Cursor}

-- == grafts

/-- Nodes for a position of the list `key` that belongs to the node
`depth` steps down the path. -/
structure Graft where
  depth : Nat
  key : String
  position : Nat
  nodes : List Node

namespace Graft

def insertion (g : Graft) : Insertion := ⟨g.depth, g.key, g.position, g.nodes.length⟩

/-- Whether the nodes come to stand where the walk has still to go, the
list's owner standing so many steps down the path. The children of the
current node are all ahead when it is entered, and none is when it is
left. -/
def isAhead (g : Graft) (entering : Bool) : Nat → Node → Path → Bool
  | 0, _, [] => entering
  | 0, n, s :: _ =>
      if s.key = g.key then s.index.any (· < g.position)
      else n.keys.idxOf s.key < n.keys.idxOf g.key
  | depth + 1, n, s :: path => (n.step? s).any (g.isAhead entering depth · path)
  | _ + 1, _, [] => false

/-- Where a child of the list's owner comes from: it was there under
another step or the same, or it is one of the nodes. -/
def source (g : Graft) (s : Step) : Step ⊕ Step :=
  match s.index with
  | some i =>
      if s.key ≠ g.key ∨ i < g.position then .inl s
      else if i < g.position + g.nodes.length then .inr ⟨g.key, some (i - g.position)⟩
      else .inl ⟨g.key, some (i - g.nodes.length)⟩
  | none => .inl s

/-- Where a place comes from, the list's owner standing at the path
`owner`: it was there under a path, or it is below one of the nodes. -/
def sourcePath (g : Graft) : Path → Path → Path ⊕ Path
  | [], s :: q =>
      match g.source s with
      | .inl s => .inl (s :: q)
      | .inr s => .inr (s :: q)
  | o :: owner, s :: q =>
      if s = o then
        match g.sourcePath owner q with
        | .inl q => .inl (s :: q)
        | .inr q => .inr q
      else .inl (s :: q)
  | _, [] => .inl []

/-- Where a place moves. -/
def move (g : Graft) : Path → Path → Path
  | [], s :: q => s.shift g.insertion :: q
  | o :: owner, s :: q => if s = o then s :: g.move owner q else s :: q
  | _, [] => []

theorem source_shift (g : Graft) (s : Step) : g.source (s.shift g.insertion) = .inl s := by
  obtain ⟨key, index⟩ := s
  by_cases hk : key = g.key
  · subst hk
    cases index with
    | none => simp [source, Step.shift, insertion]
    | some i =>
      by_cases hi : g.position ≤ i
      · simp [source, Step.shift, insertion, hi, show ¬i + g.nodes.length < g.position by omega]
      · simp [source, Step.shift, insertion, hi, show i < g.position by omega]
  · rw [Step.shift_of_ne (show key ≠ g.insertion.key from hk), source]
    cases index with
    | none => rfl
    | some i => simp [hk]

/-- A place that has moved comes from where it was. -/
theorem sourcePath_move (g : Graft) (owner q : Path) :
    g.sourcePath owner (g.move owner q) = .inl q := by
  induction owner generalizing q with
  | nil =>
    cases q with
    | nil => rfl
    | cons s q => simp only [move, sourcePath, source_shift]
  | cons o owner ih =>
    cases q with
    | nil => rfl
    | cons s q =>
      by_cases hs : s = o
      · simp only [move, sourcePath, hs, if_true, ih]
      · simp only [move, sourcePath, hs, if_false]

/-- The nodes come from themselves. -/
theorem sourcePath_node (g : Graft) (owner q : Path) {i : Nat} (hi : i < g.nodes.length) :
    g.sourcePath owner (owner ++ ⟨g.key, some (g.position + i)⟩ :: q) =
      .inr (⟨g.key, some i⟩ :: q) := by
  induction owner with
  | nil =>
    simp [sourcePath, source, hi, show ¬g.position + i < g.position by omega]
  | cons o owner ih => simp only [cons_append, sourcePath, if_true, ih]

end Graft

-- == records

/-- Where a node of a growing tree comes from: from the tree that the
walk began with, or from the nodes of a graft. -/
inductive Origin where
  | host (path : Path)
  | graft (number : Nat) (path : Path)

/-- A stop of a walk under the origin of its node. -/
structure Entry where
  entering : Bool
  origin : Origin
  node : Node

/-- The stop as one at the tree that the walk began with. -/
def Entry.host? (e : Entry) : Option Stop :=
  match e.origin with
  | .host path => some ⟨e.entering, path, e.node⟩
  | .graft .. => none

/-- The stop as one at the nodes of a graft. -/
def Entry.graft? (number : Nat) (e : Entry) : Option Stop :=
  match e.origin with
  | .host _ => none
  | .graft number' path => if number' = number then some ⟨e.entering, path, e.node⟩ else none

/-- What is recorded of a walk: the origin of each place, the stops so
far, the grafts with whether they were ahead, and whether behind each of
them the path has led to the same node as before it. -/
structure Record where
  origin : Path → Origin
  log : List Entry
  grafts : List (Graft × Bool)
  steady : Prop

namespace Record

def start : Record := ⟨.host, [], [], True⟩

/-- The entry for a stop. -/
def entry (r : Record) (stop : Stop) : Entry := ⟨stop.entering, r.origin stop.path, stop.node⟩

/-- The record of one more stop. -/
def stop (r : Record) (entering : Bool) (root : Node) (path : Path) : Record :=
  match root.at? path with
  | some n => { r with log := r.log ++ [r.entry ⟨entering, path, n.own⟩] }
  | none => r

/-- The origin of each place behind one more graft. -/
def originBehind (r : Record) (g : Graft) (owner q : Path) : Origin :=
  match g.sourcePath owner q with
  | .inl q => r.origin q
  | .inr q => .graft r.grafts.length q

/-- The record of one more graft, which took the root and the path to
others. -/
def graft (r : Record) (g : Graft) (entering : Bool) (root : Node) (path : Path) (root' : Node)
    (path' : Path) : Record where
  origin := r.originBehind g (path.take g.depth)
  log := r.log
  grafts := r.grafts ++ [(g, g.isAhead entering g.depth root path)]
  steady := r.steady ∧ r.originBehind g (path.take g.depth) path' = r.origin path ∧
    ∃ n n', root.at? path = some n ∧ root'.at? path' = some n' ∧ n'.own = n.own ∧
      (g.depth < path.length → n' = n)

end Record

-- == grafters

/-- A visitor that does nothing but insert nodes into lists of the nodes
on the path. Its budget pays for the grafts, so there are finitely many
over a whole walk. -/
structure Grafter (σ : Type) where
  enter : Visit σ → σ × List Graft
  leave : Visit σ → σ × List Graft
  budget : σ → Nat
  enter_pays : ∀ visit, budget (enter visit).1 < budget visit.memory ∨
    budget (enter visit).1 = budget visit.memory ∧ (enter visit).2 = []
  leave_pays : ∀ visit, budget (leave visit).1 < budget visit.memory ∨
    budget (leave visit).1 = budget visit.memory ∧ (leave visit).2 = []
  enter_keyed : ∀ visit, ∀ g ∈ (enter visit).2, ∀ n ∈ g.nodes, n.Keyed
  leave_keyed : ∀ visit, ∀ g ∈ (leave visit).2, ∀ n ∈ g.nodes, n.Keyed

/-- Inserts the nodes of a graft and shifts the path. Where there is no
such position nothing happens. -/
def Graft.apply (entering : Bool) (visit : Visit (σ × Record)) (g : Graft) :
    Visit (σ × Record) :=
  match Splice.insertOnPath? g.depth g.key g.position g.nodes visit.tree.root visit.path with
  | some (root, path) =>
      ⟨(visit.memory.1, visit.memory.2.graft g entering visit.tree.root visit.path root path),
        { visit.tree with root }, path⟩
  | none => visit

namespace Grafter

/-- One stop of a grafter with its record. -/
def stop (entering : Bool) (graft : Visit σ → σ × List Graft) (visit : Visit (σ × Record)) :
    Visit (σ × Record) :=
  let (memory, grafts) := graft ⟨visit.memory.1, visit.tree, visit.path⟩
  let record := visit.memory.2.stop entering visit.tree.root visit.path
  grafts.foldl (Graft.apply entering) { visit with memory := (memory, record) }

/-- The grafter as a visitor that keeps a record. -/
def visitor (g : Grafter σ) : Visitor (σ × Record) ε where
  enter visit := .ok (stop true g.enter visit)
  leave visit := .ok (stop false g.leave visit)
  budget memory := g.budget memory.1

end Grafter

-- == what a graft does

/-- The nodes of a graft were inserted into a list of the node so many
steps down the path, and the path moved along. -/
inductive Grafted (g : Graft) : Nat → Node → Path → Node → Path → Prop
  | here {n p list} (hlist : n.children? g.key = some list) (hposition : g.position ≤ list.length) :
      Grafted g 0 n p (n.modifyList g.key (Splice.insertAt g.position g.nodes))
        (p.modify 0 (Step.shift g.insertion))
  | step {depth n m m' s p p'} (hs : n.step? s = some m) (h : Grafted g depth m p m' p') :
      Grafted g (depth + 1) n (s :: p) (n.modifyStep s fun _ => m') (s :: p')

namespace Grafted

variable {g : Graft} {depth : Nat}

theorem of_at? {owner : Node} {list : List Node} (hd : depth ≤ p.length)
    (ho : n.at? (p.take depth) = some owner) (hl : owner.children? g.key = some list)
    (hp : g.position ≤ list.length) :
    Grafted g depth n p
      (n.modifyAt (·.modifyList g.key (Splice.insertAt g.position g.nodes)) (p.take depth))
      (p.modify depth (Step.shift g.insertion)) := by
  induction depth generalizing n p with
  | zero =>
    rw [take_zero] at ho ⊢
    cases ho
    exact .here hl hp
  | succ depth ih =>
    cases p with
    | nil => exact absurd hd (Nat.not_succ_le_zero _)
    | cons s p =>
      rw [take_succ_cons] at ho ⊢
      obtain ⟨m, hs, hm⟩ := at?_cons_eq_some_iff.1 ho
      have hst := Grafted.step hs (ih (Nat.le_of_succ_le_succ hd) hm)
      rw [Node.modifyAt, modify_succ_cons,
        modifyStep_congr hs (g := fun _ => Node.modifyAt _ _ m) rfl]
      exact hst

theorem of_insertOnPath?
    (h : Splice.insertOnPath? g.depth g.key g.position g.nodes n p = some (n', p')) :
    Grafted g g.depth n p n' p' := by
  unfold Splice.insertOnPath? at h
  obtain ⟨owner, ho, h⟩ := Option.bind_eq_some_iff.1 h
  obtain ⟨list, hl, h⟩ := Option.bind_eq_some_iff.1 h
  split at h
  · next hf =>
    cases h
    exact of_at? hf.1 ho hl hf.2
  · cases h

theorem every {P : Node → Prop} (h : Grafted g depth n p n' p') (hn : n.Keyed)
    (hst : ∀ n s f, P n → P (n.modifyStep s f))
    (hi : ∀ n : Node, P n → P (n.modifyList g.key (Splice.insertAt g.position g.nodes)))
    (hno : ∀ m ∈ g.nodes, m.Every P) (ha : n.Every P) : n'.Every P := by
  induction h with
  | here hl hp =>
    exact ha.insertAt hn.nodup hl hp (hi _ ha.self) hno
  | step hs _ ih => exact ha.modifyStep hs (hst _ _ _ ha.self) (ih (hn.step hs) (ha.step hs))

theorem keyed (h : Grafted g depth n p n' p') (hn : n.Keyed) (hno : ∀ m ∈ g.nodes, m.Keyed) :
    n'.Keyed :=
  h.every hn (fun n s f hk => by rwa [keys_modifyStep])
    (fun n hk => by rwa [keys_modifyList]) hno hn

theorem path_eq (h : Grafted g depth n p n' p') : p' = g.move (p.take depth) p := by
  induction h with
  | @here n p list hl hp => cases p <;> rfl
  | step hs _ ih =>
    rw [take_succ_cons, Graft.move, if_pos rfl, ← ih]

end Grafted

/-- With distinct keys, the children of a property stand behind those of
the ones before it. -/
theorem idxOf_of_props_eq {key : String} {f : Field Node} {front rest : Node.Props}
    (hke : n.keys.Nodup) (h : n.props = front ++ (key, f) :: rest) :
    n.keys.idxOf key = front.length ∧
      (∀ k ∈ Node.kidsOf front, k.1.key ≠ key ∧ n.keys.idxOf k.1.key < front.length) ∧
      ∀ k ∈ Node.kidsOf rest, k.1.key ≠ key ∧ front.length < n.keys.idxOf k.1.key := by
  have hs : n.keys = front.map (·.1) ++ key :: rest.map (·.1) := by
    rw [Node.keys, h, map_append, map_cons]
  have hd := hke
  rw [hs, nodup_append, nodup_cons] at hd
  obtain ⟨-, ⟨hr, -⟩, hf⟩ := hd
  have hn : key ∉ front.map (·.1) :=
    fun hm => hf _ hm _ (mem_cons_self ..) rfl
  refine ⟨?_, fun k hk => ?_, fun k hk => ?_⟩
  · rw [hs, idxOf_append_of_notMem hn, idxOf_cons_self, length_map, Nat.add_zero]
  · have hm := key_of_mem_kidsOf hk
    refine ⟨fun heq => hn (heq ▸ hm), ?_⟩
    rw [hs, idxOf_append_of_mem hm, ← length_map (·.1)]
    exact idxOf_lt_length_of_mem hm
  · have hm := key_of_mem_kidsOf hk
    have hne : k.1.key ≠ key := fun heq => hr (heq ▸ hm)
    refine ⟨hne, ?_⟩
    rw [hs, idxOf_append_of_notMem fun hm' => hf _ hm' _ (mem_cons_of_mem _ hm) rfl,
      idxOf_cons_ne _ hne.symm, length_map]
    omega

/-- The child that the path goes through, and the children behind it,
when nodes are inserted into a list beside it. -/
theorem behind_insertAt {list : List Node} (hke : n.keys.Nodup) (hl : n.children? g.key = some list)
    (hp : g.position ≤ list.length) (hs : n.step? s = some m) (entering : Bool) (p : Path) :
    let n' := n.modifyList g.key (Splice.insertAt g.position g.nodes)
    n'.step? (s.shift g.insertion) = some m ∧
      ∃ A B, n.behind s = A ++ B ∧ n'.behind (s.shift g.insertion) =
        A.map (fun k => (k.1.shift g.insertion, k.2)) ++
          (if g.isAhead entering 0 n (s :: p) then items g.key g.position g.nodes else []) ++
          B.map (fun k => (k.1.shift g.insertion, k.2)) := by
  intro n'
  obtain ⟨front, rest, hpr, hk, hk'⟩ :=
    kids_insertAt hke hl hp g.nodes g.depth
  obtain ⟨hkey, hf, hr⟩ := idxOf_of_props_eq hke hpr
  have hke' : n'.keys.Nodup := by rwa [keys_modifyList]
  change n'.kids = _ at hk'
  have hm := mem_kids_of_step? hs
  rw [hk] at hm
  rcases mem_append.1 hm with hm | hm
  · -- the child stands before the position
    have ha : g.isAhead entering 0 n (s :: p) = true := by
      rw [Graft.isAhead]
      rcases mem_append.1 hm with hm | hm
      · obtain ⟨hne, hlt⟩ := hf _ hm
        rw [if_neg hne, hkey]
        exact decide_eq_true hlt
      · obtain ⟨j, hst, -, hlt, -⟩ := mem_items hm
        rw [show s = ⟨g.key, some j⟩ from hst, if_pos rfl]
        rw [length_take] at hlt
        simp
        omega
    obtain ⟨C, A, hsp⟩ := append_of_mem hm
    rw [hsp] at hk hk'
    rw [append_assoc, cons_append] at hk
    simp only [map_append, map_cons, append_assoc, cons_append] at hk'
    refine ⟨(step?_eq_some_iff hke').2 (by simp [hk', Graft.insertion]), A, _, behind_eq hke hk, ?_⟩
    rw [if_pos ha, map_append, append_assoc]
    exact behind_eq hke' hk'
  · -- the child stands at the position or behind it
    have ha : g.isAhead entering 0 n (s :: p) = false := by
      rw [Graft.isAhead]
      rcases mem_append.1 hm with hm | hm
      · obtain ⟨j, hst, hle, -⟩ := mem_items hm
        rw [show s = ⟨g.key, some j⟩ from hst, if_pos rfl]
        simpa using hle
      · obtain ⟨hne, hlt⟩ := hr _ hm
        rw [if_neg hne, hkey]
        exact decide_eq_false (Nat.lt_asymm hlt)
    obtain ⟨C, B, hsp⟩ := append_of_mem hm
    rw [hsp, ← append_assoc] at hk
    simp only [hsp, map_append, map_cons] at hk'
    rw [← append_assoc] at hk'
    refine ⟨(step?_eq_some_iff hke').2 (by simp [hk', Graft.insertion]), [], B,
      behind_eq hke hk, ?_⟩
    rw [ha]
    exact behind_eq hke' hk'

-- == what a graft does to a walk

/-- The stop after the nodes of a graft were inserted. -/
def Graft.moveStop (g : Graft) (owner : Path) (stop : Stop) : Stop :=
  { stop with path := g.move owner stop.path }

/-- The stops at the nodes of a graft. -/
def Graft.stops (g : Graft) (owner : Path) : List Stop :=
  (tour (items g.key g.position g.nodes)).map fun stop => { stop with path := owner ++ stop.path }

/-- The stops before a graft and behind it: all have moved, and if the
graft is ahead, those at its nodes stand among them. -/
def Grown (g : Graft) (owner : Path) (ahead : Bool) (old new : List Stop) : Prop :=
  ∃ A B, old = A ++ B ∧ new = A.map (g.moveStop owner) ++ (if ahead then g.stops owner else []) ++
    B.map (g.moveStop owner)

namespace Grown

variable {g : Graft} {owner : Path} {ahead : Bool} {old new : List Stop}

theorem append_left (h : Grown g owner ahead old new) (front : List Stop) :
    Grown g owner ahead (front ++ old) (front.map (g.moveStop owner) ++ new) := by
  obtain ⟨A, B, rfl, rfl⟩ := h
  refine ⟨front ++ A, B, (append_assoc ..).symm, ?_⟩
  simp only [map_append, append_assoc]

theorem append_right (h : Grown g owner ahead old new) (rest : List Stop) :
    Grown g owner ahead (old ++ rest) (new ++ rest.map (g.moveStop owner)) := by
  obtain ⟨A, B, rfl, rfl⟩ := h
  refine ⟨A, B ++ rest, append_assoc .., ?_⟩
  simp only [map_append, append_assoc]

theorem under (h : Grown g owner ahead old new) (s : Step) :
    Grown g (s :: owner) ahead (old.map (.under s)) (new.map (.under s)) := by
  obtain ⟨A, B, rfl, rfl⟩ := h
  have hm : Stop.under s ∘ g.moveStop owner = g.moveStop (s :: owner) ∘ Stop.under s := by
    funext stop
    simp [Stop.under, Graft.moveStop, Graft.move]
  have hs : (g.stops owner).map (.under s) = g.stops (s :: owner) := by
    simp [Graft.stops, Stop.under]
  refine ⟨A.map (.under s), B.map (.under s), map_append, ?_⟩
  simp only [map_append, map_map, hm]
  cases ahead with
  | false => rfl
  | true => simp only [if_true, hs]

end Grown

theorem map_moveStop_tour_nil (g : Graft) (ks : List (Step × Node)) :
    (tour ks).map (g.moveStop []) = tour (ks.map fun k => (k.1.shift g.insertion, k.2)) := by
  induction ks with
  | nil => rfl
  | cons k ks ih =>
    rw [tour_cons, map_append, ih, map_cons, tour_cons, map_map]
    rfl

theorem map_moveStop_tour_cons (g : Graft) (owner : Path) (h : ∀ k ∈ ks, k.1 ≠ s) :
    (tour ks).map (g.moveStop (s :: owner)) = tour ks := by
  induction ks with
  | nil => rfl
  | cons k ks ih =>
    rw [forall_mem_cons] at h
    rw [tour_cons, map_append, ih h.2, map_map]
    congr 1
    refine map_congr_left fun stop _ => ?_
    simp [Graft.moveStop, Stop.under, Graft.move, h.1]

/-- What comes behind the stops at some children when others are inserted
among them. -/
theorem grown_tour {ahead : Bool} {A B : List (Step × Node)}
    (h : ks = A.map (fun k => (k.1.shift g.insertion, k.2)) ++
      (if ahead then items g.key g.position g.nodes else []) ++
      B.map (fun k => (k.1.shift g.insertion, k.2))) (ho : n'.own = n.own) :
    Grown g [] ahead (tour (A ++ B) ++ [.leave n]) (tour ks ++ [.leave n']) := by
  refine ⟨tour A, tour B ++ [.leave n], by rw [tour_append, append_assoc], ?_⟩
  have hl : [Stop.leave n'] = [Stop.leave n].map (g.moveStop []) := by
    simp [Stop.leave, ho, Graft.moveStop, Graft.move]
  have hb : tour (if ahead then items g.key g.position g.nodes else []) =
      if ahead then g.stops [] else [] := by
    cases ahead with
    | false => rfl
    | true => simp [Graft.stops]
  rw [h, tour_append, tour_append, ← map_moveStop_tour_nil, ← map_moveStop_tour_nil,
    hb, hl, map_append, append_assoc]

/-- All that is to come grows by the stops at the nodes of a graft, if
that is ahead, and else only moves. -/
theorem around_grafted {depth : Nat} {entering : Bool} {base base' : List Stop}
    (h : Grafted g depth n p n' p') (hn : n.Keyed) (hp : n.at? p = some m)
    (hh : depth = p.length → Grown g [] entering base base')
    (hbe : depth < p.length → base' = base) :
    Grown g (p.take depth) (g.isAhead entering depth n p) (around n p base)
      (around n' p' base') := by
  induction h with
  | @here n p list hli hpo =>
    cases p with
    | nil => exact hh rfl
    | cons s p =>
      obtain ⟨c, hs, hc⟩ := at?_cons_eq_some_iff.1 hp
      obtain ⟨hs', A, B, hb, hb'⟩ :=
        behind_insertAt hn.nodup hli hpo hs entering p
      have hm : Stop.under (s.shift g.insertion) = g.moveStop [] ∘ Stop.under s := by
        funext stop
        rfl
      rw [modify_zero_cons, around_cons hs, around_cons hs', hb,
        hbe (Nat.succ_pos _), hm, ← map_map]
      exact (grown_tour hb' (own_modifyList ..)).append_left _
  | @step depth n l l' s p p' hs hgr ih =>
    obtain ⟨l₂, hs₂, hl⟩ := at?_cons_eq_some_iff.1 hp
    obtain rfl := Option.some.inj (hs.symm.trans hs₂)
    have hg := (ih (hn.step hs) hl (fun h => hh (congrArg Nat.succ h))
      (fun h => hbe (Nat.succ_lt_succ h))).under s
    obtain ⟨A, hk⟩ := exists_kids_eq_behind hs
    have hr : tour (n.behind s) ++ [Stop.leave (n.modifyStep s fun _ => l')] =
        (tour (n.behind s) ++ [Stop.leave n]).map (g.moveStop (s :: p.take depth)) := by
      rw [map_append, map_moveStop_tour_cons g _ (ne_of_kids_eq hn.nodup hk).2]
      simp [Stop.leave, own_modifyStep, Graft.moveStop, Graft.move]
    rw [around_cons hs, around_cons (step?_modifyStep hn.nodup hs _),
      behind_modifyStep hn.nodup hs, hr, Graft.isAhead, hs, take_succ_cons,
      Option.any_some]
    exact hg.append_right _

namespace Grafted

variable {g : Graft} {depth : Nat} {cs : List Cursor}

/-- The path leads to the same node as before. Only that node's own lists
may have grown. -/
theorem at?_eq (h : Grafted g depth n p n' p') (hn : n.Keyed) (hp : n.at? p = some m) :
    ∃ m', n'.at? p' = some m' ∧ m'.own = m.own ∧ (depth < p.length → m' = m) ∧
      (depth = p.length → Grafted g 0 m [] m' []) := by
  induction h with
  | @here n p list hli hpo =>
    cases p with
    | nil =>
      cases hp
      exact ⟨_, rfl, own_modifyList .., fun h => absurd h (Nat.lt_irrefl 0), fun _ => .here hli hpo⟩
    | cons s p =>
      obtain ⟨c, hs, hc⟩ := at?_cons_eq_some_iff.1 hp
      obtain ⟨hs', -⟩ := behind_insertAt hn.nodup hli hpo hs true p
      exact ⟨m, at?_cons_eq_some_iff.2 ⟨c, hs', hc⟩, rfl, fun _ => rfl, fun h => by cases h⟩
  | @step depth n l l' s p p' hs hg ih =>
    obtain ⟨l₂, hs₂, hl⟩ := at?_cons_eq_some_iff.1 hp
    obtain rfl := Option.some.inj (hs.symm.trans hs₂)
    obtain ⟨m', hm', ho, hsa, hh⟩ := ih (hn.step hs) hl
    exact ⟨m', at?_cons_eq_some_iff.2 ⟨l', step?_modifyStep hn.nodup hs _, hm'⟩, ho,
      fun h => hsa (Nat.lt_of_succ_lt_succ h), fun h => hh (Nat.succ.inj h)⟩

theorem aligned (h : Grafted g depth n p n' p') (hn : n.Keyed) (ha : Aligned n p cs) :
    Aligned n' p' cs := by
  induction h generalizing cs with
  | @here n p list hl hp =>
    cases p with
    | nil => exact ha
    | cons s p =>
      obtain ⟨c, more, m, rfl, hs, hc, hm⟩ := ha
      obtain ⟨hs', -⟩ := behind_insertAt hn.nodup hl hp hs true p
      refine ⟨c, more, m, rfl, hs', ?_, hm⟩
      rw [keys_modifyList, hc, Step.shift]
      split <;> rfl
  | @step depth n l l' s p p' hs hg ih =>
    obtain ⟨c, more, m, rfl, hs₂, hc, hm⟩ := ha
    obtain rfl := Option.some.inj (hs.symm.trans hs₂)
    refine ⟨c, more, l', rfl, step?_modifyStep hn.nodup hs _, ?_, ih (hn.step hs) hm⟩
    rw [keys_modifyStep, hc]

end Grafted

-- == the whole story

namespace Record

variable {g : Graft}  {rest new old : List Stop}

/-- Log and itinerary together: the walk as it is told if nothing more is
inserted. -/
def story (r : Record) (rest : List Stop) : List Entry := r.log ++ rest.map r.entry

/-- What a story tells. The tree that the walk began with is gone round
once, and so are the nodes of each graft that was ahead. -/
structure Tells (r : Record) (rest : List Stop) (root : Node) : Prop where
  host : (r.story rest).filterMap Entry.host? = root.rounds
  graft : ∀ number g ahead, r.grafts[number]? = some (g, ahead) →
    (r.story rest).filterMap (Entry.graft? number) = if ahead then tour (items g.key 0 g.nodes) else []
  origin_lt : ∀ q number path, r.origin q = .graft number path → number < r.grafts.length
  log_lt : ∀ e ∈ r.log, ∀ number path, e.origin = .graft number path → number < r.grafts.length
  steady : r.steady

/-- Nothing is told of grafts that are still to come. -/
theorem Tells.graft?_eq_none {r : Record} {root : Node} (h : r.Tells rest root) {number : Nat}
    (hnu : r.grafts.length ≤ number) : ∀ e ∈ r.story rest, e.graft? number = none := by
  have hn : ∀ e : Entry, (∀ number path, e.origin = .graft number path → number < r.grafts.length) →
      e.graft? number = none := by
    rintro ⟨entering, origin, node⟩ hlt
    cases origin with
    | host path => rfl
    | graft number' path =>
      have := hlt number' path rfl
      simp only [Entry.graft?]
      rw [if_neg (by omega)]
  intro e he
  rcases mem_append.1 he with he | he
  · exact hn e (h.log_lt e he)
  · obtain ⟨stop, -, rfl⟩ := mem_map.1 he
    exact hn _ (h.origin_lt _)

/-- One more stop changes nothing about the story. -/
theorem Tells.stop {r : Record} {entering : Bool} {root host : Node} {path : Path}
    (hm : root.at? path = some m) (h : r.Tells (⟨entering, path, m.own⟩ :: rest) host) :
    (r.stop entering root path).Tells rest host := by
  have hs : r.stop entering root path =
      { r with log := r.log ++ [r.entry ⟨entering, path, m.own⟩] } := by
    rw [Record.stop, hm]
  have hst : (r.stop entering root path).story rest =
      r.story (⟨entering, path, m.own⟩ :: rest) := by
    rw [hs]
    simp only [story, map_cons, append_assoc]
    rfl
  constructor
  · rw [hst, h.host]
  · rw [hst, hs]
    exact h.graft
  · rw [hs]
    exact h.origin_lt
  · rw [hs]
    intro e he number path' ho
    rcases mem_append.1 he with he | he
    · exact h.log_lt e he number path' ho
    · rw [mem_singleton.1 he] at ho
      exact h.origin_lt _ number path' ho
  · rw [hs]
    exact h.steady

variable {r : Record} {entering : Bool} {root root' : Node} {path path' : Path}

theorem entry_moveStop (stop : Stop) :
    (r.graft g entering root path root' path').entry (g.moveStop (path.take g.depth) stop) =
      r.entry stop := by
  simp only [entry, Graft.moveStop, Record.graft, originBehind, Graft.sourcePath_move]

/-- A stop at the nodes of a graft as it is told of. -/
def graftEntry (number : Nat) (stop : Stop) : Entry :=
  ⟨stop.entering, .graft number stop.path, stop.node⟩

theorem map_entry_stops :
    (g.stops (path.take g.depth)).map (r.graft g entering root path root' path').entry =
      (tour (items g.key 0 g.nodes)).map (graftEntry r.grafts.length) := by
  have hit : ∀ (ns : List Node) (i : Nat), i + ns.length ≤ g.nodes.length →
      ((tour (items g.key (g.position + i) ns)).map
          fun stop => { stop with path := path.take g.depth ++ stop.path }).map
            (r.graft g entering root path root' path').entry =
        (tour (items g.key i ns)).map (graftEntry r.grafts.length) := by
    intro ns
    induction ns with
    | nil => exact fun _ _ => rfl
    | cons n ns ih =>
      intro i hi
      rw [length_cons] at hi
      have hr := ih (i + 1) (by omega)
      rw [← Nat.add_assoc] at hr
      simp only [items, tour_cons, map_append, hr, map_map]
      congr 1
      refine map_congr_left fun stop _ => ?_
      have hs := g.sourcePath_node (path.take g.depth) stop.path (i := i) (by omega)
      simp only [Function.comp_apply, entry, Stop.under, Record.graft, originBehind, hs, graftEntry]
  exact hit g.nodes 0 (by omega)

/-- One more graft adds to the story the stops at its nodes, if it is
ahead, and changes nothing else. -/
theorem story_graft (r : Record) (entering : Bool) (root root' : Node) (path' : Path) {ahead : Bool}
    (h : Grown g (path.take g.depth) ahead old new) :
    ∃ A B, r.story old = A ++ B ∧ (r.graft g entering root path root' path').story new =
      A ++ (if ahead then (tour (items g.key 0 g.nodes)).map (graftEntry r.grafts.length) else []) ++
        B := by
  obtain ⟨A, B, rfl, rfl⟩ := h
  have hm : ∀ C : List Stop, (C.map (g.moveStop (path.take g.depth))).map
      (r.graft g entering root path root' path').entry = C.map r.entry := by
    intro C
    rw [map_map]
    exact map_congr_left fun stop _ => entry_moveStop stop
  refine ⟨r.log ++ A.map r.entry, B.map r.entry, by rw [story, map_append, append_assoc], ?_⟩
  rw [story, map_append, map_append, hm, hm, ← append_assoc, ← append_assoc]
  congr 2
  cases ahead with
  | false => rfl
  | true => exact map_entry_stops

theorem Tells.graft_of_grown {host : Node}
    (hg : Grown g (path.take g.depth) (g.isAhead entering g.depth root path) old new)
    (hs : (r.graft g entering root path root' path').steady) (h : r.Tells old host) :
    (r.graft g entering root path root' path').Tells new host := by
  obtain ⟨A, B, hold, hne⟩ := story_graft r entering root root' path' hg
  have hl : (r.graft g entering root path root' path').grafts.length = r.grafts.length + 1 := by
    simp [Record.graft]
  have hn {f : Entry → Option Stop} (hf : ∀ stop, f (graftEntry r.grafts.length stop) = none) :
      (if g.isAhead entering g.depth root path then
        (tour (items g.key 0 g.nodes)).map (graftEntry r.grafts.length) else []).filterMap f = [] := by
    split
    · rw [filterMap_map, filterMap_eq_nil_iff]
      exact fun stop _ => hf stop
    · rfl
  constructor
  · rw [← h.host, hne, hold, filterMap_append, filterMap_append, hn fun _ => rfl, append_nil,
      filterMap_append]
  · intro number g' ahead hge
    rw [hne, filterMap_append, filterMap_append]
    by_cases hnu : number < r.grafts.length
    · rw [Record.graft, getElem?_append_left hnu] at hge
      rw [hn fun stop => if_neg (by omega), append_nil, ← filterMap_append, ← hold,
        h.graft number g' ahead hge]
    · -- the new one
      rw [Record.graft, getElem?_append_right (Nat.le_of_not_lt hnu)] at hge
      obtain ⟨hz, heq⟩ := List.getElem?_eq_some_iff.1 hge
      rw [length_singleton] at hz
      obtain rfl : number = r.grafts.length := by omega
      simp only [Nat.sub_self, getElem_cons_zero, Prod.mk.injEq] at heq
      obtain ⟨rfl, rfl⟩ := heq
      have hb := h.graft?_eq_none (Nat.le_refl _)
      rw [hold, forall_mem_append] at hb
      rw [filterMap_eq_nil_iff.2 hb.1, filterMap_eq_nil_iff.2 hb.2, nil_append, append_nil]
      split
      · rw [filterMap_map]
        conv => rhs; rw [← filterMap_some (l := tour _)]
        refine filterMap_congr fun stop _ => ?_
        simp [graftEntry, Entry.graft?]
      · rfl
  · intro q number path'' hq
    rw [hl]
    simp only [Record.graft, originBehind] at hq
    split at hq
    · exact Nat.lt_succ_of_lt (h.origin_lt _ _ _ hq)
    · cases hq
      exact Nat.lt_succ_self _
  · intro e he number path'' ho
    rw [hl]
    exact Nat.lt_succ_of_lt (h.log_lt e he number path'' ho)
  · exact hs

end Record

-- == the walk

/-- The stops below a node that is being entered or left. -/
def below (entering : Bool) (n : Node) : List Stop := if entering then Cursor.start.todo n else []

/-- The children of a node that is being entered are all ahead. -/
theorem grown_below (h : Grafted g 0 n [] n' []) (hke : n.keys.Nodup) (entering : Bool) :
    Grown g [] entering (below entering n) (below entering n') := by
  cases entering with
  | false => exact ⟨[], [], rfl, rfl⟩
  | true =>
    cases h with
    | here hl hp =>
      obtain ⟨front, rest, -, hk, hk'⟩ :=
        kids_insertAt hke hl hp g.nodes g.depth
      have hg : Grown g [] true (tour (_ ++ _) ++ [.leave n]) (tour _ ++ [.leave _]) :=
        grown_tour hk' (own_modifyList g.key (Splice.insertAt g.position g.nodes) n)
      rw [← hk] at hg
      simpa only [below, if_true, Cursor.todo, Cursor.ahead_start] using hg

/-- A visit in the course of a walk that is recorded. -/
structure Attended (host : Node) (entering : Bool) (cs : List Cursor) (visit : Visit (σ × Record)) :
    Prop where
  keyed : visit.tree.root.Keyed
  aligned : Aligned visit.tree.root visit.path cs
  tells : ∃ m, visit.tree.root.at? visit.path = some m ∧
    visit.memory.2.Tells (around visit.tree.root visit.path (below entering m)) host

variable {host : Node} {entering : Bool} {cs : List Cursor} {visit : Visit (σ × Record)}

theorem Attended.apply (h : Attended host entering cs visit) (hn : ∀ n ∈ g.nodes, n.Keyed) :
    Attended host entering cs (g.apply entering visit) := by
  unfold Graft.apply
  split
  · next root' path' hso =>
    have hg := Grafted.of_insertOnPath? hso
    obtain ⟨m, hm, ht⟩ := h.tells
    obtain ⟨m', hm', ho, hs, hh⟩ := hg.at?_eq h.keyed hm
    refine ⟨hg.keyed h.keyed hn, hg.aligned h.keyed h.aligned, m', hm', ?_⟩
    refine ht.graft_of_grown ?_ ⟨ht.steady, ?_, m, m', hm, hm', ho, hs⟩
    · exact around_grafted hg h.keyed hm
        (fun heq => grown_below (hh heq) (h.keyed.at? hm).nodup entering)
        (fun hlt => by rw [hs hlt])
    · rw [hg.path_eq, Record.originBehind, Graft.sourcePath_move]
  · exact h

theorem Attended.foldl_apply {grafts : List Graft} (h : Attended host entering cs visit)
    (hn : ∀ g ∈ grafts, ∀ n ∈ g.nodes, n.Keyed) :
    Attended host entering cs (grafts.foldl (Graft.apply entering) visit) := by
  induction grafts generalizing visit with
  | nil => exact h
  | cons g grafts ih =>
    rw [forall_mem_cons] at hn
    exact ih (h.apply hn.1) hn.2

theorem memory_foldl_apply (grafts : List Graft) (visit : Visit (σ × Record)) :
    (grafts.foldl (Graft.apply entering) visit).memory.1 = visit.memory.1 := by
  induction grafts generalizing visit with
  | nil => rfl
  | cons g grafts ih =>
    rw [foldl_cons, ih, Graft.apply]
    split <;> rfl

/-- A stop takes the first off what is to come and puts it into the
log. -/
theorem Attended.stop {graft : Visit σ → σ × List Graft}
    (hn : ∀ visit, ∀ g ∈ (graft visit).2, ∀ n ∈ g.nodes, n.Keyed)
    (hk : visit.tree.root.Keyed) (ha : Aligned visit.tree.root visit.path cs)
    (hm : visit.tree.root.at? visit.path = some m)
    (ht : visit.memory.2.Tells (⟨entering, visit.path, m.own⟩ ::
      around visit.tree.root visit.path (below entering m)) host) :
    Attended host entering cs (Grafter.stop entering graft visit) :=
  Attended.foldl_apply ⟨hk, ha, m, hm, ht.stop hm⟩ (hn _)

/-- What is paid at a stop: part of the budget, if anything is
inserted. -/
theorem stop_pays {budget : σ → Nat} {graft : Visit σ → σ × List Graft}
    (hp : ∀ visit, budget (graft visit).1 < budget visit.memory ∨
      budget (graft visit).1 = budget visit.memory ∧ (graft visit).2 = [])
    (visit : Visit (σ × Record)) :
    let visit' := Grafter.stop entering graft visit
    budget visit'.memory.1 < budget visit.memory.1 ∨
      budget visit'.memory.1 = budget visit.memory.1 ∧ visit'.tree = visit.tree ∧
        visit'.path = visit.path := by
  intro visit'
  have hm : visit'.memory.1 = (graft ⟨visit.memory.1, visit.tree, visit.path⟩).1 :=
    memory_foldl_apply ..
  rw [hm]
  refine (hp ⟨visit.memory.1, visit.tree, visit.path⟩).imp_right fun ⟨heq, hn⟩ => ⟨heq, ?_⟩
  simp only [visit', Grafter.stop, hn, foldl_nil, and_self]

theorem tells_start (root : Node) : Record.start.Tells root.rounds root := by
  constructor
  · show (root.rounds.map Record.start.entry).filterMap Entry.host? = _
    rw [filterMap_map]
    exact filterMap_some
  · intro number g ahead h
    cases h
  · intro q number path h
    cases h
  · exact fun e he => by cases he
  · trivial

/-- Between two stops: the walk knows its way, and the story so far tells
what it should. -/
structure Recorded (host : Node) (s : State (σ × Record)) : Prop where
  standing : Standing s
  tells : s.visit.memory.2.Tells (left s) host

theorem Recorded.of_entered (h : Attended host true above.reverse visit) :
    Recorded host ⟨visit, .start :: above⟩ := by
  obtain ⟨m, hm, ht⟩ := h.tells
  refine ⟨⟨h.keyed, ?_⟩, ?_⟩
  · rintro c more heq
    cases heq
    exact h.aligned
  · show Record.Tells _ (pending ..) _
    rw [pending_eq hm]
    exact ht

theorem Recorded.of_left (h : Attended host false above.reverse visit) :
    Recorded host ⟨{ visit with path := visit.path.dropLast }, resume visit.path above⟩ := by
  obtain ⟨m, hm, ht⟩ := h.tells
  obtain ⟨hs, hl⟩ := left_resume h.keyed h.aligned
  refine ⟨hs, ?_⟩
  rw [hl]
  exact ht

/-- One step of a grafter's walk. -/
theorem Recorded.step (g : Grafter σ) {current : Cursor}
    (h : Recorded host ⟨visit, current :: above⟩) :
    ∃ next, Walk.step (g.visitor (ε := ε)) current above visit = .ok next ∧ Recorded host next ∧
      (g.budget next.visit.memory.1 < g.budget visit.memory.1 ∨
        g.budget next.visit.memory.1 = g.budget visit.memory.1 ∧
          (left next).length < (left ⟨visit, current :: above⟩).length) := by
  have ht := h.tells
  rcases step_eq g.visitor h.standing with
    ⟨s, cursor, -, child, hst, -, -, hc, hl, hs⟩ | ⟨m, hm, -, hl, hs⟩
  · rw [hl] at ht ⊢
    refine ⟨_, hs, .of_entered ?_, ?_⟩
    · exact Attended.stop g.enter_keyed hst.keyed (hst.aligned _ _ rfl) hc
        (by rwa [left_cons, pending_eq hc] at ht)
    · refine (stop_pays g.enter_pays _).imp_right fun ⟨heq, htr, hp⟩ => ⟨heq, ?_⟩
      simp only [left, htr, hp, length_cons]
      exact Nat.lt_succ_self _
  · rw [hl] at ht ⊢
    have ha : Attended host false above.reverse (Grafter.stop false g.leave visit) :=
      Attended.stop g.leave_keyed h.standing.keyed (h.standing.aligned _ _ rfl) hm ht
    refine ⟨_, hs, .of_left ha, ?_⟩
    refine (stop_pays g.leave_pays _).imp_right fun ⟨heq, htr, hp⟩ => ⟨heq, ?_⟩
    rw [(left_resume ha.keyed ha.aligned).2, htr, hp, length_cons]
    exact Nat.lt_succ_self _

/-- The walk of a grafter ends. Every node of the tree that it began with
is entered once and left once, in the order of a walk over that tree; the
same holds among the nodes of each graft that was ahead of the walk, and
no node of another one is ever visited; and behind each graft the path
leads to the node that it led to before. -/
theorem walk_grafter (g : Grafter σ) (memory : σ) (t : Tree) (h : t.root.Keyed) :
    ∃ memory' record tree,
      t.walk (g.visitor (ε := ε)) (memory, .start) = .ok ((memory', record), tree) ∧
      record.log.filterMap Entry.host? = t.root.rounds ∧
      (∀ number graft ahead, record.grafts[number]? = some (graft, ahead) →
        record.log.filterMap (Entry.graft? number) =
          if ahead then tour (items graft.key 0 graft.nodes) else []) ∧
      record.steady := by
  have hattended : Attended t.root true ([] : List Cursor).reverse
      (Grafter.stop true g.enter ⟨(memory, .start), t, []⟩) := by
    have htells := tells_start t.root
    rw [rounds_eq, ← Cursor.ahead_start] at htells
    exact Attended.stop g.enter_keyed h rfl rfl htells
  have hend := walk_ends (v := g.visitor (ε := ε)) (I := Recorded t.root) (E := fun _ => False)
    (fun _ hs => hs.standing) (Recorded.of_entered hattended) fun visit current above hrecorded => by
      obtain ⟨next, hstep, hnext, hpays⟩ := hrecorded.step (ε := ε) g
      rw [hstep]
      exact ⟨hnext, hpays⟩
  rcases hend with ⟨⟨memory', record⟩, tree, path, hwalk, hrecorded⟩ | ⟨e, -, hfalse⟩
  · have htells := hrecorded.tells
    have hstory : record.story (left ⟨⟨(memory', record), tree, path⟩, []⟩) = record.log :=
      append_nil _
    refine ⟨memory', record, tree, hwalk, ?_, ?_, htells.steady⟩
    · rw [← hstory, htells.host]
    · intro number graft ahead hget
      rw [← hstory, htells.graft number graft ahead hget]
  · exact hfalse.elim

/-- A grafter that puts an empty statement before the first statement of
a program and one behind it, when it enters that statement. -/
def Grafter.hem : Grafter Nat where
  enter visit :=
    if 0 < visit.memory ∧ visit.path = [⟨"body", some 0⟩] then
      (visit.memory - 1,
        [⟨0, "body", 1, [.bare .emptyStatement []]⟩, ⟨0, "body", 0, [.bare .emptyStatement []]⟩])
    else (visit.memory, [])
  leave visit := (visit.memory, [])
  budget memory := memory
  enter_pays visit := by
    split
    · next h => exact .inl (Nat.sub_lt h.1 Nat.one_pos)
    · exact .inr ⟨rfl, rfl⟩
  leave_pays visit := .inr ⟨rfl, rfl⟩
  enter_keyed visit := by
    have hempty : (Node.bare .emptyStatement []).Keyed := by
      simp [Node.Keyed, Node.Every, Node.bare, Node.preorder, Node.preorderOfProps, Node.keys]
    split
    · simp [hempty]
    · simp
  leave_keyed visit := by simp

/-- The program of two `debugger` statements. -/
def twoStops : Tree :=
  ⟨.bare .program [("body", .nodes [.bare .debuggerStatement [], .bare .debuggerStatement []])], []⟩

theorem walk_grafter_hem :
    twoStops.root.Keyed ∧ ∃ memory' record tree,
      twoStops.walk (Grafter.hem.visitor (ε := Empty)) (1, .start) = .ok ((memory', record), tree) ∧
      record.log.filterMap Entry.host? = twoStops.root.rounds ∧
      (∀ number graft ahead, record.grafts[number]? = some (graft, ahead) →
        record.log.filterMap (Entry.graft? number) =
          if ahead then tour (items graft.key 0 graft.nodes) else []) ∧
      record.steady := by
  have hkeyed : twoStops.root.Keyed := by
    simp [twoStops, Node.Keyed, Node.Every, Node.bare, Node.preorder, Node.preorderOfProps,
      Node.preorderOfNodes, Node.keys]
  exact ⟨hkeyed, walk_grafter Grafter.hem 1 twoStops hkeyed⟩

end Walk

end Inlay
