/-
What inclusion is paid with.

The memory of a walk is at least the number of directives that the tree has,
and every batch lowers both by its own size: its directives are erased, and
the files that come in have none. So a visit that changes anything has spent
something (`Spends`).
-/
import Inlay.Proofs.Inclusion.Batches
import Inlay.Proofs.Tree.Grafts

namespace Inlay

open Directive (ofComments isIn ofLiteral? within)

open List Node

open Splice (Crossing shift_crossing)
open Walk (Graft Grafted)

variable {path' path : Path} {root' root : Node} {p : Placement} {nodes : List Node}

-- == splices as grafts

/-- Nodes that are inserted into a list that the path crosses are grafted,
and the path moves along. -/
theorem grafted_of_crossing {key : String} {o : Node} {q r : Path} {j position : Nat}
    {list : List Node} (h : Crossing key root path q j r) (ho : root.at? q = some o)
    (hl : o.children? key = some list) (hp : position ≤ list.length) (nodes : List Node) :
    Grafted ⟨q.length, key, position, nodes⟩ q.length root path
      (root.modifyAt (·.modifyList key (Splice.insertAt position nodes)) q)
      (q ++ ⟨key, some (if position ≤ j then j + nodes.length else j)⟩ :: r) := by
  have ht : path.take q.length = q := by rw [h.path_eq, take_left]
  have hd : q.length ≤ path.length := by
    rw [h.path_eq, length_append]
    exact Nat.le_add_right ..
  have hg := Grafted.of_at? (g := ⟨q.length, key, position, nodes⟩) hd (ht.symm ▸ ho) hl hp
  have hs := shift_crossing key q r j q.length position nodes.length rfl
  rw [← h.path_eq] at hs
  rw [ht] at hg
  rw [← hs]
  exact hg

/-- A splice puts a node in the place of another, or it inserts nodes
into a list on the path. -/
theorem Spliced.cases {nodes : List Node} {p : Placement} {root root' : Node} {path path' : Path}
    (h : Spliced nodes p root path root' path') :
    (∃ t a, p = .replace ∧ nodes = [a] ∧ root.at? path = some t ∧
      root' = root.modifyAt (fun _ => a) path ∧ path' = path) ∨
    p ≠ .replace ∧ ∃ g : Graft, g.nodes = nodes ∧ Grafted g g.depth root path root' path' := by
  cases h with
  | @replace root path t a hn ht hat hat' => exact .inl ⟨t, a, rfl, hn, ht, rfl, rfl⟩
  | @into root path t key list ht hl hat ha =>
    refine .inr ⟨nofun, ⟨path.length, key, list.length, nodes⟩, rfl, ?_⟩
    have hg := Grafted.of_at? (g := ⟨path.length, key, list.length, nodes⟩)
      (Nat.le_refl path.length) (by rwa [take_length]) hl (Nat.le_refl _)
    rwa [take_length, modify_eq_self (Nat.le_refl _)] at hg
  | @before root path key q j r o list hc ho hl hj ha =>
    refine .inr ⟨nofun, ⟨q.length, key, j, nodes⟩, rfl, ?_⟩
    have hg := grafted_of_crossing hc ho hl (Nat.le_of_lt hj) nodes
    rwa [if_pos (Nat.le_refl j)] at hg
  | @after root path key q j r o list hc ho hl hj ha =>
    refine .inr ⟨nofun, ⟨q.length, key, j + 1, nodes⟩, rfl, ?_⟩
    have hg := grafted_of_crossing hc ho hl hj nodes
    rwa [if_neg (Nat.not_succ_le_self j)] at hg

/-- What holds of all nodes and of the nodes that come in holds of all nodes
behind a splice. -/
theorem Spliced.every {P : Node → Prop} (h : Spliced nodes p root path root' path')
    (hr : root.Keyed)
    (hs : ∀ n s f, P n → P (n.modifyStep s f))
    (hi : ∀ n key position nodes, P n → P (n.modifyList key (Splice.insertAt position nodes)))
    (hno : ∀ m ∈ nodes, m.Every P) (hal : root.Every P) : root'.Every P := by
  rcases h.cases with ⟨t, a, -, ha, ht, rfl, -⟩ | ⟨-, g, hg, hgr⟩
  · exact hal.modifyAt hs ht (hno a (ha ▸ mem_singleton_self a))
  · exact hgr.every hr hs (fun n hn => hi n _ _ _ hn) (hg ▸ hno) hal

/-- No key is there twice behind a splice. -/
theorem Spliced.keyed (h : Spliced nodes p root path root' path') (hr : root.Keyed)
    (hn : ∀ m ∈ nodes, m.Keyed) : root'.Keyed := by
  rcases h.cases with ⟨t, a, -, ha, ht, rfl, rfl⟩ | ⟨-, g, rfl, hg⟩
  · exact hr.modifyAt ht (hn a (ha ▸ mem_singleton_self a))
  · exact hg.keyed hr hn

-- == directives

theorem Node.stringValue?_own (n : Node) : n.own.stringValue? = n.stringValue? := by
  have hd : n.own.data? "value" = n.data? "value" := by
    rw [Node.data?, Node.data?, Node.get?, Node.get?, Node.own, Entries.lookup_map]
    cases n.props.lookup "value" with
    | none => rfl
    | some f => cases f <;> rfl
  rw [Node.stringValue?, Node.stringValue?, Node.string?, Node.string?, hd]
  rfl

/-- Whether a literal is a directive shows in the node by itself. -/
theorem Directive.ofLiteral?_own (marker : String) (n : Node) :
    ofLiteral? marker n.own = ofLiteral? marker n := by
  rw [ofLiteral?, ofLiteral?, stringValue?_own]
  rfl

namespace Inclusion

variable {marker : String} {n m root : Node} {s : Step} {path : Path} {cs : List Comment} {k : Nat}
  {ds : List Directive} {p : Placement}

/-- How many directives a node has by itself. -/
def weight (marker : String) (n : Node) : Nat :=
  (ofLiteral? marker n).toList.length + (ofComments marker n.leading).length +
    (ofComments marker n.trailing).length

/-- How many directives a node has with all below it. -/
def load (marker : String) (n : Node) : Nat := (n.preorder.map (weight marker)).sum

/-- The directives of a tree are those of its nodes and of its store. -/
theorem directiveCount_eq (marker : String) (t : Tree) :
    directiveCount marker t = load marker t.root + (ofComments marker t.comments).length := by
  rw [directiveCount, length_append, length_flatMap, load]
  simp only [length_append]
  rfl

theorem weight_own (marker : String) (n : Node) : weight marker n.own = weight marker n := by
  rw [weight, weight, Directive.ofLiteral?_own]
  rfl

theorem weight_eq_of_own (h : n.own = m.own) : weight marker n = weight marker m := by
  rw [← weight_own, h, weight_own]

/-- The load of a node is its own weight and what its children have. -/
theorem load_eq (marker : String) (n : Node) :
    load marker n = weight marker n + (n.kids.map fun k => load marker k.2).sum := by
  rw [load, preorder_eq, map_cons, sum_cons, map_flatMap, flatMap_def, sum_flatten, map_map]
  rfl

/-- Clean nodes have no directives. -/
theorem load_eq_zero (h : AllClean marker n) : load marker n = 0 := by
  refine sum_eq_zero fun w hw => ?_
  obtain ⟨m, hm, rfl⟩ := mem_map.1 hw
  have hcl := h m hm
  have hc := hcl.comments
  rw [forall_mem_append] at hc
  rw [weight, hcl.literal, Directive.ofComments_eq_nil_iff.2 hc.1,
    Directive.ofComments_eq_nil_iff.2 hc.2]
  rfl

-- == changes

/-- A change of a child changes the load by as much. -/
theorem load_modifyStep (hs : n.step? s = some m) (f : Node → Node) :
    load marker (n.modifyStep s f) + load marker m = load marker n + load marker (f m) := by
  obtain ⟨A, B, hk, hc⟩ := kids_split hs
  rw [load_eq marker n, load_eq marker (n.modifyStep s f), hk, hc,
    weight_eq_of_own (own_modifyStep s f n)]
  simp only [map_append, map_cons, sum_append, sum_cons]
  omega

/-- So does a change further down. -/
theorem load_modifyAt (hm : n.at? path = some m) (f : Node → Node) :
    load marker (n.modifyAt f path) + load marker m = load marker n + load marker (f m) := by
  induction path generalizing n with
  | nil =>
    cases hm
    exact Nat.add_comm ..
  | cons s path ih =>
    obtain ⟨l, hs, hl⟩ := at?_cons_eq_some_iff.1 hm
    have hst := @load_modifyStep marker _ _ _ hs (Node.modifyAt f path)
    have hb := ih hl
    rw [Node.modifyAt]
    omega

/-- Clean nodes that are grafted add nothing. -/
theorem load_grafted {g : Graft} {depth : Nat} {n' : Node} {p p' : Path}
    (h : Grafted g depth n p n' p') (hn : n.Keyed) (hno : ∀ m ∈ g.nodes, AllClean marker m) :
    load marker n' = load marker n := by
  induction h with
  | @here n p list hl hp =>
    obtain ⟨front, rest, -, hki, hki'⟩ :=
      kids_insertAt hn.nodup hl hp g.nodes g.depth
    have hz : ((items g.key g.position g.nodes).map fun k => load marker k.2).sum = 0 := by
      refine sum_eq_zero fun w hw => ?_
      obtain ⟨k, hk, rfl⟩ := mem_map.1 hw
      obtain ⟨j, -, -, -, hg⟩ := mem_items hk
      exact load_eq_zero (hno _ (mem_of_getElem? hg))
    rw [load_eq marker n, load_eq, hki', hki, weight_eq_of_own (own_modifyList g.key _ n)]
    simp only [map_append, map_map, Function.comp_def, sum_append, hz, Nat.add_zero]
  | @step depth n m m' s p p' hs _ ih =>
    have hst : load marker (n.modifyStep s fun _ => m') + load marker m =
        load marker n + load marker m' := load_modifyStep hs fun _ => m'
    have hb := ih (hn.step hs)
    omega

/-- The directives of a list are its comments with a directive. -/
theorem length_ofComments (marker : String) (cs : List Comment) :
    (ofComments marker cs).length = cs.countP (isIn marker) :=
  length_filterMap_eq_countP ..

/-- Erasing comments adds no directive. -/
theorem length_ofComments_diff_le (marker : String) (l cs : List Comment) :
    (ofComments marker (l.diff cs)).length ≤ (ofComments marker l).length :=
  ((diff_sublist l cs).filterMap _).length_le

/-- Erasing comments with directives takes as many directives. -/
theorem length_ofComments_diff {l : List Comment} (h : cs.Subperm l)
    (hcs : ∀ c ∈ cs, isIn marker c = true) :
    (ofComments marker (l.diff cs)).length + cs.length = (ofComments marker l).length := by
  have hc : cs.countP (isIn marker) = cs.length := countP_eq_length.2 hcs
  have hle := h.countP_le (isIn marker)
  rw [length_ofComments, length_ofComments, countP_diff h, hc]
  omega

theorem weight_eraseAll_le (marker : String) (cs : List Comment) (n : Node) :
    weight marker (n.eraseAll cs) ≤ weight marker n := by
  have hl := length_ofComments_diff_le marker n.leading cs
  have ht := length_ofComments_diff_le marker n.trailing cs
  rw [weight, weight, Directive.ofLiteral?_mapComments, leading_mapComments, trailing_mapComments]
  omega

theorem load_eraseAll (marker : String) (cs : List Comment) (n : Node) :
    load marker (n.eraseAll cs) = (n.preorder.map fun m => weight marker (m.eraseAll cs)).sum := by
  rw [load, preorder_mapComments, map_map]
  rfl

/-- A tree has no more directives with comments erased. -/
theorem load_eraseAll_le (marker : String) (cs : List Comment) (n : Node) :
    load marker (n.eraseAll cs) ≤ load marker n := by
  rw [load_eraseAll]
  exact sum_le_sum fun m _ => weight_eraseAll_le marker cs m

/-- What one node loses by that, the tree loses at least. -/
theorem load_eraseAll_add_le (hm : root.at? path = some m)
    (h : weight marker (m.eraseAll cs) + k ≤ weight marker m) :
    load marker (root.eraseAll cs) + k ≤ load marker root := by
  obtain ⟨A, B, hs⟩ := append_of_mem (mem_preorder_of_at? hm)
  have hle : ∀ l : List Node, (l.map fun m => weight marker (m.eraseAll cs)).sum ≤
      (l.map (weight marker)).sum :=
    fun l => sum_le_sum fun m _ => weight_eraseAll_le marker cs m
  have hA := hle A
  have hB := hle B
  rw [load_eraseAll, load, hs]
  simp only [map_append, map_cons, sum_append, sum_cons]
  omega

-- == batches

variable {R : Round}

/-- Whether the memory of a visit covers the directives of its tree. -/
def Covered (marker : String) (memory : Nat) (t : Tree) : Prop := directiveCount marker t ≤ memory

/-- A visit with its memory covered goes on so, and any change is paid. -/
structure Spends (marker : String) (v v' : Visit) : Prop where
  covered : Covered marker v.memory v.tree → Covered marker v'.memory v'.tree
  paid : Covered marker v.memory v.tree → v' = v ∨ v'.memory < v.memory

theorem Spends.refl (marker : String) (v : Visit) : Spends marker v v := ⟨id, fun _ => .inl rfl⟩

/-- A visit that loses `k` directives and `k` of its memory has paid. -/
theorem spends_of_count_le {v v' : Visit} (hk : k ≠ 0) (hm : v'.memory = v.memory - k)
    (h : directiveCount marker v'.tree + k ≤ directiveCount marker v.tree) :
    Spends marker v v' := by
  refine ⟨fun hv => ?_, fun hv => .inr ?_⟩ <;> unfold Covered at * <;> omega

/-- A splice of a file's nodes brings no directives, and it takes those
of a node that it replaces. -/
theorem load_spliced (hfe : Fetches R (AllClean R.marker)) {contents : List (List Node)}
    {root' : Node} {path' : Path} (hf : List.Forall₂ (fun d ns => R.fetch d = .ok ns) ds contents)
    (hr : root.Keyed) (hm : root.at? path = some m)
    (h : p.splice? (gather p contents) root path = some (root', path')) :
    load R.marker root' + (if p = .replace then load R.marker m else 0) ≤ load R.marker root := by
  have hc := forall_mem_gather (p := p) hf (hfe.supplied ds)
  rcases (spliced_of_splice? h hm).cases with ⟨t, a, rfl, ha, ht, rfl, rfl⟩ | ⟨hne, g, hg, hgr⟩
  · obtain rfl := Option.some.inj (hm.symm.trans ht)
    have hl := @load_modifyAt R.marker _ _ _ hm fun _ => a
    rw [ha] at hc
    rw [load_eq_zero (hc a (mem_singleton_self a))] at hl
    rw [if_pos rfl]
    omega
  · have hl := load_grafted hgr hr (hg ▸ hc)
    rw [if_neg hne]
    omega

theorem length_filterMap_comment (marker : String) (cs : List Comment) :
    ((ofComments marker cs).filterMap (·.comment)).length = (ofComments marker cs).length := by
  rw [Directive.filterMap_comment_ofComments, length_ofComments, countP_eq_length_filter]

/-- The directives of a node are among those of its tree. -/
theorem weight_le_load (marker : String) (n : Node) : weight marker n ≤ load marker n := by
  rw [load_eq]
  exact Nat.le_add_right ..

section Spends

variable {v v' : Visit} (hfe : Fetches R (AllClean R.marker)) (hv : v.tree.root.Keyed)

include hfe hv

/-- A literal that is replaced is paid with the directive that it was. -/
theorem Quotes.spends (h : Quotes R v v') : Spends R.marker v v' := by
  obtain ⟨n, hn, hb⟩ := h
  generalize hds : (ofLiteral? R.marker n).toList = ds at hb
  cases hb with
  | idle => exact .refl _ _
  | @splice _ _ contents root path hne hf hs =>
    have hl := load_spliced hfe hf hv hn hs
    have hw : ds.length ≤ load R.marker n := by
      refine Nat.le_trans ?_ (weight_le_load R.marker n)
      rw [weight, hds, Nat.add_assoc]
      exact Nat.le_add_right ..
    have hc : ds.filterMap (·.comment) = [] := by
      refine filterMap_eq_nil_iff.2 fun d hd => ?_
      exact Directive.comment_of_ofLiteral? (Option.mem_toList.1 (hds ▸ hd))
    refine spends_of_count_le (mt length_eq_zero_iff.1 hne) rfl ?_
    rw [if_pos rfl] at hl
    rw [hc, eraseAll_nil, directiveCount_eq, directiveCount_eq]
    dsimp only
    rw [diff_nil]
    omega

/-- Files in an empty list are paid with comments of the store. -/
theorem Batch.spends_store {range : Span}
    (h : Batch R p (within R.marker range v.tree.comments) v v')
    (hn : v.tree.root.at? v.path = some n) : Spends R.marker v v' := by
  generalize hds : within R.marker range v.tree.comments = ds at h
  cases h with
  | idle => exact .refl _ _
  | @splice _ _ contents root path hne hf hs =>
    have hlo := load_spliced hfe hf hv hn hs
    have hl : (ds.filterMap (·.comment)).length = ds.length := by
      rw [← hds]
      exact length_filterMap_comment ..
    have hsu : (ds.filterMap (·.comment)).Subperm v.tree.comments := by
      rw [← hds, within, Directive.filterMap_comment_ofComments]
      exact ((filter_sublist).trans filter_sublist).subperm
    have hd : ∀ c ∈ ds.filterMap (·.comment), isIn R.marker c = true := by
      rw [← hds, within, Directive.filterMap_comment_ofComments]
      exact fun c hc => of_mem_filter hc
    have hst := length_ofComments_diff hsu hd
    have he := load_eraseAll_le R.marker (ds.filterMap (·.comment)) root
    refine spends_of_count_le (mt length_eq_zero_iff.1 hne) rfl ?_
    rw [directiveCount_eq, directiveCount_eq]
    dsimp only
    omega

/-- Files around a node are paid with comments of the node. -/
theorem Batch.spends_own (h : Batch R p ds v v') (hn : v.tree.root.at? v.path = some n)
    (hp : ∃ key, p = .before key ∨ p = .after key)
    (hl : (ds.filterMap (·.comment)).length = ds.length)
    (hw : weight R.marker (n.eraseAll (ds.filterMap (·.comment))) +
      (ds.filterMap (·.comment)).length ≤ weight R.marker n) : Spends R.marker v v' := by
  cases h with
  | idle => exact .refl _ _
  | @splice _ _ contents root path hne hf hs =>
    have hlo := load_spliced hfe hf hv hn hs
    have hn' : root.at? path = some n := by
      obtain ⟨n', hn', hc⟩ := (spliced_of_splice? hs hn).exists_at? hn
      obtain ⟨key, rfl | rfl⟩ := hp <;> simp at hc <;> rwa [hc] at hn'
    have he := load_eraseAll_add_le hn' hw
    have hst := length_ofComments_diff_le R.marker v.tree.comments (ds.filterMap (·.comment))
    refine spends_of_count_le (mt length_eq_zero_iff.1 hne) rfl ?_
    rw [directiveCount_eq, directiveCount_eq]
    dsimp only
    omega

theorem Leads.spends (h : Leads R v v') : Spends R.marker v v' := by
  obtain ⟨n, hn, hb⟩ := h
  refine hb.spends_own hfe hv hn ⟨"body", .inl rfl⟩ (length_filterMap_comment ..) ?_
  rw [Directive.filterMap_comment_ofComments]
  have hl := length_ofComments_diff (filter_sublist (l := n.leading)).subperm
    fun c (hc : c ∈ n.leading.filter (isIn R.marker)) => of_mem_filter hc
  have ht := length_ofComments_diff_le R.marker n.trailing (n.leading.filter (isIn R.marker))
  rw [weight, weight, Directive.ofLiteral?_mapComments, leading_mapComments, trailing_mapComments]
  omega

theorem Trails.spends (h : Trails R v v') : Spends R.marker v v' := by
  obtain ⟨n, hn, hb⟩ := h
  have hr : (ofComments R.marker n.trailing).reverse.filterMap (·.comment) =
      (n.trailing.filter (isIn R.marker)).reverse := by
    rw [filterMap_reverse, Directive.filterMap_comment_ofComments]
  refine hb.spends_own hfe hv hn ⟨"body", .inr rfl⟩ ?_ ?_
  · rw [filterMap_reverse, length_reverse, length_reverse]
    exact length_filterMap_comment ..
  · rw [hr]
    have ht : _ + _ = (ofComments R.marker n.trailing).length :=
      length_ofComments_diff (((n.trailing.filter (isIn R.marker)).reverse_perm.subperm).trans
          (filter_sublist (l := n.trailing)).subperm)
        fun c hc => of_mem_filter (mem_reverse.1 hc)
    have hl := length_ofComments_diff_le R.marker n.leading
      (n.trailing.filter (isIn R.marker)).reverse
    rw [weight, weight, Directive.ofLiteral?_mapComments, leading_mapComments, trailing_mapComments]
    omega

end Spends

end Inclusion

end Inlay
