/-
The nodes that take comments.

A comment goes to the outermost node that starts with the next token, or
else to the outermost one that ends with the last token: the first in the
order of a walk (`find?_places`). The comments of a node are those that it
takes, in the order of the file (`attachAll_at?`).
-/
import Inlay.Proofs.Script.Positions
import Inlay.Proofs.Script.Soundness
import Inlay.Proofs.Tree.Splicing
import Inlay.Script.Parse

namespace Inlay

open List

-- == locations

namespace Node

theorem locateNodes_eq (table : LineTable) (source : Option String) (ns : List Node) :
    locateNodes table source ns = ns.map (locate table source) := by
  induction ns with
  | nil => rfl
  | cons n ns ih => rw [locateNodes, ih, map_cons]

theorem relabels_locate (table : LineTable) (source : Option String) :
    Relabels (locate table source) := by
  refine ⟨fun n => by cases n; rw [locate], fun n => by cases n; rw [locate], fun n => ?_⟩
  obtain ⟨kind, props, range, loc, leading, trailing⟩ := n
  rw [locate]
  dsimp only
  induction props with
  | nil => rfl
  | cons e props ih =>
    obtain ⟨key, field⟩ := e
    cases field <;> simp [locateProps, ih, Field.map, locateNodes_eq]

theorem loc_locate (table : LineTable) (source : Option String) (n : Node) :
    (n.locate table source).loc = n.range.map (table.location · source) := by
  cases n
  rw [locate]

@[simp] theorem leading_locate (table : LineTable) (source : Option String) (n : Node) :
    (n.locate table source).leading = n.leading := by
  cases n
  rw [locate]

@[simp] theorem trailing_locate (table : LineTable) (source : Option String) (n : Node) :
    (n.locate table source).trailing = n.trailing := by
  cases n
  rw [locate]

-- == places

variable {n m l : Node} {p : Path} {s : Step} {P : Node → Bool}

theorem mem_places_iff (hn : n.Keyed) : (p, m) ∈ n.places ↔ n.at? p = some m := by
  induction p generalizing n with
  | nil =>
    rw [places_eq]
    simp [eq_comm]
  | cons s p ih =>
    rw [places_eq, at?_cons_eq_some_iff]
    constructor
    · intro h
      rcases mem_cons.1 h with h | h
      · cases h
      · obtain ⟨k, hk, h⟩ := mem_flatMap.1 h
        obtain ⟨place, hp, heq⟩ := mem_map.1 h
        cases heq
        have hs := (step?_eq_some_iff hn.nodup).2 hk
        exact ⟨k.2, hs, (ih (hn.step hs)).1 hp⟩
    · rintro ⟨l, hs, hl⟩
      refine mem_cons_of_mem _ (mem_flatMap.2 ⟨(s, l), mem_kids_of_step? hs, ?_⟩)
      exact mem_map.2 ⟨(p, m), (ih (hn.step hs)).2 hl, rfl⟩

theorem tail_places (n : Node) :
    n.places.tail = n.kids.flatMap fun k => k.2.places.map fun p => (k.1 :: p.1, p.2) := by
  rw [places_eq, tail_cons]

theorem map_snd_places (n : Node) : n.places.map (·.2) = n.preorder := by
  induction n using induction_kids with
  | h n ih =>
    rw [places_eq, preorder_eq, map_cons, map_flatMap]
    congr 1
    refine flatMap_congr fun k hk => ?_
    rw [map_map, ← ih k hk]
    rfl

theorem nodup_places (hn : n.Keyed) : (n.places.map (·.1)).Nodup := by
  induction n using induction_kids with
  | h n ih =>
    obtain ⟨hke, hki⟩ := keyed_iff.1 hn
    have hs : n.kids.Pairwise fun k l => k.1 ≠ l.1 :=
      pairwise_map.1 (nodup_steps_kidsOf hke)
    rw [places_eq, map_cons, nodup_cons, map_flatMap]
    constructor
    · simp
    · rw [nodup_flatMap]
      refine ⟨fun k hk => ?_, hs.imp fun {k l} hne => ?_⟩
      · rw [map_map]
        have hc := (ih k hk (hki k hk)).map (f := (k.1 :: ·)) fun _ _ h => (List.cons.inj h).2
        rwa [map_map] at hc
      · intro path hk hl
        simp only [mem_map] at hk hl
        obtain ⟨_, ⟨_, -, rfl⟩, rfl⟩ := hk
        obtain ⟨_, ⟨_, -, rfl⟩, heq⟩ := hl
        exact hne (List.cons.inj heq).1.symm

/-- What is found below a child, is found below the node, if it is not
below another child. -/
theorem find?_places_tail (hn : n.Keyed) (hs : n.step? s = some l)
    (hl : l.places.find? (fun place => P place.2) = some (p, m))
    (hf : ∀ t q k, n.at? (t :: q) = some k → P k = true → t = s) :
    n.places.tail.find? (fun place => P place.2) = some (s :: p, m) := by
  obtain ⟨A, B, hki, -⟩ := kids_split hs
  have hA : (A.flatMap fun k => k.2.places.map fun p => (k.1 :: p.1, p.2)).find?
      (fun place => P place.2) = none := by
    refine find?_eq_none.2 fun place hp hP => ?_
    obtain ⟨k, hk, hp⟩ := mem_flatMap.1 hp
    obtain ⟨⟨q, b⟩, hb, rfl⟩ := mem_map.1 hp
    have hk' : k ∈ n.kids := hki ▸ mem_append_left _ hk
    have hst := (step?_eq_some_iff hn.nodup).2 hk'
    have hat : n.at? (k.1 :: q) = some b :=
      at?_cons_eq_some_iff.2 ⟨k.2, hst, (mem_places_iff (hn.step hst)).1 hb⟩
    exact (ne_of_kids_eq hn.nodup hki).1 k hk (hf k.1 q b hat hP)
  rw [tail_places, hki, flatMap_append, find?_append, hA, flatMap_cons, find?_append, find?_map]
  simp [hl]

/-- The first place of which something holds, if all others are below
it. -/
theorem find?_places (hn : n.Keyed) (hm : n.at? p = some m) (hP : P m = true)
    (hf : ∀ q l, n.at? q = some l → P l = true → p <+: q) :
    n.places.find? (fun place => P place.2) = some (p, m) := by
  induction p generalizing n with
  | nil =>
    cases hm
    rw [places_eq]
    exact find?_cons_of_pos hP
  | cons s p ih =>
    obtain ⟨l, hs, hl⟩ := at?_cons_eq_some_iff.1 hm
    have hr : ¬P n = true := fun h => by simpa using hf [] n rfl h
    have hb := ih (hn.step hs) hl fun q k hk hPk =>
      (cons_prefix_cons.1 (hf (s :: q) k (at?_cons_eq_some_iff.2 ⟨l, hs, hk⟩) hPk)).2
    have ht := find?_places_tail hn hs hb fun t q k hk hPk =>
      (cons_prefix_cons.1 (hf (t :: q) k hk hPk)).1.symm
    rw [places_eq, tail_cons] at ht
    rw [places_eq, ← ht]
    exact find?_cons_of_neg hr

-- == attachment

variable {root n' : Node} {q : Path} {f : Node → Node}

/-- A change of a node that leaves its properties alone shows in that
node only. -/
theorem at?_modifyAt_of_props (hf : ∀ n, (f n).props = n.props)
    (h : (root.modifyAt f q).at? p = some n') :
    ∃ n, root.at? p = some n ∧ n'.leading = (if p = q then f n else n).leading ∧
      n'.trailing = (if p = q then f n else n).trailing := by
  induction q generalizing root p with
  | nil =>
    cases p with
    | nil =>
      cases h
      exact ⟨root, rfl, rfl, rfl⟩
    | cons s p =>
      have hste : (f root).step? s = root.step? s := by rw [step?, step?, get?, get?, hf]
      rw [modifyAt, at?_cons, hste] at h
      exact ⟨n', h, rfl, rfl⟩
  | cons t q ih =>
    cases p with
    | nil =>
      cases h
      exact ⟨root, rfl, rfl, rfl⟩
    | cons s p =>
      obtain ⟨l', hs', hl'⟩ := at?_cons_eq_some_iff.1 h
      by_cases hst : s = t
      · subst hst
        rw [modifyAt, step?_modifyStep_self] at hs'
        obtain ⟨l, hs, rfl⟩ := Option.map_eq_some_iff.1 hs'
        obtain ⟨n, hn, hc⟩ := ih hl'
        refine ⟨n, at?_cons_eq_some_iff.2 ⟨l, hs, hn⟩, ?_⟩
        simpa using hc
      · rw [modifyAt, step?_modifyStep_of_ne hst] at hs'
        refine ⟨n', at?_cons_eq_some_iff.2 ⟨l', hs', hl'⟩, ?_⟩
        simp [hst]

end Node

namespace Script

variable {places : List (Path × Node)} {tokens : List Span} {root n' : Node} {p : Path} {c : Comment}
  {comments : List Comment}

/-- Whether a comment leads the node at a path. -/
def leads (places : List (Path × Node)) (tokens : List Span) (p : Path) (c : Comment) : Bool :=
  match c.range.bind (host? places tokens) with
  | some (.leading q) => p = q
  | _ => false

/-- Whether a comment trails the node at a path. -/
def trails (places : List (Path × Node)) (tokens : List Span) (p : Path) (c : Comment) : Bool :=
  match c.range.bind (host? places tokens) with
  | some (.trailing q) => p = q
  | _ => false

theorem leads_iff : leads places tokens p c = true ↔
    c.range.bind (host? places tokens) = some (.leading p) := by
  unfold leads
  split
  · next q hq => simp [hq, eq_comm]
  · next hq =>
    refine ⟨nofun, fun h => absurd h (hq p)⟩

theorem trails_iff : trails places tokens p c = true ↔
    c.range.bind (host? places tokens) = some (.trailing p) := by
  unfold trails
  split
  · next q hq => simp [hq, eq_comm]
  · next hq =>
    refine ⟨nofun, fun h => absurd h (hq p)⟩

theorem attach_at? (h : (attach places tokens root c).at? p = some n') :
    ∃ n, root.at? p = some n ∧ n'.leading = n.leading ++ [c].filter (leads places tokens p) ∧
      n'.trailing = n.trailing ++ [c].filter (trails places tokens p) := by
  unfold attach at h
  unfold leads trails
  split at h
  case h_3 hh => exact ⟨n', h, by simp [hh], by simp [hh]⟩
  all_goals
    next q hh =>
    obtain ⟨n, hn, hl, ht⟩ := Node.at?_modifyAt_of_props (by exact fun _ => rfl) h
    refine ⟨n, hn, ?_, ?_⟩
    · rw [hl]
      by_cases hpq : p = q <;> simp [hh, hpq]
    · rw [ht]
      by_cases hpq : p = q <;> simp [hh, hpq]

theorem mapComments_attach :
    (attach places tokens root c).mapComments (fun _ => []) = root.mapComments fun _ => [] := by
  have hc : ∀ (q : Path) (g : Node → Node),
      (∀ m, (g m).mapComments (fun _ => []) = m.mapComments fun _ => []) →
      (root.modifyAt g q).mapComments (fun _ => []) = root.mapComments fun _ => [] := by
    intro q g hg
    exact ((Node.recolors_mapComments _).modifyAt hg q root).trans (Node.modifyAt_id q _)
  unfold attach
  split
  · exact hc _ _ fun m => by cases m; rfl
  · exact hc _ _ fun m => by cases m; rfl
  · rfl

/-- The comments of a node are those that it takes. -/
theorem foldl_attach_at? (h : (comments.foldl (attach places tokens) root).at? p = some n') :
    ∃ n, root.at? p = some n ∧ n'.leading = n.leading ++ comments.filter (leads places tokens p) ∧
      n'.trailing = n.trailing ++ comments.filter (trails places tokens p) := by
  induction comments generalizing root with
  | nil => exact ⟨n', h, by simp, by simp⟩
  | cons c comments ih =>
    obtain ⟨n₁, hn₁, hl₁, ht₁⟩ := ih h
    obtain ⟨n, hn, hl, ht⟩ := attach_at? hn₁
    refine ⟨n, hn, ?_, ?_⟩
    · rw [hl₁, hl, append_assoc, ← filter_append]
      rfl
    · rw [ht₁, ht, append_assoc, ← filter_append]
      rfl

theorem mapComments_foldl_attach :
    (comments.foldl (attach places tokens) root).mapComments (fun _ => []) =
      root.mapComments fun _ => [] := by
  induction comments generalizing root with
  | nil => rfl
  | cons c comments ih => rw [foldl_cons, ih, mapComments_attach]

end Script

-- == relabelings

namespace Script

variable {places : List (Path × Node)} {tokens : List Span} {range : Span} {path : Path}

theorem host?_eq_leading : host? places tokens range = some (.leading path) ↔
    (startBehind tokens range).bind (pathStarting places) = some path := by
  rw [host?]
  cases (startBehind tokens range).bind (pathStarting places) with
  | none => cases (endBefore tokens range).bind (pathEnding places) <;> simp
  | some q => simp

theorem host?_eq_trailing : host? places tokens range = some (.trailing path) ↔
    (startBehind tokens range).bind (pathStarting places) = none ∧
      (endBefore tokens range).bind (pathEnding places) = some path := by
  rw [host?]
  cases (startBehind tokens range).bind (pathStarting places) with
  | none => cases (endBefore tokens range).bind (pathEnding places) <;> simp
  | some q => simp

/-- Only nodes that have a range take comments. -/
theorem range_of_host? (h : host? places tokens range = some (.leading path) ∨
      host? places tokens range = some (.trailing path)) :
    ∃ n, (path, n) ∈ places ∧ n.range.isSome = true := by
  have hfo {P : Span → Bool}
      (hf : (places.find? fun place => place.2.range.any P).map (·.1) = some path) :
      ∃ n, (path, n) ∈ places ∧ n.range.isSome = true := by
    obtain ⟨place, hpl, rfl⟩ := Option.map_eq_some_iff.1 hf
    have ha := find?_some hpl
    obtain ⟨r, hr, -⟩ := (Option.any_eq_true _ _).1 ha
    exact ⟨place.2, mem_of_find?_eq_some hpl, Option.isSome_of_mem hr⟩
  rw [host?_eq_leading, host?_eq_trailing, Option.bind_eq_some_iff, Option.bind_eq_some_iff] at h
  obtain ⟨off, -, hf⟩ | ⟨-, off, -, hf⟩ := h <;> exact hfo hf

end Script

variable {all : List Span} {n n' : Node} {f : Node → Node}

namespace Relabels

theorem childRanges (h : Relabels f) (n : Node) : (f n).childRanges = n.childRanges := by
  rw [Node.childRanges, Node.childRanges, h.kids, filterMap_map]
  congr 1
  funext k
  exact h.range k.2

theorem situated_iff (h : Relabels f) (n : Node) : Situated all (f n) ↔ Situated all n := by
  simp only [Inlay.situated_iff, h.keys, h.kind, h.range, h.childRanges, h.kids, h.children?,
    forall_mem_map, map_eq_nil_iff, Option.map_eq_some_iff, forall_exists_index, and_imp,
    forall_apply_eq_imp_iff₂, exists_eq_right]

theorem host?_eq (h : Relabels f) (n : Node) (tokens : List Span) :
    Script.host? (f n).places.tail tokens = Script.host? n.places.tail tokens := by
  have hf : ∀ P : Span → Bool, ((f n).places.tail.find? fun place => place.2.range.any P).map (·.1) =
      (n.places.tail.find? fun place => place.2.range.any P).map (·.1) := by
    intro P
    rw [h.places, ← map_tail, find?_map, Option.map_map]
    simp only [Function.comp_def, h.range]
  have hs : Script.pathStarting (f n).places.tail = Script.pathStarting n.places.tail :=
    funext fun off => hf (·.start == off)
  have hst : Script.pathEnding (f n).places.tail = Script.pathEnding n.places.tail :=
    funext fun off => hf (·.stop == off)
  funext range
  rw [Script.host?, Script.host?, hs, hst]

theorem nested_iff (h : Relabels f) (n : Node) : Nested (f n) ↔ Nested n := by
  simp [Inlay.nested_iff, h.range, h.kids, h.childRanges]

theorem forall_kids_iff (h : Relabels f) (n : Node) :
    (∀ k ∈ (f n).kids, k.2.Every (Situated all)) ↔ ∀ k ∈ n.kids, k.2.Every (Situated all) := by
  rw [h.kids, forall_mem_map]
  exact forall_congr' fun k => imp_congr_right fun _ => h.every_iff h.situated_iff k.2

end Relabels

-- == files

/-- How the nodes and the comments of a tree stand among the tokens of
its file. -/
structure Placed (all : List Span) (t : Tree) : Prop where
  spans : InOrder all
  comments : InOrder (t.comments.filterMap (·.range))
  ranged : ∀ c ∈ t.comments, c.range.isSome = true
  apart : ∀ s ∈ all, ∀ r ∈ t.comments.filterMap (·.range), s.stop ≤ r.start ∨ r.stop ≤ s.start
  kind : t.root.kind = .program
  props : ∃ ns, t.root.props = [("body", .nodes ns)]
  range : ∃ r, t.root.range = some r ∧
    ∀ i ∈ all ++ t.comments.filterMap (·.range), r.contains i = true
  nested : Nested t.root
  inner : ∀ k ∈ t.root.kids, k.2.Every (Situated all)
  leading : ∀ p n, t.root.at? p = some n →
    n.leading = t.comments.filter (Script.leads t.root.places.tail all p)
  trailing : ∀ p n, t.root.at? p = some n →
    n.trailing = t.comments.filter (Script.trails t.root.places.tail all p)

theorem Placed.nodup_comments {all : List Span} {t : Tree} (h : Placed all t) : t.comments.Nodup := by
  refine (pairwise_filterMap.1 h.comments.pairwise).imp_of_mem fun {c c'} hc _ hle heq => ?_
  subst heq
  obtain ⟨r, hr⟩ := Option.isSome_iff_exists.1 (h.ranged c hc)
  have hs := h.comments.solid r (mem_filterMap.2 ⟨c, hc, hr⟩)
  have := hle r hr r hr
  omega

namespace Script

/-- The tree of a script before its nodes are located. -/
def programOf (text : List Char) (ns : List Node) : Node :=
  { Node.bare .program [("body", .nodes ns)] with range := some ⟨0, Text.bytes text⟩ }

variable {text : List Char} {ts : List Token} {ns : List Node} {lexed : Lexed} {t : Tree}
  {source : Option String}

theorem map_snd_kids_programOf (text : List Char) (ns : List Node) :
    (programOf text ns).kids.map (·.2) = ns := by
  rw [Node.map_snd_kids]
  exact append_nil ns

theorem snd_mem_of_kids {k : Step × Node} (hk : k ∈ (programOf text ns).kids) : k.2 ∈ ns := by
  rw [← map_snd_kids_programOf text ns]
  exact mem_map_of_mem hk

/-- The nodes of a file are situated among its tokens. -/
theorem Sits.situated (h : Sits ts ns) (ho : InOrder (spans ts)) :
    ∀ n ∈ ns, n.Every (Situated (spans ts)) := by
  obtain ⟨seats, rfl, hl, hs⟩ := h
  intro n hn
  obtain ⟨x, hx, rfl⟩ := mem_map.1 hn
  obtain ⟨as, bs, hsp⟩ := hl.exists_of_mem (mem_map_of_mem hx)
  rw [hsp] at ho ⊢
  exact (hs x hx).situated ho

theorem Sits.bare (h : Sits ts ns) :
    (programOf text ns).Every fun m => m.leading = [] ∧ m.trailing = [] := by
  refine Node.every_iff.2 ⟨⟨rfl, rfl⟩, fun k hk => ?_⟩
  exact h.every ⟨rfl, rfl⟩ (fun _ _ _ _ => Formed.bare) k.2 (snd_mem_of_kids hk)

theorem childRanges_programOf (text : List Char) {seats : List (List Token × Node)}
    (hns : seats.map (·.2) = ns) :
    (programOf text ns).childRanges = seats.filterMap (·.2.range) :=
  childRanges_of_kids (by rw [map_snd_kids_programOf, hns])

theorem Sits.nested (h : Sits ts ns) (ho : InOrder (spans ts))
    (hw : ∀ s ∈ spans ts, s.stop ≤ Text.bytes text) : Nested (programOf text ns) := by
  obtain ⟨seats, hns, hl, hs⟩ := h
  have hr := childRanges_programOf text hns
  have hsu := hl.flatten_sublist
  refine ⟨nofun, ?_, ?_⟩
  · rintro r ⟨⟩ i hi
    rw [hr] at hi
    obtain ⟨us, hus, hne, rfl⟩ := mem_ranges hs hi
    obtain ⟨t, ht, hst⟩ := exists_last hne
    refine Span.contains_iff.2 ⟨Nat.zero_le _, ?_⟩
    rw [← hst]
    exact hw _ (mem_spans (hsu.subset (mem_flatten.2 ⟨us, hus, ht⟩)))
  · rw [hr]
    exact pairwise_ranges hs (ho.sublist (hsu.map _))

theorem Tiles.covers (h : Tiles ts ns) (ho : InOrder (spans ts)) :
    ∀ s ∈ spans ts, ∃ i ∈ (programOf text ns).childRanges, i.contains s = true := by
  obtain ⟨seats, hns, rfl, hse⟩ := h
  rw [childRanges_programOf text hns]
  intro s hs
  obtain ⟨t, ht, rfl⟩ := mem_map.1 hs
  obtain ⟨us, hus, ht⟩ := mem_flatten.1 ht
  have hsu : (spans us).Sublist (spans (seats.map (·.1)).flatten) :=
    (sublist_flatten_of_mem hus).map _
  exact ⟨extent us, extent_mem_ranges hse hus (ne_nil_of_mem ht),
    contains_extent (ho.sublist hsu) ht⟩

/-- Attaching comments leaves the places of the nodes as they are. -/
theorem childRanges_attachAll (tokens : List Span) (comments : List Comment) (table : LineTable)
    (source : Option String) (root : Node) :
    (attachAll tokens comments (root.locate table source)).childRanges = root.childRanges := by
  have hb := Node.relabels_mapComments fun _ => []
  have hs : (attachAll tokens comments (root.locate table source)).mapComments (fun _ => []) =
      (root.locate table source).mapComments fun _ => [] := mapComments_foldl_attach
  rw [← hb.childRanges, hs, hb.childRanges, (Node.relabels_locate table source).childRanges]

theorem placed_attachAll {table : LineTable} (hsi : Sits ts ns) (hspa : lexed.spans = spans ts)
    (hsp : lexed.Spaced 0 (Text.bytes text)) :
    Placed lexed.spans ⟨attachAll lexed.spans (lexed.comments.map (Comment.locate table source))
        ((programOf text ns).locate table source), lexed.comments.map (Comment.locate table source)⟩ := by
  have hra : (lexed.comments.map (Comment.locate table source)).filterMap (·.range) =
      lexed.commentRanges := by
    rw [filterMap_map]
    rfl
  have ho : InOrder (spans ts) := hspa ▸ hsp.spans
  have hw : ∀ s ∈ spans ts, s.stop ≤ Text.bytes text :=
    fun s hs => (hsp.within s (mem_append_left _ (hspa ▸ hs))).2
  have hl := Node.relabels_locate table source
  have hb := Node.relabels_mapComments fun _ => []
  generalize hr₀ : (programOf text ns).locate table source = root₀
  generalize hcs : lexed.comments.map (Comment.locate table source) = cs at hra
  have hsa : (attachAll lexed.spans cs root₀).mapComments (fun _ => []) =
      root₀.mapComments fun _ => [] := mapComments_foldl_attach
  generalize hr : attachAll lexed.spans cs root₀ = root at hsa
  have hran : root.range = some ⟨0, Text.bytes text⟩ := by
    rw [← hb.range root, hsa, hb.range, ← hr₀, hl.range]
    rfl
  have hh : host? root₀.places.tail lexed.spans = host? root.places.tail lexed.spans := by
    rw [← hb.host?_eq root, hsa, hb.host?_eq root₀]
  -- the nodes have no comments but those that are attached
  have how : ∀ p n, root.at? p = some n →
      n.leading = cs.filter (leads root.places.tail lexed.spans p) ∧
        n.trailing = cs.filter (trails root.places.tail lexed.spans p) := by
    intro p n hn
    rw [← hr] at hn
    obtain ⟨n₀, hn₀, hle, ht⟩ := foldl_attach_at? hn
    rw [← hr₀, hl.at?] at hn₀
    obtain ⟨m, hm, rfl⟩ := Option.map_eq_some_iff.1 hn₀
    obtain ⟨hm₁, hm₂⟩ := (Node.Every.at? hsi.bare hm).self
    rw [hle, ht, Node.leading_locate, Node.trailing_locate, hm₁, hm₂]
    unfold leads trails
    rw [hh]
    exact ⟨rfl, rfl⟩
  refine ⟨hsp.spans, ?_, ?_, ?_, ?_, ?_, ⟨_, hran, ?_⟩, ?_, ?_, fun p n hn => (how p n hn).1,
    fun p n hn => (how p n hn).2⟩
  · rw [hra]
    exact hsp.comments
  · rw [← hcs, forall_mem_map]
    exact hsp.ranged
  · rw [hra]
    exact hsp.apart
  · rw [← hb.kind root, hsa, hb.kind, ← hr₀, hl.kind]
    rfl
  · have hp := hb.props root
    rw [hsa, hb.props, ← hr₀, hl.props] at hp
    obtain ⟨⟨key, field⟩, he, heq⟩ := map_eq_singleton_iff.1 hp.symm
    obtain ⟨rfl, hf⟩ := Prod.mk.inj heq
    cases field with
    | nodes list => exact ⟨list, he⟩
    | node m => cases hf
    | data j => cases hf
  · rw [hra]
    intro i hi
    exact Span.contains_iff.2 ⟨Nat.zero_le _, (hsp.within i hi).2⟩
  · rw [← hb.nested_iff root, hsa, hb.nested_iff, ← hr₀, hl.nested_iff]
    exact hsi.nested ho hw
  · rw [← hb.forall_kids_iff root, hsa, hb.forall_kids_iff, ← hr₀, hl.forall_kids_iff, hspa]
    exact fun k hk => hsi.situated ho k.2 (snd_mem_of_kids hk)

theorem Lexed.spans_eq {e : Token} (hto : lexed.tokens = ts ++ [e]) (he : e.isEnd = true)
    (hts : ∀ t ∈ ts, t.isEnd = false) : lexed.spans = Script.spans ts := by
  have hf : ts.filter (!·.isEnd) = ts := filter_eq_self.2 fun t ht => by simp [hts t ht]
  rw [Lexed.spans, hto, filter_append, hf]
  simp [he, Script.spans]

/-- The tree of a script, with the tokens it was read from, none of which
is outside of the statements. -/
theorem parse_placed (h : parse text source = .ok t) :
    ∃ lexed, lex text = .ok lexed ∧
      t.comments = lexed.comments.map (Comment.locate (LineTable.ofText text) source) ∧
      Placed lexed.spans t ∧ ∀ s ∈ lexed.spans, ∃ i ∈ t.root.childRanges, i.contains s = true := by
  unfold parse parseWith at h
  obtain ⟨lexed, hl, h⟩ := bind_ok_iff.1 h
  obtain ⟨ns, hns, h⟩ := bind_ok_iff.1 h
  cases h
  obtain ⟨ts, e, hto, he, hts, hd⟩ := statements_sound (lex_formed hl) hns
  have hs := Lexed.spans_eq hto he hts
  have ht : Tiles ts ns := hd.lies
  refine ⟨lexed, hl, rfl, placed_attachAll ht.sits hs (lex_spaced hl), ?_⟩
  have hc := @Tiles.covers text _ _ ht (hs ▸ (lex_spaced hl).spans)
  rw [← hs] at hc
  rwa [childRanges_attachAll]

theorem parseExpression_placed (h : parseExpression text source = .ok t) :
    ∃ lexed, lex text = .ok lexed ∧
      t.comments = lexed.comments.map (Comment.locate (LineTable.ofText text) source) ∧
      Placed lexed.spans t := by
  unfold parseExpression parseWith at h
  obtain ⟨lexed, hl, h⟩ := bind_ok_iff.1 h
  obtain ⟨ns, hns, h⟩ := bind_ok_iff.1 h
  cases h
  obtain ⟨n, hn, rfl⟩ := map_eq_ok_iff.1 hns
  obtain ⟨ts, e, ht, he, hts, hd⟩ := soleExpression_sound (lex_formed hl) hn
  exact ⟨lexed, hl, rfl, placed_attachAll hd.lies (Lexed.spans_eq ht he hts) (lex_spaced hl)⟩

end Script

end Inlay
