/-
Inclusion, turn by turn.

All that inclusion does to a tree is turns: batches of directives of the
node that is being visited (`Turn`). So whatever each turn keeps up, a
whole run keeps up (`resolveWith_turns`). A directive that was taken has
its comment gone from the store, and in the end it is gone still (`Gone`).

The files that are included, directly or through other files, are those a
tree reaches (`Reaches`). They are among those that its directives mention
(`Mentions`), some of which may never be taken.
-/
import Inlay.Proofs.Inclusion.Consumption
import Inlay.Proofs.Tree.Sleeves

namespace Inlay

open Walk (Tours Visitor Visit)

-- == shapes

theorem shaped_own_iff {n : Node} : Shaped n.own ↔ Shaped n := by
  have hk : n.own.keys = n.keys := by simp [Node.keys, Node.own]
  constructor
  · intro hn
    refine ⟨hk ▸ hn.keys, fun key hke list hl => hn.lists key hke [] ?_⟩
    rw [Node.children?_own, hl]
    rfl
  · intro hn
    refine ⟨hk ▸ hn.keys, fun key hke list hl => ?_⟩
    rw [Node.children?_own] at hl
    obtain ⟨list', hl', -⟩ := Option.map_eq_some_iff.1 hl
    exact hn.lists key hke list' hl'

theorem Shaped.of_own {n n' : Node} (hn : Shaped n) (heq : n'.own = n.own) : Shaped n' := by
  rw [← shaped_own_iff, heq, shaped_own_iff]
  exact hn

-- == tours

namespace Walk

variable {σ ε : Type} {v : Visitor σ ε}

/-- What is kept up at every node is kept up by a tour. -/
theorem Tours.invariant {J : Tree → Prop} (hk : ∀ t, J t → t.root.Keyed)
    (hle : ∀ visit, v.leave visit = .ok visit)
    (he : ∀ n visit visit', visit.tree.root.at? visit.path = some n →
      v.enter visit = .ok visit' → J visit.tree → J visit'.tree)
    {c : Cursor} {visit last : Visit σ} (h : Tours v c visit last) (hJ : J visit.tree) :
    J last.tree := by
  induction h with
  | done => exact hJ
  | next hn hen hb hl hr ihbelow ihrest =>
    rw [hle] at hl
    cases hl
    obtain ⟨n, m, -, -, hm, -⟩ := exists_next (hk _ hJ) hn
    exact ihrest (ihbelow (he m _ _ hm hen hJ))

end Walk

namespace Inclusion

section Turns

variable (R : Round)

/-- A node that gives way to another one: a literal that is a directive,
or an empty object or array. -/
def Yields (marker : String) (n : Node) : Prop :=
  (Directive.ofLiteral? marker n).isSome = true ∨
    n.kind.isAtomic = true ∧ ∃ key ∈ lendableKeys, n.children? key = some []

/-- What a node has to be like for a placement. -/
def Calls (marker : String) (n : Node) : Placement → Prop
  | .replace => Yields marker n
  | .into key => key ∈ lendableKeys
  | .before key | .after key => key = "body"

/-- The comment of a directive is not in the store. -/
def Gone (store : List Comment) (d : Directive) : Prop :=
  ∀ com, d.comment = some com → com ∉ store

theorem Gone.mono {store store' : List Comment} {d : Directive} (h : Gone store d)
    (hs : store' ⊆ store) : Gone store' d := fun com hc hm => h com hc (hs hm)

/-- A turn: a batch of directives of the current node. -/
structure Turn (p : Placement) (ds : List Directive) (n : Node) (v v' : Visit) : Prop where
  here : v.tree.root.at? v.path = some n
  batch : Batch R p ds v v'
  subset : ds ⊆ directives R.marker v.tree
  calls : ds ≠ [] → Calls R.marker n p

variable {R} {v v' : Visit} {n : Node} {p : Placement} {ds : List Directive}

theorem Batch.comments_eq (h : Batch R p ds v v') :
    v'.tree.comments = v.tree.comments.diff (ds.filterMap (·.comment)) := by
  cases h <;> rfl

theorem Batch.comments_subset (h : Batch R p ds v v') : v'.tree.comments ⊆ v.tree.comments :=
  h.comments_eq ▸ List.diff_subset _ _

theorem Batch.nodup (h : Batch R p ds v v') (hv : v.tree.comments.Nodup) :
    v'.tree.comments.Nodup := h.comments_eq ▸ hv.diff

theorem Batch.gone (h : Batch R p ds v v') (hv : v.tree.comments.Nodup) :
    ∀ d ∈ ds, Gone v'.tree.comments d := by
  intro d hd com hc hm
  rw [h.comments_eq, hv.mem_sdiff_iff] at hm
  exact hm.2 (List.mem_filterMap.2 ⟨d, hd, hc⟩)

theorem ofComments_within_subset (marker : String) (range : Span) (t : Tree) :
    Directive.within marker range t.comments ⊆ directives marker t := by
  have hs := (List.filter_sublist (p := fun c => c.range.any range.contains)
    (l := t.comments)).filterMap (Directive.ofComment? marker)
  exact List.subset_append_of_subset_right _ hs.subset

theorem Quotes.turn (h : Quotes R v v') : ∃ p ds n, Turn R p ds n v v' := by
  obtain ⟨n, hn, hb⟩ := h
  refine ⟨_, _, n, hn, hb, ?_, fun hne => .inl ?_⟩
  · refine List.Subset.trans ?_ (ownDirectives_subset hn)
    exact List.subset_append_of_subset_left _ (List.subset_append_left _ _)
  · exact Option.isSome_iff_ne_none.2 fun hno => hne (by rw [hno]; rfl)

theorem Leads.turn (h : Leads R v v') : ∃ p ds n, Turn R p ds n v v' := by
  obtain ⟨n, hn, hb⟩ := h
  refine ⟨_, _, n, hn, hb, ?_, fun _ => rfl⟩
  refine List.Subset.trans ?_ (ownDirectives_subset hn)
  exact List.subset_append_of_subset_left _ (List.subset_append_right _ _)

theorem Trails.turn (h : Trails R v v') : ∃ p ds n, Turn R p ds n v v' := by
  obtain ⟨n, hn, hb⟩ := h
  refine ⟨_, _, n, hn, hb, ?_, fun _ => rfl⟩
  refine List.Subset.trans ?_ (ownDirectives_subset hn)
  exact List.Subset.trans (List.reverse_subset.2 (.refl _)) (List.subset_append_right _ _)

/-- What each turn keeps up is kept up while empty lists are filled. -/
theorem Fills.preserves {host : Option String} {keys : List String} {J : Visit → Prop}
    (hJ : ∀ p ds n v v', Turn R p ds n v v' → J v → J v')
    (h : Fills R host keys v v') (hk : keys ⊆ lendableKeys) (hv : J v) : J v' := by
  induction h with
  | nil => exact hv
  | skip _ _ ih => exact ih (List.cons_subset.1 hk).2 hv
  | @fill key keys v v₁ v' n range hn hr hs hl hb _ ih =>
    obtain ⟨hke, hk⟩ := List.cons_subset.1 hk
    refine ih hk (hJ _ _ n v v₁ ⟨hn, hb, ofComments_within_subset .., fun _ => ?_⟩ hv)
    split
    · exact .inr ⟨‹_›, key, hke, hl⟩
    · exact hke

/-- What each turn keeps up is kept up when a node is entered. -/
theorem enter_preserves {J : Visit → Prop} (hb : Brings R)
    (hJ : ∀ p ds n v v', Turn R p ds n v v' → J v → J v')
    (hn : v.tree.root.at? v.path = some n) (h : R.enter v = .ok v') (hv : J v) : J v' := by
  obtain ⟨v₁, v₂, v₃, hq, hf, hl, ht⟩ := enter_turns hb.clean hn h
  have turned {v v' : Visit} (h : ∃ p ds n, Turn R p ds n v v') (hv : J v) : J v' := by
    obtain ⟨p, ds, n, htu⟩ := h
    exact hJ p ds n v v' htu hv
  have hv₂ := hf.preserves hJ (.refl _) (turned hq.turn hv)
  exact turned ht.turn (turned hl.turn hv₂)

/-- A run is a tour of the tree. -/
theorem resolveWith_tours {t t' : Tree} (hb : Brings R) (ht : t.root.Keyed) (h : R.run t = .ok t') :
    ∃ visit last, R.enter ⟨directiveCount R.marker t, t, []⟩ = .ok visit ∧
      Tours R.visitor .start visit last ∧ last.tree = t' := by
  obtain ⟨⟨memory, tree⟩, hw, h⟩ := bind_ok_iff.1 h
  cases h
  exact (Walk.walk_sweeps (visitor_sweeps hb) ht (Nat.le_refl _) hw).2.2.2

/-- What each turn keeps up is kept up by a run. The directives of all
turns are those of the tree, and they are gone in the end. -/
theorem resolveWith_turns {J : Tree → Prop} {t t' : Tree} (hb : Brings R)
    (ht : t.root.Keyed) (hno : t.comments.Nodup) (h : R.run t = .ok t')
    (hJ : ∀ p ds n v v', Turn R p ds n v v' →
      (∀ d ∈ ds, d ∈ directives R.marker t ∧ Gone t'.comments d) → J v.tree → J v'.tree)
    (hst : J t) : J t' := by
  -- the end of the run is not known yet: all is claimed of stores that have what it has
  let K (u : Tree) : Prop :=
    u.root.Keyed ∧ u.comments.Nodup ∧ directives R.marker u ⊆ directives R.marker t ∧
      (t'.comments ⊆ u.comments → J u)
  have htu (p ds n v v') (htu : Turn R p ds n v v') (hv : K v.tree) : K v'.tree := by
    obtain ⟨hk, hno, hs, hv⟩ := hv
    refine ⟨htu.batch.keyed hb htu.here hk, htu.batch.nodup hno, ?_, fun hst => ?_⟩
    · exact List.Subset.trans (htu.batch.directives_subset hb htu.here hk) hs
    · have hv := hv (List.Subset.trans hst htu.batch.comments_subset)
      refine hJ p ds n v v' htu (fun d hd => ⟨hs (htu.subset hd), ?_⟩) hv
      exact (htu.batch.gone hno d hd).mono hst
  have hen (n) (v v' : Visit) (hn : v.tree.root.at? v.path = some n)
      (h : R.enter v = .ok v') (hv : K v.tree) : K v'.tree :=
    enter_preserves (J := fun v => K v.tree) hb htu hn h hv
  obtain ⟨visit, last, he, hto, rfl⟩ := resolveWith_tours hb ht h
  have he' := hen t.root _ visit rfl he ⟨ht, hno, .refl _, fun _ => hst⟩
  exact (hto.invariant (fun _ h => h.1) (fun _ => rfl) hen he').2.2.2 (.refl _)

end Turns

section Files

variable {R : Round} {lib : Library} {c : Context} {d : Directive} {ns : List Node} {t : Tree}

/-- A file that a directive names, as it is read. -/
structure Opens (lib : Library) (c : Context) (d : Directive) (tech : Tech) (text : String)
    (u : Tree) : Prop where
  known : techFor lib d = .ok tech
  read : lib.read (c.locate lib.workingDirectory d.path) = .ok text
  parsed : tech.parse text (some d.path) = .ok u

theorem fetch_eq_ok_iff : R.fetch d = .ok ns ↔
    ∃ tech text u u', Opens R.lib R.c d tech text u ∧ R.inner (R.c.descend d.path) u = .ok u' ∧
      ns = u'.body := by
  constructor
  · intro h
    obtain ⟨tech, ht, h⟩ := bind_ok_iff.1 h
    obtain ⟨text, hr, h⟩ := bind_ok_iff.1 h
    obtain ⟨u, hp, h⟩ := bind_ok_iff.1 h
    obtain ⟨u', hi, h⟩ := bind_ok_iff.1 h
    cases h
    exact ⟨tech, text, u, u', ⟨ht, hr, hp⟩, hi, rfl⟩
  · rintro ⟨tech, text, u, u', ⟨ht, hr, hp⟩, hi, rfl⟩
    simp only [fetch, ht, hr, hp, hi, bind, Except.bind]
    rfl

/-- The files that the directives of a tree name, taken or not, directly
or through other files. -/
inductive Mentions (lib : Library) : Context → Tree → Directive → Tech → String → Tree → Prop
  | here {c t d tech text u} (hd : d ∈ directives lib.marker t) (hopens : Opens lib c d tech text u) :
      Mentions lib c t d tech text u
  | through {c t d tech text u d' tech' text' u'} (hd : d ∈ directives lib.marker t)
      (hopens : Opens lib c d tech text u)
      (h : Mentions lib (c.descend d.path) u d' tech' text' u') :
      Mentions lib c t d' tech' text' u'

theorem Mentions.exists_opens {tech : Tech} {text : String} {u : Tree}
    (h : Mentions lib c t d tech text u) : ∃ c', Opens lib c' d tech text u := by
  induction h with
  | here _ ho => exact ⟨_, ho⟩
  | through _ _ _ ih => exact ih

theorem Mentions.parsed {tech : Tech} {text : String} {u : Tree}
    (h : Mentions lib c t d tech text u) : tech.parse text (some d.path) = .ok u :=
  h.exists_opens.elim fun _ ho => ho.parsed

/-- A directive that is taken when a tree is resolved: its comment is gone
from the result. A directive without a comment is a literal, and no
literal is passed over. -/
structure Consumes (lib : Library) (c : Context) (t : Tree) (d : Directive) : Prop where
  mem : d ∈ directives lib.marker t
  gone : ∃ depth t', resolve lib depth c t = .ok t' ∧ Gone t'.comments d

/-- The files that are included when a tree is resolved, directly or
through other files. -/
inductive Reaches (lib : Library) : Context → Tree → Directive → Tech → String → Tree → Prop
  | here {c t d tech text u} (hd : Consumes lib c t d) (hopens : Opens lib c d tech text u) :
      Reaches lib c t d tech text u
  | through {c t d tech text u d' tech' text' u'} (hd : Consumes lib c t d)
      (hopens : Opens lib c d tech text u)
      (h : Reaches lib (c.descend d.path) u d' tech' text' u') :
      Reaches lib c t d' tech' text' u'

theorem Reaches.mentions {tech : Tech} {text : String} {u : Tree}
    (h : Reaches lib c t d tech text u) : Mentions lib c t d tech text u := by
  induction h with
  | here hd ho => exact .here hd.mem ho
  | through hd ho _ ih => exact .through hd.mem ho ih

end Files

end Inclusion

end Inlay
