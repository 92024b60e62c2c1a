/-
Trees with nothing left to include.

A run over a settled tree, which has no directive on a node and none in an
empty list of a node of its own file, leaves it as it is
(`resolveWith_settled`), so it opens no file. What a run makes of a script
is settled: its empty lists were empty before, so the run came past them,
and the nodes of included files come from elsewhere.
-/
import Inlay.Proofs.Inclusion.Survivors

namespace Inlay

open Directive (ofComments isIn within)

namespace Inclusion

open List

section Runs

variable {R : Round} {marker : String} {host : Option String} {store : List Comment} {n : Node} {v : Visit}

/-- A node in which a run finds nothing to include. -/
structure Settled (marker : String) (host : Option String) (store : List Comment) (n : Node) :
    Prop where
  clean : Clean marker n
  hollow : Hollow n → ∀ range, n.range = some range → n.source? = host →
    within marker range store = []

-- == runs

theorem Clean.ofComments_eq (h : Clean marker n) :
    ofComments marker n.leading = [] ∧ ofComments marker n.trailing = [] := by
  constructor <;> refine Directive.ofComments_eq_nil_iff.2 fun com hc => h.comments com ?_
  · exact mem_append_left _ hc
  · exact mem_append_right _ hc

theorem Settled.inEmptyList_eq {key : String} {p : Placement} {ds : List Directive}
    (h : Settled R.marker host v.tree.comments n) (hn : v.tree.root.at? v.path = some n)
    (hk : key ∈ lendableKeys) (hl : inEmptyList R.lib host v key = some (p, ds)) : ds = [] := by
  obtain ⟨m, range, hm, hr, hs, he, -, rfl⟩ := inEmptyList_eq_some_iff.1 hl
  obtain rfl : n = m := Option.some.inj (hn.symm.trans hm)
  exact h.hollow ⟨key, hk, he⟩ range hr hs

theorem Settled.fill_eq (h : Settled R.marker v.tree.root.source? v.tree.comments n)
    (hn : v.tree.root.at? v.path = some n) {keys : List String} (hk : keys ⊆ lendableKeys) :
    keys.foldlM (fun v' key =>
      match inEmptyList R.lib v.tree.root.source? v' key with
      | some (p, ds) => ds.foldlM (R.insert p) v'
      | none => .ok v') v = Except.ok v := by
  induction keys with
  | nil => rfl
  | cons key keys ih =>
    rw [foldlM_cons]
    cases hli : inEmptyList R.lib v.tree.root.source? v key with
    | none => exact ih fun _ hke => hk (.tail _ hke)
    | some filling =>
      obtain ⟨p, ds⟩ := filling
      obtain rfl := h.inEmptyList_eq hn (hk (.head _)) hli
      exact ih fun _ hke => hk (.tail _ hke)

theorem Settled.enter_eq (h : Settled R.marker v.tree.root.source? v.tree.comments n)
    (hn : v.tree.root.at? v.path = some n) : R.enter v = .ok v := by
  obtain ⟨hl, ht⟩ := h.clean.ofComments_eq
  unfold Round.enter enter
  simp only [hn, Option.bind_some, h.clean.literal, Option.toList_none, foldlM_nil, pure_bind]
  refine bind_ok_iff.2 ⟨v, h.fill_eq hn fun _ hke => hke, ?_⟩
  simp only [hn, Option.elim_some, hl, ht, foldlM_nil, reverse_nil, pure_bind]
  rfl

theorem resolveWith_settled {t : Tree} (hk : t.root.Keyed)
    (h : t.root.Every (Settled R.marker t.root.source? t.comments)) : R.run t = .ok t := by
  have hw : t.walk R.visitor (directiveCount R.marker t) = .ok (directiveCount R.marker t, t) := by
    refine Walk.walk_idle hk (fun path n hn => ?_) fun visit => rfl
    exact Settled.enter_eq (h n (Node.mem_preorder_of_at? hn)) hn
  rw [Round.run, resolveWith, hw]
  rfl

end Runs

section Results

variable {lib : Library} {depth : Nat} {c : Context} {tech : Tech} {text : String}
  {source : Option String} {t t' : Tree} {O : Node → Prop} {marker : String} {h r n : Node}

/-- A list that is empty in the end was empty before. -/
theorem hollow_of_kept {grows : Bool} (hh : Hollow r)
    (hp : KeptProps O marker grows h.props r.props) : Hollow h := by
  obtain ⟨key, hk, hl⟩ := hh
  obtain ⟨v, hv, hf, -⟩ := hp.exists_lookup (Node.children?_eq_some_iff.1 hl)
  cases hf with
  | nodes hn =>
    obtain rfl := hn.eq_nil
    exact ⟨key, hk, Node.children?_eq_some_iff.2 hv⟩

/-- The directives in an empty list of a file are gone from the store when
the file is resolved. -/
theorem within_eq_nil {range : Span} (ht : tech.parse text source = .ok t) (hf : Fresh lib c t)
    (h : resolve lib depth c t = .ok t') (hn : n ∈ t.root.preorder) (hh : Hollow n)
    (hr : n.range = some range) : within lib.marker range t'.comments = [] := by
  obtain ⟨-, hc, -⟩ := resolve_weaves ht hf h
  refine Directive.ofComments_eq_nil_iff.2 fun com hco => ?_
  obtain ⟨hco, hi⟩ := mem_filter.1 hco
  rw [hc, (Tech.nodup_of_parse ht).mem_sdiff_iff] at hco
  obtain ⟨hs, hl⟩ := hco
  by_contra hdi
  obtain ⟨d, hd⟩ := Option.ne_none_iff_exists'.1 hdi
  have hli : Lies lib.marker t.comments n d :=
    ⟨hh, range, hr, mem_filterMap.2 ⟨com, mem_filter.2 ⟨hs, hi⟩, hd⟩⟩
  have hta : d ∈ (weftOf lib depth c t).taken n :=
    (mem_taken_iff (Tech.shaped_of_parse ht n hn)).2 (.inr (.inl hli))
  exact hl (mem_filterMap.2 ⟨d, mem_flatMap.2 ⟨n, hn, hta⟩, Directive.comment_of_ofComment? hd⟩)

/-- The nodes of all files that are included come from elsewhere. -/
theorem Included.elsewhere {a : Node} (hf : Fresh lib c t) (ha : Included lib c t a) :
    a.Every fun m => m.range = none ∨ m.source? ≠ t.root.source? := by
  obtain ⟨d, tech, text, u, hr, ha⟩ := ha
  exact elsewhere_of_mem_body hr.mentions.parsed (hf d tech text u hr) ha

/-- What a run makes of a file is settled. -/
theorem resolve_settled (ht : tech.parse text source = .ok t) (hf : Fresh lib c t)
    (h : resolve lib depth c t = .ok t') :
    t'.root.Keyed ∧ t'.root.Every (Settled lib.marker t'.root.source? t'.comments) := by
  obtain ⟨hke, hc⟩ := resolve_keyed_clean depth (Tech.keyed_of_parse ht) h
  obtain ⟨-, hk, -⟩ := resolve_conserves_shaped depth (Tech.shaped_of_parse ht)
    (Tech.nodup_of_parse ht) h
  have hro : t'.root.source? = t.root.source? := by
    cases hk with
    | kept hl _ => rw [Node.source?, hl.loc, Node.source?]
    | replaced hy _ _ _ =>
      have hat := hy.isAtomic
      rw [Tech.kind_of_parse ht] at hat
      cases hat
  -- what is said of an empty list depends on the node's place, which is kept, and on its being empty
  have he : t'.root.Every fun n => Hollow n → ∀ range, n.range = some range →
      n.source? = t.root.source? → within lib.marker range t'.comments = [] := by
    refine hk.every (P := fun n => Hollow n → ∀ range, n.range = some range →
      n.source? = t.root.source? → within lib.marker range t'.comments = []) ?_ ?_ ?_
    · intro a ha m hm hho range hr hs
      rcases ha.elsewhere hf m hm with hno | hne
      · rw [hr] at hno
        cases hno
      · exact absurd hs hne
    · intro h r hl hp hh hho range hr hs
      refine hh (hollow_of_kept hho hp) range (hl.range ▸ hr) ?_
      rw [← hs, Node.source?, Node.source?, hl.loc]
    · intro n hn hho range hr _
      exact within_eq_nil ht hf h hn hho hr
  refine ⟨hke, fun n hn => ⟨hc n hn, fun hho range hr hs => ?_⟩⟩
  exact he n hn hho range hr (hs.trans hro)

end Results

end Inclusion

open Inclusion

/-- A script that was resolved stays as it is when it is resolved again,
and no file is read for that: whatever the library reads, whatever techs
it knows, from wherever and however deep it may include files, the
outcome is the same. -/
theorem resolve_idempotent {lib : Library} {depth : Nat} {c : Context} {text : String}
    {source : Option String} {t t' : Tree} (ht : Tech.js.parse text source = .ok t)
    (hfresh : Fresh lib c t) (h : resolve lib depth c t = .ok t') (lib' : Library)
    (hmarker : lib'.marker = lib.marker) (depth' : Nat) (c' : Context) :
    resolve lib' depth' c' t' = .ok t' := by
  obtain ⟨hkeyed, hsettled⟩ := resolve_settled ht hfresh h
  rw [resolve_eq]
  rw [← hmarker] at hsettled
  exact resolveWith_settled (R := round lib' depth' c') hkeyed hsettled

/-- A library whose files cannot be read. -/
def Library.closed (lib : Library) : Library :=
  { lib with read := fun path => .error (.read path "closed") }

theorem resolve_idempotent_passing :
    ∃ t t', Tech.js.parse Script.passing none = .ok t ∧ Fresh .single (.start none none) t ∧
      resolve .single 1 (.start none none) t = .ok t' ∧
      t'.body.map (·.source?) = [none, some "x.js", none] ∧
      t'.comments.any (isIn Library.single.marker) = true ∧
      resolve .single 1 (.start none none) t' = .ok t' ∧
      resolve Library.single.closed 1 (.start none none) t' = .ok t' := by
  have hok : ((Tech.js.parse Script.passing none >>= resolve .single 1 (.start none none)).toOption.map
      fun t' => (t'.body.map (·.source?), t'.comments.any (isIn Library.single.marker))) =
        some ([none, some "x.js", none], true) := by decide +kernel
  obtain ⟨t', h, hshows⟩ := Option.map_eq_some_iff.1 hok
  obtain ⟨hbody, hany⟩ := Prod.mk.inj hshows
  obtain ⟨t, ht, h⟩ := bind_ok_iff.1 (eq_ok_of_toOption h)
  have hfresh : Fresh .single (.start none none) t := fresh_of_unnamed ht
  have hagain := resolve_idempotent ht hfresh h
  exact ⟨t, t', ht, hfresh, h, hbody, hany, hagain .single rfl _ _, hagain Library.single.closed rfl _ _⟩

end Inlay
