/-
The order of included files.

Before an item of a body the files come in the order in which the directives
are written. Behind an item they do so only as far as the nodes that the
directives trail are nested. For nodes that stand one behind the other the
order is reversed: each time the files go right behind the item.
-/
import Inlay.Proofs.Inclusion.Contents
import Inlay.Proofs.Script.Succession

namespace Inlay

open List Node

namespace Inclusion

open Script Placed

/-- A directive is written before another one. -/
def Precedes (d d' : Directive) : Prop :=
  ∃ r r', d.range = some r ∧ d'.range = some r' ∧ r.stop ≤ r'.start

/-- How two directives behind an item follow one another, each with the
node that it trails: if the second node has the first one in it, the first
directive is written first; if the second node stands before the first
one, it is written last. -/
def Backs (x y : Node × Directive) : Prop :=
  ∃ r r', x.1.range = some r ∧ y.1.range = some r' ∧
    (r'.contains r = true ∧ Precedes x.2 y.2 ∨ r'.stop ≤ r.start ∧ Precedes y.2 x.2)

namespace Weft

variable (w : Weft) (n : Node)

/-- The directives whose files go before an item. -/
def ahead : List Directive := n.surface.flatMap w.preceding

/-- The directives whose files go behind an item, each with the node that
it trails. -/
def behind : List (Node × Directive) :=
  n.surface.reverse.flatMap fun m => (w.following m).map (m, ·)

theorem spread_eq : w.spread n =
    (w.ahead n).flatMap w.content ++ w.weave n :: (w.behind n).flatMap fun x => w.content x.2 := by
  rw [spread, front, back, ahead, behind, flatMap_assoc, flatMap_assoc]
  simp only [flatMap_map]

end Weft

section Lists

variable {w : Weft} {host : Option String} {ds : List Directive} {n m : Node}

/-- A node with a body is not atomic. -/
theorem Native.isAtomic_of_body {list : List Node} (hn : Native w host ds n)
    (hb : n.children? "body" = some list) : n.kind.isAtomic = false := by
  have hc :=
    (Kind.isContainer_of_listKey (hn.shaped.lists "body" (by simp) list hb) (.inr rfl)).2
  unfold Kind.isContainer at hc
  split at hc
  · next hk => simp [hk, Kind.isAtomic]
  · next hk => simp [hk, Kind.isAtomic]
  · cases hc

theorem Native.replacing_of_body {list : List Node} (hn : Native w host ds n)
    (hb : n.children? "body" = some list) : w.replacing n = [] := by
  have hl : Directive.ofLiteral? w.marker n = none := by
    by_contra hne
    obtain ⟨d, hd⟩ := Option.ne_none_iff_exists'.1 hne
    have hk := hn.shaped.lists "body" (by simp) list hb
    rw [Directive.kind_of_ofLiteral? hd] at hk
    cases hk
  rw [Weft.replacing_of_none hl, hn.isAtomic_of_body hb, if_neg Bool.false_ne_true]

theorem Native.weave_mem (hn : n.Every (Native w host ds)) (hm : m ∈ n.preorder) :
    w.weave m ∈ (w.weave n).preorder := by
  induction n using induction_kids with
  | h n ih =>
    rw [preorder_eq, mem_cons, mem_flatMap] at hm
    obtain rfl | ⟨k, hk, hm⟩ := hm
    · exact mem_preorder_self _
    · have hme := ih k hk ((every_iff.1 hn).2 k hk) hm
      cases hb : n.children? "body" with
      | some list =>
        have hni := hn.self.replacing_of_body hb
        have hs : Occurs (w.weave m) (w.spread k.2) := ⟨_, by simp [Weft.spread], hme⟩
        exact (hn.self.occurs_item hb hk hs).of_kids (hn.self.kids_weave hb hni)
      | none =>
        have hni : w.replacing n = [] := by
          by_contra hne
          rw [hn.self.kids_eq_nil hne] at hk
          cases hk
        have hki := Weft.kids_weave_of_loose (w := w) hn.self.shaped.keys hb hni
        exact mem_preorder_of_kid (hki ▸ mem_map_of_mem hk) hme

theorem Native.mem_preorder_of_mem {list : List Node} (hn : Native w host ds n)
    (hl : n.children? "body" = some list) (hm : m ∈ list) : m ∈ n.preorder :=
  (Occurs.of_mem hm).of_kids (hn.kids_eq_items (by simp) hl)

end Lists

section Files

variable {lib : Library} {depth : Nat} {c : Context} {tech : Tech} {text : String}
  {source : Option String} {t t' : Tree} {o : Node} {list : List Node}

theorem map_eraseAll_content (lib : Library) (depth : Nat) (c : Context) (t : Tree)
    (ds : List Directive) :
    (ds.flatMap (weftOf lib depth c t).content).map
        (·.eraseAll ((weftOf lib depth c t).spent t.root)) =
      ds.flatMap (weftOf lib depth c t).content := by
  refine (map_congr_left fun a ha => ?_).trans (map_id _)
  obtain ⟨d, hd, ha⟩ := mem_flatMap.1 ha
  exact (clean_of_mem_content (brings_below lib depth c) ha).eraseAll_eq fun com hc => isIn_of_mem_spent (w := weftOf lib depth c t) hc

theorem resolve_list (ht : tech.parse text source = .ok t) (hf : Fresh lib c t)
    (h : resolve lib depth c t = .ok t') (ho : o ∈ t.root.preorder)
    (hl : o.children? "body" = some list) :
    ∃ o' ∈ t'.root.preorder, o'.kind = o.kind ∧ o'.range = o.range ∧ o'.children? "body" = some
        ((list.flatMap fun s =>
            ((weftOf lib depth c t).ahead s).flatMap (weftOf lib depth c t).content ++
              ((weftOf lib depth c t).weave s).eraseAll ((weftOf lib depth c t).spent t.root) ::
              ((weftOf lib depth c t).behind s).flatMap fun x => (weftOf lib depth c t).content x.2) ++
          ((weftOf lib depth c t).filling o).flatMap (weftOf lib depth c t).content) := by
  obtain ⟨hr, -, -⟩ := resolve_weaves ht hf h
  have hn : t.root.Every (Native (weftOf lib depth c t) t.root.source?
      (directives lib.marker t)) := native_of_parse ht
  have hse := hn o ho
  have hw := Weft.weave_of_body hse.shaped.keys hl (hse.sole "body" (by simp) list hl)
    (hse.replacing_of_body hl)
  have hm := Native.weave_mem hn ho
  refine ⟨((weftOf lib depth c t).weave o).eraseAll ((weftOf lib depth c t).spent t.root), ?_, ?_, ?_, ?_⟩
  · rw [hr, preorder_mapComments]
    exact mem_map_of_mem hm
  · rw [kind_mapComments, hw]
    rfl
  · rw [range_mapComments, hw]
    rfl
  · rw [children?_mapComments, hw, children?_modifyList, hl, Option.map_some,
      Option.map_some, map_append, map_flatMap]
    rw [map_eraseAll_content]
    congr 2
    refine flatMap_congr fun s _ => ?_
    have hb := map_eraseAll_content lib depth c t (((weftOf lib depth c t).behind s).map (·.2))
    rw [flatMap_map] at hb
    rw [Weft.spread_eq, map_append, map_cons, map_eraseAll_content, hb]

end Files

section Orders

variable {w : Weft} {all : List Span} {t : Tree} {marker : String} {cs : List Comment}
   (h : Placed all t)

include h

theorem pairwise_ofComments (hcs : cs.Sublist t.comments) :
    (Directive.ofComments marker cs).Pairwise Precedes := by
  refine pairwise_filterMap.2 ?_
  have hp := (pairwise_filterMap.1 h.comments.pairwise).sublist hcs
  refine hp.imp_of_mem fun {c c'} hc hc' hle d hd d' hd' => ?_
  obtain ⟨r, hr⟩ := Option.isSome_iff_exists.1 (h.ranged c (hcs.subset hc))
  obtain ⟨r', hr'⟩ := Option.isSome_iff_exists.1 (h.ranged c' (hcs.subset hc'))
  exact ⟨r, r', (Directive.range_of_ofComment? hd).trans hr,
    (Directive.range_of_ofComment? hd').trans hr', hle r hr r' hr'⟩

theorem pairwise_places :
    t.root.places.Pairwise fun x y => x.1 ≠ y.1 ∧ ∀ r r', x.2.range = some r → y.2.range = some r' →
      r.contains r' = true ∨ r.stop ≤ r'.start := by
  have hn := pairwise_preorder h.every_nested
  rw [← map_snd_places] at hn
  exact (pairwise_map.1 (nodup_places h.keyed)).and (pairwise_map.1 hn)

omit h in
theorem exists_of_mem_filter {q : Comment → Bool} {host : Host} {d : Directive}
    (hcs : cs = t.comments.filter q)
    (hq : ∀ {c}, q c = true ↔ c.range.bind (host? t.root.places.tail all) = some host)
    (hd : d ∈ Directive.ofComments marker cs) :
    ∃ c ∈ t.comments, d.range = c.range ∧
      c.range.bind (host? t.root.places.tail all) = some host := by
  obtain ⟨c, hc, hcd⟩ := mem_filterMap.1 hd
  rw [hcs] at hc
  obtain ⟨hc, hh⟩ := mem_filter.1 hc
  exact ⟨c, hc, Directive.range_of_ofComment? hcd, hq.1 hh⟩

/-- Directives that lead nodes come in the order of the walk. -/
theorem pairwise_preceding : (t.root.preorder.flatMap w.preceding).Pairwise Precedes := by
  have hat (x : Path × Node) (hx : x ∈ t.root.places) : t.root.at? x.1 = some x.2 :=
    (mem_places_iff h.keyed).1 hx
  rw [← map_snd_places, flatMap_map, pairwise_flatMap]
  constructor
  · intro x hx
    refine (pairwise_ofComments h ?_).sublist (Weft.preceding_sublist w x.2)
    rw [h.leading x.1 x.2 (hat x hx)]
    exact filter_sublist
  · refine (pairwise_places h).imp_of_mem fun {x y} hx hy ⟨hne, hra⟩ d hd d' hd' => ?_
    obtain ⟨c, hc, hdc, hl⟩ := exists_of_mem_filter (h.leading _ _ (hat x hx)) leads_iff
      ((Weft.preceding_sublist w _).subset hd)
    obtain ⟨c', hc', hdc', hl'⟩ := exists_of_mem_filter (h.leading _ _ (hat y hy)) leads_iff
      ((Weft.preceding_sublist w _).subset hd')
    rw [Precedes, hdc, hdc']
    refine h.before_of_leads (hat x hx) (hat y hy) hne hc hc' hl hl' fun r r' hr hw hr' => ?_
    obtain hco | hb := hra r r' hr hr'
    · exact (Span.contains_iff.1 hco).1
    · omega

theorem pairwise_following : (t.root.preorder.reverse.flatMap fun m =>
    (w.following m).map (m, ·)).Pairwise Backs := by
  have hat (x : Path × Node) (hx : x ∈ t.root.places) : t.root.at? x.1 = some x.2 :=
    (mem_places_iff h.keyed).1 hx
  rw [← map_snd_places, ← map_reverse, flatMap_map, pairwise_flatMap]
  constructor
  · intro x hx
    have hx := hat x (mem_reverse.1 hx)
    have htr : x.2.trailing.Sublist t.comments := by
      rw [h.trailing x.1 x.2 hx]
      exact filter_sublist
    have hp := (pairwise_ofComments h htr).sublist (Weft.following_sublist w x.2)
    refine pairwise_map.2 (hp.imp_of_mem fun {d d'} hd _ hpr => ?_)
    obtain ⟨c, -, -, ht⟩ := exists_of_mem_filter (h.trailing _ _ hx) trails_iff
      ((Weft.following_sublist w _).subset hd)
    obtain ⟨-, r, -, hr, -⟩ := h.stop_of_trails hx ht
    exact ⟨r, r, hr, hr, .inl ⟨Span.contains_iff.2 ⟨Nat.le_refl _, Nat.le_refl _⟩, hpr⟩⟩
  · rw [pairwise_reverse]
    refine (pairwise_places h).imp_of_mem fun {x y} hx hy ⟨hne, hra⟩ z' hz' z hz => ?_
    obtain ⟨d, hd, rfl⟩ := mem_map.1 hz
    obtain ⟨d', hd', rfl⟩ := mem_map.1 hz'
    obtain ⟨c, hc, hdc, ht⟩ := exists_of_mem_filter (h.trailing _ _ (hat x hx)) trails_iff
      ((Weft.following_sublist w _).subset hd)
    obtain ⟨c', hc', hdc', ht'⟩ := exists_of_mem_filter (h.trailing _ _ (hat y hy)) trails_iff
      ((Weft.following_sublist w _).subset hd')
    obtain ⟨-, r, -, hr, -⟩ := h.stop_of_trails (hat x hx) ht
    obtain ⟨-, r', -, hr', hw, -⟩ := h.stop_of_trails (hat y hy) ht'
    refine ⟨r', r, hr', hr, ?_⟩
    rw [Precedes, Precedes, hdc, hdc']
    refine (hra r r' hr hr').imp (fun hco => ⟨hco, ?_⟩) fun hb => ⟨hb, ?_⟩
    · refine h.before_of_trails (hat y hy) (hat x hx) hne.symm hc' hc ht' ht ?_
      intro i' i hi' hi _
      obtain rfl := Option.some.inj (hr.symm.trans hi)
      obtain rfl := Option.some.inj (hr'.symm.trans hi')
      exact (Span.contains_iff.1 hco).2
    · refine h.before_of_trails (hat x hx) (hat y hy) hne hc hc' ht ht' ?_
      intro i i' hi hi' _
      obtain rfl := Option.some.inj (hr.symm.trans hi)
      obtain rfl := Option.some.inj (hr'.symm.trans hi')
      omega

end Orders

end Inclusion

open Inclusion

/-- In every body of a resolved script each item has the files around it
that are included from its nodes. Those before it come in the order in
which their directives are written. Those behind it do so if their
directives trail nodes of which one is in the other, and come in reverse
if the nodes stand one behind the other. -/
theorem resolve_orders {lib : Library} {depth : Nat} {c : Context} {text : String}
    {source : Option String} {t t' : Tree} (ht : Tech.js.parse text source = .ok t)
    (hfresh : Fresh lib c t) (h : resolve lib depth c t = .ok t') {o : Node} {list : List Node}
    (ho : o ∈ t.root.preorder) (hlist : o.children? "body" = some list) :
    (∃ o' ∈ t'.root.preorder, o'.kind = o.kind ∧ o'.range = o.range ∧
      o'.children? "body" = some
        ((list.flatMap fun s =>
            ((weftOf lib depth c t).ahead s).flatMap (weftOf lib depth c t).content ++
              ((weftOf lib depth c t).weave s).eraseAll ((weftOf lib depth c t).spent t.root) ::
              ((weftOf lib depth c t).behind s).flatMap fun x => (weftOf lib depth c t).content x.2) ++
          ((weftOf lib depth c t).filling o).flatMap (weftOf lib depth c t).content)) ∧
      ∀ s ∈ list, ((weftOf lib depth c t).ahead s).Pairwise Precedes ∧
        ((weftOf lib depth c t).behind s).Pairwise Backs := by
  refine ⟨resolve_list ht hfresh h ho hlist, fun s hs => ?_⟩
  obtain ⟨_, -, -, hplaced, -⟩ := Script.parse_placed (mapError_eq_ok_iff.1 ht)
  have hnative : Native (weftOf lib depth c t) t.root.source? (directives lib.marker t) o :=
    native_of_parse ht o ho
  have hmem := mem_preorder_trans (hnative.mem_preorder_of_mem hlist hs) ho
  have hsub := s.surface_sublist.trans (preorder_sublist hmem)
  exact ⟨(pairwise_preceding hplaced).sublist (hsub.flatMap _),
    (pairwise_following hplaced).sublist (hsub.reverse.flatMap _)⟩

/-- A call with a directive behind each argument. -/
def Script.arguments : String := "a(b /*borschik:include:x.js*/, c /*borschik:include:y.js*/);"

def Library.pair : Library := .ofFiles [("/x.js", "x;"), ("/y.js", "y;")]

theorem resolve_orders_arguments :
    ∃ t t' list, Tech.js.parse Script.arguments none = .ok t ∧ Fresh .pair (.start none none) t ∧
      resolve .pair 1 (.start none none) t = .ok t' ∧ t.root.children? "body" = some list ∧
      ∃ s ∈ list, ((weftOf .pair 1 (.start none none) t).behind s).length = 2 ∧
        ((weftOf .pair 1 (.start none none) t).ahead s).Pairwise Precedes ∧
        ((weftOf .pair 1 (.start none none) t).behind s).Pairwise Backs := by
  have hok : ((Tech.js.parse Script.arguments none).toOption.bind fun t =>
      (resolve .pair 1 (.start none none) t).toOption.bind fun _ =>
        (t.root.children? "body").map fun list => list.map fun s =>
          ((weftOf .pair 1 (.start none none) t).behind s).length) = some [2] := by
    decide +kernel
  obtain ⟨t, ht, hok⟩ := Option.bind_eq_some_iff.1 hok
  obtain ⟨t', h, hok⟩ := Option.bind_eq_some_iff.1 hok
  obtain ⟨list, hlist, hlength⟩ := Option.map_eq_some_iff.1 hok
  replace ht := eq_ok_of_toOption ht
  obtain ⟨s, hs, htwo⟩ : ∃ s ∈ list, ((weftOf .pair 1 (.start none none) t).behind s).length = 2 :=
    mem_map.1 (hlength ▸ .head _)
  have hfresh : Fresh .pair (.start none none) t := fresh_of_unnamed ht
  obtain ⟨-, horders⟩ := resolve_orders ht hfresh (eq_ok_of_toOption h) t.root.mem_preorder_self hlist
  exact ⟨t, t', list, ht, hfresh, eq_ok_of_toOption h, hlist, s, hs, htwo, horders s hs⟩

/-- The files of two directives behind the arguments of a call come in
reverse. -/
theorem resolve_reverses :
    ∃ t t', Tech.js.parse Script.arguments none = .ok t ∧
      resolve .pair 1 (.start none none) t = .ok t' ∧
      (Directive.ofComments Library.pair.marker t.comments).map (·.path) = ["x.js", "y.js"] ∧
      t'.body.map (·.source?) = [none, some "y.js", some "x.js"] := by
  have hok : ((Tech.js.parse Script.arguments none).toOption.bind fun t =>
      (resolve .pair 1 (.start none none) t).toOption.map fun t' =>
        ((Directive.ofComments Library.pair.marker t.comments).map (·.path),
          t'.body.map (·.source?))) =
      some (["x.js", "y.js"], [none, some "y.js", some "x.js"]) := by
    decide +kernel
  obtain ⟨t, ht, hok⟩ := Option.bind_eq_some_iff.1 hok
  obtain ⟨t', h, hok⟩ := Option.map_eq_some_iff.1 hok
  obtain ⟨hpaths, hsources⟩ := Prod.mk.inj hok
  exact ⟨t, t', eq_ok_of_toOption ht, eq_ok_of_toOption h, hpaths, hsources⟩

end Inlay
