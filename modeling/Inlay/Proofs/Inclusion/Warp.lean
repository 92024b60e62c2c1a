/-
The directives of a file.

Each comment of a file belongs to one node at most: the node that takes it,
or the one in whose empty list it stands (`Placed.eq_of_holds`). So a file
that was read is as a run needs it (`Tech.warped_of_parse`).
-/
import Inlay.Proofs.Inclusion.Weaving
import Inlay.Proofs.Script.Hollows

namespace Inlay

open List

/-- A comment stands in an empty list of a node. -/
def Encloses (n : Node) (c : Comment) : Prop :=
  Hollow n ∧ ∃ r rc, n.range = some r ∧ c.range = some rc ∧ r.contains rc = true

namespace Placed

open Script

variable {all : List Span} {t : Tree} {p q : Path} {n m : Node} {c : Comment}

/-- A comment belongs to the node at a path. -/
def Holds (all : List Span) (t : Tree) (p : Path) (n : Node) (c : Comment) : Prop :=
  c.range.bind (host? t.root.places.tail all) = some (.leading p) ∨
    c.range.bind (host? t.root.places.tail all) = some (.trailing p) ∨ Encloses n c

theorem host?_of_encloses (h : Placed all t) (hn : t.root.at? p = some n) (hc : c ∈ t.comments)
    (he : Encloses n c) : c.range.bind (host? t.root.places.tail all) = none := by
  obtain ⟨hh, r, rc, hr, hrc, hin⟩ := he
  rw [hrc, Option.bind_some]
  exact h.host?_of_hollow hn hh hr (mem_filterMap.2 ⟨c, hc, hrc⟩) hin

theorem eq_of_holds (h : Placed all t) (hn : t.root.at? p = some n) (hm : t.root.at? q = some m)
    (hc : c ∈ t.comments) (hp : Holds all t p n c) (hq : Holds all t q m c) : p = q := by
  obtain hp | hp | hp := hp <;> obtain hq | hq | hq := hq
  · cases hp.symm.trans hq
    rfl
  · cases hp.symm.trans hq
  · cases hp.symm.trans (h.host?_of_encloses hm hc hq)
  · cases hp.symm.trans hq
  · cases hp.symm.trans hq
    rfl
  · cases hp.symm.trans (h.host?_of_encloses hm hc hq)
  · cases hq.symm.trans (h.host?_of_encloses hn hc hp)
  · cases hq.symm.trans (h.host?_of_encloses hn hc hp)
  · obtain ⟨hh, r, rc, hr, hrc, hin⟩ := hp
    obtain ⟨hh', r', rc', hr', hrc', hin'⟩ := hq
    obtain rfl := Option.some.inj (hrc.symm.trans hrc')
    exact h.eq_of_hollow hn hm hh hh' hr hr' (mem_filterMap.2 ⟨c, hc, hrc⟩) hin hin'

end Placed

namespace Inclusion

open Script Placed

section Claims

variable {w : Weft} {all : List Span} {t : Tree} {p : Path} {n : Node} {com : Comment}

theorem comments_inside (w : Weft) (n : Node) :
    ((w.inside n).filterMap (·.comment)).Sublist w.store ∧
      ∀ com ∈ (w.inside n).filterMap (·.comment), Encloses n com := by
  by_cases hn : w.inside n = []
  · rw [hn]
    exact ⟨nil_sublist _, nofun⟩
  · obtain ⟨key, hk, range, hl, hr⟩ := Weft.hollow_of_inside hn
    rw [Weft.inside_of_hollow hk hl hr, Directive.within, Directive.filterMap_comment_ofComments]
    refine ⟨filter_sublist.trans filter_sublist, fun com hc => ?_⟩
    have hin := (mem_filter.1 (mem_of_mem_filter hc)).2
    obtain ⟨rc, hrc, hin⟩ := (Option.any_eq_true _ _).1 hin
    exact ⟨⟨key, hk, hl⟩, range, rc, hr, hrc, hin⟩

theorem comments_filter {cs : List Comment} {q : Comment → Bool} {host : Host}
    (hcs : cs = t.comments.filter q)
    (hq : ∀ {c}, q c = true ↔ c.range.bind (host? t.root.places.tail all) = some host)
    (marker : String) :
    ((Directive.ofComments marker cs).filterMap (·.comment)).Sublist t.comments ∧
      ∀ com ∈ (Directive.ofComments marker cs).filterMap (·.comment),
        com.range.bind (host? t.root.places.tail all) = some host := by
  rw [Directive.filterMap_comment_ofComments, hcs]
  refine ⟨filter_sublist.trans filter_sublist, fun com hc => ?_⟩
  exact hq.1 (mem_filter.1 (mem_of_mem_filter hc)).2

variable (h : Placed all t) (hstore : w.store = t.comments) (hn : t.root.at? p = some n)

include h hn hstore

/-- The directives of a node are in comments that belong to it. -/
theorem holds_of_mem_claims (hc : com ∈ (w.claims n).filterMap (·.comment)) :
    com ∈ t.comments ∧ Holds all t p n com := by
  rw [Weft.claims, filterMap_append, filterMap_append, filterMap_reverse,
    mem_append, mem_append, mem_reverse] at hc
  obtain (hc | hc) | hc := hc
  · obtain ⟨hs, he⟩ := comments_inside w n
    exact ⟨hstore ▸ hs.subset hc, .inr (.inr (he com hc))⟩
  · obtain ⟨hs, hh⟩ := comments_filter (h.leading p n hn) leads_iff w.marker
    exact ⟨hs.subset hc, .inl (hh com hc)⟩
  · obtain ⟨hs, hh⟩ := comments_filter (h.trailing p n hn) trails_iff w.marker
    exact ⟨hs.subset hc, .inr (.inl (hh com hc))⟩

theorem nodup_claims : ((w.claims n).filterMap (·.comment)).Nodup := by
  obtain ⟨hi, he⟩ := comments_inside w n
  obtain ⟨hle, hl⟩ := comments_filter (h.leading p n hn) leads_iff w.marker
  obtain ⟨htr, ht⟩ := comments_filter (h.trailing p n hn) trails_iff w.marker
  rw [hstore] at hi
  have hno := h.nodup_comments
  have hnon (com : Comment) (hc : com ∈ (w.inside n).filterMap (·.comment)) :=
    h.host?_of_encloses hn (hi.subset hc) (he com hc)
  rw [Weft.claims, filterMap_append, filterMap_append, filterMap_reverse,
    nodup_append, nodup_append]
  refine ⟨⟨hno.sublist hi, hno.sublist hle, ?_⟩, nodup_reverse.2 (hno.sublist htr), ?_⟩
  · intro com hc _ hc' heq
    subst heq
    cases (hnon com hc).symm.trans (hl com hc')
  · intro com hc _ hc' heq
    subst heq
    have ht := ht com (mem_reverse.1 hc')
    obtain hc | hc := mem_append.1 hc
    · cases (hnon com hc).symm.trans ht
    · cases (hl com hc).symm.trans ht

omit hn

/-- No directive of a file is taken twice. -/
theorem nodup_claims_preorder :
    ((t.root.preorder.flatMap w.claims).filterMap (·.comment)).Nodup := by
  rw [← Node.map_snd_places, flatMap_map, filterMap_flatMap, nodup_flatMap]
  have hp (place : Path × Node) (hp : place ∈ t.root.places) :
      t.root.at? place.1 = some place.2 := (Node.mem_places_iff h.keyed).1 hp
  refine ⟨fun place hm => nodup_claims h hstore (hp place hm), ?_⟩
  refine (pairwise_map.1 (Node.nodup_places h.keyed)).imp_of_mem
    fun {place place'} hm hm' hne com hco hco' => hne ?_
  obtain ⟨hc, hh⟩ := holds_of_mem_claims h hstore (hp place hm) hco
  obtain ⟨-, hh'⟩ := holds_of_mem_claims h hstore (hp place' hm') hco'
  exact h.eq_of_holds (hp place hm) (hp place' hm') hc hh hh'

end Claims

section Files

variable {R : Round} {lib : Library} {c : Context} {tech : Tech} {text : String} {source : Option String} {t t' : Tree} {n : Node}

theorem taken_subset {w : Weft} (hstore : w.store = t.comments) (hn : n ∈ t.root.preorder) :
    w.taken n ⊆ directives w.marker t := by
  have ho : ownDirectives w.marker n ⊆ directives w.marker t := fun d hd =>
    mem_append_left _ (mem_flatMap.2 ⟨n, hn, hd⟩)
  have hi : w.inside n ⊆ directives w.marker t := by
    intro d hd
    obtain ⟨key, hk, range, hli, hr⟩ := Weft.hollow_of_inside (ne_nil_of_mem hd)
    rw [Weft.inside_of_hollow hk hli hr, hstore] at hd
    exact ofComments_within_subset w.marker range t hd
  intro d hd
  rw [Weft.taken, mem_append, mem_append, mem_reverse] at hd
  obtain (hd | hd) | hd := hd
  · cases hl : Directive.ofLiteral? w.marker n with
    | none =>
      rw [Weft.replacing_append_filling hl] at hd
      exact hi hd
    | some d' =>
      rw [Weft.replacing_of_literal hl, Weft.filling_of_literal hl, append_nil] at hd
      exact ho (by rw [mem_singleton.1 hd]; simp [ownDirectives, hl])
  · have hd := (Weft.preceding_sublist w n).subset hd
    exact ho (by simp [ownDirectives, hd])
  · have hd := (Weft.following_sublist w n).subset hd
    exact ho (by simp [ownDirectives, hd])

theorem native_of_parse (ht : tech.parse text source = .ok t) :
    t.root.Every (Native (R.weft t.comments) t.root.source? (directives R.marker t)) := by
  obtain ⟨ns, hp⟩ := Tech.exists_parsed ht
  have hro : t.root.source? = source := by
    rw [hp.sourced.self, hp.range]
    rfl
  intro n hn
  have hc := Tech.compact_of_parse ht n hn
  refine ⟨Tech.shaped_of_parse ht n hn, hc.sole, hc.leaf, fun range hr => ?_,
    taken_subset (w := R.weft t.comments) rfl hn⟩
  rw [hro, hp.sourced n hn, hr]
  rfl

theorem body_of_parse (ht : tech.parse text source = .ok t) :
    ∃ list, t.root.children? "body" = some list := by
  obtain ⟨ns, hp⟩ := Tech.exists_parsed ht
  have hb := congrArg (·.children? "body") hp.root
  simp only [Node.children?_mapComments, (Node.relabels_locate _ _).children?] at hb
  cases hl : t.root.children? "body" with
  | some list => exact ⟨list, rfl⟩
  | none =>
    rw [hl] at hb
    cases hb

theorem bare_of_placed {all : List Span} (h : Placed all t) :
    t.root.leading = [] ∧ t.root.trailing = [] := by
  have hh (range : Span) (hl : host? t.root.places.tail all range = some (.leading []) ∨
      host? t.root.places.tail all range = some (.trailing [])) : False := by
    obtain ⟨n, hm, -⟩ := range_of_host? hl
    exact (h.of_mem_places hm).2 rfl
  rw [h.leading [] t.root rfl, h.trailing [] t.root rfl]
  constructor
  · refine filter_eq_nil_iff.2 fun com _ hl => ?_
    obtain ⟨range, -, hr⟩ := Option.bind_eq_some_iff.1 (leads_iff.1 hl)
    exact hh range (.inl hr)
  · refine filter_eq_nil_iff.2 fun com _ ht => ?_
    obtain ⟨range, -, hr⟩ := Option.bind_eq_some_iff.1 (trails_iff.1 ht)
    exact hh range (.inr hr)

/-- A file that was read is as a run needs it. -/
theorem warped_of_parse (ht : tech.parse text source = .ok t) :
    Warped (R.weft t.comments) (directives R.marker t) t.root := by
  have hn : t.root.Every (Native (R.weft t.comments) t.root.source?
      (directives R.marker t)) := native_of_parse ht
  have hk := Tech.kind_of_parse ht
  have hb := body_of_parse ht
  have hp {all : List Span} (h : Placed all t) :
      Warped (R.weft t.comments) (directives R.marker t) t.root :=
    ⟨hn, hk, hb, bare_of_placed h, nodup_claims_preorder h rfl⟩
  cases tech with
  | js =>
    obtain ⟨_, -, -, h, -⟩ := Script.parse_placed (mapError_eq_ok_iff.1 ht)
    exact hp h
  | json =>
    obtain ⟨_, -, -, h⟩ := Script.parseExpression_placed (mapError_eq_ok_iff.1 ht)
    exact hp h
  | txt =>
    cases ht
    exact ⟨hn, hk, hb, ⟨rfl, rfl⟩, nodup_nil⟩

/-- What a run on a tree weaves with. -/
abbrev weftOf (lib : Library) (depth : Nat) (c : Context) (t : Tree) : Weft :=
  (round lib depth c).weft t.comments

/-- No file that is included when a tree is resolved, directly or through
other files, is included under the path of the tree's own file. -/
def Fresh (lib : Library) (c : Context) (t : Tree) : Prop :=
  ∀ d tech text u, Reaches lib c t d tech text u → t.root.source? ≠ some d.path

/-- A file without a name is none that is included. -/
theorem fresh_of_unnamed (ht : tech.parse text none = .ok t) : Fresh lib c t := by
  intro d tech' text' u hr hs
  obtain ⟨ns, hp⟩ := Tech.exists_parsed ht
  rw [hp.sourced.self, hp.range] at hs
  cases hs

/-- The nodes of an included file do not come from another one. -/
theorem elsewhere_of_mem_body {host : Option String} {d : Directive} {u : Tree} {a : Node}
    (hu : tech.parse text (some d.path) = .ok u) (hh : host ≠ some d.path) (ha : a ∈ u.body) :
    a.Every fun m => m.range = none ∨ m.source? ≠ host := by
  obtain ⟨ns, hp⟩ := Tech.exists_parsed hu
  intro m hm
  have hs := every_of_mem_body hp.sourced ha m hm
  cases hr : m.range with
  | none => exact .inl rfl
  | some range =>
    rw [Sourced, hr, Option.bind_some] at hs
    exact .inr fun heq => hh (heq.symm.trans hs)

theorem tame_of_fresh {depth : Nat} (hfr : Fresh lib c t) (h : resolve lib depth c t = .ok t') :
    Tame (round lib depth c) t.root.source? t.comments t'.comments (directives lib.marker t) := by
  intro d hd ht n hn
  have hc := clean_of_mem_content (brings_below lib depth c) hn
  replace hd : Consumes lib c t d := ⟨hd, depth, t', h, ht.gone⟩
  obtain ⟨ns, hf⟩ := ht.fetched
  rw [content_eq hf] at hn
  obtain ⟨tech, text, u, u', ho, hr, rfl⟩ := fetch_eq_ok_iff.1 hf
  obtain ⟨_, hr⟩ := exists_of_below hr
  have hco := (resolve_conserves_shaped _ (Tech.shaped_of_parse ho.parsed)
    (Tech.nodup_of_parse ho.parsed) hr).2
  obtain ⟨a, ha, hk⟩ := hco.exists_of_mem_body (Tech.kind_of_parse ho.parsed) hn
  have hi : ∀ a, Included lib (c.descend d.path) u a →
      a.Every fun m => m.range = none ∨ m.source? ≠ t.root.source? := by
    intro a ha
    obtain ⟨d', tech', text', u₂, hre, ha⟩ := ha
    exact elsewhere_of_mem_body hre.mentions.parsed (hfr d' tech' text' u₂ (.through hd ho hre)) ha
  have he : n.Every fun m => m.range = none ∨ m.source? ≠ t.root.source? := by
    refine hk.every hi (fun h r hl _ hh => ?_) ?_
    · rwa [hl.range, Node.source?, hl.loc]
    · obtain ha | ha := ha
      · exact elsewhere_of_mem_body ho.parsed (hfr d tech text u (.here hd ho)) ha
      · exact hi a ha
  exact fun m hm => ⟨hc m hm, he m hm⟩

/-- A file that was read is woven when it is resolved. -/
theorem resolve_weaves {depth : Nat} (ht : tech.parse text source = .ok t) (hf : Fresh lib c t)
    (h : resolve lib depth c t = .ok t') :
    t'.root = ((weftOf lib depth c t).weave t.root).eraseAll ((weftOf lib depth c t).spent t.root) ∧
      t'.comments = t.comments.diff ((weftOf lib depth c t).spent t.root) ∧
      t.root.Every (Apt (round lib depth c) t.comments t'.comments) := by
  have hta := tame_of_fresh hf h
  rw [resolve_eq] at h
  exact resolveWith_weaves (brings_below lib depth c) hta (warped_of_parse ht)
    (Tech.nodup_of_parse ht) h

theorem resolve_body {depth : Nat} (ht : tech.parse text source = .ok t) (hf : Fresh lib c t)
    (h : resolve lib depth c t = .ok t') :
    ∃ list, t.root.children? "body" = some list ∧
      t'.body = (list.flatMap (weftOf lib depth c t).spread ++
          ((weftOf lib depth c t).filling t.root).flatMap (weftOf lib depth c t).content).map
        (·.eraseAll ((weftOf lib depth c t).spent t.root)) := by
  obtain ⟨list, hb⟩ := body_of_parse ht
  have hr : Warped (weftOf lib depth c t) (directives lib.marker t) t.root :=
    warped_of_parse ht
  have hn := hr.native.self
  refine ⟨list, hb, ?_⟩
  rw [Tree.body, (resolve_weaves ht hf h).1, Node.children?_mapComments,
    Weft.weave_of_body hn.shaped.keys hb (hn.sole "body" (by simp) list hb)
      hr.replacing_root, Node.children?_modifyList, hb]
  rfl

end Files

end Inclusion

end Inlay
