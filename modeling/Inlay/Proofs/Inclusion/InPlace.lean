/-
Files in the place of their directives.

A directive between statements leads the statement behind it, or trails the
last one, or no node takes it, in an empty body. What comes of it is the
same: the body has its statements in their order, and in each gap the nodes
of the files that are included there (`Weft.inline`). If all directives of a
script stand in gaps, that is what a run makes of it (`weave_eq_inline`).
-/
import Inlay.Proofs.Inclusion.Orders
import Inlay.Proofs.Script.Gaps

namespace Inlay

open Directive (ofComments isIn ofLiteral?)

open List

/-- Whether a directive is written before a node. -/
def Directive.isBefore (d : Directive) (n : Node) : Bool := d.range.any (·.isBefore n)

namespace Inclusion

-- == the outcome

namespace Weft

variable (w : Weft)

/-- The directives in the gaps of a node's body, in the order in which
they are written. -/
def gapped (n : Node) : List Directive :=
  ofComments w.marker (w.store.filter fun com => com.range.any n.hasGap)

mutual
/-- The tree with each file in the place of its directive: between the
statements that the directive stands between, or instead of the literal
that it is. -/
def inline : Node → Node
  | ⟨kind, props, range, loc, leading, trailing⟩ =>
      let n : Node := ⟨kind, props, range, loc, leading, trailing⟩
      match ofLiteral? w.marker n with
      | some d => (w.content d).headD n
      | none => { n with props := inlineProps (w.gapped n) props }
def inlineProps (ds : List Directive) : List (String × Field Node) → List (String × Field Node)
  | [] => []
  | (key, .node n) :: rest => (key, .node (inline n)) :: inlineProps ds rest
  | (key, .nodes ns) :: rest =>
      (key, .nodes (if key = "body" then inlineBody ds ns else inlineNodes ns)) ::
        inlineProps ds rest
  | (key, .data j) :: rest => (key, .data j) :: inlineProps ds rest
/-- The statements of a body with the files of the directives in its
gaps. -/
def inlineBody (ds : List Directive) : List Node → List Node
  | [] => ds.flatMap w.content
  | s :: rest =>
      (ds.takeWhile (·.isBefore s)).flatMap w.content ++
        inline s :: inlineBody (ds.dropWhile (·.isBefore s)) rest
def inlineNodes : List Node → List Node
  | [] => []
  | n :: rest => inline n :: inlineNodes rest
end

variable {w} {n : Node}

theorem inline_of_literal {d : Directive} (h : ofLiteral? w.marker n = some d) :
    w.inline n = (w.content d).headD n := by
  cases n
  rw [inline, h]

theorem inline_of_none (h : ofLiteral? w.marker n = none) :
    w.inline n = { n with props := w.inlineProps (w.gapped n) n.props } := by
  cases n
  rw [inline, h]

theorem inlineNodes_eq (ns : List Node) : w.inlineNodes ns = ns.map w.inline := by
  induction ns with
  | nil => rfl
  | cons n ns ih => rw [inlineNodes, ih, map_cons]

/-- Weaving does to properties what inlining does, if it does so to the
children and to the body. -/
theorem weaveProps_eq_inlineProps {fill : List Node} {ds : List Directive} {props : Node.Props}
    (hki : ∀ k ∈ Node.kidsOf props, w.weave k.2 = w.inline k.2)
    (hb : ∀ list, ("body", Field.nodes list) ∈ props →
      w.weaveBody list ++ fill = w.inlineBody ds list) :
    w.weaveProps fill props = w.inlineProps ds props := by
  induction props with
  | nil => rfl
  | cons e props ih =>
    obtain ⟨key, field⟩ := e
    rw [Node.kidsOf_cons] at hki
    have hr := ih (fun k hk => hki k (mem_append_right _ hk))
      fun list hlist => hb list (mem_cons_of_mem _ hlist)
    cases field with
    | node n => rw [weaveProps, inlineProps, hr, hki (⟨key, none⟩, n) (by simp [Field.kids])]
    | data j => rw [weaveProps, inlineProps, hr]
    | nodes ns =>
      rw [weaveProps, inlineProps, hr]
      by_cases hke : key = "body"
      · subst hke
        rw [if_pos rfl, if_pos rfl, hb ns (mem_cons_self ..)]
      · rw [if_neg hke, if_neg hke, weaveNodes_eq, inlineNodes_eq]
        congr 3
        refine map_congr_left fun n hn => ?_
        rw [← map_snd_items key 0 ns] at hn
        obtain ⟨k, hk, rfl⟩ := mem_map.1 hn
        exact hki k (mem_append_left _ hk)

end Weft

-- == lists

theorem findIdx?_eq_length_iff {P : Node → Bool} {pre rest : List Node} {s : Node} :
    (pre ++ s :: rest).findIdx? P = some pre.length ↔ pre.all (!P ·) = true ∧ P s = true := by
  induction pre with
  | nil => simp [findIdx?_cons]
  | cons m pre ih =>
    rw [cons_append, findIdx?_cons, all_cons, length_cons]
    cases hm : P m with
    | true => simp
    | false => simpa using ih

theorem filter_ofComments (marker : String) (cs : List Comment) (P : Option Span → Bool) :
    (ofComments marker cs).filter (P ·.range) = ofComments marker (cs.filter (P ·.range)) := by
  rw [ofComments, ofComments, filter_filterMap, filterMap_filter]
  refine filterMap_congr fun c _ => ?_
  cases hd : Directive.ofComment? marker c with
  | none => simp
  | some d => rw [Option.filter_some, Directive.range_of_ofComment? hd]

theorem ofComments_filter_congr {marker : String} {cs : List Comment} {P Q : Comment → Bool}
    (h : ∀ c ∈ cs, isIn marker c = true → P c = Q c) :
    ofComments marker (cs.filter P) = ofComments marker (cs.filter Q) := by
  rw [ofComments, ofComments, filterMap_filter, filterMap_filter]
  refine filterMap_congr fun c hc => ?_
  cases hd : Directive.ofComment? marker c with
  | none => simp
  | some d => rw [h c hc (by rw [isIn, hd]; rfl)]

/-- Of directives in order those before a node come first. -/
theorem takeWhile_isBefore {all : List Span} {t : Tree} (marker : String) {cs : List Comment}
    (h : Placed all t) (hcs : cs.Sublist t.comments) (n : Node) :
    (ofComments marker cs).takeWhile (·.isBefore n) = (ofComments marker cs).filter (·.isBefore n) ∧
      (ofComments marker cs).dropWhile (·.isBefore n) =
        (ofComments marker cs).filter (!·.isBefore n) := by
  have hp : (ofComments marker cs).Pairwise fun d d' =>
      d'.isBefore n = true → d.isBefore n = true := by
    refine (pairwise_ofComments h hcs).imp_of_mem fun {d d'} _ hd' hpr hb => ?_
    obtain ⟨r, r', hr, hr', hle⟩ := hpr
    obtain ⟨c, hc, hcd⟩ := mem_filterMap.1 hd'
    have hs := h.comments.solid r' (mem_filterMap.2 ⟨c, hcs.subset hc,
      (Directive.range_of_ofComment? hcd).symm.trans hr'⟩)
    unfold Directive.isBefore Span.isBefore at hb ⊢
    rw [hr', Option.any_some] at hb
    obtain ⟨i, hi, hb⟩ := (Option.any_eq_true _ _).1 hb
    have hb := of_decide_eq_true hb
    rw [hr, Option.any_some, hi]
    exact decide_eq_true (by omega)
  exact ⟨takeWhile_eq_filter hp, dropWhile_eq_filter hp⟩

/-- The directives in the gaps of a body that stand before none of some
statements. -/
def Weft.left (w : Weft) (o : Node) (pre : List Node) : List Directive :=
  ofComments w.marker (w.store.filter fun com =>
    com.range.any fun rc => o.hasGap rc && pre.all (!rc.isBefore ·))

theorem Weft.left_nil (w : Weft) (o : Node) : w.left o [] = w.gapped o := by
  rw [left, gapped]
  simp only [all_nil, Bool.and_true]

theorem Weft.filter_not_left (w : Weft) (o s : Node) (pre : List Node) :
    (w.left o pre).filter (!·.isBefore s) = w.left o (pre ++ [s]) := by
  refine (filter_ofComments w.marker _ fun range => !range.any (·.isBefore s)).trans ?_
  rw [left, filter_filter]
  refine ofComments_filter_congr fun com _ _ => ?_
  cases com.range with
  | none => rfl
  | some rc =>
    show (!rc.isBefore s && (o.hasGap rc && pre.all (!rc.isBefore ·))) =
      (o.hasGap rc && (pre ++ [s]).all (!rc.isBefore ·))
    rw [all_append, all_cons, all_nil, Bool.and_true, Bool.and_comm, Bool.and_assoc]

-- == gaps

open Script Placed

/-- A script whose directives stand in gaps of bodies. -/
structure Gapped (w : Weft) (all : List Span) (t : Tree) : Prop where
  store : w.store = t.comments
  placed : Placed all t
  covers : ∀ b ∈ all, ∃ r ∈ t.root.childRanges, r.contains b = true
  native : t.root.Every (Native w t.root.source? (directives w.marker t))
  scripted : t.root.Every Scripted
  gaps : ∀ com ∈ t.comments, isIn w.marker com = true →
    ∃ o ∈ t.root.preorder, com.range.any o.hasGap = true

namespace Gapped

variable {w : Weft} {all : List Span} {t : Tree} {com : Comment} {p q : Path} {n o s : Node}
  {list : List Node} {i : Nat} (h : Gapped w all t)

include h

section Items

variable (ho : t.root.at? p = some o) (hlist : o.children? "body" = some list)

include ho hlist

theorem exists_range (hs : list[i]? = some s) : ∃ r, s.range = some r ∧ r.start < r.stop := by
  have hsi := h.placed.situated (at?_item ho hlist hs) (by simp)
  cases hr : s.range with
  | some r => exact ⟨r, rfl, (hsi.ends r hr).1⟩
  | none =>
    have hk := (h.scripted.at? ho).self list hlist s (mem_of_getElem? hs)
    rw [(hsi.hole hr).1] at hk
    cases hk

theorem isSome_range : ∀ s ∈ list, s.range.isSome = true := by
  intro s hs
  obtain ⟨i, hs⟩ := mem_iff_getElem?.1 hs
  obtain ⟨r, hr, -⟩ := h.exists_range ho hlist hs
  rw [hr]
  rfl

end Items

theorem exists_gap (hcom : com ∈ t.comments) (hin : isIn w.marker com = true) :
    ∃ rc p o list, com.range = some rc ∧ t.root.at? p = some o ∧ InGap o list rc := by
  obtain ⟨o, ho, hg⟩ := h.gaps com hcom hin
  obtain ⟨rc, hrc, hg⟩ := (Option.any_eq_true _ _).1 hg
  obtain ⟨list, hg⟩ := Node.hasGap_iff.1 hg
  rw [← Node.map_snd_places] at ho
  obtain ⟨place, hp, rfl⟩ := mem_map.1 ho
  exact ⟨rc, place.1, place.2, list, hrc, (Node.mem_places_iff h.placed.keyed).1 hp, hg⟩

theorem host_of_gap {rc : Span} (hcom : com ∈ t.comments) (hrc : com.range = some rc)
    (ho : t.root.at? p = some o) (hg : InGap o list rc) :
    com.range.bind (host? t.root.places.tail all) = gapHost p list rc := by
  rw [hrc, Option.bind_some]
  exact h.placed.host?_of_gap h.covers (h.isSome_range ho hg.body) ho hg
    (mem_filterMap.2 ⟨com, hcom, hrc⟩)

theorem exists_of_host {host : Host} (hcom : com ∈ t.comments) (hin : isIn w.marker com = true)
    (hq : host = .leading q ∨ host = .trailing q)
    (hh : com.range.bind (host? t.root.places.tail all) = some host) :
    ∃ rc p o list i, com.range = some rc ∧ t.root.at? p = some o ∧ InGap o list rc ∧
      gapHost p list rc = some host ∧ q = p ++ [⟨"body", some i⟩] := by
  obtain ⟨rc, p, o, list, hrc, ho, hg⟩ := h.exists_gap hcom hin
  rw [h.host_of_gap hcom hrc ho hg] at hh
  obtain rfl | rfl := hq
  · obtain ⟨i, -, hi⟩ := gapHost_eq_leading_iff.1 hh
    exact ⟨rc, p, o, list, i, hrc, ho, hg, hh, hi⟩
  · obtain ⟨i, -, -, hi⟩ := gapHost_eq_trailing_iff.1 hh
    exact ⟨rc, p, o, list, i, hrc, ho, hg, hh, hi⟩

/-- A node that is no item of a body has no directives. -/
theorem eq_nil_of_loose {step : Step} (hn : t.root.at? p = some n)
    (hl : n.children? "body" = none) (hm : t.root.at? (p ++ [step]) = some s) :
    ofComments w.marker s.leading = [] ∧ ofComments w.marker s.trailing = [] := by
  have hno {host : Host} (hq : host = .leading (p ++ [step]) ∨ host = .trailing (p ++ [step]))
      (com : Comment) (hcom : com ∈ t.comments)
      (hh : com.range.bind (host? t.root.places.tail all) = some host) :
      Directive.ofComment? w.marker com = none := by
    refine Option.not_isSome_iff_eq_none.1 fun hin => ?_
    obtain ⟨rc, p', o, list, i, -, ho, hg, -, heq⟩ := h.exists_of_host hcom hin hq hh
    obtain ⟨rfl, -⟩ := append_inj' heq rfl
    rw [hn] at ho
    cases ho
    rw [hg.body] at hl
    cases hl
  rw [h.placed.leading _ _ hm, h.placed.trailing _ _ hm]
  simp only [Directive.ofComments_eq_nil_iff, mem_filter, leads_iff, trails_iff]
  exact ⟨fun com hc => hno (.inl rfl) com hc.1 hc.2, fun com hc => hno (.inr rfl) com hc.1 hc.2⟩

section Bodies

variable {pre rest : List Node} (ho : t.root.at? p = some o)
  (hlist : o.children? "body" = some (pre ++ s :: rest)) (hcom : com ∈ t.comments)
  (hin : isIn w.marker com = true)

include ho hlist hcom hin

theorem host_iff {host : Host} {i : Nat}
    (hh : host = .leading (p ++ [⟨"body", some i⟩]) ∨ host = .trailing (p ++ [⟨"body", some i⟩])) :
    com.range.bind (host? t.root.places.tail all) = some host ↔ ∃ rc, com.range = some rc ∧
      o.hasGap rc = true ∧ gapHost p (pre ++ s :: rest) rc = some host := by
  constructor
  · intro hc
    obtain ⟨rc, p', o', list, j, hrc, ho', hg, hgh, heq⟩ := h.exists_of_host hcom hin hh hc
    obtain ⟨rfl, -⟩ := append_inj' heq rfl
    rw [ho] at ho'
    cases ho'
    have hb := hg.body
    rw [hlist] at hb
    cases hb
    exact ⟨rc, hrc, Node.hasGap_iff.2 ⟨_, hg⟩, hgh⟩
  · intro ⟨rc, hrc, hg, hgh⟩
    obtain ⟨list, hg⟩ := Node.hasGap_iff.1 hg
    have hb := hg.body
    rw [hlist] at hb
    cases hb
    exact (h.host_of_gap hcom hrc ho hg).trans hgh

/-- A directive leads a statement if it stands before it, and not before
one of those that come first. -/
theorem leads_eq : leads t.root.places.tail all (p ++ [⟨"body", some pre.length⟩]) com =
    com.range.any fun rc => o.hasGap rc && pre.all (!rc.isBefore ·) && rc.isBefore s := by
  have hf (rc : Span) : (pre ++ s :: rest).findIdx? (rc.isBefore ·) = some pre.length ↔
      pre.all (!rc.isBefore ·) = true ∧ rc.isBefore s = true := findIdx?_eq_length_iff
  rw [Bool.eq_iff_iff, leads_iff, h.host_iff ho hlist hcom hin (.inl rfl), Option.any_eq_true]
  refine exists_congr fun rc => and_congr_right fun _ => ?_
  rw [gapHost_eq_leading_iff, Bool.and_assoc, Bool.and_eq_true_iff, Bool.and_eq_true_iff, ← hf rc]
  simp [-findIdx?_append]

/-- A directive trails the last statement if it stands before none. -/
theorem trails_eq : trails t.root.places.tail all (p ++ [⟨"body", some pre.length⟩]) com =
    (rest.isEmpty &&
      com.range.any fun rc => o.hasGap rc && (pre ++ s :: rest).all (!rc.isBefore ·)) := by
  have hle : (pre ++ s :: rest).length = pre.length + 1 ↔ rest.isEmpty = true := by
    rw [length_append, length_cons, List.isEmpty_iff, ← length_eq_zero_iff]
    omega
  rw [Bool.eq_iff_iff, trails_iff, h.host_iff ho hlist hcom hin (.inr rfl), Bool.and_eq_true_iff,
    Option.any_eq_true, ← hle, and_comm, ← exists_and_right]
  simp [gapHost_eq_trailing_iff, and_assoc]

end Bodies

section Inlining

variable {pre rest : List Node} (ho : t.root.at? p = some o)

section Items

variable (hlist : o.children? "body" = some (pre ++ s :: rest))

include ho hlist

/-- Of the directives that are left those before the next statement lead
it. -/
theorem filter_left : (w.left o pre).filter (·.isBefore s) = ofComments w.marker s.leading := by
  rw [h.placed.leading _ _ (at?_item ho hlist (s := s) (i := pre.length) (by simp)), Weft.left, h.store]
  refine (filter_ofComments w.marker _ fun range => range.any (·.isBefore s)).trans ?_
  rw [filter_filter]
  refine ofComments_filter_congr fun com hcom hin => ?_
  rw [h.leads_eq ho hlist hcom hin]
  cases com.range with
  | none => rfl
  | some rc => exact Bool.and_comm _ _

/-- The directives behind the last statement trail it; those behind
another one do not. -/
theorem ofComments_trailing : ofComments w.marker s.trailing =
    if rest.isEmpty then w.left o (pre ++ [s]) else [] := by
  rw [h.placed.trailing _ _ (at?_item ho hlist (s := s) (i := pre.length) (by simp)), Weft.left, h.store]
  refine (ofComments_filter_congr fun com hcom hin => h.trails_eq ho hlist hcom hin).trans ?_
  cases rest with
  | nil => rfl
  | cons s' rest =>
    show ofComments w.marker (t.comments.filter fun _ => false) = []
    rw [filter_false]
    rfl

end Items

/-- The statements of a body with the files around them are the body with
the files in its gaps. The induction is on the statements that are left;
`pre` are those that are done. -/
theorem inlineBody_eq {suf : List Node} (hlist : o.children? "body" = some (pre ++ suf))
    (ho : t.root.at? p = some o) (hne : suf ≠ []) :
    w.inlineBody (w.left o pre) suf =
      suf.flatMap fun s => (ofComments w.marker s.leading).flatMap w.content ++
        w.inline s :: (ofComments w.marker s.trailing).flatMap w.content := by
  induction suf generalizing pre with
  | nil => exact absurd rfl hne
  | cons s rest ih =>
    have hs : (w.store.filter fun com => com.range.any fun rc =>
        o.hasGap rc && pre.all (!rc.isBefore ·)).Sublist t.comments := h.store ▸ filter_sublist
    obtain ⟨ht, hd⟩ := takeWhile_isBefore w.marker h.placed hs s
    rw [Weft.inlineBody, Weft.left, ht, hd, ← Weft.left, h.filter_left ho hlist,
      Weft.filter_not_left, flatMap_cons, append_assoc, cons_append,
      h.ofComments_trailing ho hlist]
    congr 2
    cases rest with
    | nil => exact (append_nil _).symm
    | cons s' rest => exact ih (by simpa using hlist) (cons_ne_nil _ _)

theorem replacing_eq_nil (hn : t.root.at? p = some n)
    (hl : ofLiteral? w.marker n = none) : w.replacing n = [] := by
  have hna := (h.native.at? hn).self
  by_contra hne
  rw [Weft.replacing_of_none hl] at hne
  split at hne
  · next ha =>
    obtain ⟨d, hd⟩ := exists_mem_of_ne_nil _ hne
    obtain ⟨hh, r, hr, hd⟩ := mem_inside_iff.1 hd
    obtain ⟨com, hcom, hcd⟩ := mem_filterMap.1 hd
    obtain ⟨hcom, hi⟩ := mem_filter.1 hcom
    rw [h.store] at hcom
    obtain ⟨rc, p', o, list, hrc, ho, hga⟩ :=
      h.exists_gap hcom (by rw [isIn, hcd]; rfl)
    rw [hrc, Option.any_some] at hi
    have hm := mem_filterMap.2 ⟨com, hcom, hrc⟩
    have hno := h.placed.host?_of_hollow hn hh hr hm hi
    have hg := h.host_of_gap hcom hrc ho hga
    rw [hrc, Option.bind_some, hno] at hg
    have hni : list = [] := by
      unfold gapHost at hg
      split at hg
      · cases hg
      · split at hg
        · next hle => exact eq_nil_of_length_eq_zero hle
        · cases hg
    subst hni
    obtain ⟨r', hr', hi'⟩ := hga.inside
    have heq := h.placed.eq_of_hollow hn ho hh ⟨"body", by simp, hga.body⟩ hr hr' hm hi hi'
    subst heq
    rw [hn] at ho
    cases ho
    have hb := hna.replacing_of_body hga.body
    rw [Weft.replacing_of_none hl, if_pos ha] at hb
    exact hne hb
  · exact hne rfl

theorem at?_kid {k : Step × Node} (hn : t.root.at? p = some n) (hk : k ∈ n.kids) :
    t.root.at? (p ++ [k.1]) = some k.2 := by
  have hke := (h.native.at? hn).self.shaped.keys
  rw [Node.at?_append, hn, Option.bind_some, Node.at?_cons, (Node.step?_eq_some_iff hke).2 hk]
  rfl

theorem around_eq (hn : t.root.at? p = some n) :
    w.front n = (w.preceding n).flatMap w.content ∧
      w.back n = (w.following n).flatMap w.content := by
  induction n using Node.induction_kids generalizing p with
  | h n ih =>
    cases hb : n.children? "body" with
    | some list => exact ⟨Weft.front_of_body hb, Weft.back_of_body hb⟩
    | none =>
      have hki (k : Step × Node) (hk : k ∈ n.kids) : w.front k.2 = [] ∧ w.back k.2 = [] := by
        have hat := h.at?_kid hn hk
        obtain ⟨hl, ht⟩ := h.eq_nil_of_loose hn hb hat
        have hp := sublist_nil.1 (hl ▸ Weft.preceding_sublist w k.2)
        have hfo := sublist_nil.1 (ht ▸ Weft.following_sublist w k.2)
        obtain ⟨hf, hba⟩ := ih k hk hat
        rw [hf, hba, hp, hfo]
        exact ⟨rfl, rfl⟩
      have hf : (n.kids.flatMap fun k => w.front k.2) = [] :=
        flatMap_eq_nil_iff.2 fun k hk => (hki k hk).1
      have hba : (n.kids.reverse.flatMap fun k => w.back k.2) = [] :=
        flatMap_eq_nil_iff.2 fun k hk => (hki k (mem_reverse.1 hk)).2
      rw [Weft.front_of_loose hb, Weft.back_of_loose hb, hf, hba, append_nil, nil_append]
      exact ⟨rfl, rfl⟩

theorem replacing_item (ho : t.root.at? p = some o) (hlist : o.children? "body" = some list)
    (hs : list[i]? = some s) : w.replacing s = [] := by
  have hk := (h.scripted.at? ho).self list hlist s (mem_of_getElem? hs)
  apply h.replacing_eq_nil (at?_item ho hlist hs)
  by_contra hne
  obtain ⟨d, hd⟩ := Option.ne_none_iff_exists'.1 hne
  rw [Directive.kind_of_ofLiteral? hd] at hk
  cases hk

theorem spread_eq (ho : t.root.at? p = some o) (hlist : o.children? "body" = some list)
    (hs : s ∈ list) :
    w.spread s = (ofComments w.marker s.leading).flatMap w.content ++
      w.weave s :: (ofComments w.marker s.trailing).flatMap w.content := by
  obtain ⟨i, hs⟩ := mem_iff_getElem?.1 hs
  have hn := h.replacing_item ho hlist hs
  obtain ⟨hf, hb⟩ := h.around_eq (at?_item ho hlist hs)
  rw [Weft.spread, hf, hb, Weft.preceding_of_nil hn, Weft.following_of_nil hn]

/-- An empty body has all that stands in it, another one has nothing. -/
theorem filling_eq (ho : t.root.at? p = some o) (hlist : o.children? "body" = some list) :
    w.filling o = if list.isEmpty then w.gapped o else [] := by
  have hn := (h.native.at? ho).self
  rw [Weft.filling, hn.isAtomic_of_body hlist, if_neg Bool.false_ne_true]
  cases list with
  | nil =>
    have hg : o.hasGap = fun rc => o.range.any (·.contains rc) := by
      funext rc
      rw [Node.hasGap, hlist]
      exact Bool.and_true _
    rw [Weft.gapped, hg]
    cases hr : o.range with
    | none => simp [Weft.inside, hr, ofComments]
    | some r => exact Weft.inside_of_hollow (by simp) hlist hr
  | cons s rest =>
    by_contra hne
    obtain ⟨key, hke, range, he, -⟩ := Weft.hollow_of_inside hne
    have hk := hn.kids_eq_items hke he
    rw [hn.kids_eq_items (by simp) hlist] at hk
    cases hk

/-- The body of a node, if its statements are known to be inlined. -/
theorem body_eq_inlineBody (hn : t.root.at? p = some n) (hlist : n.children? "body" = some list)
    (hki : ∀ k ∈ n.kids, w.weave k.2 = w.inline k.2) :
    list.flatMap w.spread ++ (w.filling n).flatMap w.content = w.inlineBody (w.gapped n) list := by
  rw [h.filling_eq hn hlist]
  by_cases hne : list = []
  · subst hne
    rfl
  · have hi := h.inlineBody_eq (show n.children? "body" = some ([] ++ list) from hlist) hn hne
    rw [← Weft.left_nil, hi, if_neg (by simp [hne])]
    refine (append_nil _).trans (flatMap_congr fun s hs => ?_)
    rw [h.spread_eq hn hlist hs]
    rw [← map_snd_items "body" 0 list, ← (h.native.at? hn).self.kids_eq_items (by simp) hlist] at hs
    obtain ⟨k, hk, rfl⟩ := mem_map.1 hs
    rw [hki k hk]

/-- A walk puts each file in the place of its directive. -/
theorem weave_eq_inline (hn : t.root.at? p = some n) : w.weave n = w.inline n := by
  induction n using Node.induction_kids generalizing p with
  | h n ih =>
    have hki (k : Step × Node) (hk : k ∈ n.kids) : w.weave k.2 = w.inline k.2 :=
      ih k hk (h.at?_kid hn hk)
    cases hl : ofLiteral? w.marker n with
    | some d =>
      rw [Weft.inline_of_literal hl, Weft.weave_of_replacing (d := d)]
      rw [Weft.replacing_of_literal hl]
      rfl
    | none =>
      rw [Weft.weave_of_nil (h.replacing_eq_nil hn hl), Weft.inline_of_none hl,
        Weft.weaveProps_eq_inlineProps hki]
      intro list hm
      rw [Weft.weaveBody_eq]
      refine h.body_eq_inlineBody hn ?_ hki
      rw [Node.children?_eq_some_iff]
      exact Entries.lookup_of_mem (h.native.at? hn).self.shaped.keys hm

theorem inline_of_body (hn : t.root.at? p = some n) (hlist : n.children? "body" = some list) :
    w.inline n = n.modifyList "body" fun _ => w.inlineBody (w.gapped n) list := by
  have hna := (h.native.at? hn).self
  have hb := h.body_eq_inlineBody hn hlist fun k hk => h.weave_eq_inline (h.at?_kid hn hk)
  rw [← h.weave_eq_inline hn, Weft.weave_of_body hna.shaped.keys hlist
    (hna.sole "body" (by simp) list hlist) (hna.replacing_of_body hlist)]
  exact Node.modifyList_congr hlist hb

/-- Every directive in a comment is taken. -/
theorem exists_taken {d : Directive} (hd : d ∈ ofComments w.marker t.comments) :
    ∃ n ∈ t.root.preorder, d ∈ w.taken n := by
  obtain ⟨com, hcom, hd⟩ := mem_filterMap.1 hd
  obtain ⟨rc, p, o, list, hrc, ho, hga⟩ := h.exists_gap hcom (by rw [isIn, hd]; rfl)
  have hh := h.host_of_gap hcom hrc ho hga
  have hit {i : Nat} {s : Node} (hs : list[i]? = some s)
      (ht : com ∈ s.leading ∨ com ∈ s.trailing) : ∃ n ∈ t.root.preorder, d ∈ w.taken n := by
    refine ⟨s, Node.mem_preorder_of_at? (at?_item ho hga.body hs), ?_⟩
    have hn := h.replacing_item ho hga.body hs
    rw [Weft.taken, Weft.preceding_of_nil hn, Weft.following_of_nil hn]
    obtain hle | htr := ht
    · have hm := mem_filterMap.2 ⟨com, hle, hd⟩
      simp [ofComments, hm]
    · have hm := mem_filterMap.2 ⟨com, htr, hd⟩
      simp [ofComments, hm]
  unfold gapHost at hh
  split at hh
  · next i hi =>
    have hs := getElem?_eq_getElem (findIdx?_eq_some_iff_getElem.1 hi).1
    refine hit hs (.inl ?_)
    rw [h.placed.leading _ _ (at?_item ho hga.body hs)]
    exact mem_filter.2 ⟨hcom, leads_iff.2 hh⟩
  · split at hh
    · next hl =>
      cases eq_nil_of_length_eq_zero hl
      refine ⟨o, Node.mem_preorder_of_at? ho, ?_⟩
      have hg : d ∈ w.gapped o := by
        rw [Weft.gapped, h.store]
        refine mem_filterMap.2 ⟨com, mem_filter.2 ⟨hcom, ?_⟩, hd⟩
        rw [hrc, Option.any_some]
        exact Node.hasGap_iff.2 ⟨_, hga⟩
      have hf := h.filling_eq ho hga.body
      simp [Weft.taken, hf, hg]
    · next i hl =>
      have hs := getElem?_eq_getElem (show i < list.length by omega)
      refine hit hs (.inr ?_)
      rw [h.placed.trailing _ _ (at?_item ho hga.body hs)]
      exact mem_filter.2 ⟨hcom, trails_iff.2 hh⟩

end Inlining

end Gapped

-- == files

theorem filter_diff {P : Comment → Bool} {cs : List Comment} (h : ∀ com ∈ cs, P com = false)
    (l : List Comment) : (l.diff cs).filter P = l.filter P := by
  induction cs generalizing l with
  | nil => rfl
  | cons com cs ih =>
    rw [diff_cons, ih fun com' hc' => h com' (mem_cons_of_mem _ hc')]
    by_cases hm : com ∈ l
    · obtain ⟨l₁, l₂, -, rfl, he⟩ := exists_erase_eq hm
      rw [he, filter_append, filter_append, filter_cons_of_neg (by simp [h com mem_cons_self])]
    · rw [erase_of_not_mem hm]

section Files

variable {lib : Library} {depth : Nat} {c : Context} {tech : Tech} {text : String}
  {source : Option String} {t t' : Tree}

/-- The nodes of a tree that was resolved have all their comments but the
directives. -/
theorem resolve_clears (ht : tech.parse text source = .ok t) (hf : Fresh lib c t)
    (h : resolve lib depth c t = .ok t') :
    t'.root = ((weftOf lib depth c t).weave t.root).mapComments
      (·.filter (!Directive.isIn lib.marker ·)) := by
  obtain ⟨hr, -, -⟩ := resolve_weaves ht hf h
  have hc := (resolve_keyed_clean depth (Tech.keyed_of_parse ht) h).2
  have hs : t'.root.mapComments (·.filter (!Directive.isIn lib.marker ·)) = t'.root := by
    apply Node.mapComments_eq_self
    intro m hm
    have hn (com : Comment) (hcom : com ∈ m.leading ++ m.trailing) :
        (!Directive.isIn lib.marker com) = true := by
      rw [isIn, (hc m hm).comments com hcom]
      rfl
    exact ⟨filter_eq_self.2 fun com hcom => hn com (mem_append_left _ hcom),
      filter_eq_self.2 fun com hcom => hn com (mem_append_right _ hcom)⟩
  rw [← hs, hr, Node.mapComments_mapComments]
  congr 1
  funext l
  refine filter_diff (fun com hcom => ?_) l
  have hin : isIn lib.marker com = true :=
    isIn_of_mem_spent (w := weftOf lib depth c t) hcom
  rw [hin]
  rfl

theorem gapped_of_parse (depth : Nat) (c : Context) (ht : Tech.js.parse text source = .ok t)
    (hg : ∀ com ∈ t.comments, isIn lib.marker com = true →
      ∃ o ∈ t.root.preorder, com.range.any o.hasGap = true) :
    ∃ all, Gapped (weftOf lib depth c t) all t := by
  obtain ⟨lexed, -, -, hpl, hc⟩ := Script.parse_placed (mapError_eq_ok_iff.1 ht)
  obtain ⟨ns, hp⟩ := Tech.exists_parsed ht
  exact ⟨lexed.spans, rfl, hpl, hc, native_of_parse ht, hp.every_scripted rfl, hg⟩

end Files

end Inclusion

open Inclusion

/-- If the directives of a script stand in gaps of bodies, resolving puts
each file in the place of its directive. All the files are read. Every
body has its statements in their order, and in each gap the nodes of the
files that are included there, in the order of the directives. -/
theorem resolve_in_place {lib : Library} {depth : Nat} {c : Context} {text : String}
    {source : Option String} {t t' : Tree} (ht : Tech.js.parse text source = .ok t)
    (hfresh : Fresh lib c t)
    (hgaps : ∀ com ∈ t.comments, isIn lib.marker com = true →
      ∃ o ∈ t.root.preorder, com.range.any o.hasGap = true)
    (h : resolve lib depth c t = .ok t') :
    (∀ d ∈ ofComments lib.marker t.comments,
      fetch lib (below lib depth) c d = .ok ((weftOf lib depth c t).content d)) ∧
      t'.root = ((weftOf lib depth c t).inline t.root).mapComments
        (·.filter (!Directive.isIn lib.marker ·)) ∧
      ∀ o ∈ t.root.preorder, ∀ list, o.children? "body" = some list →
        ∃ o' ∈ t'.root.preorder, o'.kind = o.kind ∧ o'.range = o.range ∧
          o'.children? "body" = some (((weftOf lib depth c t).inlineBody
            ((weftOf lib depth c t).gapped o) list).map
              (Node.mapComments (·.filter (!Directive.isIn lib.marker ·)))) := by
  obtain ⟨all, hgapped⟩ := gapped_of_parse depth c ht hgaps
  have hroot := resolve_clears ht hfresh h
  refine ⟨fun d hd => ?_, ?_, fun o ho list hlist => ?_⟩
  · obtain ⟨n, hn, hd⟩ := hgapped.exists_taken hd
    obtain ⟨ns, hfetch⟩ := (((resolve_weaves ht hfresh h).2.2 n hn).taken d hd).fetched
    rw [content_eq hfetch]
    exact hfetch
  · rw [hroot, hgapped.weave_eq_inline (p := []) rfl]
  · obtain ⟨place, hplace, rfl⟩ := mem_map.1 (Node.map_snd_places t.root ▸ ho)
    have hat := (Node.mem_places_iff hgapped.placed.keyed).1 hplace
    have hinline := hgapped.inline_of_body hat hlist
    have hmem := Native.weave_mem hgapped.native ho
    rw [hgapped.weave_eq_inline hat, hinline] at hmem
    have hmem := mem_map_of_mem
      (f := Node.mapComments (·.filter (!Directive.isIn lib.marker ·))) hmem
    rw [← Node.preorder_mapComments, ← hroot] at hmem
    refine ⟨_, hmem, ?_, ?_, ?_⟩
    · rw [Node.kind_mapComments]
      rfl
    · rw [Node.range_mapComments]
      rfl
    · rw [Node.children?_mapComments, Node.children?_modifyList, hlist]
      rfl

/-- A script with directives in all gaps of its top level, and in a
block. -/
def Script.gaps : String :=
  "/*borschik:include:x.js*/ a; /*borschik:include:y.js*//*borschik:include:x.js*/ " ++
    "if (b) \x7b /*borschik:include:y.js*/ \x7d c(); /*borschik:include:x.js*/"

theorem resolve_in_place_gaps :
    ∃ t t' list, Tech.js.parse Script.gaps none = .ok t ∧ Fresh .pair (.start none none) t ∧
      (∀ com ∈ t.comments, isIn Library.pair.marker com = true →
        ∃ o ∈ t.root.preorder, com.range.any o.hasGap = true) ∧
      resolve .pair 1 (.start none none) t = .ok t' ∧ t.root.children? "body" = some list ∧
      ((weftOf .pair 1 (.start none none) t).gapped t.root).map (·.path) =
        ["x.js", "y.js", "x.js", "x.js"] ∧
      ∃ o' ∈ t'.root.preorder, o'.kind = t.root.kind ∧ o'.range = t.root.range ∧
        o'.children? "body" = some (((weftOf .pair 1 (.start none none) t).inlineBody
          ((weftOf .pair 1 (.start none none) t).gapped t.root) list).map
            (Node.mapComments (·.filter (!Directive.isIn Library.pair.marker ·)))) := by
  have hok : ((Tech.js.parse Script.gaps none).toOption.bind fun t =>
      (resolve .pair 1 (.start none none) t).toOption.bind fun _ =>
        (t.root.children? "body").map fun _ =>
          (t.comments.all fun com => t.root.preorder.any fun o => com.range.any o.hasGap,
            ((weftOf .pair 1 (.start none none) t).gapped t.root).map (·.path))) =
      some (true, ["x.js", "y.js", "x.js", "x.js"]) := by
    decide +kernel
  obtain ⟨t, ht, hok⟩ := Option.bind_eq_some_iff.1 hok
  obtain ⟨t', h, hok⟩ := Option.bind_eq_some_iff.1 hok
  obtain ⟨list, hlist, hok⟩ := Option.map_eq_some_iff.1 hok
  obtain ⟨hgaps, hpaths⟩ := Prod.mk.inj hok
  replace ht := eq_ok_of_toOption ht
  have hgaps (com : Comment) (hcom : com ∈ t.comments)
      (_ : isIn Library.pair.marker com = true) :
      ∃ o ∈ t.root.preorder, com.range.any o.hasGap = true :=
    any_eq_true.1 (all_eq_true.1 hgaps com hcom)
  have hfresh : Fresh .pair (.start none none) t := fresh_of_unnamed ht
  obtain ⟨-, -, hlists⟩ := resolve_in_place ht hfresh hgaps (eq_ok_of_toOption h)
  exact ⟨t, t', list, ht, hfresh, hgaps, eq_ok_of_toOption h, hlist, hpaths,
    hlists t.root t.root.mem_preorder_self list hlist⟩

end Inlay
