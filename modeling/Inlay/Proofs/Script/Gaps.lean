/-
Comments between statements.

Every token of a body belongs to one of its statements. So the token behind
a comment that stands between two statements is the first one of the next
statement, and behind the last statement it is none that a node starts with.
The comment leads the next statement if there is one, and trails the last
statement otherwise (`Placed.host?_of_gap`).
-/
import Inlay.Proofs.Script.Succession
import Inlay.Proofs.Tree.Sleeves

namespace Inlay

open Option (bind_some)

open List

variable {all : List Span} {t : Tree} {n m o s : Node} {p q : Path} {r r' rc : Span} {i lo hi : Nat}
  {list : List Node}

/-- Whether a range lies in a gap of a body: before the first statement,
between two of them, or behind the last one. -/
def Node.hasGap (o : Node) (rc : Span) : Bool :=
  (o.children? "body").any fun list =>
    o.range.any (·.contains rc) &&
      list.all fun s => s.range.all fun r => rc.stop ≤ r.start || r.stop ≤ rc.start

/-- Whether a range ends before a node. -/
def Span.isBefore (rc : Span) (n : Node) : Bool := n.range.any (rc.stop ≤ ·.start)

/-- The range lies in a gap of the list, which is the body of the node. -/
structure InGap (o : Node) (list : List Node) (rc : Span) : Prop where
  body : o.children? "body" = some list
  inside : ∃ r, o.range = some r ∧ r.contains rc = true
  apart : ∀ s ∈ list, ∀ r, s.range = some r → rc.stop ≤ r.start ∨ r.stop ≤ rc.start

theorem Node.hasGap_iff : o.hasGap rc = true ↔ ∃ list, InGap o list rc := by
  unfold hasGap
  constructor
  · intro h
    obtain ⟨list, hlist, h⟩ := (Option.any_eq_true _ _).1 h
    obtain ⟨hi, ha⟩ := Bool.and_eq_true_iff.1 h
    refine ⟨list, hlist, (Option.any_eq_true _ _).1 hi, fun s hs r hr => ?_⟩
    have hs := all_eq_true.1 ha s hs
    simpa [hr] using hs
  · intro ⟨list, hlist, hi, ha⟩
    rw [hlist, Option.any_some, Bool.and_eq_true_iff]
    refine ⟨(Option.any_eq_true _ _).2 hi, all_eq_true.2 fun s hs => ?_⟩
    cases hr : s.range with
    | none => rfl
    | some r => simpa using ha s hs r hr

-- == outermost

namespace Placed

open Script Node

/-- A node is the outermost one with some end of its range, if the nodes
above it have another one. -/
theorem find?_outermost (h : Placed all t) {P : Span → Bool} (hn : t.root.at? p = some n)
    (hne : p ≠ []) (hr : n.range = some r) (hP : P r = true)
    (hme : ∀ r', r'.start < r'.stop → P r' = true → r'.start < r.stop ∧ r.start < r'.stop)
    (ha : ∀ q m r', q ≠ [] → q <+: p → q ≠ p → t.root.at? q = some m → m.range = some r' →
      P r' = false) :
    (t.root.places.tail.find? fun place => place.2.range.any P).map (·.1) = some p := by
  have hb : ∀ q m, q ≠ [] → t.root.at? q = some m → m.range.any P = true → p <+: q := by
    intro q m hq hm hPm
    obtain ⟨r', hr', hPr'⟩ := (Option.any_eq_true _ _).1 hPm
    have hso := ((h.situated hm hq).ends r' hr').1
    obtain hpq | hqp | hd := disjoint_of_at? h.every_nested hn hm hr hr'
    · exact hpq
    · by_cases heq : q = p
      · exact heq ▸ prefix_rfl
      · rw [ha q m r' hq hqp heq hm hr'] at hPr'
        cases hPr'
    · have := hme r' hso hPr'
      omega
  cases p with
  | nil => exact absurd rfl hne
  | cons step p =>
    obtain ⟨l, hs, hl⟩ := at?_cons_eq_some_iff.1 hn
    have hf := find?_places (P := fun m => m.range.any P) (h.keyed.step hs) hl
      (by rw [hr]; exact hP) fun q m hm hPm =>
        (cons_prefix_cons.1 (hb (step :: q) m (cons_ne_nil _ _)
          (at?_cons_eq_some_iff.2 ⟨l, hs, hm⟩) hPm)).2
    rw [find?_places_tail h.keyed hs hf fun step' q m hm hPm =>
      (cons_prefix_cons.1 (hb (step' :: q) m (cons_ne_nil _ _) hm hPm)).1.symm]
    rfl

-- == stretches

/-- The stretch of a file in which the statements of a node stand: its
tokens belong to them, the nodes around it reach further on both sides,
and it ends with the file or before a token that no node starts with. -/
structure Stretch (all : List Span) (t : Tree) (p : Path) (o : Node) (lo hi : Nat) : Prop where
  inside : ∀ r ∈ o.childRanges, lo ≤ r.start ∧ r.stop ≤ hi
  covers : ∀ b ∈ all, lo ≤ b.start → b.stop ≤ hi → ∃ r ∈ o.childRanges, r.contains b = true
  around : ∀ q m r, q ≠ [] → q <+: p → t.root.at? q = some m → m.range = some r →
    r.start < lo ∧ hi < r.stop
  closed : (∀ b ∈ all, b.stop ≤ hi) ∨
    ∃ b ∈ all, b.start = hi ∧
      ∀ q m r, q ≠ [] → t.root.at? q = some m → m.range = some r → r.start ≠ hi
  comments : ∀ r, o.range = some r → ∀ rc ∈ t.comments.filterMap (·.range),
    r.contains rc = true → lo ≤ rc.start ∧ rc.stop ≤ hi

section Stretches

variable (h : Placed all t)

include h

theorem stretch_root (hco : ∀ b ∈ all, ∃ r ∈ t.root.childRanges, r.contains b = true) :
    ∃ lo hi, Stretch all t [] t.root lo hi := by
  obtain ⟨r, hr, ha⟩ := h.range
  refine ⟨r.start, r.stop, ?_, ?_, ?_, ?_, ?_⟩
  · exact fun r' hr' => Span.contains_iff.1 (h.nested.inside r hr r' hr')
  · exact fun b hb _ _ => hco b hb
  · exact fun q m r' hq hp => absurd (prefix_nil.1 hp) hq
  · exact .inl fun b hb => (Span.contains_iff.1 (ha b (mem_append_left _ hb))).2
  · intro r' hr' rc hrc hc
    rw [hr] at hr'
    cases hr'
    exact Span.contains_iff.1 hc

theorem stretch_block (ho : t.root.at? p = some o) (hne : p ≠ []) (hki : o.kind = .blockStatement) :
    ∃ lo hi, Stretch all t p o lo hi := by
  obtain ⟨r, lb, rb, hr, hf⟩ := (h.situated ho hne).framed (.inl hki)
  have hlb := h.spans.solid lb hf.left_mem
  have hrb := h.spans.solid rb hf.right_mem
  have hst := hf.start
  have hsto := hf.stop
  have hle := hf.le
  have ha : ∀ q m r', q <+: p → t.root.at? q = some m → m.range = some r' →
      r'.start < lb.stop ∧ rb.start < r'.stop := by
    intro q m r' hqp hm hr'
    obtain ⟨rest, rfl⟩ := hqp
    rw [at?_append, hm, bind_some] at ho
    obtain ⟨r'', hr'', hc⟩ := contains_of_at? (h.every_nested.at? hm) ho hr
    rw [hr'] at hr''
    cases hr''
    rw [Span.contains_iff] at hc
    omega
  refine ⟨lb.stop, rb.start, hf.inside, hf.covers, fun q m r' _ => ha q m r', ?_, ?_⟩
  · refine .inr ⟨rb, hf.right_mem, rfl, fun q m r' hq hm hr' heq => ?_⟩
    have hs := ((h.situated hm hq).ends r' hr').1
    obtain hpq | hqp | hd := disjoint_of_at? h.every_nested ho hm hr hr'
    · -- a node in the block is in one of its statements
      obtain ⟨rest, rfl⟩ := hpq
      rw [at?_append, ho, bind_some] at hm
      cases rest with
      | nil =>
        cases hm
        rw [hr] at hr'
        cases hr'
        omega
      | cons step rest =>
        obtain ⟨k, hk, hm⟩ := at?_cons_eq_some_iff.1 hm
        have hn := (h.every_nested.at? ho).step hk
        obtain ⟨i, hi, hc⟩ := contains_of_at? hn hm hr'
        have hin := hf.inside i (mem_filterMap.2 ⟨_, mem_kids_of_step? hk, hi⟩)
        rw [Span.contains_iff] at hc
        omega
    · have := ha q m r' hqp hm hr'
      omega
    · omega
  · intro r' hr' rc hrc hc
    rw [hr] at hr'
    cases hr'
    have hs := h.comments.solid rc hrc
    have hl := h.apart lb hf.left_mem rc hrc
    have hri := h.apart rb hf.right_mem rc hrc
    rw [Span.contains_iff] at hc
    omega

theorem childRanges_eq (ho : t.root.at? p = some o) (hlist : o.children? "body" = some list) :
    o.childRanges = list.filterMap (·.range) := by
  have hk : o.kids = items "body" 0 list := by
    by_cases hp : p = []
    · subst hp
      cases ho
      obtain ⟨ns, hpr⟩ := h.props
      rw [children?_eq_some_iff, hpr] at hlist
      cases hlist
      rw [Node.kids, hpr, kidsOf_cons]
      exact append_nil _
    · have hs := h.situated ho hp
      exact kids_eq_items hs.keys hlist (hs.lists "body" (by simp) list hlist).2
  have hr := filterMap_map (l := items "body" 0 list) (f := (·.2)) (g := Node.range)
  rw [map_snd_items] at hr
  rw [Node.childRanges, hk, hr]
  rfl

theorem exists_stretch (hco : ∀ b ∈ all, ∃ r ∈ t.root.childRanges, r.contains b = true)
    (ho : t.root.at? p = some o) (hlist : o.children? "body" = some list) :
    ∃ lo hi, Stretch all t p o lo hi := by
  by_cases hp : p = []
  · subst hp
    cases ho
    exact h.stretch_root hco
  · have hs := h.situated ho hp
    have hke := (hs.lists "body" (by simp) list hlist).1
    refine h.stretch_block ho hp ?_
    have hc := (Kind.isContainer_of_listKey hke (.inr rfl)).2
    unfold Kind.isContainer at hc
    split at hc
    · next hk => exact absurd hk hs.kind
    · next hk => exact hk
    · cases hc

end Stretches

section Gaps

variable (h : Placed all t) (ho : t.root.at? p = some o) (hlist : o.children? "body" = some list)
  (hs : list[i]? = some s) (hr : s.range = some r)

theorem at?_item (ho : t.root.at? p = some o) (hlist : o.children? "body" = some list)
    (hs : list[i]? = some s) : t.root.at? (p ++ [⟨"body", some i⟩]) = some s := by
  rw [at?_append, ho, bind_some, at?_cons, step?_item hlist, hs]
  rfl

include h ho hlist

theorem le_of_items {j : Nat} {s' : Node} (hs : list[i]? = some s) (hs' : list[j]? = some s')
    (hr : s.range = some r) (hr' : s'.range = some r') (hlt : i < j) : r.stop ≤ r'.start := by
  have hor := (h.every_nested.at? ho).self.ordered
  rw [h.childRanges_eq ho hlist, pairwise_filterMap, pairwise_iff_getElem] at hor
  obtain ⟨hi, rfl⟩ := List.getElem?_eq_some_iff.1 hs
  obtain ⟨hj, rfl⟩ := List.getElem?_eq_some_iff.1 hs'
  exact hor i j hi hj hlt r hr r' hr'

theorem exists_item (hst : Stretch all t p o lo hi) {b : Span} (hb : b ∈ all)
    (hlo : lo ≤ b.start) (hhi : b.stop ≤ hi) :
    ∃ (j : Nat) (s' : Node) (r' : Span), list[j]? = some s' ∧ s'.range = some r' ∧
      r'.start ≤ b.start ∧ b.stop ≤ r'.stop := by
  obtain ⟨r', hm, hc⟩ := hst.covers b hb hlo hhi
  rw [h.childRanges_eq ho hlist] at hm
  obtain ⟨s', hs', hr'⟩ := mem_filterMap.1 hm
  obtain ⟨j, hj⟩ := mem_iff_getElem?.1 hs'
  exact ⟨j, s', r', hj, hr', Span.contains_iff.1 hc⟩

include hs hr

theorem item_inside (hst : Stretch all t p o lo hi) :
    lo ≤ r.start ∧ r.start < r.stop ∧ r.stop ≤ hi := by
  have hm : r ∈ o.childRanges := by
    rw [h.childRanges_eq ho hlist]
    exact mem_filterMap.2 ⟨s, mem_of_getElem? hs, hr⟩
  obtain ⟨hlo, hhi⟩ := hst.inside r hm
  exact ⟨hlo, ((h.situated (at?_item ho hlist hs) (by simp)).ends r hr).1, hhi⟩

/-- A statement is the outermost node that starts and that ends where it
does. -/
theorem paths_item (hstr : Stretch all t p o lo hi) :
    pathStarting t.root.places.tail r.start = some (p ++ [⟨"body", some i⟩]) ∧
      pathEnding t.root.places.tail r.stop = some (p ++ [⟨"body", some i⟩]) := by
  obtain ⟨hlo, hso, hhi⟩ := h.item_inside ho hlist hs hr hstr
  have hfind (f : Span → Nat) (hf : f = Span.start ∨ f = Span.stop) :=
    h.find?_outermost (P := fun r' => f r' == f r) (at?_item ho hlist hs) (by simp) hr
      (by simp) (fun r' hso' hst => by
        have hst := beq_iff_eq.1 hst
        obtain rfl | rfl := hf <;> omega) fun q m r' hq hp hne hm hr' => by
      have ha := hstr.around q m r' hq ((prefix_concat_iff.1 hp).resolve_left hne) hm hr'
      refine beq_eq_false_iff_ne.2 ?_
      obtain rfl | rfl := hf <;> omega
  exact ⟨hfind _ (.inl rfl), hfind _ (.inr rfl)⟩

/-- A comment leads the next statement. -/
theorem host?_of_next (hst : Stretch all t p o lo hi) (hso : rc.start < rc.stop)
    (hlo : lo ≤ rc.start) (hle : rc.stop ≤ r.start)
    (hbe : ∀ (j : Nat) (s' : Node) (r' : Span), j < i → list[j]? = some s' →
      s'.range = some r' → r'.stop ≤ rc.start) :
    host? t.root.places.tail all rc = some (.leading (p ++ [⟨"body", some i⟩])) := by
  obtain ⟨-, hw, hhi⟩ := h.item_inside ho hlist hs hr hst
  obtain ⟨-, ⟨b, hb, hsta⟩, -⟩ :=
    (h.situated (at?_item ho hlist hs) (by simp)).ends r hr
  have hn : startBehind all rc = some b.start := by
    refine startBehind_eq h.spans hb (hsta ▸ hle) fun b' hb' hbeg he => ?_
    have hb'solid := h.spans.solid b' hb'
    obtain ⟨j, s', r', hs', hr', hc⟩ :=
      h.exists_item ho hlist hst hb' (by omega) (by omega)
    obtain hlt | rfl | hgt := Nat.lt_trichotomy j i
    · have := hbe j s' r' hlt hs' hr'
      omega
    · rw [hs] at hs'
      cases hs'
      rw [hr] at hr'
      cases hr'
      omega
    · have := h.le_of_items ho hlist hs hs' hr hr' hgt
      omega
  rw [host?, hn, hsta, bind_some, (h.paths_item ho hlist hs hr hst).1]

/-- A comment behind the last statement trails it. -/
theorem host?_of_last (hstr : Stretch all t p o lo hi) (hso : rc.start < rc.stop)
    (hlo : lo ≤ rc.start) (hhi : rc.stop ≤ hi) (hl : i + 1 = list.length)
    (hbe : ∀ (j : Nat) (s' : Node) (r' : Span), list[j]? = some s' → s'.range = some r' →
      r'.stop ≤ rc.start) :
    host? t.root.places.tail all rc = some (.trailing (p ++ [⟨"body", some i⟩])) := by
  obtain ⟨hbeg, hw, -⟩ := h.item_inside ho hlist hs hr hstr
  have hn (b : Span) (hb : b ∈ all) (hst : rc.stop ≤ b.start) : ¬ b.stop ≤ hi := by
    intro hsto
    obtain ⟨j, s', r', hs', hr', hco⟩ :=
      h.exists_item ho hlist hstr hb (by omega) hsto
    have := hbe j s' r' hs' hr'
    have := h.spans.solid b hb
    omega
  have hnex : (startBehind all rc).bind (pathStarting t.root.places.tail) = none := by
    obtain he | ⟨b, hb, hst, hc⟩ := hstr.closed
    · have hni : startBehind all rc = none := by
        rw [startBehind, find?_eq_none.2 fun b hb hst => ?_, Option.map_none]
        exact hn b hb (of_decide_eq_true hst) (he b hb)
      rw [hni, Option.bind_none]
    · rw [startBehind_eq h.spans hb (by omega) fun b' hb' hle => hst ▸ hn b' hb' hle,
        bind_some, hst]
      refine pathStarting_eq_none fun place hp r' hr' => ?_
      obtain ⟨hat, hne⟩ := h.of_mem_places hp
      exact hc place.1 place.2 r' hne hat hr'
  obtain ⟨-, -, b, hb, hsto⟩ := (h.situated (at?_item ho hlist hs) (by simp)).ends r hr
  have hbef : endBefore all rc = some b.stop := by
    have := hbe i s r hs hr
    refine endBefore_eq h.spans hb (by omega) fun b' hb' hst he => ?_
    have hb'solid := h.spans.solid b' hb'
    obtain ⟨j, s', r', hs', hr', hco⟩ :=
      h.exists_item ho hlist hstr hb' (by omega) (by omega)
    have hj := (List.getElem?_eq_some_iff.1 hs').1
    obtain hlt | rfl | hgt := Nat.lt_trichotomy j i
    · have := h.le_of_items ho hlist hs' hs hr' hr hlt
      omega
    · rw [hs] at hs'
      cases hs'
      rw [hr] at hr'
      cases hr'
      omega
    · omega
  rw [host?, hnex, hbef, hsto, bind_some, (h.paths_item ho hlist hs hr hstr).2]
  rfl

end Gaps

/-- What takes a comment in a gap of a body: the first statement behind
the comment, or else the last one before it, if there is any. -/
def gapHost (p : Path) (list : List Node) (rc : Span) : Option Host :=
  match list.findIdx? (rc.isBefore ·) with
  | some i => some (.leading (p ++ [⟨"body", some i⟩]))
  | none =>
      match list.length with
      | 0 => none
      | i + 1 => some (.trailing (p ++ [⟨"body", some i⟩]))

theorem gapHost_eq_leading_iff : gapHost p list rc = some (.leading q) ↔
    ∃ i, list.findIdx? (rc.isBefore ·) = some i ∧ q = p ++ [⟨"body", some i⟩] := by
  unfold gapHost
  split
  · next i hi => simp [hi, eq_comm]
  · next hn => split <;> simp [hn]

theorem gapHost_eq_trailing_iff : gapHost p list rc = some (.trailing q) ↔
    ∃ i, list.findIdx? (rc.isBefore ·) = none ∧ list.length = i + 1 ∧ q = p ++ [⟨"body", some i⟩] := by
  unfold gapHost
  split
  · next i hi => simp [hi]
  · next hn =>
    split
    · next hl => simp [hl]
    · next i hl => simp [hn, hl, eq_comm]

theorem host?_of_gap (h : Placed all t)
    (hco : ∀ b ∈ all, ∃ r ∈ t.root.childRanges, r.contains b = true)
    (hran : ∀ s ∈ list, s.range.isSome = true) (ho : t.root.at? p = some o)
    (hg : InGap o list rc) (hrc : rc ∈ t.comments.filterMap (·.range)) :
    host? t.root.places.tail all rc = gapHost p list rc := by
  obtain ⟨lo, hi, hs⟩ := h.exists_stretch hco ho hg.body
  obtain ⟨range, hra, hc⟩ := hg.inside
  obtain ⟨hlo, hhi⟩ := hs.comments range hra rc hrc hc
  have hso := h.comments.solid rc hrc
  have hb (s' : Node) (r' : Span) (hs' : s' ∈ list) (hr' : s'.range = some r')
      (hno : ¬ rc.isBefore s' = true) : r'.stop ≤ rc.start := by
    refine (hg.apart s' hs' r' hr').resolve_left fun hle => hno ?_
    rw [Span.isBefore, hr']
    exact decide_eq_true hle
  unfold gapHost
  split
  · next i hi =>
    obtain ⟨hlt, hbe, hf⟩ := findIdx?_eq_some_iff_getElem.1 hi
    obtain ⟨r, hr, hle⟩ := (Option.any_eq_true _ _).1 hbe
    refine h.host?_of_next ho hg.body (getElem?_eq_getElem hlt) hr hs hso hlo
      (of_decide_eq_true hle) fun j s' r' hj hs' hr' => ?_
    obtain ⟨hlt', rfl⟩ := List.getElem?_eq_some_iff.1 hs'
    exact hb _ r' (getElem_mem hlt') hr' (hf j hj)
  · next hn =>
    have hno := findIdx?_eq_none_iff.1 hn
    split
    · next hl =>
      cases eq_nil_of_length_eq_zero hl
      exact h.host?_of_hollow ho ⟨"body", by simp, hg.body⟩ hra hrc hc
    · next i hl =>
      have hlt : i < list.length := by omega
      obtain ⟨r, hr⟩ := Option.isSome_iff_exists.1 (hran _ (getElem_mem hlt))
      refine h.host?_of_last ho hg.body (getElem?_eq_getElem hlt) hr hs hso hlo hhi
        hl.symm fun j s' r' hs' hr' => ?_
      have hm := mem_of_getElem? hs'
      exact hb s' r' hm hr' (by simp [hno s' hm])

end Placed

end Inlay
