/-
Where things stand in a file.

The tokens of a text stand one behind the other, with its comments between
them; what lies between all of these is blank or ends a line
(`lex_partitions`). The range of a node is that of its seat, so ranges nest
as nodes do, and of two nodes neither of which is above the other, one
stands behind the other (`disjoint_of_at?`).
-/
import Inlay.Proofs.Script.Lexis
import Inlay.Proofs.Script.Seats

namespace Inlay

open Text (bytes)

open List

-- == ranges

theorem Span.contains_iff {outer inner : Span} :
    outer.contains inner = true ↔ outer.start ≤ inner.start ∧ inner.stop ≤ outer.stop := by
  simp [Span.contains]

/-- Ranges one behind the other, none of them empty. -/
structure InOrder (rs : List Span) : Prop where
  pairwise : rs.Pairwise (·.stop ≤ ·.start)
  solid : ∀ r ∈ rs, r.start < r.stop

namespace InOrder

variable {rs rs' : List Span}

theorem sublist (h : InOrder rs) (hs : rs'.Sublist rs) : InOrder rs' :=
  ⟨h.pairwise.sublist hs, fun r hr => h.solid r (hs.subset hr)⟩

theorem le_of_append (h : InOrder (rs ++ rs')) {r r' : Span} (hr : r ∈ rs) (hr' : r' ∈ rs') :
    r.stop ≤ r'.start := (pairwise_append.1 h.pairwise).2.2 r hr r' hr'

end InOrder

namespace Script

variable {ts us : List Token} {t : Token}

/-- The ranges of tokens. -/
def spans (ts : List Token) : List Span := ts.map (·.span)

theorem spans_append (ts us : List Token) : spans (ts ++ us) = spans ts ++ spans us :=
  map_append

theorem mem_spans (h : t ∈ ts) : t.span ∈ spans ts := mem_map_of_mem h

theorem exists_first (h : ts ≠ []) : ∃ t ∈ ts, t.span.start = (extent ts).start := by
  cases ts with
  | nil => exact absurd rfl h
  | cons t ts => exact ⟨t, mem_cons_self, rfl⟩

theorem exists_last (h : ts ≠ []) : ∃ t ∈ ts, t.span.stop = (extent ts).stop := by
  refine ⟨ts.getLast h, getLast_mem h, ?_⟩
  rw [extent, getLast?_eq_some_getLast h]
  rfl

theorem contains_extent (h : InOrder (spans ts)) (ht : t ∈ ts) :
    (extent ts).contains t.span = true := by
  have hne : ts ≠ [] := ne_nil_of_mem ht
  have hst : (extent ts).start ≤ t.span.start := by
    cases ts with
    | nil => cases ht
    | cons u ts =>
      rcases mem_cons.1 ht with rfl | ht
      · exact Nat.le_refl _
      · have hs : InOrder ([u.span] ++ spans ts) := h
        have hle := hs.le_of_append (mem_singleton_self _) (mem_spans ht)
        have hlt := h.solid u.span mem_cons_self
        exact Nat.le_trans (Nat.le_of_lt hlt) hle
  have hsto : t.span.stop ≤ (extent ts).stop := by
    obtain ⟨us, u, rfl⟩ : ∃ us u, ts = us ++ [u] :=
      ⟨ts.dropLast, ts.getLast hne, (dropLast_append_getLast hne).symm⟩
    rw [stop_extent us (cons_ne_nil u [])]
    rcases mem_append.1 ht with ht | ht
    · rw [spans_append] at h
      have hle := h.le_of_append (mem_spans ht) (mem_singleton_self u.span)
      have hlt := h.solid u.span (by simp [spans])
      exact Nat.le_trans hle (Nat.le_of_lt hlt)
    · rw [mem_singleton.1 ht]
      exact Nat.le_refl _
  exact Span.contains_iff.2 ⟨hst, hsto⟩

theorem extent_lt (h : InOrder (spans ts)) (hne : ts ≠ []) : (extent ts).start < (extent ts).stop := by
  obtain ⟨t, ht, heq⟩ := exists_first hne
  have hc := Span.contains_iff.1 (contains_extent h ht)
  have hlt := h.solid t.span (mem_spans ht)
  omega

theorem extent_contains (h : InOrder (spans ts)) (hsu : us ⊆ ts) (hne : us ≠ []) :
    (extent ts).contains (extent us) = true := by
  obtain ⟨a, ha, hs⟩ := exists_first hne
  obtain ⟨b, hb, hst⟩ := exists_last hne
  have hf := Span.contains_iff.1 (contains_extent h (hsu ha))
  have hl := Span.contains_iff.1 (contains_extent h (hsu hb))
  exact Span.contains_iff.2 ⟨hs ▸ hf.1, hst ▸ hl.2⟩

end Script

-- == nodes

/-- The ranges of a node's children, as far as they have any. -/
def Node.childRanges (n : Node) : List Span := n.kids.filterMap (·.2.range)

/-- The range starts and ends with a bracket, and what stands between
the two belongs to one of the inner ranges. -/
structure Framed (all : List Span) (r : Span) (inner : List Span) (lb rb : Span) : Prop where
  left_mem : lb ∈ all
  right_mem : rb ∈ all
  start : lb.start = r.start
  stop : rb.stop = r.stop
  le : lb.stop ≤ rb.start
  inside : ∀ i ∈ inner, lb.stop ≤ i.start ∧ i.stop ≤ rb.start
  covers : ∀ s ∈ all, lb.stop ≤ s.start → s.stop ≤ rb.start → ∃ i ∈ inner, i.contains s = true

/-- How a node stands among the tokens of its file. -/
@[mk_iff]
structure Situated (all : List Span) (n : Node) : Prop where
  keys : n.keys.Nodup
  kind : n.kind ≠ .program
  lists : ∀ key ∈ lendableKeys, ∀ list, n.children? key = some list →
    n.kind.listKey = some key ∧ ∀ k ∈ n.kids, k.1.key = key
  hole : n.range = none → n.kind = .elision ∧ n.kids = []
  ends : ∀ r, n.range = some r →
    r.start < r.stop ∧ (∃ s ∈ all, s.start = r.start) ∧ ∃ s ∈ all, s.stop = r.stop
  inside : ∀ r, n.range = some r → ∀ i ∈ n.childRanges, r.contains i = true
  ordered : n.childRanges.Pairwise (·.stop ≤ ·.start)
  framed : n.kind = .blockStatement ∨ (∃ key ∈ lendableKeys, n.children? key = some []) →
    ∃ r lb rb, n.range = some r ∧ Framed all r n.childRanges lb rb

namespace Script

variable {ts us as bs : List Token} {n : Node} {seats : List (List Token × Node)}
  {runs : List (List Token)}

theorem Laid.flatten_sublist (h : Laid ts runs) : runs.flatten.Sublist ts := by
  induction h with
  | nil => exact .slnil
  | skip _ ih => exact ih.cons _
  | run _ ih => exact (List.Sublist.refl _).append ih

theorem pairwise_extent (h : InOrder (spans runs.flatten)) :
    runs.Pairwise fun us vs => us ≠ [] → vs ≠ [] → (extent us).stop ≤ (extent vs).start := by
  induction runs with
  | nil => exact .nil
  | cons us runs ih =>
    rw [flatten_cons] at h
    refine .cons (fun vs hvs hus hne => ?_) (ih (h.sublist (by simp [spans])))
    obtain ⟨a, ha, hst⟩ := exists_last hus
    obtain ⟨b, hb, hs⟩ := exists_first hne
    rw [spans_append] at h
    rw [← hst, ← hs]
    exact h.le_of_append (mem_spans ha) (mem_spans (mem_flatten.2 ⟨vs, hvs, hb⟩))

/-- Two brackets and the runs between them. -/
theorem framed_of_runs {lb rb : Token} {inner : List Span}
    (ho : InOrder (spans (as ++ (lb :: (runs.flatten ++ [rb]) ++ bs))))
    (hin : ∀ i ∈ inner, ∃ us ∈ runs, us ≠ [] ∧ i = extent us)
    (hru : ∀ us ∈ runs, us ≠ [] → extent us ∈ inner) :
    Framed (spans (as ++ (lb :: (runs.flatten ++ [rb]) ++ bs)))
      (extent (lb :: (runs.flatten ++ [rb]))) inner lb.span rb.span := by
  have hts : InOrder (spans (lb :: (runs.flatten ++ [rb]))) := ho.sublist (by simp [spans])
  have hl : ∀ t ∈ runs.flatten ++ [rb], lb.span.stop ≤ t.span.start :=
    fun t ht =>
      have hsp : InOrder ([lb.span] ++ spans (runs.flatten ++ [rb])) := hts
      hsp.le_of_append (mem_singleton_self _) (mem_spans ht)
  have hr : ∀ t ∈ runs.flatten, t.span.stop ≤ rb.span.start := by
    intro t ht
    have hsu : InOrder (spans runs.flatten ++ [rb.span]) := hts.sublist (by simp [spans])
    exact hsu.le_of_append (mem_spans ht) (mem_singleton_self _)
  have hst : rb.span.stop = (extent (lb :: (runs.flatten ++ [rb]))).stop := by
    rw [← cons_append, stop_extent _ (cons_ne_nil rb [])]
    rfl
  refine ⟨mem_spans (by simp), mem_spans (by simp), rfl, hst, hl rb (by simp), ?_, ?_⟩
  · intro i hi
    obtain ⟨us, hus, hne, rfl⟩ := hin i hi
    obtain ⟨a, ha, hsta⟩ := exists_first hne
    obtain ⟨b, hb, hst⟩ := exists_last hne
    rw [← hsta, ← hst]
    exact ⟨hl a (mem_append_left _ (mem_flatten.2 ⟨us, hus, ha⟩)),
      hr b (mem_flatten.2 ⟨us, hus, hb⟩)⟩
  · -- a token outside of the brackets ends before the left one or starts behind the right one
    intro s hs hlo hu
    obtain ⟨t, ht, rfl⟩ := mem_map.1 hs
    have hso := ho.solid t.span hs
    have hlb := ho.solid lb.span (mem_spans (by simp))
    have hrb := ho.solid rb.span (mem_spans (by simp))
    simp only [mem_append, mem_cons, not_mem_nil, or_false] at ht
    rcases ht with ht | (rfl | ht | rfl) | ht
    · have hbe := InOrder.le_of_append (spans_append as _ ▸ ho) (mem_spans ht)
        (mem_spans (t := lb) (by simp))
      omega
    · omega
    · obtain ⟨us, hus, ht⟩ := mem_flatten.1 ht
      have hne : us ≠ [] := ne_nil_of_mem ht
      refine ⟨extent us, hru us hus hne, contains_extent (hts.sublist ?_) ht⟩
      exact (((sublist_flatten_of_mem hus).trans (sublist_append_left _ _)).cons _).map _
    · omega
    · have hsp : InOrder (spans (as ++ (lb :: (runs.flatten ++ [rb]))) ++ spans bs) := by
        rw [← spans_append, append_assoc]
        exact ho
      have hbeh := hsp.le_of_append (mem_spans (t := rb) (by simp)) (mem_spans ht)
      omega

theorem mem_ranges (hs : ∀ x ∈ seats, Seat x.1 x.2) {i : Span}
    (hi : i ∈ seats.filterMap (·.2.range)) : ∃ us ∈ seats.map (·.1), us ≠ [] ∧ i = extent us := by
  obtain ⟨x, hx, hr⟩ := mem_filterMap.1 hi
  exact ⟨x.1, mem_map_of_mem hx, (hs x hx).range hr⟩

theorem extent_mem_ranges (hs : ∀ x ∈ seats, Seat x.1 x.2) (hus : us ∈ seats.map (·.1))
    (hne : us ≠ []) : extent us ∈ seats.filterMap (·.2.range) := by
  obtain ⟨x, hx, rfl⟩ := mem_map.1 hus
  exact mem_filterMap.2 ⟨x, hx, (hs x hx).range_eq hne⟩

theorem pairwise_ranges (hs : ∀ x ∈ seats, Seat x.1 x.2)
    (ho : InOrder (spans (seats.map (·.1)).flatten)) :
    (seats.filterMap (·.2.range)).Pairwise (·.stop ≤ ·.start) := by
  rw [pairwise_filterMap]
  refine (pairwise_map.1 (pairwise_extent ho)).imp_of_mem fun {x y} hx hy hle r hr r' hr' => ?_
  obtain ⟨hx, rfl⟩ := (hs x hx).range hr
  obtain ⟨hy, rfl⟩ := (hs y hy).range hr'
  exact hle hx hy

theorem childRanges_of_kids (h : n.kids.map (·.2) = seats.map (·.2)) :
    n.childRanges = seats.filterMap (·.2.range) := by
  have hm := congrArg (List.filterMap Node.range) h
  rwa [filterMap_map, filterMap_map] at hm

/-- A node that has a seat is situated among the tokens of its file. -/
theorem situated_of_formed (hne : ts ≠ []) (hk : n.kids.map (·.2) = seats.map (·.2))
    (hl : Laid ts (seats.map (·.1))) (hf : Formed ts (seats.map (·.1)) n)
    (hs : ∀ x ∈ seats, Seat x.1 x.2) (ho : InOrder (spans (as ++ (ts ++ bs)))) :
    Situated (spans (as ++ (ts ++ bs))) n := by
  have hts : InOrder (spans ts) := ho.sublist (by simp [spans])
  have hra := childRanges_of_kids hk
  refine ⟨hf.keys, hf.kind, hf.lists, ?_, ?_, ?_, ?_, ?_⟩
  · intro hn
    rw [hf.range] at hn
    cases hn
  · intro r hr
    rw [hf.range] at hr
    cases hr
    obtain ⟨a, ha, hst⟩ := exists_first hne
    obtain ⟨b, hb, hsto⟩ := exists_last hne
    exact ⟨extent_lt hts hne, ⟨a.span, mem_spans (by simp [ha]), hst⟩, b.span,
      mem_spans (by simp [hb]), hsto⟩
  · intro r hr i hi
    rw [hf.range] at hr
    cases hr
    obtain ⟨us, hus, hni, rfl⟩ := mem_ranges hs (hra ▸ hi)
    obtain ⟨as', bs', rfl⟩ := hl.exists_of_mem hus
    exact extent_contains hts (by simp) hni
  · rw [hra]
    exact pairwise_ranges hs (hts.sublist (hl.flatten_sublist.map _))
  · intro hfr
    obtain ⟨lb, rb, rfl⟩ := hf.framed hfr
    rw [hra]
    exact ⟨_, lb.span, rb.span, hf.range, framed_of_runs ho
      (fun i hi => mem_ranges hs hi) fun us hus hni => extent_mem_ranges hs hus hni⟩

theorem Seat.situated (h : Seat ts n) (ho : InOrder (spans (as ++ (ts ++ bs)))) :
    n.Every (Situated (spans (as ++ (ts ++ bs)))) := by
  induction h generalizing as bs with
  | hole =>
    refine Node.every_iff.2 ⟨?_, fun k hk => by cases hk⟩
    refine ⟨by simp [Node.keys, Node.hole, Node.bare], nofun, ?_, fun _ => ⟨rfl, rfl⟩, nofun, nofun, .nil, ?_⟩
    · intro key _ list hl
      cases hl
    · rintro (hb | ⟨key, -, hl⟩)
      · cases hb
      · cases hl
  | @node ts n seats hne hki hla hf hs ih =>
    refine Node.every_iff.2 ⟨situated_of_formed hne hki hla hf hs ho, fun k hk => ?_⟩
    obtain ⟨x, hx, hxk⟩ := mem_map.1 (hki ▸ mem_map_of_mem hk)
    obtain ⟨as', bs', rfl⟩ := hla.exists_of_mem (mem_map_of_mem hx)
    have hl : as ++ (as' ++ (x.1 ++ bs') ++ bs) = (as ++ as') ++ (x.1 ++ (bs' ++ bs)) := by simp
    rw [hl] at ho ⊢
    rw [← hxk]
    exact ih x hx ho

end Script

-- == nesting

variable {all : List Span} {n a b : Node} {p q : Path} {r r' : Span}

/-- How a node stands as far as its children are concerned. -/
@[mk_iff]
structure Nested (n : Node) : Prop where
  hole : n.range = none → n.kids = []
  inside : ∀ r, n.range = some r → ∀ i ∈ n.childRanges, r.contains i = true
  ordered : n.childRanges.Pairwise (·.stop ≤ ·.start)

theorem Situated.nested (h : Situated all n) : Nested n :=
  ⟨fun hr => (h.hole hr).2, h.inside, h.ordered⟩

/-- What stands below a node stands in its range. -/
theorem contains_of_mem_preorder (h : n.Every Nested) (ha : a ∈ n.preorder)
    (hr : a.range = some r) : ∃ r', n.range = some r' ∧ r'.contains r = true := by
  induction n using Node.induction_kids with
  | h n ih =>
    rw [Node.preorder_eq, mem_cons, mem_flatMap] at ha
    obtain rfl | ⟨k, hk, ha⟩ := ha
    · exact ⟨r, hr, Span.contains_iff.2 ⟨Nat.le_refl _, Nat.le_refl _⟩⟩
    · obtain ⟨i, hi, hin⟩ := ih k hk ((Node.every_iff.1 h).2 k hk) ha
      cases hra : n.range with
      | none =>
        rw [h.self.hole hra] at hk
        cases hk
      | some r' =>
        have ho := h.self.inside r' hra i (mem_filterMap.2 ⟨k, hk, hi⟩)
        rw [Span.contains_iff] at ho hin
        exact ⟨r', rfl, Span.contains_iff.2 ⟨Nat.le_trans ho.1 hin.1, Nat.le_trans hin.2 ho.2⟩⟩

theorem contains_of_at? (h : n.Every Nested) (ha : n.at? p = some a) (hr : a.range = some r) :
    ∃ r', n.range = some r' ∧ r'.contains r = true :=
  contains_of_mem_preorder h (Node.mem_preorder_of_at? ha) hr

/-- Of two nodes neither of which is above the other, one stands behind
the other. -/
theorem disjoint_of_at? (h : n.Every Nested) (ha : n.at? p = some a) (hb : n.at? q = some b)
    (hr : a.range = some r) (hr' : b.range = some r') :
    p <+: q ∨ q <+: p ∨ r.stop ≤ r'.start ∨ r'.stop ≤ r.start := by
  induction p generalizing n q with
  | nil => exact .inl nil_prefix
  | cons s p ih =>
    cases q with
    | nil => exact .inr (.inl nil_prefix)
    | cons s' q =>
      obtain ⟨m, hs, hm⟩ := Node.at?_cons_eq_some_iff.1 ha
      obtain ⟨m', hs', hm'⟩ := Node.at?_cons_eq_some_iff.1 hb
      by_cases heq : s = s'
      · subst heq
        obtain rfl := Option.some.inj (hs.symm.trans hs')
        rcases ih (h.step hs) hm hm' with hp | hp | hd
        · exact .inl (cons_prefix_cons.2 ⟨rfl, hp⟩)
        · exact .inr (.inl (cons_prefix_cons.2 ⟨rfl, hp⟩))
        · exact .inr (.inr hd)
      · refine .inr (.inr ?_)
        obtain ⟨i, hi, hin⟩ := contains_of_at? (h.step hs) hm hr
        obtain ⟨i', hi', hin'⟩ := contains_of_at? (h.step hs') hm' hr'
        have hk : i.stop ≤ i'.start ∨ i'.stop ≤ i.start := by
          have hpa := pairwise_filterMap.1 h.self.ordered
          have hl := Node.mem_kids_of_step? hs'
          obtain ⟨A, B, hsp⟩ := append_of_mem (Node.mem_kids_of_step? hs)
          rw [hsp] at hpa hl
          obtain ⟨-, hB, hA⟩ := pairwise_append.1 hpa
          rcases mem_append.1 hl with hl | hl
          · exact .inr (hA _ hl _ mem_cons_self i' hi' i hi)
          · rcases mem_cons.1 hl with heq' | hl
            · exact absurd (congrArg Prod.fst heq').symm heq
            · exact .inl ((pairwise_cons.1 hB).1 _ hl i hi i' hi')
        rw [Span.contains_iff] at hin hin'
        omega

-- == lexemes

theorem Text.bytes_pos {cs : List Char} (h : cs ≠ []) : 0 < bytes cs := by
  cases cs with
  | nil => exact absurd rfl h
  | cons c cs => exact Nat.add_pos_left c.utf8Size_pos _

theorem InOrder.cons {rs : List Span} (hr : r.start < r.stop) (hrs : ∀ i ∈ rs, r.stop ≤ i.start)
    (h : InOrder rs) : InOrder (r :: rs) :=
  ⟨.cons hrs h.pairwise, forall_mem_cons.2 ⟨hr, h.solid⟩⟩

namespace Script

/-- The ranges of a script's tokens, the end aside. -/
def Lexed.spans (lexed : Lexed) : List Span := (lexed.tokens.filter (!·.isEnd)).map (·.span)

/-- The ranges of a script's comments. -/
def Lexed.commentRanges (lexed : Lexed) : List Span := lexed.comments.filterMap (·.range)

/-- Tokens and comments stand between two offsets, one behind the
other. -/
structure Lexed.Spaced (lexed : Lexed) (lower upper : Nat) : Prop where
  spans : InOrder lexed.spans
  comments : InOrder lexed.commentRanges
  ranged : ∀ c ∈ lexed.comments, c.range.isSome = true
  apart : ∀ s ∈ lexed.spans, ∀ r ∈ lexed.commentRanges, s.stop ≤ r.start ∨ r.stop ≤ s.start
  within : ∀ r ∈ lexed.spans ++ lexed.commentRanges, lower ≤ r.start ∧ r.stop ≤ upper

variable {lexed : Lexed} {lower lower' upper : Nat} {t : Token} {c : Char} {rest : List Char}

theorem Lexed.Spaced.mono (h : lexed.Spaced lower upper) (hle : lower' ≤ lower) :
    lexed.Spaced lower' upper :=
  ⟨h.spans, h.comments, h.ranged, h.apart,
    fun r hr => ⟨Nat.le_trans hle (h.within r hr).1, (h.within r hr).2⟩⟩

theorem Lexed.Spaced.comment (h : lexed.Spaced lower upper) {c : Comment} (hc : c.range = some r)
    (hr : r.start < r.stop) (hl : lower' ≤ r.start) (hst : r.stop = lower) (hu : r.stop ≤ upper) :
    ({ lexed with comments := c :: lexed.comments } : Lexed).Spaced lower' upper := by
  have hra : ({ lexed with comments := c :: lexed.comments } : Lexed).commentRanges =
      r :: lexed.commentRanges := filterMap_cons_some hc
  have hb : ∀ i ∈ lexed.spans ++ lexed.commentRanges, r.stop ≤ i.start :=
    fun i hi => hst ▸ (h.within i hi).1
  rw [forall_mem_append] at hb
  have hbo := (h.mono (show lower' ≤ lower by omega)).within
  rw [forall_mem_append] at hbo
  refine ⟨h.spans, ?_, ?_, ?_, ?_⟩
  · rw [hra]
    exact h.comments.cons hr hb.2
  · exact forall_mem_cons.2 ⟨by rw [hc]; rfl, h.ranged⟩
  · rw [hra]
    intro s hs i hi
    rcases mem_cons.1 hi with rfl | hi
    · exact .inr (hb.1 s hs)
    · exact h.apart s hs i hi
  · rw [hra, forall_mem_append, forall_mem_cons]
    exact ⟨hbo.1, ⟨hl, hu⟩, hbo.2⟩

theorem Lexed.spans_token (lexed : Lexed) (ht : t.isEnd = false) :
    ({ lexed with tokens := t :: lexed.tokens } : Lexed).spans = t.span :: lexed.spans := by
  simp [Lexed.spans, ht]

theorem Lexed.Spaced.token (h : lexed.Spaced lower upper) (ht : t.isEnd = false)
    (hr : t.span.start < t.span.stop) (hl : lower' ≤ t.span.start) (hst : t.span.stop = lower)
    (hu : t.span.stop ≤ upper) :
    ({ lexed with tokens := t :: lexed.tokens } : Lexed).Spaced lower' upper := by
  have hsp := lexed.spans_token ht
  have hb : ∀ i ∈ lexed.spans ++ lexed.commentRanges, t.span.stop ≤ i.start :=
    fun i hi => hst ▸ (h.within i hi).1
  rw [forall_mem_append] at hb
  have hbo := (h.mono (show lower' ≤ lower by omega)).within
  refine ⟨?_, h.comments, h.ranged, ?_, ?_⟩
  · rw [hsp]
    exact h.spans.cons hr hb.1
  · rw [hsp]
    intro s hs i hi
    rcases mem_cons.1 hs with rfl | hs
    · exact .inl (hb.2 i hi)
    · exact h.apart s hs i hi
  · rw [hsp, cons_append, forall_mem_cons]
    exact ⟨⟨hl, hu⟩, hbo⟩

variable {off : Nat} {newline : Bool} {cs text front : List Char}

theorem Scans.spaced (h : Scans off newline cs lexed) : lexed.Spaced off (off + bytes cs) := by
  induction h with
  | done => exact ⟨⟨.nil, nofun⟩, ⟨.nil, nofun⟩, nofun, nofun, nofun⟩
  | skip _ _ ih =>
    rw [Text.bytes_append, ← Nat.add_assoc]
    exact ih.mono (Nat.le_add_right ..)
  | @comment _ _ kind _ _ _ _ _ ih =>
    rw [Text.bytes_append, ← Nat.add_assoc]
    refine ih.comment rfl (Nat.lt_add_of_pos_right (Text.bytes_pos ?_)) (Nat.le_refl _) rfl
      (Nat.le_add_right ..)
    cases kind <;> exact cons_ne_nil _ _
  | token hne _ hk _ ih =>
    rw [Text.bytes_append, ← Nat.add_assoc]
    exact ih.token (by simpa [Token.isEnd] using hk)
      (Nat.lt_add_of_pos_right (Text.bytes_pos hne)) (Nat.le_refl _) rfl (Nat.le_add_right ..)

theorem lex_spaced (h : lex cs = .ok lexed) : lexed.Spaced 0 (bytes cs) := by
  simpa using (lex_scans h).spaced

-- == slices

open Lexeme (isBlank isLineTerminator)

/-- The text stands at the range, in a longer one. -/
def IsSlice (cs : List Char) (r : Span) (text : List Char) : Prop :=
  ∃ front rest, cs = front ++ (text ++ rest) ∧
    r = ⟨bytes front, bytes front + bytes text⟩

theorem Scans.isSlice (h : Scans (bytes front) newline cs lexed) :
    (∀ t ∈ lexed.tokens, IsSlice (front ++ cs) t.span t.text.toList) ∧
      ∀ c ∈ lexed.comments, ∃ r, c.range = some r ∧
        IsSlice (front ++ cs) r (commentText c.kind c.value.toList) := by
  generalize ho : bytes front = off at h
  induction h generalizing front with
  | done => exact ⟨forall_mem_singleton.2 ⟨front, [], rfl, by rw [ho]; rfl⟩, nofun⟩
  | skip _ _ ih =>
    rw [← append_assoc]
    exact ih (by rw [Text.bytes_append, ho])
  | @comment _ _ kind value _ _ _ _ ih =>
    obtain ⟨ht, hc⟩ := @ih (front ++ commentText kind value) (by rw [Text.bytes_append, ho])
    rw [append_assoc] at ht hc
    refine ⟨ht, forall_mem_cons.2 ⟨⟨_, rfl, front, _, by rw [String.toList_ofList], ?_⟩, hc⟩⟩
    rw [ho, String.toList_ofList]
  | @token _ _ _ text _ _ _ _ _ _ ih =>
    obtain ⟨ht, hc⟩ := @ih (front ++ text) (by rw [Text.bytes_append, ho])
    rw [append_assoc] at ht hc
    refine ⟨forall_mem_cons.2 ⟨⟨front, _, by rw [String.toList_ofList], ?_⟩, ht⟩, hc⟩
    rw [ho, String.toList_ofList]

theorem mem_part (h : text ++ cs = front ++ c :: rest) :
    (∃ behind, text = front ++ c :: behind) ∨
      ∃ inner, front = text ++ inner ∧ cs = inner ++ c :: rest := by
  obtain ⟨inner, hf, hcs⟩ | ⟨behind, ht, hb⟩ := append_eq_append_iff.1 h
  · exact .inr ⟨inner, hf, hcs⟩
  · cases behind with
    | nil => exact .inr ⟨[], by simpa using ht.symm, hb.symm⟩
    | cons d behind =>
      cases hb
      exact .inl ⟨behind, ht⟩

/-- What stands in no token and no comment is blank or ends a line. -/
theorem Scans.covers (h : Scans off newline cs lexed) (hcs : cs = front ++ c :: rest) :
    (isBlank c = true ∨ isLineTerminator c = true) ∨
      ∃ r ∈ lexed.spans ++ lexed.commentRanges, r.contains
        ⟨off + bytes front, off + bytes front + c.utf8Size⟩ = true := by
  -- inside of a lexeme the claim is about that lexeme, and behind it about what follows
  have hi : ∀ {off : Nat} {text front behind : List Char}, text = front ++ c :: behind →
      (⟨off, off + bytes text⟩ : Span).contains
        ⟨off + bytes front, off + bytes front + c.utf8Size⟩ = true := by
    rintro off _ front behind rfl
    rw [Text.bytes_append, bytes, Span.contains_iff]
    constructor <;> dsimp only <;> omega
  induction h generalizing front with
  | done => simp at hcs
  | skip ht _ ih =>
    obtain ⟨behind, rfl⟩ | ⟨inner, rfl, rfl⟩ := mem_part hcs
    · exact .inl (ht c (by simp))
    · rw [Text.bytes_append, ← Nat.add_assoc]
      exact ih rfl
  | comment _ _ ih =>
    obtain ⟨behind, ht⟩ | ⟨inner, rfl, rfl⟩ := mem_part hcs
    · exact .inr ⟨_, mem_append_right _ mem_cons_self, hi ht⟩
    · rw [Text.bytes_append, ← Nat.add_assoc]
      refine (ih rfl).imp_right (Exists.imp fun r hr => hr.imp_left fun hr => ?_)
      exact (mem_append.1 hr).elim (mem_append_left _) fun hr =>
        mem_append_right _ (mem_cons_of_mem _ hr)
  | token _ _ hk _ ih =>
    rw [Lexed.spans_token _ (by simpa [Token.isEnd] using hk), cons_append]
    obtain ⟨behind, ht⟩ | ⟨inner, rfl, rfl⟩ := mem_part hcs
    · exact .inr ⟨_, mem_cons_self, hi ht⟩
    · rw [Text.bytes_append, ← Nat.add_assoc]
      exact (ih rfl).imp_right (Exists.imp fun r => And.imp_left (mem_cons_of_mem _))

/-- Tokens and comments partition a text. They stand one behind the
other; each is the slice of the text at its range, and what lies between
them is blank or ends a line. The last token is the end of the text. -/
theorem lex_partitions (h : lex cs = .ok lexed) :
    InOrder lexed.spans ∧ InOrder lexed.commentRanges ∧
    (∀ s ∈ lexed.spans, ∀ r ∈ lexed.commentRanges, s.stop ≤ r.start ∨ r.stop ≤ s.start) ∧
    (∀ t ∈ lexed.tokens, t.IsSpelled ∧ IsSlice cs t.span t.text.toList) ∧
    (∀ c ∈ lexed.comments, ∃ r, c.range = some r ∧
      IsSlice cs r (commentText c.kind c.value.toList)) ∧
    (∀ front c rest, cs = front ++ c :: rest →
      (isBlank c = true ∨ isLineTerminator c = true) ∨
      ∃ r ∈ lexed.spans ++ lexed.commentRanges, r.contains
        ⟨bytes front, bytes front + c.utf8Size⟩ = true) ∧
    ∃ ts e, lexed.tokens = ts ++ [e] ∧ e.isEnd = true ∧
      e.span = ⟨bytes cs, bytes cs⟩ ∧ ∀ t ∈ ts, t.isEnd = false := by
  have hscans : Scans (bytes []) false cs lexed := lex_scans h
  have hspaced := hscans.spaced
  refine ⟨hspaced.spans, hspaced.comments, hspaced.apart, ?_, hscans.isSlice.2, ?_, ?_⟩
  · exact fun t ht => ⟨hscans.spelled t ht, hscans.isSlice.1 t ht⟩
  · intro front c rest hcs
    simpa using (lex_scans h).covers hcs
  · simpa using (lex_scans h).ends

/-- In "'é' /*x*/\n//y" stand a string and two comments, with a blank and a
line end between them. -/
theorem lex_partitions_string :
    ∃ lexed, lex "'é' /*x*/\n//y".toList = .ok lexed ∧
      lexed.spans = [⟨0, 4⟩] ∧ lexed.commentRanges = [⟨5, 10⟩, ⟨11, 14⟩] ∧
      ∀ c ∈ lexed.comments, ∃ r, c.range = some r ∧
        IsSlice "'é' /*x*/\n//y".toList r (commentText c.kind c.value.toList) := by
  have hranges : (lex "'é' /*x*/\n//y".toList).toOption.map (fun l => (l.spans, l.commentRanges)) =
      some ([⟨0, 4⟩], [⟨5, 10⟩, ⟨11, 14⟩]) := by decide +kernel
  cases h : lex "'é' /*x*/\n//y".toList with
  | error =>
    rw [h] at hranges
    cases hranges
  | ok lexed =>
    rw [h] at hranges
    obtain ⟨hspans, hcomments⟩ := Prod.mk.inj (Option.some.inj hranges)
    exact ⟨lexed, rfl, hspans, hcomments, (lex_partitions h).2.2.2.2.1⟩

end Script

end Inlay
