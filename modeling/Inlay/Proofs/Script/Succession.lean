/-
The order of comments.

A walk comes to the nodes of a tree in the order in which they start
(`Node.pairwise_preorder`). The comments that lead nodes come in the same
order; those that trail nodes come in the order in which the nodes end.
-/
import Inlay.Proofs.Script.Hollows

namespace Inlay

open List

variable {all : List Span} {t : Tree} {n m : Node} {p q : Path} {r r' rc rc' : Span}
  {c c' : Comment} {off : Nat}

-- == lists

section Lists

variable {α : Type} {l : List α} {P : α → Bool}

/-- If what fulfils a condition comes first, it is all that does. -/
theorem takeWhile_eq_filter (h : l.Pairwise fun a b => P b = true → P a = true) :
    l.takeWhile P = l.filter P := by
  induction l with
  | nil => rfl
  | cons a l ih =>
    obtain ⟨hh, ht⟩ := pairwise_cons.1 h
    by_cases ha : P a = true
    · rw [takeWhile_cons_of_pos ha, filter_cons_of_pos ha, ih ht]
    · rw [takeWhile_cons_of_neg ha, filter_cons_of_neg ha]
      exact (filter_eq_nil_iff.2 fun b hb hPb => ha (hh b hb hPb)).symm

theorem dropWhile_eq_filter (h : l.Pairwise fun a b => P b = true → P a = true) :
    l.dropWhile P = l.filter (!P ·) := by
  induction l with
  | nil => rfl
  | cons a l ih =>
    obtain ⟨hh, ht⟩ := pairwise_cons.1 h
    by_cases ha : P a = true
    · rw [dropWhile_cons_of_pos ha, filter_cons_of_neg (by simp [ha]), ih ht]
    · rw [dropWhile_cons_of_neg ha, filter_cons_of_pos (by simp [ha])]
      rw [filter_eq_self.2 fun b hb => by simpa using fun hPb => ha (hh b hb hPb)]

end Lists

-- == tokens

/-- Of two ranges one stands before the other. -/
theorem InOrder.eq_or_before {rs : List Span} (h : InOrder rs) (hr : r ∈ rs) (hr' : r' ∈ rs) :
    r = r' ∨ r.stop ≤ r'.start ∨ r'.stop ≤ r.start := by
  obtain ⟨A, B, rfl⟩ := append_of_mem hr
  obtain hr' | hr' := mem_append.1 hr'
  · exact .inr (.inr (h.le_of_append hr' (.head _)))
  · obtain heq | hr' := mem_cons.1 hr'
    · exact .inl heq.symm
    · exact .inr (.inl ((pairwise_cons.1 (pairwise_append.1 h.pairwise).2.1).1 r' hr'))

namespace Script

theorem exists_of_startBehind (h : InOrder all) (hst : startBehind all rc = some off) :
    ∃ b ∈ all, b.start = off ∧ rc.stop ≤ b.start ∧
      ∀ s ∈ all, rc.stop ≤ s.start → b.start ≤ s.start := by
  obtain ⟨b, hb, rfl⟩ := Option.map_eq_some_iff.1 hst
  obtain ⟨hle, A, B, ha, hA⟩ := find?_eq_some_iff_append.1 hb
  refine ⟨b, mem_of_find?_eq_some hb, rfl, of_decide_eq_true hle, fun s hs hsto => ?_⟩
  rw [ha] at hs h
  obtain hs | hs := mem_append.1 hs
  · have hn := hA s hs
    simp [hsto] at hn
  · obtain rfl | hs := mem_cons.1 hs
    · exact Nat.le_refl _
    · have hbs := (pairwise_cons.1 (pairwise_append.1 h.pairwise).2.1).1 s hs
      have hso := h.solid b (by simp)
      omega

theorem takeWhile_stop_eq (h : InOrder all) (off : Nat) :
    all.takeWhile (·.stop ≤ off) = all.filter (·.stop ≤ off) := by
  refine takeWhile_eq_filter (h.pairwise.imp_of_mem fun {s s'} _ hs' hle hs => ?_)
  have hso := h.solid s' hs'
  simp only [decide_eq_true_eq] at hs ⊢
  omega

theorem exists_of_endBefore (h : InOrder all) (hst : endBefore all rc = some off) :
    ∃ b ∈ all, b.stop = off ∧ b.stop ≤ rc.start ∧
      ∀ s ∈ all, s.stop ≤ rc.start → s.stop ≤ b.stop := by
  rw [endBefore, takeWhile_stop_eq h] at hst
  obtain ⟨b, hb, rfl⟩ := Option.map_eq_some_iff.1 hst
  obtain ⟨A, hA⟩ := getLast?_eq_some_iff.1 hb
  have ho := h.sublist (filter_sublist (p := fun s : Span => s.stop ≤ rc.start))
  obtain ⟨hm, hle⟩ := mem_filter.1 (mem_of_getLast? hb)
  refine ⟨b, hm, rfl, of_decide_eq_true hle, fun s hs hs' => ?_⟩
  have hs : s ∈ A ++ [b] := hA ▸ mem_filter.2 ⟨hs, by simpa using hs'⟩
  rw [hA] at ho
  obtain hs | hs := mem_append.1 hs
  · have hsb := ho.le_of_append hs (mem_singleton_self b)
    have hso := h.solid b hm
    omega
  · rw [mem_singleton.1 hs]

end Script

-- == nodes

/-- Of two nodes the one that comes first has the other in its range, or
before it. -/
theorem Node.pairwise_preorder (h : n.Every Nested) :
    n.preorder.Pairwise fun a b => ∀ r r', a.range = some r → b.range = some r' →
      r.contains r' = true ∨ r.stop ≤ r'.start := by
  induction n using Node.induction_kids with
  | h n ih =>
    obtain ⟨hn, hki⟩ := Node.every_iff.1 h
    rw [Node.preorder_eq, pairwise_cons, pairwise_flatMap]
    refine ⟨fun m hm r r' hr hr' => .inl ?_, fun k hk => ih k hk (hki k hk), ?_⟩
    · have hme : m ∈ n.preorder := by
        rw [Node.preorder_eq]
        exact .tail _ hm
      obtain ⟨i, hi, hin⟩ := contains_of_mem_preorder h hme hr'
      rw [hr] at hi
      cases hi
      exact hin
    · refine (pairwise_filterMap.1 hn.ordered).imp_of_mem
        fun {k l} hk hl hle a ha b hb r r' hr hr' => ?_
      obtain ⟨i, hi, hin⟩ := contains_of_mem_preorder (hki k hk) ha hr
      obtain ⟨i', hi', hin'⟩ := contains_of_mem_preorder (hki l hl) hb hr'
      have := hle i hi i' hi'
      rw [Span.contains_iff] at hin hin'
      omega

-- == comments

namespace Placed

open Script

variable (h : Placed all t)

include h

variable (hn : t.root.at? p = some n)

include hn

/-- The node that is found first is not the root. -/
theorem exists_of_find? {P : Span → Bool}
    (hf : (t.root.places.tail.find? fun place => place.2.range.any P).map (·.1) = some p) :
    ∃ r, n.range = some r ∧ r.start < r.stop ∧ P r = true := by
  obtain ⟨place, hp, rfl⟩ := Option.map_eq_some_iff.1 hf
  obtain ⟨hat, hne⟩ := h.of_mem_places (mem_of_find?_eq_some hp)
  rw [hn] at hat
  cases hat
  obtain ⟨r, hr, hP⟩ := (Option.any_eq_true _ _).1
    (find?_some (p := fun place : Path × Node => place.2.range.any P) hp)
  exact ⟨r, hr, ((h.situated hn hne).ends r hr).1, hP⟩

/-- A comment that leads a node stands before its first token. -/
theorem start_of_leads (hc : c.range.bind (host? t.root.places.tail all) = some (.leading p)) :
    ∃ rc r, c.range = some rc ∧ n.range = some r ∧ r.start < r.stop ∧
      startBehind all rc = some r.start ∧ pathStarting t.root.places.tail r.start = some p := by
  obtain ⟨rc, hrc, hh⟩ := Option.bind_eq_some_iff.1 hc
  obtain ⟨off, hst, hp⟩ := Option.bind_eq_some_iff.1 (host?_eq_leading.1 hh)
  obtain ⟨r, hr, hs, ho⟩ := h.exists_of_find? hn hp
  obtain rfl := beq_iff_eq.1 ho
  exact ⟨rc, r, hrc, hr, hs, hst, hp⟩

/-- A comment that trails a node stands behind its last token. -/
theorem stop_of_trails (hc : c.range.bind (host? t.root.places.tail all) = some (.trailing p)) :
    ∃ rc r, c.range = some rc ∧ n.range = some r ∧ r.start < r.stop ∧
      endBefore all rc = some r.stop ∧ pathEnding t.root.places.tail r.stop = some p := by
  obtain ⟨rc, hrc, hh⟩ := Option.bind_eq_some_iff.1 hc
  obtain ⟨off, hst, hp⟩ := Option.bind_eq_some_iff.1 (host?_eq_trailing.1 hh).2
  obtain ⟨r, hr, hs, ho⟩ := h.exists_of_find? hn hp
  obtain rfl := beq_iff_eq.1 ho
  exact ⟨rc, r, hrc, hr, hs, hst, hp⟩

omit hn in
/-- Comments stand in the order of the offsets that are found next to
them. -/
theorem before_of_find {next : Span → Option Nat} {i j : Nat} (hc : c ∈ t.comments)
    (hc' : c' ∈ t.comments) (hrc : c.range = some rc) (hrc' : c'.range = some rc')
    (hs : next rc = some i) (hs' : next rc' = some j) (hlt : i < j)
    (hle : rc.start < rc.stop → rc'.start < rc'.stop → rc'.stop ≤ rc.start → j ≤ i) :
    rc.stop ≤ rc'.start := by
  have hme := mem_filterMap.2 ⟨c, hc, hrc⟩
  have hme' := mem_filterMap.2 ⟨c', hc', hrc'⟩
  obtain rfl | hbe | hbe := h.comments.eq_or_before hme hme'
  · rw [hs] at hs'
    exact absurd (Option.some.inj hs') hlt.ne
  · exact hbe
  · have := hle (h.comments.solid rc hme) (h.comments.solid rc' hme') hbe
    omega

/-- Comments that lead nodes stand in the order in which the nodes
start. -/
theorem before_of_leads (hm : t.root.at? q = some m) (hpq : p ≠ q)
    (hc : c ∈ t.comments) (hc' : c' ∈ t.comments)
    (hl : c.range.bind (host? t.root.places.tail all) = some (.leading p))
    (hl' : c'.range.bind (host? t.root.places.tail all) = some (.leading q))
    (hle : ∀ r r', n.range = some r → r.start < r.stop → m.range = some r' → r.start ≤ r'.start) :
    ∃ rc rc', c.range = some rc ∧ c'.range = some rc' ∧ rc.stop ≤ rc'.start := by
  obtain ⟨rc, r, hrc, hr, hw, hs, hp⟩ := h.start_of_leads hn hl
  obtain ⟨rc', r', hrc', hr', -, hs', hp'⟩ := h.start_of_leads hm hl'
  have hlt := (hle r r' hr hw hr').lt_of_ne fun heq =>
    hpq (Option.some.inj (hp.symm.trans (heq ▸ hp')))
  refine ⟨rc, rc', hrc, hrc', h.before_of_find hc hc' hrc hrc' hs hs' hlt fun hso _ hbe => ?_⟩
  -- the token behind the first comment is behind the second as well
  obtain ⟨b, hb, hbr, hbeh, -⟩ := exists_of_startBehind h.spans hs
  obtain ⟨b', -, hbr', -, hf⟩ := exists_of_startBehind h.spans hs'
  have := hf b hb (by omega)
  omega

/-- Comments that trail nodes stand in the order in which the nodes
end. -/
theorem before_of_trails (hm : t.root.at? q = some m) (hpq : p ≠ q)
    (hc : c ∈ t.comments) (hc' : c' ∈ t.comments)
    (ht : c.range.bind (host? t.root.places.tail all) = some (.trailing p))
    (ht' : c'.range.bind (host? t.root.places.tail all) = some (.trailing q))
    (hle : ∀ r r', n.range = some r → m.range = some r' → r'.start < r'.stop → r.stop ≤ r'.stop) :
    ∃ rc rc', c.range = some rc ∧ c'.range = some rc' ∧ rc.stop ≤ rc'.start := by
  obtain ⟨rc, r, hrc, hr, -, hs, hp⟩ := h.stop_of_trails hn ht
  obtain ⟨rc', r', hrc', hr', hw, hs', hp'⟩ := h.stop_of_trails hm ht'
  have hlt := (hle r r' hr hr' hw).lt_of_ne fun heq =>
    hpq (Option.some.inj (hp.symm.trans (heq ▸ hp')))
  refine ⟨rc, rc', hrc, hrc', h.before_of_find hc hc' hrc hrc' hs hs' hlt fun _ hso hbe => ?_⟩
  -- the token before the second comment is before the first as well
  obtain ⟨b, -, hbr, -, hl⟩ := exists_of_endBefore h.spans hs
  obtain ⟨b', hb', hbr', hbe', -⟩ := exists_of_endBefore h.spans hs'
  have := hl b' hb' (by omega)
  omega

end Placed

end Inlay
