/-
Comments in empty lists.

A comment in an empty list has the brackets next to it, and no node starts
with a closing bracket or ends with an opening one. So no node takes the
comment (`Placed.host?_of_hollow`), and as empty lists are not inside one
another, it stands in one of them only (`Placed.eq_of_hollow`).
-/
import Inlay.Proofs.Script.Hosts

namespace Inlay

open List

variable {all : List Span} {t : Tree} {n m : Node} {p q : Path} {r r' rc b : Span}

-- == neighbours

namespace Script

variable {off : Nat} {places : List (Path × Node)}

/-- The token behind a range, if there is none between the two. -/
theorem startBehind_eq (h : InOrder all) (hb : b ∈ all) (hle : rc.stop ≤ b.start)
    (hn : ∀ s ∈ all, rc.stop ≤ s.start → ¬ s.stop ≤ b.start) :
    startBehind all rc = some b.start := by
  obtain ⟨A, B, rfl⟩ := append_of_mem hb
  have hA : A.find? (rc.stop ≤ ·.start) = none := by
    refine find?_eq_none.2 fun s hs hst => ?_
    refine hn s (mem_append_left _ hs) (by simpa using hst) ?_
    exact h.le_of_append hs mem_cons_self
  rw [startBehind, find?_append, hA, Option.none_or, find?_cons_of_pos (by simpa using hle)]
  rfl

/-- The token before a range, if there is none between the two. -/
theorem endBefore_eq (h : InOrder all) (hb : b ∈ all) (hle : b.stop ≤ rc.start)
    (hn : ∀ s ∈ all, b.stop ≤ s.start → ¬ s.stop ≤ rc.start) : endBefore all rc = some b.stop := by
  obtain ⟨A, B, rfl⟩ := append_of_mem hb
  have hA : ∀ s ∈ A, decide (s.stop ≤ rc.start) = true := by
    intro s hs
    have hs' := h.le_of_append hs (mem_cons_self (a := b) (l := B))
    have hso := h.solid b hb
    exact decide_eq_true (by omega)
  have hB : B.takeWhile (·.stop ≤ rc.start) = [] := by
    cases B with
    | nil => rfl
    | cons s B =>
      have hbs := (pairwise_cons.1 (pairwise_append.1 h.pairwise).2.1).1 s mem_cons_self
      exact takeWhile_cons_of_neg (by simpa using hn s (by simp) hbs)
  rw [endBefore, takeWhile_append_of_pos hA, takeWhile_cons_of_pos (by simpa using hle), hB,
    getLast?_append]
  rfl

theorem pathStarting_eq_none (h : ∀ place ∈ places, ∀ r, place.2.range = some r → r.start ≠ off) :
    pathStarting places off = none := by
  rw [pathStarting, find?_eq_none.2, Option.map_none]
  intro place hp ha
  obtain ⟨r, hr, hs⟩ := (Option.any_eq_true _ _).1 ha
  exact h place hp r hr (by simpa using hs)

theorem pathEnding_eq_none (h : ∀ place ∈ places, ∀ r, place.2.range = some r → r.stop ≠ off) :
    pathEnding places off = none := by
  rw [pathEnding, find?_eq_none.2, Option.map_none]
  intro place hp ha
  obtain ⟨r, hr, hs⟩ := (Option.any_eq_true _ _).1 ha
  exact h place hp r hr (by simpa using hs)

end Script

-- == empty lists

/-- A node with an empty list that nodes may be included into. -/
def Hollow (n : Node) : Prop := ∃ key ∈ lendableKeys, n.children? key = some []

namespace Placed

open Script Node

variable (h : Placed all t)

include h

theorem keyed : t.root.Keyed := by
  obtain ⟨ns, hp⟩ := h.props
  refine keyed_iff.2 ⟨?_, fun k hk m hm => (h.inner k hk m hm).keys⟩
  rw [Node.keys, hp]
  exact nodup_singleton _

theorem every_nested : t.root.Every Nested :=
  every_iff.2 ⟨h.nested, fun k hk m hm => (h.inner k hk m hm).nested⟩

theorem situated (hn : t.root.at? p = some n) (hne : p ≠ []) : Situated all n := by
  cases p with
  | nil => exact absurd rfl hne
  | cons s p =>
    obtain ⟨k, hk, hn⟩ := at?_cons_eq_some_iff.1 hn
    exact ((h.inner _ (mem_kids_of_step? hk)).at? hn).self

theorem of_mem_places {place : Path × Node} (hp : place ∈ t.root.places.tail) :
    t.root.at? place.1 = some place.2 ∧ place.1 ≠ [] := by
  refine ⟨(mem_places_iff h.keyed).1 (mem_of_mem_tail hp), ?_⟩
  rw [tail_places] at hp
  obtain ⟨k, -, hk⟩ := mem_flatMap.1 hp
  obtain ⟨place', -, rfl⟩ := mem_map.1 hk
  exact cons_ne_nil _ _

variable (hn : t.root.at? p = some n)

include hn

theorem kids_of_hollow (hh : Hollow n) : n.kids = [] := by
  obtain ⟨key, hke, hl⟩ := hh
  rw [children?_eq_some_iff] at hl
  by_cases hp : p = []
  · subst hp
    obtain rfl : t.root = n := Option.some.inj hn
    obtain ⟨ns, hpr⟩ := h.props
    rw [hpr] at hl
    obtain ⟨front, rest, hsp, -⟩ := Entries.split_of_lookup hl
    rw [Node.kids, hpr, kidsOf_cons]
    cases front with
    | nil =>
      obtain ⟨heq, -⟩ := List.cons.inj hsp
      cases heq
      rfl
    | cons e front => simp at hsp
  · have hsi := h.situated hn hp
    refine eq_nil_iff_forall_not_mem.2 fun k hk => ?_
    have hke' := (hsi.lists key hke [] (children?_eq_some_iff.2 hl)).2 k hk
    have hs := (step?_eq_some_iff hsi.keys).2 hk
    rw [Node.step?, Node.get?, hke', hl, Option.bind_some] at hs
    cases hi : k.1.index with
    | none =>
      rw [hi] at hs
      cases hs
    | some i =>
      rw [hi] at hs
      cases hs

/-- Nothing is below a node with an empty list. -/
theorem eq_of_isPrefix (hh : Hollow n) (hm : t.root.at? q = some m) (hpq : p <+: q) : q = p := by
  obtain ⟨rest, rfl⟩ := hpq
  cases rest with
  | nil => rw [append_nil]
  | cons s rest =>
    rw [at?_append, hn, Option.bind_some] at hm
    obtain ⟨k, hk, -⟩ := at?_cons_eq_some_iff.1 hm
    have hme := mem_kids_of_step? hk
    rw [h.kids_of_hollow hn hh] at hme
    cases hme

/-- A comment in an empty list stands between its brackets. -/
theorem brackets (hne : p ≠ []) (hh : Hollow n) (hr : n.range = some r)
    (hrc : rc ∈ t.comments.filterMap (·.range)) (hin : r.contains rc = true) :
    ∃ lb rb, Framed all r [] lb rb ∧ lb.stop ≤ rc.start ∧ rc.stop ≤ rb.start := by
  obtain ⟨r', lb, rb, hr', hf⟩ := (h.situated hn hne).framed (.inr hh)
  obtain rfl := Option.some.inj (hr.symm.trans hr')
  have hc : n.childRanges = [] := by
    rw [Node.childRanges, h.kids_of_hollow hn hh]
    rfl
  rw [hc] at hf
  have hs := h.comments.solid rc hrc
  have hl := h.spans.solid lb hf.left_mem
  have hri := h.spans.solid rb hf.right_mem
  obtain ⟨hst, hsto⟩ := Span.contains_iff.1 hin
  refine ⟨lb, rb, hf, ?_, ?_⟩
  · obtain hle | hle := h.apart lb hf.left_mem rc hrc
    · exact hle
    · have := hf.start
      omega
  · obtain hle | hle := h.apart rb hf.right_mem rc hrc
    · have := hf.stop
      omega
    · exact hle

/-- No node takes a comment in an empty list. -/
theorem host?_of_hollow (hh : Hollow n) (hr : n.range = some r)
    (hrc : rc ∈ t.comments.filterMap (·.range)) (hin : r.contains rc = true) :
    host? t.root.places.tail all rc = none := by
  by_cases hne : p = []
  · subst hne
    obtain rfl : t.root = n := Option.some.inj hn
    have hni : t.root.places.tail = [] := by
      rw [tail_places, h.kids_of_hollow hn hh]
      rfl
    rw [hni]
    unfold host?
    cases startBehind all rc <;> cases endBefore all rc <;> rfl
  obtain ⟨lb, rb, hf, hl, hri⟩ := h.brackets hn hne hh hr hrc hin
  have hso := h.comments.solid rc hrc
  have hlb := h.spans.solid lb hf.left_mem
  have hrb := h.spans.solid rb hf.right_mem
  have hst := hf.start
  have hsto := hf.stop
  have hle := hf.le
  have hno (s : Span) (hs : s ∈ all) (hlt : lb.stop ≤ s.start) : ¬ s.stop ≤ rb.start := by
    intro hgt
    obtain ⟨i, hi, -⟩ := hf.covers s hs hlt hgt
    cases hi
  -- the range of another node is around, before or behind the brackets
  have hp : ∀ place ∈ t.root.places.tail, ∀ r', place.2.range = some r' →
      r' = r ∨ r'.contains r = true ∨ r.stop ≤ r'.start ∨ r'.stop ≤ r.start := by
    intro place hp r' hr'
    obtain ⟨hat, -⟩ := h.of_mem_places hp
    obtain hpq | hqp | hd := disjoint_of_at? h.every_nested hn hat hr hr'
    · rw [h.eq_of_isPrefix hn hh hat hpq, hn] at hat
      cases hat
      exact .inl (Option.some.inj (hr'.symm.trans hr))
    · obtain ⟨rest, rfl⟩ := hqp
      rw [at?_append, hat, Option.bind_some] at hn
      obtain ⟨r'', hr'', hc⟩ := contains_of_at? (h.every_nested.at? hat) hn hr
      obtain rfl := Option.some.inj (hr'.symm.trans hr'')
      exact .inr (.inl hc)
    · exact .inr (.inr hd)
  have hso' : ∀ place ∈ t.root.places.tail, ∀ r', place.2.range = some r' → r'.start < r'.stop := by
    intro place hp r' hr'
    obtain ⟨hat, hne'⟩ := h.of_mem_places hp
    exact ((h.situated hat hne').ends r' hr').1
  have hbe : startBehind all rc = some rb.start :=
    startBehind_eq h.spans hf.right_mem hri fun s hs hlt => hno s hs (by omega)
  have hb : endBefore all rc = some lb.stop :=
    endBefore_eq h.spans hf.left_mem hl fun s hs hlt hgt => hno s hs hlt (by omega)
  rw [host?, hbe, hb, Option.bind_some, Option.bind_some, pathStarting_eq_none, pathEnding_eq_none]
  · rfl
  · intro place hm r' hr' heq
    have hlt := hso' place hm r' hr'
    obtain rfl | hc | hd := hp place hm r' hr'
    · omega
    · obtain ⟨-, hc⟩ := Span.contains_iff.1 hc
      omega
    · omega
  · intro place hm r' hr' heq
    have hlt := hso' place hm r' hr'
    obtain rfl | hc | hd := hp place hm r' hr'
    · omega
    · obtain ⟨hc, -⟩ := Span.contains_iff.1 hc
      omega
    · omega

/-- A comment stands in one empty list only. -/
theorem eq_of_hollow (hm : t.root.at? q = some m)
    (hh : Hollow n) (hh' : Hollow m) (hr : n.range = some r) (hr' : m.range = some r')
    (hrc : rc ∈ t.comments.filterMap (·.range)) (hin : r.contains rc = true)
    (hin' : r'.contains rc = true) : p = q := by
  have hso := h.comments.solid rc hrc
  obtain hpq | hqp | hd := disjoint_of_at? h.every_nested hn hm hr hr'
  · exact (h.eq_of_isPrefix hn hh hm hpq).symm
  · exact h.eq_of_isPrefix hm hh' hn hqp
  · obtain ⟨hs, hst⟩ := Span.contains_iff.1 hin
    obtain ⟨hs', hst'⟩ := Span.contains_iff.1 hin'
    omega

end Placed

end Inlay
