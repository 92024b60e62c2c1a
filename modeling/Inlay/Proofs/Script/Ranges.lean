/-
The ranges of a file's nodes, and the nodes its comments belong to.

What stands below a node lies in its range, one child behind the other
(`parsed_ranges_nested`). Of two nodes that start at one offset one is above
the other, and the first that a walk meets is the outermost
(`Placed.find?_eq_some_iff`): the one that takes a comment
(`parsed_comments_attached`).
-/
import Inlay.Proofs.Script.Bounds
import Inlay.Proofs.Script.Gaps
import Inlay.Proofs.Script.Provision

namespace Inlay

open List

namespace Script

-- == ranges

theorem Lexed.exists_token {lexed : Lexed} {a : Span} (h : a ∈ lexed.spans) :
    ∃ t ∈ lexed.tokens, t.isEnd = false ∧ t.span = a := by
  obtain ⟨t, ht, rfl⟩ := mem_map.1 h
  obtain ⟨ht, he⟩ := mem_filter.1 ht
  exact ⟨t, ht, by simpa using he, rfl⟩

variable {text : List Char} {source : Option String} {t : Tree}

theorem exists_placed (h : parse text source = .ok t ∨ parseExpression text source = .ok t) :
    ∃ (tech : Tech) (lexed : Lexed), tech.parse (String.ofList text) source = .ok t ∧
      lex text = .ok lexed ∧
      t.comments = lexed.comments.map (Comment.locate (LineTable.ofText text) source) ∧
      Placed lexed.spans t := by
  rcases h with h | h
  · obtain ⟨lexed, hl, hs, hp, -⟩ := parse_placed h
    refine ⟨.js, lexed, mapError_eq_ok_iff.2 ?_, hl, hs, hp⟩
    rwa [String.toList_ofList]
  · obtain ⟨lexed, hl, hs, hp⟩ := parseExpression_placed h
    refine ⟨.json, lexed, mapError_eq_ok_iff.2 ?_, hl, hs, hp⟩
    rwa [String.toList_ofList]

/-- The root of a tree spans the whole text. Every node has the location of
its range, and its children stand in its range one behind the other: each
of them is a hole of an array, or it starts where a token starts and ends
where a token ends. -/
theorem parsed_ranges_nested
    (h : parse text source = .ok t ∨ parseExpression text source = .ok t) :
    ∃ lexed, lex text = .ok lexed ∧ t.root.range = some ⟨0, Text.bytes text⟩ ∧
      t.root.Every fun n =>
        n.loc = n.range.map ((LineTable.ofText text).location · source) ∧
        (n.kids.filterMap (·.2.range)).Pairwise (·.stop ≤ ·.start) ∧
        ∀ k ∈ n.kids,
          (k.2.kind = .elision ∧ k.2.range = none ∧
            n.kind = .arrayExpression ∧ k.1.key = "elements") ∨
          (k.2.kind ≠ .elision ∧ ∃ r i, n.range = some r ∧ k.2.range = some i ∧
            i.start < i.stop ∧ r.start ≤ i.start ∧ i.stop ≤ r.stop ∧
            (∃ a ∈ lexed.tokens, a.isEnd = false ∧ a.span.start = i.start) ∧
            ∃ b ∈ lexed.tokens, b.isEnd = false ∧ b.span.stop = i.stop) := by
  obtain ⟨tech, lexed, htech, hlex, -, hplaced⟩ := exists_placed h
  obtain ⟨ns, hparsed⟩ := Tech.exists_parsed htech
  have hlocated := hparsed.located
  have hrange := hparsed.range
  rw [String.toList_ofList] at hlocated hrange
  have hregular := Tech.regular_of_parse htech
  refine ⟨lexed, hlex, hrange, fun n hn => ?_⟩
  have hmem := hn
  rw [← Node.map_snd_places] at hmem
  obtain ⟨⟨p, n⟩, hplace, rfl⟩ := mem_map.1 hmem
  have hp := (Node.mem_places_iff hplaced.keyed).1 hplace
  have hnested := hplaced.every_nested n hn
  refine ⟨hlocated n hn, hnested.ordered, fun k hk => ?_⟩
  have hkeys : n.keys.Nodup := hplaced.keyed n hn
  have hat : t.root.at? (p ++ [k.1]) = some k.2 := by
    rw [Node.at?_append, hp]
    exact Node.at?_cons_eq_some_iff.2 ⟨k.2, (Node.step?_eq_some_iff hkeys).2 hk, rfl⟩
  have hsituated := hplaced.situated hat (by simp)
  have hhole := (hregular k.2 (Node.mem_preorder_of_at? hat)).hole
  cases hi : k.2.range with
  | none =>
    have hkind := (hsituated.hole hi).1
    obtain ⟨e, he, hke⟩ := mem_flatMap.1 hk
    have hchild : k.2 ∈ e.2.children := by
      rw [← Field.map_snd_kids]
      exact mem_map_of_mem hke
    obtain ⟨-, harray, hkey⟩ := (hregular n hn).list_of_elision hkeys
      (Tech.writable_of_parse htech n hn) he hchild hkind
    exact .inl ⟨hkind, rfl, harray, (Field.key_of_mem_kids hke).trans hkey⟩
  | some i =>
    refine .inr ⟨fun hkind => absurd (hi.symm.trans (hhole hkind)) nofun, ?_⟩
    obtain ⟨hsolid, ⟨a, ha, hstart⟩, b, hb, hstop⟩ := hsituated.ends i hi
    cases hr : n.range with
    | none =>
      rw [hnested.hole hr] at hk
      cases hk
    | some r =>
      have hinside := hnested.inside r hr i (mem_filterMap.2 ⟨k, hk, hi⟩)
      obtain ⟨hlower, hupper⟩ := Span.contains_iff.1 hinside
      obtain ⟨a, hta, hend, rfl⟩ := lexed.exists_token ha
      obtain ⟨b, htb, hend', rfl⟩ := lexed.exists_token hb
      exact ⟨r, i, rfl, rfl, hsolid, hlower, hupper, ⟨a, hta, hend, hstart⟩, b, htb, hend', hstop⟩

theorem parsed_ranges_nested_array :
    ∃ t lexed, parse "[, a]".toList none = .ok t ∧ lex "[, a]".toList = .ok lexed ∧
      t.root.range = some ⟨0, 5⟩ ∧
      t.root.Every fun n => (n.kids.filterMap (·.2.range)).Pairwise (·.stop ≤ ·.start) := by
  obtain ⟨t, ht⟩ := exists_of_toBool (x := parse "[, a]".toList none) (by decide +kernel)
  obtain ⟨lexed, hlex, hrange, hevery⟩ := parsed_ranges_nested (.inl ht)
  exact ⟨t, lexed, ht, hlex, hrange, fun n hn => (hevery n hn).2.1⟩

/-- The root starts before the first token. -/
theorem parsed_root_before_tokens :
    (parse " a".toList none).toOption.map (·.root.range) = some (some ⟨0, 2⟩) ∧
      (lex " a".toList).toOption.map (·.tokens.map (·.span.start)) = some [1, 2] := by
  decide +kernel

end Script

-- == outermost nodes

/-- The node at the path, which is not the root, has a range of the
kind. -/
def Node.HasRange (root : Node) (P : Span → Prop) (p : Path) : Prop :=
  p ≠ [] ∧ ∃ n r, root.at? p = some n ∧ n.range = some r ∧ P r

/-- All nodes with such a range are below the one at the path, or it
is the only one. -/
def Node.Outermost (root : Node) (P : Span → Prop) (p : Path) : Prop :=
  root.HasRange P p ∧ ∀ q, root.HasRange P q → p <+: q

namespace Placed

variable {all : List Span} {t : Tree} {p : Path} {edge : Span → Nat} {offset : Nat}

section Find

-- two ranges with one edge have a byte in common
variable (h : Placed all t) (hmeet : ∀ r r' : Span, r.start < r.stop → r'.start < r'.stop →
  edge r = edge r' → r'.start < r.stop ∧ r.start < r'.stop)

include h hmeet

theorem exists_outermost (hp : t.root.HasRange (edge · = offset) p) :
    ∃ q, t.root.Outermost (edge · = offset) q := by
  obtain ⟨q, hq, hm⟩ :=
    (measure List.length).wf.has_min {q | t.root.HasRange (edge · = offset) q} ⟨p, hp⟩
  refine ⟨q, hq, fun q' hq' => ?_⟩
  obtain ⟨hne, n, r, hn, hr, hP⟩ := id hq
  obtain ⟨hne', n', r', hn', hr', hP'⟩ := id hq'
  have hs := ((h.situated hn hne).ends r hr).1
  have hs' := ((h.situated hn' hne').ends r' hr').1
  obtain hu | hu | hd := disjoint_of_at? h.every_nested hn hn' hr hr'
  · exact hu
  · have hl : ¬ q'.length < q.length := hm q' hq'
    rw [hu.eq_of_length_le (by omega)]
  · have := hmeet r r' hs hs' (hP.trans hP'.symm)
    omega

/-- The first node of a walk with the edge is the outermost one. -/
theorem find?_eq_some_iff :
    (t.root.places.tail.find? fun place => place.2.range.any (edge · == offset)).map (·.1) =
      some p ↔ t.root.Outermost (edge · = offset) p := by
  have hf (q : Path) (hq : t.root.Outermost (edge · = offset) q) :
      (t.root.places.tail.find? fun place => place.2.range.any (edge · == offset)).map (·.1) =
        some q := by
    obtain ⟨⟨hne, n, r, hn, hr, hP⟩, hbe⟩ := hq
    have hs := ((h.situated hn hne).ends r hr).1
    refine h.find?_outermost hn hne hr (beq_iff_eq.2 hP)
      (fun r' hs' hP' => hmeet r r' hs hs' (hP.trans (beq_iff_eq.1 hP').symm)) ?_
    intro q' m r' hne' hu hneq hm hr'
    by_contra hP'
    have hb := hbe q' ⟨hne', m, r', hm, hr', by simpa using hP'⟩
    exact hneq (hu.eq_of_length_le hb.length_le)
  refine ⟨fun hso => ?_, hf p⟩
  obtain ⟨place, hp, rfl⟩ := Option.map_eq_some_iff.1 hso
  obtain ⟨hat, hne⟩ := h.of_mem_places (mem_of_find?_eq_some hp)
  obtain ⟨r, hr, hP⟩ := (Option.any_eq_true _ _).1
    (find?_some (p := fun place : Path × Node => place.2.range.any (edge · == offset)) hp)
  obtain ⟨q, hq⟩ := h.exists_outermost hmeet ⟨hne, place.2, r, hat, hr, beq_iff_eq.1 hP⟩
  rw [hf q hq] at hso
  exact Option.some.inj hso ▸ hq

end Find

end Placed

-- == comments

/-- The offset is where the first token behind the range starts. -/
def IsNextStart (tokens : List Span) (r : Span) (offset : Nat) : Prop :=
  ∃ b ∈ tokens, b.start = offset ∧ r.stop ≤ b.start ∧
    ∀ s ∈ tokens, r.stop ≤ s.start → b.start ≤ s.start

/-- The offset is where the last token before the range ends. -/
def IsLastStop (tokens : List Span) (r : Span) (offset : Nat) : Prop :=
  ∃ b ∈ tokens, b.stop = offset ∧ b.stop ≤ r.start ∧
    ∀ s ∈ tokens, s.stop ≤ r.start → s.stop ≤ b.stop

namespace Script

variable {all : List Span} {rc : Span} {offset : Nat}

theorem startBehind_eq_some_iff (h : InOrder all) :
    startBehind all rc = some offset ↔ IsNextStart all rc offset := by
  refine ⟨exists_of_startBehind h, ?_⟩
  rintro ⟨b, hb, rfl, hle, hf⟩
  refine startBehind_eq h hb hle fun s hs hst hsto => ?_
  have := hf s hs hst
  have := h.solid s hs
  omega

theorem endBefore_eq_some_iff (h : InOrder all) :
    endBefore all rc = some offset ↔ IsLastStop all rc offset := by
  refine ⟨exists_of_endBefore h, ?_⟩
  rintro ⟨b, hb, rfl, hle, hl⟩
  refine endBefore_eq h hb hle fun s hs hsta hst => ?_
  have := hl s hs hst
  have := h.solid s hs
  omega

end Script

namespace Placed

open Script

variable {all : List Span} {t : Tree} {p : Path} {rc : Span} {offset : Nat} (h : Placed all t)

include h

theorem pathStarting_eq_some_iff : pathStarting t.root.places.tail offset = some p ↔
    t.root.Outermost (·.start = offset) p :=
  h.find?_eq_some_iff fun r r' hr hr' heq => by omega

theorem pathEnding_eq_some_iff : pathEnding t.root.places.tail offset = some p ↔
    t.root.Outermost (·.stop = offset) p :=
  h.find?_eq_some_iff fun r r' hr hr' heq => by omega

/-- No node starts with the next token. -/
theorem bind_pathStarting_eq_none_iff :
    (startBehind all rc).bind (pathStarting t.root.places.tail) = none ↔
      ∀ offset, IsNextStart all rc offset → ∀ q, ¬ t.root.HasRange (·.start = offset) q := by
  rw [Option.bind_eq_none_iff]
  constructor
  · intro hno offset hn q hq
    obtain ⟨p, hp⟩ := h.exists_outermost (fun r r' hr hr' heq => by omega) hq
    have hpa := hno offset ((startBehind_eq_some_iff h.spans).2 hn)
    rw [h.pathStarting_eq_some_iff.2 hp] at hpa
    cases hpa
  · intro hf offset hs
    refine Option.eq_none_iff_forall_ne_some.2 fun p hp => ?_
    exact hf offset ((startBehind_eq_some_iff h.spans).1 hs) p (h.pathStarting_eq_some_iff.1 hp).1

theorem host?_eq_leading_iff : host? t.root.places.tail all rc = some (.leading p) ↔
    ∃ offset, IsNextStart all rc offset ∧ t.root.Outermost (·.start = offset) p := by
  rw [host?_eq_leading, Option.bind_eq_some_iff]
  simp only [startBehind_eq_some_iff h.spans, h.pathStarting_eq_some_iff]

theorem host?_eq_trailing_iff : host? t.root.places.tail all rc = some (.trailing p) ↔
    (∀ offset, IsNextStart all rc offset → ∀ q, ¬ t.root.HasRange (·.start = offset) q) ∧
      ∃ offset, IsLastStop all rc offset ∧ t.root.Outermost (·.stop = offset) p := by
  rw [host?_eq_trailing, h.bind_pathStarting_eq_none_iff, Option.bind_eq_some_iff]
  simp only [endBefore_eq_some_iff h.spans, h.pathEnding_eq_some_iff]

end Placed

namespace Script

variable {text : List Char} {source : Option String} {t : Tree}

/-- The store of a tree has the comments of the text in their order. A
comment leads the outermost node below the root that starts with the next
token; if there is none, it trails the outermost one that ends with the
last token. So one node takes it at most, and on every node comments are
in the order of the text. -/
theorem parsed_comments_attached
    (h : parse text source = .ok t ∨ parseExpression text source = .ok t) :
    ∃ lexed, lex text = .ok lexed ∧
      t.comments = lexed.comments.map (Comment.locate (LineTable.ofText text) source) ∧
      (t.comments.Pairwise fun c c' =>
        ∀ r, c.range = some r → ∀ r', c'.range = some r' → r.stop ≤ r'.start) ∧
      (∀ c ∈ t.comments, ∃ r, c.range = some r ∧ r.start < r.stop ∧
        ∀ p n, t.root.at? p = some n →
          (c ∈ n.leading ↔
            ∃ offset, IsNextStart lexed.spans r offset ∧ t.root.Outermost (·.start = offset) p) ∧
          (c ∈ n.trailing ↔
            (∀ offset, IsNextStart lexed.spans r offset →
              ∀ q, ¬ t.root.HasRange (·.start = offset) q) ∧
            ∃ offset, IsLastStop lexed.spans r offset ∧ t.root.Outermost (·.stop = offset) p)) ∧
      (∀ p n, t.root.at? p = some n →
        n.leading.Sublist t.comments ∧ n.trailing.Sublist t.comments ∧
          n.leading.Disjoint n.trailing) ∧
      ∀ p n q m c, t.root.at? p = some n → t.root.at? q = some m →
        c ∈ n.leading ++ n.trailing → c ∈ m.leading ++ m.trailing → p = q := by
  obtain ⟨-, lexed, -, hlex, hstore, hplaced⟩ := exists_placed h
  -- the side on which a node has a comment is that of the host
  have hhost (p : Path) (n : Node) (hn : t.root.at? p = some n) (c : Comment) :
      (c ∈ n.leading ↔ c ∈ t.comments ∧
        c.range.bind (host? t.root.places.tail lexed.spans) = some (.leading p)) ∧
      (c ∈ n.trailing ↔ c ∈ t.comments ∧
        c.range.bind (host? t.root.places.tail lexed.spans) = some (.trailing p)) := by
    rw [hplaced.leading p n hn, hplaced.trailing p n hn, mem_filter, mem_filter, leads_iff,
      trails_iff]
    exact ⟨Iff.rfl, Iff.rfl⟩
  refine ⟨lexed, hlex, hstore, pairwise_filterMap.1 hplaced.comments.pairwise, ?_, ?_, ?_⟩
  · intro c hc
    obtain ⟨r, hr⟩ := Option.isSome_iff_exists.1 (hplaced.ranged c hc)
    have hsolid := hplaced.comments.solid r (mem_filterMap.2 ⟨c, hc, hr⟩)
    refine ⟨r, hr, hsolid, fun p n hn => ?_⟩
    obtain ⟨hleading, htrailing⟩ := hhost p n hn c
    rw [hr, Option.bind_some] at hleading htrailing
    rw [hleading, htrailing, hplaced.host?_eq_leading_iff, hplaced.host?_eq_trailing_iff]
    exact ⟨and_iff_right hc, and_iff_right hc⟩
  · intro p n hn
    refine ⟨?_, ?_, fun c hleading htrailing => ?_⟩
    · rw [hplaced.leading p n hn]
      exact filter_sublist
    · rw [hplaced.trailing p n hn]
      exact filter_sublist
    · have hside := ((hhost p n hn c).1.1 hleading).2.symm.trans ((hhost p n hn c).2.1 htrailing).2
      cases hside
  · intro p n q m c hn hm hc hc'
    rw [mem_append, (hhost p n hn c).1, (hhost p n hn c).2] at hc
    rw [mem_append, (hhost q m hm c).1, (hhost q m hm c).2] at hc'
    obtain ⟨-, hc⟩ | ⟨-, hc⟩ := hc <;> obtain ⟨-, hc'⟩ | ⟨-, hc'⟩ := hc' <;>
      cases hc.symm.trans hc' <;> rfl

theorem parsed_comments_attached_call :
    ∃ t lexed, parse "f(/*a*/) // b".toList none = .ok t ∧ lex "f(/*a*/) // b".toList = .ok lexed ∧
      t.comments.length = 2 ∧ t.comments = lexed.comments.map (Comment.locate (.ofText "f(/*a*/) // b".toList) none) ∧
      ∀ p n, t.root.at? p = some n → n.leading.Sublist t.comments := by
  have hparse : (parse "f(/*a*/) // b".toList none).toOption.map (·.comments.length) = some 2 := by
    decide +kernel
  obtain ⟨t, ht, hlength⟩ := Option.map_eq_some_iff.1 hparse
  obtain ⟨lexed, hlex, hstore, -, -, hlists, -⟩ :=
    parsed_comments_attached (.inl (eq_ok_of_toOption ht))
  exact ⟨t, lexed, eq_ok_of_toOption ht, hlex, hlength, hstore, fun p n hn => (hlists p n hn).1⟩

end Script

end Inlay
