/-
Source maps that fit the code they belong to.

The pen of a drawing stands behind the text it has written
(`Pen.line_writeAll`, `Pen.column_writeAll`), so every entry is a position of
the code, and no entry stands before an earlier one. Where several have one
position the last is kept, which makes the mappings strictly increasing.
What they say about the sources is what marks say; the code is the same
without them.
-/
import Inlay.Proofs.Script.Writing
import Inlay.Proofs.SourceMap.Decoding
import Inlay.Tech

namespace Inlay

open List

-- == positions

namespace Text

/-- The characters behind the last line break. -/
def lastLine (cs : List Char) : List Char := (cs.reverse.takeWhile (· ≠ '\n')).reverse

/-- A position of a text: the number of line breaks before it, and the
width of what stands before it in its line. -/
def IsPosition (text : List Char) (line column : Nat) : Prop :=
  ∃ before behind, text = before ++ behind ∧
    line = before.count '\n' ∧ column = width (lastLine before)

theorem width_append (cs ds : List Char) : width (cs ++ ds) = width cs + width ds := by
  induction cs with
  | nil => exact (Nat.zero_add _).symm
  | cons c cs ih => rw [cons_append, width, width, ih, Nat.add_assoc]

theorem lastLine_newline (cs : List Char) : lastLine (cs ++ ['\n']) = [] := by
  simp [lastLine]

theorem lastLine_append_of_ne {c : Char} (hc : c ≠ '\n') (cs : List Char) :
    lastLine (cs ++ [c]) = lastLine cs ++ [c] := by
  simp [lastLine, hc]

end Text

namespace Script

namespace Pen

theorem writeAll_append (pen : Pen) (cs ds : List Char) :
    pen.writeAll (cs ++ ds) = (pen.writeAll cs).writeAll ds :=
  foldl_append

theorem line_writeAll (pen : Pen) (cs : List Char) :
    (pen.writeAll cs).line = pen.line + cs.count '\n' := by
  induction cs generalizing pen with
  | nil => rfl
  | cons c cs ih =>
    show ((pen.write c).writeAll cs).line = _
    rw [ih, write, count_cons]
    by_cases hc : c = '\n'
    · simp [hc, Nat.add_assoc, Nat.add_comm 1]
    · simp [hc]

theorem column_writeAll (cs : List Char) :
    (start.writeAll cs).column = Text.width (Text.lastLine cs) := by
  -- From the back: the last character tells whether a line starts.
  induction hr : cs.reverse generalizing cs with
  | nil =>
    obtain rfl := reverse_eq_nil_iff.1 hr
    rfl
  | cons c rest ih =>
    obtain rfl : cs = rest.reverse ++ [c] := by
      rw [← reverse_cons, ← hr, reverse_reverse]
    rw [writeAll_append]
    show ((start.writeAll rest.reverse).write c).column = _
    rw [write]
    by_cases hc : c = '\n'
    · rw [if_pos hc, hc, Text.lastLine_newline]
      rfl
    · rw [if_neg hc, Text.lastLine_append_of_ne hc, Text.width_append,
        ← ih rest.reverse (reverse_reverse rest)]
      rfl

end Pen

end Script

namespace SourceMap

/-- A position does not stand behind another one. -/
def NotBehind (p q : Nat × Nat) : Prop := p.1 < q.1 ∨ p.1 = q.1 ∧ p.2 ≤ q.2

/-- A position stands before another one. -/
def Before (p q : Nat × Nat) : Prop := p.1 < q.1 ∨ p.1 = q.1 ∧ p.2 < q.2

theorem NotBehind.refl (p : Nat × Nat) : NotBehind p p := .inr ⟨rfl, Nat.le_refl _⟩

theorem NotBehind.trans {p q r : Nat × Nat} (h : NotBehind p q) (h' : NotBehind q r) :
    NotBehind p r := by
  unfold NotBehind at *
  omega

theorem NotBehind.before {p q r : Nat × Nat} (h : NotBehind p q) (hne : p ≠ q)
    (h' : NotBehind q r) : Before p r := by
  have hne : ¬(p.1 = q.1 ∧ p.2 = q.2) := fun h => hne (Prod.ext h.1 h.2)
  unfold NotBehind Before at *
  omega

def Entry.position (e : Entry) : Nat × Nat := (e.line, e.column)

def Mapping.position (m : Mapping) : Nat × Nat := (m.line, m.column)

def Segment.position (s : Segment) : Nat × Nat := (s.line, s.column)

end SourceMap

-- == drawings

namespace Script

open SourceMap (Entry NotBehind)

def Pen.position (pen : Pen) : Nat × Nat := (pen.line, pen.column)

theorem Pen.notBehind_writeAll (pen : Pen) (cs : List Char) :
    NotBehind pen.position (pen.writeAll cs).position := by
  induction cs generalizing pen with
  | nil => exact .refl _
  | cons c cs ih =>
    refine NotBehind.trans ?_ (ih (pen.write c))
    rw [write]
    split
    · exact .inl (Nat.lt_succ_self _)
    · exact .inr ⟨rfl, Nat.le_add_right _ _⟩

section Drawings

variable {ind : Bool} {pen : Pen} {pending : List Mark} {ps : List Piece} {e : Entry}

/-- Entries are positions of the text that is drawn. -/
theorem position_of_mem_drawFrom (he : e ∈ (drawFrom ind pen pending ps).entries) :
    ∃ before behind, (drawFrom ind pen pending ps).code = before ++ behind ∧
      e.position = (pen.writeAll before).position := by
  fun_induction drawFrom ind pen pending ps with
  | case1 => cases he
  | case2 pen pending piece rest m hi ih => exact ih he
  | case3 pen pending piece rest text hi drawing ih =>
    obtain ⟨before, behind, hc, hp⟩ := ih he
    refine ⟨text ++ before, behind, ?_, ?_⟩
    · rw [append_assoc, ← hc]
    · rw [Pen.writeAll_append, hp]
  | case4 pen pending piece rest text hi space start drawing ih =>
    rcases mem_append.1 he with he | he
    · obtain ⟨m, -, rfl⟩ := mem_map.1 he
      exact ⟨space, text ++ drawing.code, append_assoc _ _ _, rfl⟩
    · obtain ⟨before, behind, hc, hp⟩ := ih he
      refine ⟨space ++ text ++ before, behind, ?_, ?_⟩
      · rw [append_assoc _ before, ← hc]
      · rw [Pen.writeAll_append, Pen.writeAll_append, hp]

theorem notBehind_of_mem_drawFrom (he : e ∈ (drawFrom ind pen pending ps).entries) :
    NotBehind pen.position e.position := by
  obtain ⟨before, -, -, hp⟩ := position_of_mem_drawFrom he
  rw [hp]
  exact pen.notBehind_writeAll before

/-- No entry stands before an earlier one. -/
theorem pairwise_drawFrom : (drawFrom ind pen pending ps).entries.Pairwise fun e e' =>
      NotBehind e.position e'.position := by
  fun_induction drawFrom ind pen pending ps with
  | case1 => exact .nil
  | case2 pen pending piece rest m hi ih => exact ih
  | case3 pen pending piece rest text hi drawing ih => exact ih
  | case4 pen pending piece rest text hi space start drawing ih =>
    refine pairwise_append.2 ⟨?_, ih, ?_⟩
    · -- Marks that wait for one token get one position.
      refine pairwise_map.2 (pairwise_of_forall fun _ _ => ?_)
      exact .refl start.position
    · intro e he e' he'
      obtain ⟨m, -, rfl⟩ := mem_map.1 he
      exact (start.notBehind_writeAll text).trans (notBehind_of_mem_drawFrom he')

theorem mark_of_mem_drawFrom (he : e ∈ (drawFrom ind pen pending ps).entries) :
    ∃ (m : Mark) (pen' : Pen), (m ∈ pending ∨ .mark m ∈ ps) ∧ e = m.entry pen' := by
  fun_induction drawFrom ind pen pending ps with
  | case1 => cases he
  | case2 pen pending piece rest m hi ih =>
    obtain ⟨m', pen', hm', hs⟩ := ih he
    refine ⟨m', pen', ?_, hs⟩
    rcases hm' with hm' | hm'
    · rcases mem_append.1 hm' with hm' | hm'
      · exact .inl hm'
      · obtain rfl := mem_singleton.1 hm'
        cases piece <;> cases hi
        exact .inr (.head _)
    · exact .inr (.tail _ hm')
  | case3 pen pending piece rest text hi drawing ih =>
    obtain ⟨m, pen', hm, hs⟩ := ih he
    exact ⟨m, pen', hm.imp_right (.tail _), hs⟩
  | case4 pen pending piece rest text hi space start drawing ih =>
    rcases mem_append.1 he with he | he
    · obtain ⟨m, hm, rfl⟩ := mem_map.1 he
      exact ⟨m, start, .inl hm, rfl⟩
    · obtain ⟨m, pen', hm, hs⟩ := ih he
      exact ⟨m, pen', .inr (.tail _ (hm.resolve_left not_mem_nil)), hs⟩

/-- Marks put nothing on the page. -/
theorem code_drawFrom_filter (pending' : List Mark) :
    (drawFrom ind pen pending' (ps.filter (!·.isMark))).code =
      (drawFrom ind pen pending ps).code := by
  induction ps generalizing pen pending pending' with
  | nil => rfl
  | cons piece rest ih =>
    by_cases hm : piece.isMark
    · rw [filter_cons_of_neg (by simpa using hm)]
      cases piece <;> cases hm
      exact ih pending'
    · rw [filter_cons_of_pos (by simpa using hm), drawFrom, drawFrom]
      split
      · next hi =>
        cases piece <;> cases hi
        exact absurd rfl hm
      · exact congrArg (_ ++ ·) (ih pending')
      · exact congrArg (_ ++ ·) (ih [])

end Drawings

end Script

-- == mappings

namespace SourceMap

variable {ms : List Mapping} {m : Mapping}

theorem mem_of_mem_keepLast (h : m ∈ keepLast ms) : m ∈ ms := by
  fun_induction keepLast ms with
  | case1 => exact h
  | case2 => exact h
  | case3 m' next rest heq ih => exact .tail _ (ih h)
  | case4 m' next rest heq ih =>
    rcases mem_cons.1 h with rfl | h
    · exact .head _
    · exact .tail _ (ih h)

/-- Of several mappings for one position one is kept. -/
theorem pairwise_keepLast (hms : ms.Pairwise fun m m' => NotBehind m.position m'.position) :
    (keepLast ms).Pairwise fun m m' => Before m.position m'.position := by
  fun_induction keepLast ms with
  | case1 => exact .nil
  | case2 => exact pairwise_singleton _ _
  | case3 m next rest heq ih => exact ih hms.of_cons
  | case4 m next rest hne ih =>
    refine pairwise_cons.2 ⟨fun m' hm' => ?_, ih hms.of_cons⟩
    have hn := rel_of_pairwise_cons hms (.head _)
    refine NotBehind.before hn (fun h => hne (Prod.ext_iff.1 h)) ?_
    rcases mem_cons.1 (mem_of_mem_keepLast hm') with rfl | hm'
    · exact .refl _
    · exact rel_of_pairwise_cons hms.of_cons hm'

/-- Every mapping is that of an entry, and its numbers are those of the
entry's source and name. -/
theorem exists_of_mem_ofEntries {entries : List Entry} (h : m ∈ (ofEntries entries).mappings) :
    ∃ e ∈ entries, m.position = e.position ∧ (ofEntries entries).sources[m.source]? = some e.source ∧
      m.originLine = e.origin.line - 1 ∧ m.originColumn = e.origin.column ∧
      ∀ i, m.name = some i → ∃ name, e.name = some name ∧
        (ofEntries entries).names[i]? = some name := by
  obtain ⟨e, he, rfl⟩ := mem_map.1 (mem_of_mem_keepLast h)
  refine ⟨e, he, rfl, ?_, rfl, rfl, fun i hi => ?_⟩
  · exact getElem?_idxOf (mem_eraseDups.2 (mem_map_of_mem he))
  · obtain ⟨name, hn, rfl⟩ := Option.map_eq_some_iff.1 hi
    refine ⟨name, hn, getElem?_idxOf (mem_eraseDups.2 ?_)⟩
    exact mem_filterMap.2 ⟨e, he, hn⟩

/-- The segment of a mapping is one of the code, and comes from a node. -/
def Segment.IsFaithful (code : List Char) (map : SourceMap) (root : Node) (s : Segment) : Prop :=
  Text.IsPosition code s.line s.column ∧
    ∃ origin, s.origin = some origin ∧ (∀ i, origin.name = some i → i < map.names.length) ∧
      ∃ source, map.sources[origin.source]? = some source ∧
        ∃ n ∈ root.preorder, ∃ loc, n.loc = some loc ∧ loc.source = some source ∧
          origin.line = loc.start.line - 1 ∧ origin.column = loc.start.column

end SourceMap

namespace Script

open SourceMap (Before)

/-- The mark is that of a node of the tree. -/
def IsMarkIn (root : Node) (m : Mark) : Prop :=
  ∃ n ∈ root.preorder, ∃ stop, n.loc = some ⟨m.point, stop, some m.source⟩

/-- All marks are those of nodes of the tree. -/
def Marked (root : Node) (ps : List Piece) : Prop := ∀ m, .mark m ∈ ps → IsMarkIn root m

theorem marked_of_program {root : Node} {depth : Nat} {code : List Piece}
    (h : Code.program depth root = .ok code) : Marked root code := by
  intro m hm
  obtain ⟨n, hn, hm⟩ := isMark_of_program h hm
  unfold Node.marks at hm
  split at hm
  · next hl =>
    cases mem_singleton.1 hm
    exact ⟨n, hn, _, hl⟩
  · cases hm

theorem isFaithful_of_mem_ofEntries {ind : Bool} {root : Node} {pieces : List Piece}
    {m : SourceMap.Mapping} (hmar : Marked root pieces)
    (hm : m ∈ (SourceMap.ofEntries (draw ind pieces).entries).mappings) :
    m.toSegment.IsFaithful (draw ind pieces).code
      (SourceMap.ofEntries (draw ind pieces).entries) root := by
  obtain ⟨e, he, hp, hs, hli, hcol, hna⟩ := SourceMap.exists_of_mem_ofEntries hm
  refine ⟨?_, _, rfl, fun i hi => ?_, e.source, hs, ?_⟩
  · obtain ⟨before, behind, hco, hpe⟩ := position_of_mem_drawFrom he
    obtain ⟨hl, hc⟩ := Prod.ext_iff.1 (hp.trans hpe)
    refine ⟨before, behind, hco, hl.trans ?_, hc.trans (Pen.column_writeAll before)⟩
    exact (Pen.start.line_writeAll before).trans (Nat.zero_add _)
  · obtain ⟨name, -, hnam⟩ := hna i hi
    exact (List.getElem?_eq_some_iff.1 hnam).1
  · obtain ⟨mark, _, hma, rfl⟩ := mark_of_mem_drawFrom he
    obtain ⟨n, hn, stop, hlo⟩ := hmar mark (hma.resolve_left not_mem_nil)
    exact ⟨n, hn, _, hlo, rfl, hli, hcol⟩

/-- The mappings of a drawing, read back. -/
theorem decode_ofEntries (ind : Bool) (pieces : List Piece) :
    ∃ segments, SourceMap.decode (SourceMap.encode
        (SourceMap.ofEntries (draw ind pieces).entries).mappings) = some segments ∧
      segments = (SourceMap.ofEntries (draw ind pieces).entries).mappings.map (·.toSegment) ∧
      segments.Pairwise fun s s' => Before s.position s'.position := by
  have ho : (SourceMap.ofEntries (draw ind pieces).entries).mappings.Pairwise
      fun m m' => Before m.position m'.position :=
    SourceMap.pairwise_keepLast (pairwise_map.2 pairwise_drawFrom)
  refine ⟨_, SourceMap.decode_encode (ho.imp fun hb => ?_), rfl, pairwise_map.2 ho⟩
  rcases hb with hlt | heq
  · exact Nat.le_of_lt hlt
  · exact Nat.le_of_eq heq.1

end Script

/-- Source maps are faithful to the code and do not disturb it. -/
theorem Tech.generated_map_faithful {indented : Bool} {t : Tree} {code : String}
    (h : Tech.js.generateCode indented t = .ok code) :
    ∃ map, Tech.js.generate indented t = .ok ⟨code, map⟩ ∧
      Tech.js.generateMap indented t = .ok map ∧
      ∃ mappings segments, map.toJson.get? "mappings" = some (.str mappings) ∧
        SourceMap.decode mappings = some segments ∧
        (segments.Pairwise fun s s' => SourceMap.Before s.position s'.position) ∧
        ∀ s ∈ segments, s.IsFaithful code.toList map t.root := by
  obtain ⟨pieces, hpieces, hcode⟩ := bind_ok_iff.1 (mapError_eq_ok_iff.1 h)
  cases hcode
  have hsame : (Script.draw indented (pieces.filter (!·.isMark))).code =
      (Script.draw indented pieces).code := Script.code_drawFrom_filter []
  obtain ⟨segments, hdecode, rfl, hordered⟩ := Script.decode_ofEntries indented pieces
  refine ⟨SourceMap.ofEntries (Script.draw indented pieces).entries, ?_, ?_, _, _, rfl, hdecode,
    hordered, fun s hs => ?_⟩
  · refine mapError_eq_ok_iff.2 (bind_ok_iff.2 ⟨pieces, hpieces, ?_⟩)
    rw [hsame]
    rfl
  · exact mapError_eq_ok_iff.2 (bind_ok_iff.2 ⟨pieces, hpieces, rfl⟩)
  · obtain ⟨m, hm, rfl⟩ := mem_map.1 hs
    rw [hsame, String.toList_ofList]
    exact Script.isFaithful_of_mem_ofEntries (Script.marked_of_program hpieces) hm

/-- Two statements of two files. The line of the second is unknown. -/
def Script.welded : Tree :=
  let name (text source : String) (line column : Nat) : Node :=
    ⟨.identifier, [("name", .ofString text)], none,
      some ⟨⟨line, column⟩, ⟨line, column + 1⟩, some source⟩, [], []⟩
  let statement (n : Node) : Node :=
    ⟨.expressionStatement, [("expression", .node n)], none, none, [], []⟩
  ⟨⟨.program, [("body", .nodes [statement (name "a" "a.js" 3 1), statement (name "b" "b.js" 0 7)])],
    none, none, [], []⟩, []⟩

theorem Tech.generated_map_faithful_welded :
    ∃ map segments, Tech.js.generate true Script.welded = .ok ⟨"a;\nb;", map⟩ ∧
      map.sources = ["a.js", "b.js"] ∧
      SourceMap.decode (SourceMap.encode map.mappings) = some segments ∧
      (segments.Pairwise fun s s' => SourceMap.Before s.position s'.position) ∧
      ∀ s ∈ segments, s.IsFaithful "a;\nb;".toList map Script.welded.root := by
  have hshows : (Tech.js.generate true Script.welded).toOption.map
      (fun g => (g.code, g.map.sources)) = some ("a;\nb;", ["a.js", "b.js"]) := by cbv
  obtain ⟨g, hg, hshows⟩ := Option.map_eq_some_iff.1 hshows
  obtain ⟨hcode, hsources⟩ := Prod.mk.inj hshows
  have hgenerated : Tech.js.generateCode true Script.welded = .ok "a;\nb;" := by cbv
  obtain ⟨map, hmap, -, mappings, segments, hmember, hdecode, hordered, hfaithful⟩ :=
    Tech.generated_map_faithful hgenerated
  cases (eq_ok_of_toOption hg).symm.trans hmap
  cases hmember
  exact ⟨map, segments, hmap, hsources, hdecode, hordered, hfaithful⟩

end Inlay
