/-
Names in source maps.

Only identifiers have marks with a name, and such a mark stands right
before the name. So an entry with a name has the name at its position, as a
word of its own, and of all entries for that position it is the last, which
is kept. In a tree that was read from a text all identifiers are written, so
each of them has its segment in the map.
-/
import Inlay.Proofs.Script.Bounds
import Inlay.Proofs.Script.Provision
import Inlay.Proofs.SourceMap.Fidelity

namespace Inlay

open List
open SourceMap (Before NotBehind Entry ofEntries decode encode)

-- == marks of a tree

namespace Script

variable {p : Piece} {cs : List Char}

/-- All that is written with a node of a tree is written with the tree. -/
theorem Shows.of_mem_preorder {S : Scheme} {root n : Node} (hke : root.Keyed)
    (hwr : root.Every Writable) (hr : root.Every Regular) (hn : n ∈ root.preorder)
    (hp : ∀ kind, Shows S kind n p) (kind : Kind) : Shows S kind root p := by
  induction root using Node.induction_kids generalizing kind with
  | h root ih =>
    rw [Node.preorder_eq, mem_cons, mem_flatMap] at hn
    obtain rfl | ⟨k, hk, hn⟩ := hn
    · exact hp kind
    · obtain ⟨e, he, hc⟩ := mem_flatMap.1 (root.map_snd_kids ▸ mem_map_of_mem hk)
      obtain ⟨hs, hki⟩ := Node.every_iff.1 hwr
      obtain ⟨hs', hki'⟩ := Node.every_iff.1 hr
      obtain ⟨want, -, hw, hf, -⟩ := hs'.exists_found hke.nodup hs he hc
      exact .kid hw hf (ih k hk ((Node.keyed_iff.1 hke).2 k hk) (hki k hk) (hki' k hk) hn _)

/-- An identifier is a word of the text. -/
def Worded (tokens : List Token) (n : Node) : Prop :=
  n.kind = .identifier →
    ∃ t ∈ tokens, t.kind = .word ∧ n.string? "name" = some t.text ∧ n.range = some t.span

theorem worded_of_parse {text : String} {source : Option String} {t : Tree}
    (h : Tech.js.parse text source = .ok t) :
    ∃ lexed, lex text.toList = .ok lexed ∧ t.root.Every (Worded lexed.tokens) := by
  obtain ⟨ns, hr, hp⟩ := Tech.exists_read h
  cases hr with
  | @statements lexed ts _ hl hts hd =>
    refine ⟨lexed, hl, hp.every_of_root (fun f hf n => ?_) (by rintro ⟨⟩) ?_⟩
    · rw [Worded, Worded, hf.kind, hf.range, Node.string?, hf.data?, ← Node.string?]
    · refine (Tiles.sits hd.lies).every (by rintro ⟨⟩) fun us hus runs n hfo hk => ?_
      obtain ⟨t, rfl, ht, hn⟩ := hfo.word hk
      exact ⟨t, hts (hus (.head _)), ht, hn, hfo.range⟩

-- == words of a drawing

theorem Flushed.of_cons {ps : List Piece} (h : Flushed (p :: ps)) : Flushed ps := by
  cases p with
  | mark m => exact h.2.2
  | _ => exact h

/-- What stands before the token of a mark. -/
def Mark.Heads (m : Mark) (ps : List Piece) : Prop :=
  ∀ name, m.name = some name → ps.head? = some (.token name) ∨ ps.head? = some (.mark m)

/-- The word stands by itself in a text behind the pen, at the position. -/
def Pen.HasWord (pen : Pen) (text word : List Char) (position : Nat × Nat) : Prop :=
  ∃ before behind, text = before ++ (word ++ behind) ∧ position = (pen.writeAll before).position ∧
    (∀ c ∈ (pen.writeAll before).last, isWordPart c = false) ∧
    ∀ c ∈ behind.head?, isWordPart c = false

theorem Pen.HasWord.behind {pen : Pen} {front text word : List Char} {position : Nat × Nat}
    (h : (pen.writeAll front).HasWord text word position) :
    pen.HasWord (front ++ text) word position := by
  obtain ⟨before, behind, rfl, hp, hl, hh⟩ := h
  rw [← Pen.writeAll_append] at hp hl
  exact ⟨front ++ before, behind, (append_assoc ..).symm, hp, hl, hh⟩

theorem Pen.before_writeAll (pen : Pen) (h : cs ≠ []) :
    Before pen.position (pen.writeAll cs).position := by
  cases cs with
  | nil => exact absurd rfl h
  | cons c cs =>
    have hu : 0 < Text.units c := by
      unfold Text.units
      split <;> decide
    have hr := (pen.write c).notBehind_writeAll cs
    show Before pen.position ((pen.write c).writeAll cs).position
    unfold write at hr ⊢
    unfold Before NotBehind Pen.position at *
    split at hr <;> simp_all <;> omega

theorem isWordPart_of_isWord (h : IsWord cs) : ∀ c ∈ cs, isWordPart c = true := by
  obtain ⟨c, rest, rfl, hc, hr⟩ := h
  refine forall_mem_cons.2 ⟨isWordPart_of_lexeme (isWordPart_of_isWordStart hc), fun d hd => ?_⟩
  exact isWordPart_of_lexeme (hr d hd)

section Drawings

variable {ind : Bool} {pen : Pen} {pending : List Mark} {ps : List Piece} {name : String}

/-- What is written behind a word does not run together with it. -/
theorem head_drawFrom {l : Char} (hla : pen.last = some l) (hl : isWordPart l = true) :
    ∀ c ∈ (drawFrom ind pen pending ps).code.head?, isWordPart c = false := by
  fun_induction drawFrom ind pen pending ps with
  | case1 => simp
  | case2 pen pending piece rest m hi ih => exact ih hla
  | case3 pen pending piece rest text hi drawing ih =>
    cases text with
    | nil => exact ih hla
    | cons c text =>
      have hc : c = ' ' ∨ c = '\n' := by
        cases piece <;> simp only [Piece.ink, reduceCtorEq, Ink.blank.injEq] at hi
        all_goals
          split at hi <;> cases hi
          simp
      rcases hc with rfl | rfl <;> exact fun _ hc => Option.some.inj hc ▸ rfl
  | case4 pen pending piece rest text hi space start drawing ih =>
    cases text with
    | nil =>
      have hs : space = [] := by
        show gap pen.last [] = []
        rw [hla]
        rfl
      have hst : start = pen := by
        show pen.writeAll space = pen
        rw [hs]
        rfl
      have hco : ∀ c ∈ drawing.code.head?, isWordPart c = false := ih (hst ▸ hla)
      rwa [hs]
    | cons f text =>
      have hs : space = if runsTogether l f then [' '] else [] := by
        show gap pen.last (f :: text) = _
        rw [hla]
        rfl
      rw [hs]
      split
      · exact fun _ hc => Option.some.inj hc ▸ rfl
      · next ha =>
        intro c hc
        cases hc
        cases hf : isWordPart f with
        | false => rfl
        | true => simp [runsTogether, hl, hf] at ha

/-- A word does not run together with what was written before it. -/
theorem last_gap (pen : Pen) {c : Char} (hc : isWordPart c = true) (cs : List Char) :
    ∀ d ∈ (pen.writeAll (gap pen.last (c :: cs))).last, isWordPart d = false := by
  cases hla : pen.last with
  | none =>
    show ∀ d ∈ pen.last, _
    rw [hla]
    nofun
  | some l =>
    show ∀ d ∈ (pen.writeAll (if runsTogether l c then [' '] else [])).last, _
    split
    · exact fun _ hd => Option.some.inj hd ▸ rfl
    · next ha =>
      intro d hd
      cases hla.symm.trans hd
      cases hl : isWordPart l with
      | false => rfl
      | true => simp [runsTogether, hl, hc] at ha

/-- An entry with a name has the name at its position. -/
theorem word_of_mem_drawFrom {e : Entry} (hps : Flushed ps) (hpe : ∀ m ∈ pending, m.Heads ps)
    (he : e ∈ (drawFrom ind pen pending ps).entries) (hn : e.name = some name)
    (hw : IsWord name.toList) :
    pen.HasWord (drawFrom ind pen pending ps).code name.toList e.position := by
  fun_induction drawFrom ind pen pending ps with
  | case1 => cases he
  | case2 pen pending piece rest m hi ih =>
    cases piece <;> cases hi
    refine ih hps.of_cons (forall_mem_append.2 ⟨fun m' hm' name hm => ?_, ?_⟩) he
    · rcases hpe m' hm' name hm with h | h <;> cases h
      exact hps.2.1 name hm
    · exact forall_mem_singleton.2 hps.2.1
  | case3 pen pending piece rest text hi drawing ih =>
    refine (ih hps.of_cons (fun m hm name hn => ?_) he).behind
    rcases hpe m hm name hn with h | h <;> cases h <;> cases hi
  | case4 pen pending piece rest text hi space start drawing ih =>
    rcases mem_append.1 he with he | he
    · obtain ⟨m, hm, rfl⟩ := mem_map.1 he
      rcases hpe m hm name hn with h | h <;> cases h <;> cases hi
      have hp := isWordPart_of_isWord hw
      obtain ⟨c, cs, ht, -⟩ := hw
      refine ⟨space, drawing.code, append_assoc .., rfl, ?_, fun d => ?_⟩
      · show ∀ d ∈ (pen.writeAll (gap pen.last name.toList)).last, _
        rw [ht] at hp ⊢
        exact last_gap pen (hp c (.head _)) cs
      · obtain ⟨l, hl⟩ : ∃ l, name.toList.getLast? = some l := ⟨_, ht ▸ getLast?_cons⟩
        exact head_drawFrom (Pen.last_writeAll hl start) (hp l (mem_of_getLast? hl)) d
    · refine Pen.HasWord.behind ?_
      rw [Pen.writeAll_append]
      exact ih hps.of_cons (forall_mem_nil _) he

/-- Of the entries for the position of a name, the last has the name. -/
theorem last_of_mark {m : Mark} (hn : m.name = some name) (hne : name.toList ≠ [])
    (hps : Flushed ps) (hm : .mark m ∈ ps ∨ pending.getLast? = some m ∧ m.Heads ps) :
    ∃ front pen' back, (drawFrom ind pen pending ps).entries = front ++ m.entry pen' :: back ∧
      ∀ e ∈ back, e.position ≠ pen'.position := by
  fun_induction drawFrom ind pen pending ps with
  | case1 => simp [Mark.Heads, hn] at hm
  | case2 pen pending piece rest m' hi ih =>
    cases piece <;> cases hi
    by_cases hm' : m' = m
    · subst hm'
      exact ih hps.of_cons (.inr ⟨by simp, hps.2.1⟩)
    · refine ih hps.of_cons (.inl ?_)
      simpa [Mark.Heads, hn, hm', Ne.symm hm'] using hm
  | case3 pen pending piece rest text hi drawing ih =>
    refine ih hps.of_cons (.inl ?_)
    cases piece <;> cases hi <;> simpa [Mark.Heads, hn] using hm
  | case4 pen pending piece rest text hi space start drawing ih =>
    rcases hm with hm | ⟨hl, hh⟩
    · have hr : .mark m ∈ rest := by cases piece <;> cases hi <;> simpa using hm
      obtain ⟨front, pen', back, hen, hba⟩ := ih hps.of_cons (.inl hr)
      refine ⟨pending.map (Mark.entry start) ++ front, pen', back, ?_, hba⟩
      exact (congrArg (pending.map (Mark.entry start) ++ ·) hen).trans (append_assoc ..).symm
    · obtain ⟨init, rfl⟩ := getLast?_eq_some_iff.1 hl
      rcases hh name hn with h | h <;> cases h <;> cases hi
      refine ⟨init.map (Mark.entry start), start, drawing.entries, by simp, fun e he heq => ?_⟩
      have hb := notBehind_of_mem_drawFrom he
      have hbe := start.before_writeAll hne
      rw [heq] at hb
      unfold NotBehind at hb
      unfold Before at hbe
      omega

end Drawings

end Script

-- == segments

namespace SourceMap

/-- A mapping is kept if the next one has another position. -/
theorem mem_keepLast {m : Mapping} {front back : List Mapping}
    (h : ∀ m' ∈ back, m'.position ≠ m.position) : m ∈ keepLast (front ++ m :: back) := by
  induction front with
  | nil =>
    cases back with
    | nil => exact .head _
    | cons next rest =>
      show m ∈ keepLast (m :: next :: rest)
      rw [keepLast, if_neg fun heq => h next (.head _) (Prod.ext heq.1.symm heq.2.symm)]
      exact .head _
  | cons a front ih =>
    cases hl : front ++ m :: back with
    | nil => exact absurd hl (by simp)
    | cons next rest =>
      rw [hl] at ih
      rw [cons_append, hl, keepLast]
      split
      · exact ih
      · exact .tail _ ih

/-- The last entry for a position has its mapping in the map. -/
theorem mapping_mem_ofEntries {entries front back : List Entry} {e : Entry}
    (he : entries = front ++ e :: back) (hb : ∀ e' ∈ back, e'.position ≠ e.position) :
    e.mapping (ofEntries entries).sources (ofEntries entries).names ∈ (ofEntries entries).mappings := by
  have hm (f : Entry → Mapping) (hf : ∀ e, (f e).position = e.position) :
      f e ∈ keepLast (entries.map f) := by
    rw [he, map_append, map_cons]
    refine mem_keepLast fun m' hm' => ?_
    obtain ⟨e', he', rfl⟩ := mem_map.1 hm'
    rw [hf, hf]
    exact hb e' he'
  exact hm _ fun _ => rfl

/-- The segment ties a word of the code to the same word of a source: to a
token that starts at the point. -/
structure Segment.IsNamed (code : List Char) (map : SourceMap) (path : String) (text : List Char)
    (tokens : List Script.Token) (s : Segment) (name : String) (point : Point) : Prop where
  word : ∃ before behind, code = before ++ (name.toList ++ behind) ∧
    s.line = before.count '\n' ∧ s.column = Text.width (Text.lastLine before) ∧
    (∀ c ∈ before.getLast?, Script.isWordPart c = false) ∧
    ∀ c ∈ behind.head?, Script.isWordPart c = false
  origin : ∃ o i, s.origin = some o ∧ o.name = some i ∧ map.names[i]? = some name ∧
    map.sources[o.source]? = some path ∧ point = ⟨o.line + 1, o.column⟩
  token : ∃ t ∈ tokens, t.kind = .word ∧ t.text = name ∧
    (LineTable.ofText text).point t.span.start = point

end SourceMap

namespace Script

variable {text path : String} {t : Tree} {n : Node} {tokens : List Token} {e : Entry}
  {ind : Bool} {name : String} {pieces : List Piece}

theorem marks_of_worded (hl : Located text.toList (some path) n) (hwo : Worded tokens n)
    (hk : n.kind = .identifier) : ∃ t ∈ tokens, t.kind = .word ∧ n.string? "name" = some t.text ∧
      n.loc = some ((LineTable.ofText text.toList).location t.span (some path)) ∧ n.marks =
        [.mark ⟨path, (LineTable.ofText text.toList).point t.span.start, some t.text⟩] := by
  obtain ⟨t, ht, hw, hn, hr⟩ := hwo hk
  rw [Located, hr] at hl
  refine ⟨t, ht, hw, hn, hl, ?_⟩
  rw [Node.marks, hl, if_pos hk, hn]
  rfl

/-- Only identifiers give names to entries. -/
theorem identifier_of_mem_entries (hp : Code.program 0 t.root = .ok pieces)
    (he : e ∈ (draw ind pieces).entries) (hna : e.name = some name) :
    ∃ n ∈ t.root.preorder, n.kind = .identifier ∧ ∃ m pen, .mark m ∈ n.marks ∧ e = m.entry pen := by
  obtain ⟨m, pen, hm, rfl⟩ := mark_of_mem_drawFrom he
  obtain ⟨n, hn, hma⟩ := isMark_of_program hp (hm.resolve_left not_mem_nil)
  refine ⟨n, hn, ?_, m, pen, hma, rfl⟩
  by_contra hk
  unfold Node.marks at hma
  split at hma
  · cases mem_singleton.1 hma
    exact absurd hna (by simp [Mark.entry, hk])
  · cases hma

theorem isNamed_of_mem_entries (hpi : Code.program 0 t.root = .ok pieces)
    (hf : Flushed pieces) (hlo : t.root.Every (Located text.toList (some path)))
    (hwo : t.root.Every (Worded tokens)) (hs : ∀ t ∈ tokens, t.IsSpelled)
    (he : e ∈ (draw ind pieces).entries) (hna : e.name = some name) :
    (e.mapping (ofEntries (draw ind pieces).entries).sources
      (ofEntries (draw ind pieces).entries).names).toSegment.IsNamed
      (draw ind pieces).code (ofEntries (draw ind pieces).entries) path
      text.toList tokens name e.origin := by
  obtain ⟨n, hn, hk, m, pen, hm, rfl⟩ := identifier_of_mem_entries hpi he hna
  obtain ⟨t, ht, hw, -, -, hma⟩ := marks_of_worded (hlo n hn) (hwo n hn) hk
  rw [hma] at hm
  cases mem_singleton.1 hm
  cases hna
  have hs := hs t ht
  rw [Token.IsSpelled, hw] at hs
  refine ⟨?_, ⟨_, _, rfl, rfl, ?_, ?_, rfl⟩, t, ht, hw, rfl, rfl⟩
  · obtain ⟨before, behind, hco, hp, hl, hh⟩ :=
      word_of_mem_drawFrom hf (forall_mem_nil _) he rfl hs
    refine ⟨before, behind, hco, ?_, ?_, ?_, hh⟩
    · exact (congrArg Prod.fst hp).trans ((Pen.start.line_writeAll before).trans (Nat.zero_add _))
    · exact (congrArg Prod.snd hp).trans (Pen.column_writeAll before)
    · intro c hc
      exact hl c (Pen.last_writeAll hc _)
  · exact getElem?_idxOf (mem_eraseDups.2 (mem_filterMap.2 ⟨_, he, rfl⟩))
  · exact getElem?_idxOf (mem_eraseDups.2 (mem_map_of_mem he))

/-- The last entry for a position gives a mapping. -/
theorem mapping_of_mark (ind : Bool) {m : Mark} (hn : m.name = some name)
    (hne : name.toList ≠ []) (hf : Flushed pieces) (hm : .mark m ∈ pieces) :
    ∃ pen, m.entry pen ∈ (draw ind pieces).entries ∧
      (m.entry pen).mapping (ofEntries (draw ind pieces).entries).sources
        (ofEntries (draw ind pieces).entries).names ∈
        (ofEntries (draw ind pieces).entries).mappings := by
  obtain ⟨front, pen, back, he, hb⟩ : ∃ front pen back,
      (draw ind pieces).entries = front ++ m.entry pen :: back ∧
        ∀ e ∈ back, e.position ≠ pen.position := last_of_mark hn hne hf (.inl hm)
  exact ⟨pen, by simp [he], SourceMap.mapping_mem_ofEntries he hb⟩

/-- A program without statements has no nodes below it. -/
theorem preorder_of_nil_body {root : Node} (hki : root.kind = .program) (hke : root.Keyed)
    (hwr : Writable root) (hr : Regular root) (hb : root.children? "body" = some [])
    (hn : n ∈ root.preorder) : n = root := by
  rw [Node.preorder_eq, mem_cons, mem_flatMap] at hn
  obtain hn | ⟨k, hk, -⟩ := hn
  · exact hn
  · obtain ⟨e, he, hc⟩ := mem_flatMap.1 (root.map_snd_kids ▸ mem_map_of_mem hk)
    obtain ⟨want, -, hw, hf, -⟩ := hr.exists_found hke.nodup hwr he hc
    rw [hki] at hw
    obtain ⟨hkey, rfl⟩ := Prod.mk.inj (mem_singleton.1 hw)
    simp [hkey, hb] at hf

end Script

/-- Names in the map of a script tie words of the code to the same words of
the text, and every identifier has its segment. -/
theorem Tech.names_in_map {indented : Bool} {text path : String} {t : Tree}
    (h : Tech.js.parse text (some path) = .ok t) :
    ∃ lexed g segments, Script.lex text.toList = .ok lexed ∧ Tech.js.generate indented t = .ok g ∧
      SourceMap.decode (SourceMap.encode g.map.mappings) = some segments ∧
      (∀ s ∈ segments, ∀ o i, s.origin = some o → o.name = some i → ∃ name,
        s.IsNamed g.code.toList g.map path text.toList lexed.tokens name ⟨o.line + 1, o.column⟩) ∧
      ∀ n ∈ t.root.preorder, n.kind = .identifier → ∃ name loc, n.string? "name" = some name ∧
        n.loc = some loc ∧ ∃ s ∈ segments,
          s.IsNamed g.code.toList g.map path text.toList lexed.tokens name loc.start := by
  obtain ⟨lexed, hlex, hworded⟩ := Script.worded_of_parse h
  obtain ⟨ns, hparsed, -⟩ := exists_composed h
  have hkind := Tech.js.kind_of_parse h
  have hwritable := Tech.js.writable_of_parse h
  have hregular := Tech.js.regular_of_parse h
  obtain ⟨pieces, hpieces⟩ := Script.program_succeeds hwritable hkind 0
  obtain ⟨segments, hdecode, rfl, -⟩ := Script.decode_ofEntries indented pieces
  refine ⟨lexed, _, _, hlex, mapError_eq_ok_iff.2 (bind_ok_iff.2 ⟨pieces, hpieces, rfl⟩), hdecode,
    ?_⟩
  rw [String.toList_ofList]
  by_cases hbody : t.root.children? "body" = some []
  · -- without statements there are no identifiers
    have hnone : ∀ n ∈ t.root.preorder, n.kind ≠ .identifier := by
      intro n hn
      rw [Script.preorder_of_nil_body hkind (Tech.js.keyed_of_parse h) hwritable.self hregular.self
        hbody hn, hkind]
      nofun
    refine ⟨fun s hs o i ho hi => ?_, fun n hn hid => absurd hid (hnone n hn)⟩
    obtain ⟨m, hm, rfl⟩ := mem_map.1 hs
    obtain ⟨e, he, rfl⟩ := mem_map.1 (SourceMap.mem_of_mem_keepLast hm)
    cases ho
    obtain ⟨name, hname, -⟩ := Option.map_eq_some_iff.1 hi
    obtain ⟨n, hn, hid, -⟩ := Script.identifier_of_mem_entries hpieces he hname
    exact absurd hid (hnone n hn)
  · obtain ⟨pieces', hpieces', hflushed, hshows⟩ :=
      Script.program_flushed hkind hwritable hregular hbody 0
    cases hpieces.symm.trans hpieces'
    have hspelled := (Script.lex_formed hlex).spelled
    have hnamed (e : SourceMap.Entry) (name : String)
        (he : e ∈ (Script.draw indented pieces).entries) (hname : e.name = some name) :=
      Script.isNamed_of_mem_entries hpieces hflushed hparsed.located hworded hspelled he hname
    refine ⟨fun s hs o i ho hi => ?_, fun n hn hid => ?_⟩
    · obtain ⟨m, hm, rfl⟩ := mem_map.1 hs
      obtain ⟨e, he, rfl⟩ := mem_map.1 (SourceMap.mem_of_mem_keepLast hm)
      cases ho
      obtain ⟨name, hname, -⟩ := Option.map_eq_some_iff.1 hi
      obtain ⟨hword, ⟨o, i, ho, hi, hnames, hsource, horigin⟩, htoken⟩ := hnamed e name he hname
      cases ho
      exact ⟨name, hword, ⟨_, _, rfl, hi, hnames, hsource, rfl⟩, horigin ▸ htoken⟩
    · obtain ⟨token, htoken, hword, hname, hloc, hmarks⟩ :=
        Script.marks_of_worded (hparsed.located n hn) (hworded n hn) hid
      have hmark := hshows _ (Script.Shows.of_mem_preorder (Tech.js.keyed_of_parse h) hwritable
        hregular hn (fun kind => .own trivial (by rw [hid]; nofun) (by rw [hid]; nofun)
          (by rw [hmarks]; exact .head _)) .program)
      have hne : token.text.toList ≠ [] := by
        have hspelled := hspelled token htoken
        rw [Script.Token.IsSpelled, hword] at hspelled
        obtain ⟨c, cs, htext, -⟩ := hspelled
        rw [htext]
        exact cons_ne_nil _ _
      obtain ⟨pen, he, hmapping⟩ := Script.mapping_of_mark indented rfl hne hflushed hmark
      exact ⟨token.text, _, hname, hloc, _, mem_map_of_mem hmapping, hnamed _ _ he rfl⟩

/-- The name in "'é'; x" stands six bytes behind the start, in column five. -/
theorem Tech.names_in_map_wide :
    ∃ t lexed g segments, Tech.js.parse "'é'; x" (some "m.js") = .ok t ∧
      Script.lex "'é'; x".toList = .ok lexed ∧ Tech.js.generate true t = .ok g ∧
      SourceMap.decode (SourceMap.encode g.map.mappings) = some segments ∧
      ∃ s ∈ segments, s.IsNamed g.code.toList g.map "m.js" "'é'; x".toList lexed.tokens "x" ⟨1, 5⟩ := by
  have hname : (Tech.js.parse "'é'; x" (some "m.js")).toOption.map (fun t =>
      (t.root.preorder.filter (·.kind = .identifier)).map fun n =>
        (n.string? "name", n.loc.map (·.start))) = some [(some "x", some ⟨1, 5⟩)] := by
    decide +kernel
  obtain ⟨t, ht, hname⟩ := Option.map_eq_some_iff.1 hname
  obtain ⟨n, hn, heq⟩ := mem_map.1 (hname ▸ mem_singleton_self _)
  obtain ⟨hn, hid⟩ := mem_filter.1 hn
  obtain ⟨lexed, g, segments, hlex, hg, hdecode, -, hsegments⟩ :=
    @Tech.names_in_map true _ _ t (eq_ok_of_toOption ht)
  refine ⟨t, lexed, g, segments, eq_ok_of_toOption ht, hlex, hg, hdecode, ?_⟩
  obtain ⟨name, loc, hname, hloc, s, hs, hnamed⟩ := hsegments n hn (of_decide_eq_true hid)
  simp only [hname, hloc, Option.map_some, Prod.mk.injEq, Option.some.injEq] at heq
  obtain ⟨rfl, hstart⟩ := heq
  exact ⟨s, hs, hstart ▸ hnamed⟩

end Inlay
