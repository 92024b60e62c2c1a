/-
How large positions get.

Positions in a text are no larger than the text, but for the lines, which
are counted from one. Those of a text that is shorter than the largest word
all fit into words (`Tech.positioned_of_parse`).
-/
import Inlay.Proofs.Tree.Documents

namespace Inlay

open Text (bytes)

open List

variable {s : Span} {cs : List Char} {t : Tree} {source : Option String} {tech : Tech}

/-- The lines of the text can be counted in a word. -/
def Text.Fits (cs : List Char) : Prop := bytes cs + 1 < 2 ^ 64

instance (cs : List Char) : Decidable (Text.Fits cs) := inferInstanceAs (Decidable (_ < _))

-- == lines

theorem Text.units_le (c : Char) : units c ≤ c.utf8Size := by
  have hp := c.utf8Size_pos
  unfold units
  split
  · exact hp
  · next h =>
    have ho : c.utf8Size ≠ 1 := by
      intro hs
      have hv : c.toNat ≤ 127 := Char.utf8Size_eq_one_iff.1 hs
      omega
    omega

namespace LineTable

variable {cs : List Char}

theorem length_linesAfter (off : Nat) (cs : List Char) : (linesAfter off cs).length ≤ bytes cs := by
  induction cs generalizing off with
  | nil => exact Nat.le_refl 0
  | cons c cs ih =>
    have hp := c.utf8Size_pos
    have hr := ih (off + c.utf8Size)
    rw [linesAfter, bytes]
    split
    · rw [length_cons]
      omega
    · omega

theorem widthOfBytes_le {n w : Nat} (h : widthOfBytes n cs = some w) : w ≤ n := by
  induction cs generalizing n w with
  | nil =>
    cases n with
    | zero => cases h; exact Nat.le_refl 0
    | succ n => cases h
  | cons c cs ih =>
    cases n with
    | zero => cases h; exact Nat.le_refl 0
    | succ n =>
      rw [widthOfBytes] at h
      split at h
      · next hle =>
        obtain ⟨w', hw', rfl⟩ := Option.map_eq_some_iff.1 h
        have hu := Text.units_le c
        have hr := ih hw'
        omega
      · cases h

/-- A point lies in one of the lines, and no further in it than in the
text. -/
theorem point_le (cs : List Char) (offset : Nat) :
    ((ofText cs).point offset).line ≤ bytes cs + 1 ∧
      ((ofText cs).point offset).column ≤ offset := by
  constructor
  · have ht := (takeWhile_sublist (l := (ofText cs).later) fun l => l.start ≤ offset).length_le
    exact Nat.succ_le_succ (ht.trans (length_linesAfter 0 cs))
  · let before := (ofText cs).later.takeWhile (·.start ≤ offset)
    let line := before.getLast?.getD ⟨0, cs⟩
    show (widthOfBytes (offset - line.start) line.text).getD (offset - line.start) ≤ offset
    cases hw : widthOfBytes (offset - line.start) line.text with
    | none => exact Nat.sub_le ..
    | some w => exact (widthOfBytes_le hw).trans (Nat.sub_le ..)

theorem fits_point {off : Nat} (hcs : Text.Fits cs) (ho : off ≤ bytes cs) :
    ((ofText cs).point off).Fits := by
  have hlt : bytes cs + 1 < 2 ^ 64 := hcs
  obtain ⟨hl, hc⟩ := point_le cs off
  exact ⟨by omega, by omega⟩

end LineTable

/-- The span lies in a text of the given size. -/
def Span.Within (size : Nat) (s : Span) : Prop := s.start ≤ size ∧ s.stop ≤ size

theorem Span.Within.fits (h : s.Within (bytes cs)) (hcs : Text.Fits cs) : s.Fits := by
  have hlt : bytes cs + 1 < 2 ^ 64 := hcs
  obtain ⟨hs, hst⟩ := h
  exact ⟨by omega, by omega⟩

theorem Span.Within.fits_location (h : s.Within (bytes cs)) (hcs : Text.Fits cs)
    (source : Option String) : ((LineTable.ofText cs).location s source).Fits :=
  ⟨LineTable.fits_point hcs h.1, LineTable.fits_point hcs h.2⟩

-- == nodes

/-- What is known of where a node stands. -/
structure Positioned (n : Node) : Prop where
  range : ∀ r, n.range = some r → r.Fits
  loc : ∀ l, n.loc = some l → l.Fits
  comments : ∀ c ∈ n.leading ++ n.trailing, c.Fits
  /-- Nothing is known of a node without a range. -/
  bare : n.range = none → n.loc = none ∧ n.leading = [] ∧ n.trailing = []

namespace Placed

variable {all : List Span} {t : Tree} {text : List Char} {source : Option String}

theorem within (h : Placed all t) (hra : t.root.range = some ⟨0, bytes text⟩) :
    ∀ i ∈ all ++ t.comments.filterMap (·.range), i.Within (bytes text) := by
  intro i hi
  obtain ⟨r, hr, hc⟩ := h.range
  cases hr.symm.trans hra
  obtain ⟨-, hs⟩ := Span.contains_iff.1 (hc i hi)
  have hso : i.start < i.stop := by
    rcases mem_append.1 hi with hi | hi
    · exact h.spans.solid i hi
    · exact h.comments.solid i hi
  exact ⟨hso.le.trans hs, hs⟩

theorem range_within (h : Placed all t) (hra : t.root.range = some ⟨0, bytes text⟩) :
    t.root.Every fun n => ∀ r, n.range = some r → r.Within (bytes text) := by
  have hw := h.within hra
  refine Node.every_iff.2 ⟨fun r hr => ?_, fun k hk n hn r hr => ?_⟩
  · cases hr.symm.trans hra
    exact ⟨Nat.zero_le _, Nat.le_refl _⟩
  · obtain ⟨-, ⟨s, hs, hst⟩, s', hs', hsto⟩ := (h.inner k hk n hn).ends r hr
    exact ⟨hst ▸ (hw s (mem_append_left _ hs)).1, hsto ▸ (hw s' (mem_append_left _ hs')).2⟩

theorem fits_comments (h : Placed all t) (ht : Text.Fits text)
    (hra : t.root.range = some ⟨0, bytes text⟩)
    (hlo : ∀ c ∈ t.comments, c.loc = c.range.map ((LineTable.ofText text).location · source)) :
    ∀ c ∈ t.comments, c.Fits := by
  intro c hc
  have hw : ∀ r, c.range = some r → r.Within (bytes text) := fun r hr =>
    h.within hra r (mem_append_right _ (mem_filterMap.2 ⟨c, hc, hr⟩))
  refine ⟨fun r hr => (hw r hr).fits ht, fun l hl => ?_⟩
  rw [hlo c hc] at hl
  obtain ⟨r, hr, rfl⟩ := Option.map_eq_some_iff.1 hl
  exact (hw r hr).fits_location ht source

theorem range_of_takes {p : Path} {n : Node} {c : Comment} (hk : t.root.Keyed)
    (hat : t.root.at? p = some n)
    (ht : Script.leads t.root.places.tail all p c = true ∨
      Script.trails t.root.places.tail all p c = true) : n.range.isSome = true := by
  rw [Script.leads_iff, Script.trails_iff, Option.bind_eq_some_iff, Option.bind_eq_some_iff] at ht
  have hp : ∃ m, (p, m) ∈ t.root.places.tail ∧ m.range.isSome = true := by
    obtain ⟨r, -, hh⟩ | ⟨r, -, hh⟩ := ht
    · exact Script.range_of_host? (.inl hh)
    · exact Script.range_of_host? (.inr hh)
  obtain ⟨m, hm, hs⟩ := hp
  cases hat.symm.trans ((Node.mem_places_iff hk).1 (mem_of_mem_tail hm))
  exact hs

theorem positioned (h : Placed all t) (hk : t.root.Keyed) (ht : Text.Fits text)
    (hra : t.root.range = some ⟨0, bytes text⟩) (hlo : t.root.Every (Located text source))
    (hco : ∀ c ∈ t.comments, c.Fits) : t.root.Every Positioned := by
  intro n hn
  have hw := h.range_within hra n hn
  rw [← Node.map_snd_places] at hn
  obtain ⟨⟨p, n⟩, hp, rfl⟩ := mem_map.1 hn
  have hat := (Node.mem_places_iff hk).1 hp
  have hle := h.leading p n hat
  have htr := h.trailing p n hat
  have hloc := hlo n (Node.mem_preorder_of_at? hat)
  refine ⟨fun r hr => (hw r hr).fits ht, fun l hl => ?_, ?_, fun hno => ⟨?_, ?_, ?_⟩⟩
  · rw [hloc] at hl
    obtain ⟨r, hr, rfl⟩ := Option.map_eq_some_iff.1 hl
    exact (hw r hr).fits_location ht source
  · rw [hle, htr]
    refine forall_mem_append.2 ⟨fun c hc => ?_, fun c hc => ?_⟩
    · exact hco c (mem_of_mem_filter hc)
    · exact hco c (mem_of_mem_filter hc)
  · rw [hloc, hno, Option.map_none]
  · rw [hle, filter_eq_nil_iff]
    intro c _ hlea
    have hs := range_of_takes hk hat (.inl hlea)
    rw [hno] at hs
    cases hs
  · rw [htr, filter_eq_nil_iff]
    intro c _ htra
    have hs := range_of_takes hk hat (.inr htra)
    rw [hno] at hs
    cases hs

end Placed

-- == files

/-- Every position in the tree of a file fits into a word if those of its
text do. -/
theorem Tech.positioned_of_parse {text : String} (h : tech.parse text source = .ok t)
    (ht : Text.Fits text.toList) : t.root.Every Positioned ∧ ∀ c ∈ t.comments, c.Fits := by
  obtain ⟨ns, hpa⟩ := exists_parsed h
  have hk := keyed_of_parse h
  have hof {lexed : Script.Lexed} (hp : Placed lexed.spans t) (hs : t.comments =
        lexed.comments.map (Comment.locate (LineTable.ofText text.toList) source)) :
      t.root.Every Positioned ∧ ∀ c ∈ t.comments, c.Fits := by
    have hlo : ∀ c ∈ t.comments,
        c.loc = c.range.map ((LineTable.ofText text.toList).location · source) := by
      rw [hs]
      exact forall_mem_map.2 fun _ _ => rfl
    have hc := hp.fits_comments ht hpa.range hlo
    exact ⟨hp.positioned hk ht hpa.range hpa.located hc, hc⟩
  cases tech with
  | js =>
    obtain ⟨_, -, hs, hp, -⟩ := Script.parse_placed (mapError_eq_ok_iff.1 h)
    exact hof hp hs
  | json =>
    obtain ⟨_, -, hs, hp⟩ := Script.parseExpression_placed (mapError_eq_ok_iff.1 h)
    exact hof hp hs
  | txt =>
    cases h
    have hsp : Span.Within (bytes text.toList) ⟨0, bytes text.toList⟩ :=
      ⟨Nat.zero_le _, Nat.le_refl _⟩
    have hse (kind : Kind) (props : List (String × Field Node)) :
        Positioned ⟨kind, props, some ⟨0, bytes text.toList⟩,
          some ((LineTable.ofText text.toList).location ⟨0, bytes text.toList⟩ source), [], []⟩ := by
      refine ⟨fun r hr => ?_, fun l hl => ?_, nofun, nofun⟩
      · cases hr
        exact hsp.fits ht
      · cases hl
        exact hsp.fits_location ht source
    refine ⟨Node.every_iff_props.2 ⟨hse .program _, ?_⟩, nofun⟩
    refine forall_mem_singleton.2 (forall_mem_singleton.2 ?_)
    exact Node.every_iff_props.2 ⟨hse .literal _, forall_mem_singleton.2 nofun⟩

end Inlay
