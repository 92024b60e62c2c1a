/-
Which tokens a line break comes before.

Outside of block comments every line terminator counts. Inside of them only
`\n` and `\r` do, though U+2028 and U+2029 end lines everywhere else
(`LineBreak`).
-/
import Inlay.Proofs.Script.Positions

namespace Inlay.Script

open List
open Text (bytes)
open Lexeme (isBlank isLineTerminator)

variable {off p : Nat} {newline : Bool} {cs text : List Char} {lexed lexed' : Lexed}
  {before after : List Token} {t : Token}

/-- No block comment is around the offset. -/
def Lexed.Clear (lexed : Lexed) (p : Nat) : Prop :=
  ∀ com ∈ lexed.comments, com.kind = .block → ∀ r, com.range = some r → ¬(r.start ≤ p ∧ p < r.stop)

/-- At the offset stands a line terminator that counts as a line break. -/
def LineBreak (lexed : Lexed) (offset : Nat) (cs : List Char) (p : Nat) : Prop :=
  ∃ front c rest, cs = front ++ c :: rest ∧ offset + bytes front = p ∧
    isLineTerminator c = true ∧ (c = '\n' ∨ c = '\r' ∨ lexed.Clear p)

/-- Behind a text the line breaks are those of the rest. -/
theorem lineBreak_append (h : lexed'.Clear p ↔ lexed.Clear p) (hp : off + bytes text ≤ p) :
    LineBreak lexed' off (text ++ cs) p ↔ LineBreak lexed (off + bytes text) cs p := by
  constructor
  · rintro ⟨front, c, rest, hcs, rfl, hc, hb⟩
    obtain ⟨behind, rfl⟩ | ⟨inner, rfl, rfl⟩ := mem_part hcs
    · have := c.utf8Size_pos
      rw [Text.bytes_append, bytes] at hp
      omega
    · rw [Text.bytes_append, ← Nat.add_assoc] at h hb ⊢
      exact ⟨inner, c, rest, rfl, rfl, hc, hb.imp_right (.imp_right h.1)⟩
  · rintro ⟨front, c, rest, rfl, rfl, hc, hb⟩
    refine ⟨text ++ front, c, rest, by simp, ?_, hc, hb.imp_right (.imp_right h.2)⟩
    rw [Text.bytes_append, Nat.add_assoc]

/-- Inside of the text. -/
theorem lineBreak_inside (hp : p < off + bytes text) :
    LineBreak lexed off (text ++ cs) p ↔ LineBreak lexed off text p := by
  constructor
  · rintro ⟨front, c, rest, hcs, rfl, hc, hb⟩
    obtain ⟨behind, rfl⟩ | ⟨inner, rfl, rfl⟩ := mem_part hcs
    · exact ⟨front, c, behind, rfl, rfl, hc, hb⟩
    · rw [Text.bytes_append] at hp
      omega
  · rintro ⟨front, c, rest, rfl, rfl, hc, hb⟩
    exact ⟨front, c, rest ++ cs, by simp, rfl, hc, hb⟩

theorem LineBreak.bounds (h : LineBreak lexed off cs p) : off ≤ p ∧ p < off + bytes cs := by
  obtain ⟨front, c, rest, rfl, rfl, -⟩ := h
  have := c.utf8Size_pos
  rw [Text.bytes_append, bytes]
  omega

-- == what stands before a token

theorem Scans.clear (h : Scans off newline cs lexed) (hp : p < off) : lexed.Clear p := by
  rintro com hc - r hr ⟨hle, -⟩
  have hm : r ∈ lexed.commentRanges := mem_filterMap.2 ⟨com, hc, hr⟩
  have := (h.spaced.within r (mem_append_right _ hm)).1
  omega

theorem Scans.le_start (h : Scans off newline cs lexed) :
    ∀ t ∈ lexed.tokens, off ≤ t.span.start ∧ t.span.start ≤ t.span.stop := by
  induction h with
  | done => exact forall_mem_singleton.2 ⟨Nat.le_refl _, Nat.le_refl _⟩
  | skip _ _ ih | comment _ _ ih =>
    exact fun t ht => ⟨Nat.le_of_add_right_le (ih t ht).1, (ih t ht).2⟩
  | token _ _ _ _ ih =>
    refine forall_mem_cons.2 ⟨⟨Nat.le_refl _, Nat.le_add_right ..⟩, fun t ht => ?_⟩
    exact ⟨Nat.le_of_add_right_le (ih t ht).1, (ih t ht).2⟩

/-- Some line break stands before the token and behind the one before it. -/
def BreaksBefore (lexed : Lexed) (offset : Nat) (cs : List Char) (before : List Token) (t : Token) :
    Prop :=
  ∃ p, LineBreak lexed offset cs p ∧ (∀ u ∈ before.getLast?, u.span.stop ≤ p) ∧ p < t.span.start

section

variable (h : Scans (off + bytes text) newline cs lexed)

include h

/-- A text in front of everything counts for the first token only. -/
theorem Scans.breaksBefore_append (ht : lexed.tokens = before ++ t :: after)
    (hc : ∀ p, off + bytes text ≤ p → (lexed'.Clear p ↔ lexed.Clear p)) :
    BreaksBefore lexed' off (text ++ cs) before t ↔
      (before = [] ∧ ∃ p, LineBreak lexed' off text p) ∨
        BreaksBefore lexed (off + bytes text) cs before t := by
  have hle := h.le_start
  rw [ht] at hle
  constructor
  · rintro ⟨p, hp, hl, hlt⟩
    by_cases hin : p < off + bytes text
    · refine .inl ⟨?_, p, (lineBreak_inside hin).1 hp⟩
      rcases eq_nil_or_concat' before with rfl | ⟨before, u, rfl⟩
      · rfl
      · have := hle u (by simp)
        have := hl u (by simp)
        omega
    · have hin := Nat.not_lt.1 hin
      exact .inr ⟨p, (lineBreak_append (hc p hin) hin).1 hp, hl, hlt⟩
  · rintro (⟨rfl, p, hp⟩ | ⟨p, hp, hl, hlt⟩)
    · have hin := hp.bounds.2
      have := hle t (by simp)
      exact ⟨p, (lineBreak_inside hin).2 hp, nofun, by omega⟩
    · have hin := hp.bounds.1
      exact ⟨p, (lineBreak_append (hc p hin) hin).2 hp, hl, hlt⟩

/-- A token in front of everything is the one before the first. -/
theorem Scans.breaksBefore_cons
    (ht : lexed.tokens = before ++ t :: after) {u : Token} (hu : u.span.stop = off + bytes text)
    (hc : ∀ p, lexed'.Clear p ↔ lexed.Clear p) :
    BreaksBefore lexed' off (text ++ cs) (u :: before) t ↔
      BreaksBefore lexed (off + bytes text) cs before t := by
  have hl : ∀ p, (∀ v ∈ (u :: before).getLast?, v.span.stop ≤ p) ↔
      off + bytes text ≤ p ∧ ∀ v ∈ before.getLast?, v.span.stop ≤ p := by
    intro p
    rcases eq_nil_or_concat' before with rfl | ⟨before, v, rfl⟩
    · simp [hu]
    · have := h.le_start v (by simp [ht])
      rw [← cons_append, getLast?_concat, getLast?_concat]
      simp only [Option.mem_some_iff, forall_eq']
      omega
  simp only [BreaksBefore, hl]
  refine exists_congr fun p => ⟨fun ⟨hp, ⟨hle, hv⟩, hlt⟩ => ?_, fun ⟨hp, hv, hlt⟩ => ?_⟩
  · exact ⟨(lineBreak_append (hc p) hle).1 hp, hv, hlt⟩
  · have hle := hp.bounds.1
    exact ⟨(lineBreak_append (hc p) hle).2 hp, ⟨hle, hv⟩, hlt⟩

theorem Scans.exists_lineBreak_skip :
    (∃ p, LineBreak lexed off text p) ↔ text.any isLineTerminator = true := by
  rw [any_eq_true]
  constructor
  · rintro ⟨_, front, c, rest, rfl, -, hc, -⟩
    exact ⟨c, by simp, hc⟩
  · rintro ⟨c, hm, hc⟩
    obtain ⟨front, rest, rfl⟩ := append_of_mem hm
    have hp : off + bytes front < off + bytes (front ++ c :: rest) := by
      have := c.utf8Size_pos
      rw [Text.bytes_append, bytes]
      omega
    exact ⟨_, front, c, rest, rfl, rfl, hc, .inr (.inr (h.clear hp))⟩

end

theorem exists_lineBreak_comment {kind : CommentKind} {value : List Char} {v : String} {r : Span}
    (hr : r = ⟨off, off + bytes (commentText kind value)⟩) (hv : IsComment kind value) :
    (∃ p, LineBreak { lexed with comments := ⟨kind, v, some r, none⟩ :: lexed.comments }
      off (commentText kind value) p) ↔ commentBreaks kind value = true := by
  cases kind with
  | line =>
    refine iff_of_false ?_ (by simp [commentBreaks])
    rintro ⟨_, front, c, rest, ht, -, hc, -⟩
    have hm : c ∈ commentText .line value := by simp [ht]
    rcases mem_cons.1 hm with rfl | hm
    · cases hc
    rcases mem_cons.1 hm with rfl | hm
    · cases hc
    · rw [hv rfl c hm] at hc
      cases hc
  | block =>
    rw [commentBreaks, breaksLine, any_eq_true]
    constructor
    · rintro ⟨p, hp⟩
      have hb := hp.bounds
      obtain ⟨front, c, rest, ht, -, -, hc⟩ := hp
      refine ⟨c, by simp [ht], ?_⟩
      rcases hc with rfl | rfl | hc
      · rfl
      · rfl
      · subst hr
        exact absurd hb (hc _ mem_cons_self rfl _ rfl)
    · rintro ⟨c, hm, hc⟩
      obtain ⟨front, rest, ht⟩ := append_of_mem hm
      simp only [Bool.or_eq_true, beq_iff_eq] at hc
      rcases hc with rfl | rfl
      · exact ⟨_, front, _, rest, ht, rfl, rfl, .inl rfl⟩
      · exact ⟨_, front, _, rest, ht, rfl, rfl, .inr (.inl rfl)⟩

/-- The flag that is handed on is one of the first token. -/
theorem Scans.newlineBefore_iff (h : Scans off newline cs lexed)
    (ht : lexed.tokens = before ++ t :: after) :
    t.newlineBefore = true ↔
      (before = [] ∧ newline = true) ∨ BreaksBefore lexed off cs before t := by
  induction h generalizing before with
  | done =>
    cases before with
    | nil =>
      obtain ⟨rfl, -⟩ := cons.inj ht
      refine ((or_iff_left ?_).trans (by simp)).symm
      rintro ⟨p, ⟨front, c, rest, hcs, -⟩, -⟩
      simp at hcs
    | cons u before => simp at ht
  | skip _ hs ih =>
    rw [ih ht, hs.breaksBefore_append ht fun _ _ => .rfl, hs.exists_lineBreak_skip,
      Bool.or_eq_true, and_or_left, or_assoc]
  | comment hv hs ih =>
    rw [ih ht, hs.breaksBefore_append ht, exists_lineBreak_comment rfl hv,
      Bool.or_eq_true, and_or_left, or_assoc]
    intro p hp
    refine forall_mem_cons.trans (and_iff_right ?_)
    rintro - r hr ⟨-, hlt⟩
    cases hr
    exact Nat.not_lt.2 hp hlt
  | token _ _ _ hs ih =>
    cases before with
    | nil =>
      obtain ⟨rfl, -⟩ := cons.inj ht
      refine ((or_iff_left ?_).trans (by simp)).symm
      rintro ⟨p, hp, -, hlt⟩
      have := hp.bounds.1
      dsimp only at hlt
      omega
    | cons u before =>
      obtain ⟨rfl, hre⟩ := cons.inj ht
      rw [ih hre]
      simp only [Bool.false_eq_true, and_false, reduceCtorEq, false_and, false_or]
      exact (hs.breaksBefore_cons hre rfl fun _ => .rfl).symm

/-- A line break comes before a token exactly if there is one in the text
from the end of the token before it, or from the start, to its own start;
a U+2028 or U+2029 in a block comment is none. -/
theorem lex_newlineBefore_iff (h : lex cs = .ok lexed) (ht : lexed.tokens = before ++ t :: after) :
    t.newlineBefore = true ↔ ∃ front c rest, cs = front ++ c :: rest ∧
      (∀ u ∈ before.getLast?, u.span.stop ≤ bytes front) ∧ bytes front < t.span.start ∧
      isLineTerminator c = true ∧ (c = '\n' ∨ c = '\r' ∨ lexed.Clear (bytes front)) := by
  rw [(lex_scans h).newlineBefore_iff ht]
  constructor
  · rintro (⟨-, hf⟩ | ⟨_, ⟨front, c, rest, hcs, rfl, hc, hb⟩, hl, hlt⟩)
    · cases hf
    · rw [Nat.zero_add] at hl hlt hb
      exact ⟨front, c, rest, hcs, hl, hlt, hc, hb⟩
  · rintro ⟨front, c, rest, hcs, hl, hlt, hc, hb⟩
    exact .inr ⟨bytes front, ⟨front, c, rest, hcs, Nat.zero_add _, hc, hb⟩, hl, hlt⟩

/-- The line feed in the comment of `a/*\n*/b` is the break before `b`. -/
theorem lex_newlineBefore_iff_feed :
    ∃ lexed, lex "a/*\n*/b".toList = .ok lexed ∧
      ∃ front c rest, "a/*\n*/b".toList = front ++ c :: rest ∧ 1 ≤ bytes front ∧
        bytes front < 6 ∧ isLineTerminator c = true := by
  have hto : (lex "a/*\n*/b".toList).toOption.map (·.tokens) =
      some ([⟨.word, "a", ⟨0, 1⟩, false⟩] ++ ⟨.word, "b", ⟨6, 7⟩, true⟩ ::
        [⟨.eof, "", ⟨7, 7⟩, false⟩]) := by decide +kernel
  obtain ⟨lexed, hle, ht⟩ := Option.map_eq_some_iff.1 hto
  have h := eq_ok_of_toOption hle
  obtain ⟨front, c, rest, hcs, hl, hlt, hc, -⟩ := (lex_newlineBefore_iff h ht).1 rfl
  exact ⟨lexed, h, front, c, rest, hcs, hl _ rfl, hlt, hc⟩

/-- A U+2028 in a comment ends a line, but the flag of the token behind
the comment is not set. -/
theorem lex_newlineBefore_separator :
    isLineTerminator '\u2028' = true ∧
      (lex ['a', '/', '*', '\u2028', '*', '/', 'b']).toOption.map (·.tokens) =
        some [⟨.word, "a", ⟨0, 1⟩, false⟩, ⟨.word, "b", ⟨8, 9⟩, false⟩,
          ⟨.eof, "", ⟨9, 9⟩, false⟩] := by decide +kernel

end Inlay.Script
