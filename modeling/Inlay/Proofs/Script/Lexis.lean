/-
What tokens look like.

`Spelled kind text` is the part of a token's form that the grammar and the
code depend on. `Scans` is how a text comes apart (`lex_scans`): its tokens
are all spelled, and the last of them, and no other, is the end.
-/
import Inlay.Script.Lexer
import Inlay.Proofs.Basics
import Inlay.Proofs.Script.Rule

namespace Inlay

open Text (bytes)

open List hiding count

theorem Text.bytes_append (cs ds : List Char) : bytes (cs ++ ds) = bytes cs + bytes ds := by
  induction cs with
  | nil => exact (Nat.zero_add _).symm
  | cons c cs ih => rw [cons_append, bytes, bytes, ih, Nat.add_assoc]

namespace Script

open Lexeme

variable {inClass : Bool} {n : Nat} {prev : Option Token} {c : Char}

-- == the forms

/-- The characters of a word. -/
def IsWord (cs : List Char) : Prop :=
  ∃ c rest, cs = c :: rest ∧ Lexeme.isWordStart c = true ∧ ∀ d ∈ rest, Lexeme.isWordPart d = true

instance (cs : List Char) : Decidable (IsWord cs) :=
  match cs with
  | [] => .isFalse fun ⟨_, _, h, _⟩ => nomatch h
  | c :: rest =>
      decidable_of_iff
        (Lexeme.isWordStart c = true ∧ rest.all Lexeme.isWordPart = true) <| by
          rw [all_eq_true]
          constructor
          · exact fun h => ⟨c, rest, rfl, h⟩
          · rintro ⟨_, _, heq, h⟩
            cases heq
            exact h

/-- The punctuators. -/
def punctuators : List (List Char) := longPunctuators ++ shortPunctuators.map ([·])

/-- A slash behind the pattern of a regular expression closes it,
whatever follows. -/
def Closes (inClass : Bool) (pattern : List Char) : Prop :=
  ∀ rest, regexBodyLength? inClass (pattern ++ '/' :: rest) = some (pattern.length + 1)

/-- The characters of a regular expression. -/
def IsRegex (cs : List Char) : Prop :=
  ∃ pattern flags, cs = '/' :: (pattern ++ '/' :: flags) ∧
    (∀ c ∈ (pattern ++ ['/']).head?, c ≠ '*' ∧ c ≠ '/') ∧
    Closes false pattern ∧ ∀ c ∈ flags, isFlag c = true

/-- The slash behind the pattern is the last one. -/
theorem IsRegex.split {cs : List Char} (h : IsRegex cs) :
    ∃ pattern flags, cs = '/' :: (pattern ++ '/' :: flags) ∧ '/' ∉ flags := by
  obtain ⟨pattern, flags, rfl, -, -, hf⟩ := h
  refine ⟨pattern, flags, rfl, fun hm => ?_⟩
  have hs := hf _ hm
  revert hs
  decide

/-- What the text of a token of a kind looks like. -/
def Spelled : TokenKind → List Char → Prop
  | .word, cs => IsWord cs
  | .number, cs => ∃ c rest, cs = c :: rest ∧ (c.isDigit = true ∨ c = '.')
  | .string, cs => ∃ c rest, cs = c :: rest ∧ (c = '"' ∨ c = '\'')
  | .regex, cs => IsRegex cs
  | .punct, cs => cs ∈ punctuators
  | .eof, cs => cs = []

/-- A token whose text has the form of its kind. -/
def Token.IsSpelled (t : Token) : Prop := Spelled t.kind t.text.toList

-- == counting

theorem take_count (p : Char → Bool) (cs : List Char) : cs.take (count p cs) = cs.takeWhile p := by
  unfold count
  induction cs with
  | nil => rfl
  | cons c cs ih =>
    by_cases h : p c = true
    · simp [h, ih]
    · simp [h]

theorem of_mem_take_count {p : Char → Bool} {cs : List Char} {d : Char}
    (h : d ∈ cs.take (count p cs)) : p d = true := by
  rw [take_count] at h
  exact all_eq_true.1 all_takeWhile d h

/-- What `punctLength` measures is a punctuator. -/
theorem take_punctLength {cs : List Char} (h : punctLength cs ≠ 0) :
    cs.take (punctLength cs) ∈ punctuators := by
  unfold punctLength at h ⊢
  split
  · next p hp =>
    have hb : p.isPrefixOf cs = true := find?_some (p := fun x : List Char => x.isPrefixOf cs) hp
    have hpr : p <+: cs := isPrefixOf_iff_prefix.1 hb
    rw [prefix_iff_eq_take.1 hpr]
    simp only [length_take]
    rw [Nat.min_eq_left hpr.length_le, ← prefix_iff_eq_take.1 hpr]
    exact mem_append_left _ (mem_of_find?_eq_some hp)
  · next hp =>
    rw [hp] at h
    cases cs with
    | nil => exact absurd rfl h
    | cons c cs =>
      simp only at h ⊢
      split at h
      · next hc =>
        rw [if_pos hc]
        refine mem_append_right _ (mem_map.2 ⟨c, ?_, by simp⟩)
        simpa using hc
      · exact absurd rfl h

theorem regexBodyLength?_cons (inClass : Bool) (hc : c ≠ '\\') (rest : List Char) :
    regexBodyLength? inClass (c :: rest) = if isLineTerminator c then none
      else if c = '[' then (regexBodyLength? true rest).map (· + 1)
      else if c = ']' then (regexBodyLength? false rest).map (· + 1)
      else if c = '/' ∧ ¬inClass then some 1
      else (regexBodyLength? inClass rest).map (· + 1) := by
  cases rest <;> simp [regexBodyLength?, hc]

theorem Closes.cons {inside : Bool} {pattern : List Char} (h : Closes inside pattern)
    (hc : ∀ more, regexBodyLength? inClass (c :: more) =
      (regexBodyLength? inside more).map (· + 1)) : Closes inClass (c :: pattern) := by
  intro rest
  rw [cons_append, hc, h, Option.map_some, length_cons]

/-- Where a regular expression is read to, it closes. -/
theorem closes_of_regexBodyLength? {cs : List Char} {m : Nat}
    (h : regexBodyLength? inClass cs = some m) :
    ∃ pattern tail, cs = pattern ++ '/' :: tail ∧ m = pattern.length + 1 ∧
      Closes inClass pattern := by
  fun_induction regexBodyLength? inClass cs generalizing m with
  | case1 | case2 | case3 | case5 => cases h
  | case4 inClass d rest hd ih =>
    obtain ⟨n, hn, rfl⟩ := Option.map_eq_some_iff.1 h
    obtain ⟨pattern, tail, rfl, rfl, hc⟩ := ih hn
    refine ⟨'\\' :: d :: pattern, tail, rfl, rfl, fun rest => ?_⟩
    simp [regexBodyLength?, hd, hc rest]
  | case6 inClass rest hs hl ih =>
    obtain ⟨n, hn, rfl⟩ := Option.map_eq_some_iff.1 h
    obtain ⟨pattern, tail, rfl, rfl, hc⟩ := ih hn
    refine ⟨'[' :: pattern, tail, rfl, rfl, hc.cons fun more => ?_⟩
    rw [regexBodyLength?_cons _ hs, if_neg hl, if_pos rfl]
  | case7 inClass rest hs hl ho ih =>
    obtain ⟨n, hn, rfl⟩ := Option.map_eq_some_iff.1 h
    obtain ⟨pattern, tail, rfl, rfl, hc⟩ := ih hn
    refine ⟨']' :: pattern, tail, rfl, rfl, hc.cons fun more => ?_⟩
    rw [regexBodyLength?_cons _ hs, if_neg hl, if_neg ho, if_pos rfl]
  | case8 inClass c rest hs hl ho hcl he =>
    cases h
    obtain ⟨rfl, hou⟩ := he
    refine ⟨[], rest, rfl, rfl, fun rest => ?_⟩
    rw [nil_append, regexBodyLength?_cons _ hs, if_neg hl, if_neg ho, if_neg hcl, if_pos ⟨rfl, hou⟩]
    rfl
  | case9 inClass c rest hs hl ho hcl he ih =>
    obtain ⟨n, hn, rfl⟩ := Option.map_eq_some_iff.1 h
    obtain ⟨pattern, tail, rfl, rfl, hc⟩ := ih hn
    refine ⟨c :: pattern, tail, rfl, rfl, hc.cons fun more => ?_⟩
    rw [regexBodyLength?_cons _ hs, if_neg hl, if_neg ho, if_neg hcl, if_neg he]

theorem isRegex_take {cs : List Char} (h : regexLength? cs = some n) (hst : cs.head? ≠ some '*')
    (hs : cs.head? ≠ some '/') : IsRegex ('/' :: cs.take n) := by
  obtain ⟨m, hm, rfl⟩ := Option.map_eq_some_iff.1 h
  obtain ⟨pattern, tail, rfl, rfl, hcl⟩ := closes_of_regexBodyLength? hm
  have hd : (pattern ++ '/' :: tail).drop (pattern.length + 1) = tail := by
    rw [drop_length_add_append]
    rfl
  refine ⟨pattern, tail.takeWhile isFlag, ?_, fun c hc => ?_, hcl, fun c hc => ?_⟩
  · rw [hd, Nat.add_assoc, take_length_add_append, Nat.add_comm, take_succ_cons, take_count]
  · have hh : (pattern ++ '/' :: tail).head? = some c := by
      cases pattern with
      | nil => exact hc
      | cons d pattern => exact hc
    constructor
    · rintro rfl
      exact hst hh
    · rintro rfl
      exact hs hh
  · exact all_eq_true.1 all_takeWhile c hc

-- == the next lexeme

/-- The text of a comment, delimiters included. -/
def commentText : CommentKind → List Char → List Char
  | .block, value => '/' :: '*' :: (value ++ ['*', '/'])
  | .line, value => '/' :: '/' :: value

/-- Whether a comment ends a line: the terminator behind a line comment is
not part of it. -/
def commentBreaks : CommentKind → List Char → Bool
  | .block, value => breaksLine (commentText .block value)
  | .line, _ => false

theorem commentOf_commentText (kind : CommentKind) (value : List Char) (span : Span) :
    commentOf kind (commentText kind value) span =
      ⟨kind, String.ofList value, some span, none⟩ := by
  cases kind with
  | block => simp [commentOf, commentText]
  | line => rfl

/-- What `commentLength?` measures ends with the delimiter. -/
theorem take_commentLength? {cs : List Char} (h : commentLength? cs = some n) :
    ∃ value, cs.take n = value ++ ['*', '/'] := by
  fun_induction commentLength? cs generalizing n with
  | case1 => cases h
  | case2 c rest he =>
    cases h
    obtain ⟨rfl, hs⟩ := he
    obtain ⟨rest, rfl⟩ := head?_eq_some_iff.1 hs
    exact ⟨[], rfl⟩
  | case3 c rest _ ih =>
    obtain ⟨m, hm, rfl⟩ := Option.map_eq_some_iff.1 h
    obtain ⟨value, hv⟩ := ih hm
    exact ⟨c :: value, by rw [take_succ_cons, hv]; rfl⟩

/-- What the text of a comment looks like: one that goes to the end of its
line ends no line. -/
def IsComment (kind : CommentKind) (value : List Char) : Prop :=
  kind = .line → ∀ c ∈ value, isLineTerminator c = false

/-- What the text of a lexeme looks like. -/
def Lexeme.Fits : Lexeme → List Char → Prop
  | .blank, cs => ∀ c ∈ cs, isBlank c = true
  | .newline, cs => ∀ c ∈ cs, isLineTerminator c = true
  | .blockComment, cs => ∃ value, cs = commentText .block value ∧ IsComment .block value
  | .lineComment, cs => ∃ value, cs = commentText .line value ∧ IsComment .line value
  | .token kind, cs => Spelled kind cs ∧ kind ≠ .eof

theorem next_fits {rest : List Char} {form : Lexeme} {more : Nat}
    (h : Lexeme.next prev c rest = .ok (form, more)) : form.Fits (c :: rest.take more) := by
  unfold Lexeme.next at h
  split at h
  · next hc =>
    cases h
    exact forall_mem_cons.2 ⟨hc, fun d hd => of_mem_take_count hd⟩
  split at h
  · next hc =>
    cases h
    obtain ⟨rfl, hh⟩ := hc
    obtain ⟨rest, rfl⟩ := head?_eq_some_iff.1 hh
    exact forall_mem_cons.2 ⟨rfl, forall_mem_singleton.2 rfl⟩
  split at h
  · next hc =>
    cases h
    exact forall_mem_singleton.2 hc
  split at h
  · next hc =>
    obtain ⟨rfl, hh⟩ := hc
    obtain ⟨rest, rfl⟩ := head?_eq_some_iff.1 hh
    split at h
    · next n hn =>
      cases h
      obtain ⟨value, hv⟩ := take_commentLength? hn
      exact ⟨value, congrArg ('/' :: '*' :: ·) hv, nofun⟩
    · cases h
  rename_i hst
  split at h
  · next hc =>
    cases h
    obtain ⟨rfl, hh⟩ := hc
    obtain ⟨rest, rfl⟩ := head?_eq_some_iff.1 hh
    refine ⟨rest.takeWhile (!isLineTerminator ·), by rw [take_count]; rfl, fun _ d hd => ?_⟩
    simpa using all_eq_true.1 all_takeWhile d hd
  rename_i hs
  split at h
  · next hc =>
    cases h
    exact ⟨⟨c, _, rfl, hc, fun d hd => of_mem_take_count hd⟩, by simp⟩
  split at h
  · next hc =>
    cases h
    exact ⟨⟨c, _, rfl, hc.imp_right And.left⟩, by simp⟩
  split at h
  · next hc =>
    split at h
    · cases h
      exact ⟨⟨c, _, rfl, hc⟩, by simp⟩
    · cases h
  split at h
  · next hc =>
    split at h
    · next hn =>
      cases h
      rw [hc.1]
      exact ⟨isRegex_take hn (fun h => hst ⟨hc.1, h⟩) (fun h => hs ⟨hc.1, h⟩), by simp⟩
    · cases h
  · split at h
    · cases h
    · next n hn =>
      cases h
      have hp : punctLength (c :: rest) ≠ 0 := by rw [hn]; simp
      have := take_punctLength hp
      rw [hn, take_succ_cons] at this
      exact ⟨this, by simp⟩

-- == whole texts

/-- How a text comes apart from an offset on: into blanks and line
terminators, comments, and tokens. The flag says whether a line has ended
since the last token. -/
inductive Scans : Nat → Bool → List Char → Lexed → Prop
  | done {offset newline} :
      Scans offset newline [] ⟨[⟨.eof, "", ⟨offset, offset⟩, newline⟩], []⟩
  | skip {offset newline text cs lexed} :
      (∀ c ∈ text, isBlank c = true ∨ isLineTerminator c = true) →
      Scans (offset + bytes text) (newline || text.any isLineTerminator) cs lexed →
      Scans offset newline (text ++ cs) lexed
  | comment {offset newline kind value cs lexed} :
      IsComment kind value → Scans (offset + bytes (commentText kind value))
        (newline || commentBreaks kind value) cs lexed →
      Scans offset newline (commentText kind value ++ cs)
        { lexed with
          comments := ⟨kind, String.ofList value,
            some ⟨offset, offset + bytes (commentText kind value)⟩, none⟩ :: lexed.comments }
  | token {offset newline kind text cs lexed} :
      text ≠ [] → Spelled kind text → kind ≠ .eof →
      Scans (offset + bytes text) false cs lexed →
      Scans offset newline (text ++ cs)
        { lexed with
          tokens := ⟨kind, String.ofList text, ⟨offset, offset + bytes text⟩, newline⟩ ::
            lexed.tokens }

theorem isLineTerminator_eq_false (h : isBlank c = true) : isLineTerminator c = false := by
  simp only [isBlank, Bool.or_eq_true, beq_iff_eq] at h
  rcases h with ((((rfl | rfl) | rfl) | rfl) | rfl) | rfl <;> rfl

theorem lexFrom_scans {off : Nat} {newline : Bool} {cs : List Char} {lexed : Lexed}
    (h : lexFrom off newline prev cs = .ok lexed) : Scans off newline cs lexed := by
  have hs : ∀ (c : Char) rest more, c :: rest = (c :: rest.take more) ++ rest.drop more :=
    fun c rest more => congrArg (c :: ·) (take_append_drop more rest).symm
  fun_induction lexFrom off newline prev cs generalizing lexed with
  | case1 =>
    cases h
    exact .done
  | case2 => cases h
  | case3 off newline prev c rest more text stop hn =>
    rename_i ih
    have hb : ∀ d ∈ text, isBlank d = true := next_fits hn
    have ha : text.any isLineTerminator = false :=
      any_eq_false.2 fun d hd => by rw [isLineTerminator_eq_false (hb d hd)]; simp
    rw [hs c rest more]
    refine .skip (fun d hd => .inl (hb d hd)) ?_
    rw [ha, Bool.or_false]
    exact ih h
  | case4 off newline prev c rest more text stop hn =>
    rename_i ih
    have hbr : ∀ d ∈ text, isLineTerminator d = true := next_fits hn
    have ha : text.any isLineTerminator = true :=
      any_eq_true.2 ⟨c, mem_cons_self, hbr c mem_cons_self⟩
    rw [hs c rest more]
    refine .skip (fun d hd => .inr (hbr d hd)) ?_
    rw [ha, Bool.or_true]
    exact ih h
  | case5 off newline prev c rest more text stop span hn
  | case6 off newline prev c rest more text stop span hn =>
    rename_i ih
    obtain ⟨inner, hi, h⟩ := bind_ok_iff.1 h
    cases h
    obtain ⟨value, hv, hl⟩ := next_fits hn
    have hsc := ih hi
    rw [hs c rest more]
    simp only [text, stop, span, hv, commentOf_commentText] at hsc ⊢
    exact .comment hl (by simpa only [commentBreaks, Bool.or_false] using hsc)
  | case7 off newline prev c rest more text stop span kind token hn =>
    rename_i ih
    obtain ⟨inner, hi, h⟩ := bind_ok_iff.1 h
    cases h
    obtain ⟨hsp, hk⟩ := next_fits hn
    rw [hs c rest more]
    exact .token (cons_ne_nil _ _) hsp hk (ih hi)

theorem lex_scans {cs : List Char} {lexed : Lexed} (h : lex cs = .ok lexed) :
    Scans 0 false cs lexed := lexFrom_scans h

/-- The end stands behind everything else. -/
theorem Scans.ends {off : Nat} {newline : Bool} {cs : List Char} {lexed : Lexed}
    (h : Scans off newline cs lexed) :
    ∃ ts e, lexed.tokens = ts ++ [e] ∧ e.isEnd = true ∧
      e.span = ⟨off + bytes cs, off + bytes cs⟩ ∧ ∀ t ∈ ts, t.isEnd = false := by
  induction h with
  | done => exact ⟨[], _, rfl, rfl, rfl, nofun⟩
  | skip _ _ ih | comment _ _ ih =>
    rw [Text.bytes_append, ← Nat.add_assoc]
    exact ih
  | token _ _ hk _ ih =>
    obtain ⟨ts, e, ht, he, hs, hts⟩ := ih
    rw [Text.bytes_append, ← Nat.add_assoc]
    refine ⟨_ :: ts, e, congrArg _ ht, he, hs, forall_mem_cons.2 ⟨?_, hts⟩⟩
    simpa [Token.isEnd] using hk

theorem Scans.spelled {off : Nat} {newline : Bool} {cs : List Char} {lexed : Lexed}
    (h : Scans off newline cs lexed) : ∀ t ∈ lexed.tokens, t.IsSpelled := by
  induction h with
  | done => exact forall_mem_singleton.2 rfl
  | skip _ _ ih | comment _ _ ih => exact ih
  | token _ hs _ _ ih =>
    refine forall_mem_cons.2 ⟨?_, ih⟩
    rw [Token.IsSpelled, String.toList_ofList]
    exact hs

/-- The tokens of a text are spelled; the last one is the end, and no
other is. -/
structure Lexed.Formed (lexed : Lexed) : Prop where
  spelled : ∀ t ∈ lexed.tokens, t.IsSpelled
  ended : ∃ ts e, lexed.tokens = ts ++ [e] ∧ e.isEnd = true ∧ ∀ t ∈ ts, t.isEnd = false

theorem lex_formed {cs : List Char} {lexed : Lexed} (h : lex cs = .ok lexed) : lexed.Formed := by
  obtain ⟨ts, e, ht, he, -, hts⟩ := (lex_scans h).ends
  exact ⟨(lex_scans h).spelled, ts, e, ht, he, hts⟩

-- == reading the kind

theorem isDigit_eq_false_of_isWordStart (h : Lexeme.isWordStart c = true) : c.isDigit = false := by
  simp only [Lexeme.isWordStart, Bool.or_eq_true, beq_iff_eq] at h
  rcases h with (h | rfl) | rfl
  · simp only [Char.isAlpha, Char.isUpper, Char.isLower, Char.isDigit] at h ⊢
    grind
  · rfl
  · rfl

theorem head_punctuators : ∀ p ∈ punctuators, ∀ c ∈ p.head?, Lexeme.isWordStart c = false := by
  have ha : punctuators.all (fun p => p.head?.all (!Lexeme.isWordStart ·)) = true := by
    decide
  intro p hp c hc
  have hp := all_eq_true.1 ha p hp
  rw [Option.mem_def.1 hc] at hp
  simpa using hp

/-- A spelled token whose text is a word is a word. -/
theorem Token.IsSpelled.kind_of_isWord {t : Token} (h : t.IsSpelled)
    (hw : IsWord t.text.toList) : t.kind = .word := by
  obtain ⟨c, rest, ht, hc, -⟩ := hw
  unfold IsSpelled at h
  rw [ht] at h
  cases hk : t.kind with
  | word => rfl
  | number =>
    rw [hk] at h
    obtain ⟨d, _, hd, hd'⟩ := h
    cases hd
    rcases hd' with hd' | rfl
    · rw [isDigit_eq_false_of_isWordStart hc] at hd'
      cases hd'
    · cases hc
  | string =>
    rw [hk] at h
    obtain ⟨d, _, hd, rfl | rfl⟩ := h <;> cases hd <;> cases hc
  | regex =>
    rw [hk] at h
    obtain ⟨_, _, hd, -⟩ := h
    cases hd
    cases hc
  | punct =>
    rw [hk] at h
    rw [head_punctuators _ h c rfl] at hc
    cases hc
  | eof =>
    rw [hk] at h
    cases h

end Script

end Inlay
