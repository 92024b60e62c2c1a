/-
The tokens that generated code is written for.

Whether code is read as its draft, the tokens it is written for, depends on
its slashes alone: if they hold, it is (`lex_draw`); if one does not, the
tokens that are found instead say something else (`gist_ne_of_misread`).
-/
import Inlay.Proofs.Script.Gist

namespace Inlay.Script

open List hiding count

open Lexeme (count punctLength regexLength? isFlag regexAllowed)

variable {ind b b' : Bool} {c c' : Cursor} {e e' : Edge} {ps : List Piece} {u t : Token}
  {n off : Nat} {code rest cs : List Char} {last ch : Char} {lexed : Lexed}
  {prev : Option Token} {newline : Bool}

-- == drafts

/-- The tokens that the pieces are written for. -/
def draft (indented : Bool) : List Piece → List Token
  | [] => []
  | p :: ps =>
      match p.ink indented with
      | .token text => tokenOf text :: draft indented ps
      | _ => draft indented ps

theorem kindOf_punctuator : ∀ p ∈ punctuators, kindOf p = .punct := by decide

theorem Legible.isSpelled {text : List Char} (h : Legible text) : (tokenOf text).IsSpelled := by
  show Spelled (kindOf text) (String.ofList text).toList
  rw [String.toList_ofList]
  rcases h with h | h | h
  · cases text with
    | nil => cases h
    | cons c cs =>
      simp only [isFixed, Bool.or_eq_true, Bool.and_eq_true, all_eq_true, contains_iff_mem] at h
      rcases h with ⟨hc, hcs⟩ | hp
      · have hk : kindOf (c :: cs) = .word := by simp [kindOf, hc]
        rw [hk]
        exact ⟨c, cs, rfl, hc, hcs⟩
      · rw [kindOf_punctuator _ hp]
        exact hp
  · obtain ⟨d, ds, rfl, hd, -⟩ := h.1.exists_digit
    rw [h.1.kindOf_eq]
    exact ⟨d, ds, rfl, .inl hd⟩
  · rw [h.kindOf_eq]
    exact h

theorem isSpelled_quoted (single : Bool) (value : List Char) :
    (tokenOf (quoted single value)).IsSpelled := by
  obtain ⟨quote, cs, hqu, hq, -⟩ := next_quoted none single value []
  show Spelled (kindOf (quoted single value)) (String.ofList (quoted single value)).toList
  rw [String.toList_ofList, hqu]
  rcases hq with rfl | rfl
  · exact ⟨_, cs, rfl, .inl rfl⟩
  · exact ⟨_, cs, rfl, .inr rfl⟩

theorem draft_isSpelled (ind : Bool) (h : Flows e ps e') : ∀ t ∈ draft ind ps, t.IsSpelled := by
  induction ps generalizing e with
  | nil => exact forall_mem_nil _
  | cons p ps ih =>
    cases p with
    | token text => exact forall_mem_cons.2 ⟨h.1.isSpelled, ih h.2.2⟩
    | string value => exact forall_mem_cons.2 ⟨isSpelled_quoted .., ih h.2⟩
    | space | newline _ | mark _ => exact ih (e := e) h

theorem isEnd_tokenOf (text : List Char) : (tokenOf text).isEnd = false := by
  rw [Token.isEnd, beq_eq_false_iff_ne]
  exact kindOf_ne_eof text

theorem isEnd_of_mem_draft (ht : t ∈ draft ind ps) : t.isEnd = false := by
  induction ps with
  | nil => cases ht
  | cons p ps ih =>
    cases p with
    | token text | string text =>
      rcases mem_cons.1 ht with rfl | ht
      · exact isEnd_tokenOf _
      · exact ih ht
    | space | newline _ | mark _ => exact ih ht

theorem reads_draft {stop : Token} {rest more : List Token}
    (h : t :: rest = draft ind ps ++ stop :: more) (b : Bool) (lastEnd : Nat) :
    ∃ b' c', Reads ind ps b ⟨t, rest, lastEnd⟩ b' c' ∧ c'.current = stop := by
  induction ps generalizing t rest b lastEnd with
  | nil => exact ⟨b, _, ⟨rfl, rfl⟩, (List.cons.inj h).1⟩
  | cons p ps ih =>
    -- a token shows itself, and the cursor behind it stands on the rest
    have step : ∀ {text : List Char}, t :: rest = tokenOf text :: (draft ind ps ++ stop :: more) →
        ∃ b' c', Cursor.Shows ⟨t, rest, lastEnd⟩ b text ∧
          Reads ind ps false (Cursor.advance ⟨t, rest, lastEnd⟩) b' c' ∧ c'.current = stop := by
      intro text h
      obtain ⟨rfl, rfl⟩ := List.cons.inj h
      obtain ⟨t, rest, hre⟩ := exists_cons_of_ne_nil
        (append_ne_nil_of_right_ne_nil (draft ind ps) (cons_ne_nil stop more))
      obtain ⟨b', c', hr, hst⟩ := ih hre.symm false (tokenOf text).span.stop
      have hs : Cursor.Shows ⟨tokenOf text, t :: rest, lastEnd⟩ b text := ⟨rfl, rfl, fun _ => rfl⟩
      rw [hre]
      refine ⟨b', c', hs, ?_, hst⟩
      have he := hs.isEnd
      simpa only [Cursor.advance, he, Bool.false_eq_true, if_false] using hr
    cases p with
    | token text =>
      obtain ⟨b', c', hs, hr, hst⟩ := step h
      exact ⟨b', c', ⟨hs, hr⟩, hst⟩
    | string value =>
      obtain ⟨b', c', hs, hr, hst⟩ := step h
      exact ⟨b', c', ⟨hs, hr⟩, hst⟩
    | space | mark _ => exact ih h b lastEnd
    | newline _ => exact ih h true lastEnd

-- == what they say

theorem Token.sense?_congr (hk : t.kind = u.kind) (ht : t.text = u.text) : t.sense? = u.sense? := by
  have his : t.is = u.is := funext fun s => by rw [Token.is, Token.is, hk, ht]
  rw [Token.sense?, Token.sense?, hk, ht, his]

theorem gist_cons_eq_iff {ts us : List Token} (hk : t.kind = u.kind) (ht : t.text = u.text) :
    gist (t :: ts) = gist (u :: us) ↔ gist ts = gist us := by
  have hh : gist [t] = gist [u] := by
    simp only [gist, filterMap_cons, filterMap_nil, Token.sense?_congr hk ht]
  rw [gist_cons t, gist_cons u, hh, append_cancel_left_eq]

/-- A token that starts with a slash says its text. -/
theorem sense?_of_slash (hk : t.kind = .punct ∨ t.kind = .regex)
    (hsl : t.text.toList.head? = some '/') : t.sense? = some (.text t.text) := by
  have hn : separators.any t.is = false := by
    rw [any_eq_false]
    intro s hs his
    have ha : ∀ s ∈ separators, s.toList.head? ≠ some '/' := by decide
    exact ha s hs (Token.text_of_is his ▸ hsl)
  rcases hk with hk | hk <;> simp [Token.sense?, hk, hn]

theorem kindOf_slash (cs : List Char) :
    kindOf ('/' :: cs) = .punct ∨ kindOf ('/' :: cs) = .regex := by
  have hs : Lexeme.isWordStart '/' = false := by decide
  by_cases hr : cs ≠ [] ∧ cs ≠ ['=']
  · simp [kindOf, hs, hr]
  · simp [kindOf, hs, hr]

/-- Code in which nothing that is said starts with a slash has no slash
to be misread. -/
theorem slashesHold_of_gist (h : ∀ s, .text s ∈ gist (draft ind ps) →
    s.toList.head? ≠ some '/') (allowed : Bool) : slashesHold ind allowed ps = true := by
  induction ps generalizing allowed with
  | nil => rfl
  | cons p ps ih =>
    have token : ∀ {text : List Char}, (∀ s, .text s ∈ gist (tokenOf text :: draft ind ps) →
        s.toList.head? ≠ some '/') → (slashHolds allowed text (opening? ind ps) &&
          slashesHold ind (regexAllowed (some (tokenOf text))) ps) = true := by
      intro text h
      rw [gist_cons] at h
      rw [Bool.and_eq_true]
      refine ⟨?_, ih (fun s hs => h s (mem_append_right _ hs)) _⟩
      rw [slashHolds, if_neg]
      intro hh
      obtain ⟨cs, rfl⟩ := head?_eq_some_iff.1 hh
      have ht : (tokenOf ('/' :: cs)).text.toList = '/' :: cs := String.toList_ofList
      have hse := sense?_of_slash (t := tokenOf ('/' :: cs)) (kindOf_slash cs) (by rw [ht]; rfl)
      refine h _ (mem_append_left _ ?_) (by rw [ht]; rfl)
      simp [gist, hse]
    cases p with
    | token text | string text => exact token h
    | space | newline _ | mark _ => exact ih h allowed

-- == misreading

/-- A division where a regular expression may start is read as one. -/
theorem take_ne_of_regexLength? (hp : '/' :: cs ∈ punctuators)
    (ha : ∀ f ∈ (cs ++ code).head?, f ≠ '*' ∧ f ≠ '/') (h : regexLength? (cs ++ code) = some n) :
    (cs ++ code).take n ≠ cs := by
  intro heq
  have hr := isRegex_take h (fun h => (ha _ h).1 rfl) (fun h => (ha _ h).2 rfl)
  rw [heq] at hr
  have hk := hr.kindOf_eq
  rw [kindOf_division hp] at hk
  cases hk

/-- A regular expression where none may start is read as a division. -/
theorem take_ne_of_punctLength (hr : IsRegex ('/' :: cs))
    (h : punctLength ('/' :: (cs ++ code)) = n + 1) : (cs ++ code).take n ≠ cs := by
  intro heq
  have hne : punctLength ('/' :: (cs ++ code)) ≠ 0 := by rw [h]; exact Nat.succ_ne_zero n
  have hp := take_punctLength hne
  rw [h, take_succ_cons, heq] at hp
  have hk := hr.kindOf_eq
  rw [kindOf_division hp] at hk
  cases hk

/-- A regular expression directly before something like a flag takes
it. -/
theorem take_ne_of_isFlag (hr : IsRegex ('/' :: cs)) (hfl : code.head?.any isFlag = true)
    (h : regexLength? (cs ++ code) = some n) : (cs ++ code).take n ≠ cs := by
  obtain ⟨pattern, flags, heq, -, hc, hfla⟩ := hr
  cases heq
  rw [regexLength?_append hc hfla, Option.some_inj] at h
  obtain ⟨f, hf, hi⟩ := (Option.any_eq_true _ _).1 hfl
  obtain ⟨code, rfl⟩ := head?_eq_some_iff.1 hf
  have hco : count isFlag (f :: code) = count isFlag code + 1 := by
    simp [count, hi]
  intro ht
  have hl := congrArg List.length ht
  rw [← h, hco, length_take, length_append, length_append] at hl
  simp only [length_cons, length_append] at hl
  omega

/-- A slash that does not hold is read as part of another token. -/
theorem next_misread {form : Lexeme} {more : Nat} (h : Legible (ch :: cs))
    (hl : (ch :: cs).getLast? = some last)
    (hs : slashHolds (regexAllowed prev) (ch :: cs) rest.head? = false)
    (hre : ∀ f ∈ rest.head?, Clear (.behind (ch :: cs)) last f)
    (hne : Lexeme.next prev ch (cs ++ rest) = .ok (form, more)) :
    ch = '/' ∧ ∃ kind, form = .token kind ∧ (kind = .punct ∨ kind = .regex) ∧
      (cs ++ rest).take more ≠ cs := by
  obtain rfl : ch = '/' := by
    by_contra hch
    simp [slashHolds, hch] at hs
  refine ⟨rfl, ?_⟩
  have hso : '/' :: cs ∈ punctuators ∨ IsRegex ('/' :: cs) := by
    rcases h with h | h | h
    · simp only [isFixed, Bool.or_eq_true, Bool.and_eq_true, contains_iff_mem] at h
      exact .inl (h.resolve_left fun h => absurd h.1 (by decide))
    · obtain ⟨d, ds, heq, hd, -⟩ := h.1.exists_digit
      cases heq
      cases hd
    · exact .inr h
  rcases hso with hp | hr
  · have ha := head_division_ne hp hl hre
    rw [slashHolds_of_punct (kindOf_division hp), Bool.not_eq_false'] at hs
    rw [next_slash (fun h => (ha _ h).1 rfl) (fun h => (ha _ h).2 rfl), if_pos hs] at hne
    split at hne
    · next hn =>
      cases hne
      exact ⟨_, rfl, .inr rfl, take_ne_of_regexLength? hp ha hn⟩
    · cases hne
  · have ha := hr.head_ne rest
    rw [next_slash (fun h => (ha _ h).1 rfl) (fun h => (ha _ h).2 rfl)] at hne
    rw [slashHolds_of_regex hr.kindOf_eq] at hs
    cases hal : regexAllowed prev with
    | false =>
      rw [if_neg (by simp [hal])] at hne
      split at hne
      · cases hne
      · next hn =>
        cases hne
        exact ⟨_, rfl, .inl rfl, take_ne_of_punctLength hr hn⟩
    | true =>
      simp only [hal, Bool.true_and, Bool.not_eq_false', Bool.and_eq_true] at hs
      rw [if_pos hal] at hne
      split at hne
      · next hn =>
        cases hne
        exact ⟨_, rfl, .inr rfl, take_ne_of_isFlag hr hs.2 hn⟩
      · cases hne

/-- Where a slash does not hold, the text says something else. -/
theorem gist_ne_of_next (h : Legible (ch :: cs)) (hl : (ch :: cs).getLast? = some last)
    (hs : slashHolds (regexAllowed prev) (ch :: cs) rest.head? = false)
    (hr : ∀ f ∈ rest.head?, Clear (.behind (ch :: cs)) last f)
    (hle : lexFrom off newline prev (ch :: cs ++ rest) = .ok lexed) (ts : List Token) :
    gist lexed.tokens ≠ gist (tokenOf (ch :: cs) :: ts) := by
  rw [cons_append, lexFrom] at hle
  cases hn : Lexeme.next prev ch (cs ++ rest) with
  | error cause =>
    rw [hn] at hle
    cases hle
  | ok found =>
    obtain ⟨form, more⟩ := found
    obtain ⟨rfl, kind, rfl, hki, hne⟩ := next_misread h hl hs hr hn
    simp only [hn] at hle
    obtain ⟨inner, -, heq⟩ := bind_ok_iff.1 hle
    cases heq
    -- both start with a slash, so both are told, by their texts
    have hs : ∀ (t : Token) {cs : List Char}, t.text = String.ofList ('/' :: cs) →
        t.kind = .punct ∨ t.kind = .regex → ∀ ts, gist (t :: ts) = .text t.text :: gist ts := by
      intro t cs ht hk ts
      rw [gist, filterMap_cons, sense?_of_slash hk (by rw [ht, String.toList_ofList]; rfl)]
      rfl
    rw [hs _ rfl hki, hs (tokenOf ('/' :: cs)) rfl (kindOf_slash cs)]
    intro heq
    have ht := (Sense.text.inj (List.cons.inj heq).1)
    exact hne (List.cons.inj (String.ofList_inj.1 ht)).2

/-- Code with a slash that does not hold is not read as what it says. -/
theorem gist_ne_of_misread (h : Flows e ps e') (pen : Pen) (pending : List Mark)
    (hs : slashesHold ind (regexAllowed prev) ps = false)
    (hle : lexFrom off newline prev (drawFrom ind pen pending ps).code = .ok lexed) :
    gist lexed.tokens ≠ gist (draft ind ps) := by
  induction ps generalizing e pen pending off newline prev lexed with
  | nil => cases hs
  | cons p ps ih =>
    -- a token that is read as drafted
    have step : ∀ {ch : Char} {cs : List Char} {e : Edge} {pen : Pen} {off : Nat}
        (_ : Flows e ps e')
        (_ : Lexeme.next prev ch (cs ++ (drawFrom ind pen [] ps).code)
          = .ok (.token (kindOf (ch :: cs)), cs.length))
        (_ : lexFrom off newline prev (ch :: cs ++ (drawFrom ind pen [] ps).code) = .ok lexed)
        (_ : slashesHold ind (regexAllowed (some (tokenOf (ch :: cs)))) ps = false),
        gist lexed.tokens ≠ gist (tokenOf (ch :: cs) :: draft ind ps) := by
      intro ch cs e pen off hfl hn hle hs
      rw [lexFrom_token hn] at hle
      obtain ⟨inner, hi, heq⟩ := bind_ok_iff.1 hle
      cases heq
      exact fun hg =>
        ih hfl _ _ (by exact hs) hi ((gist_cons_eq_iff rfl rfl).1 hg)
    cases p with
    | mark m => exact ih h pen _ hs hle
    | space =>
      cases ind with
      | false => exact ih h pen pending hs hle
      | true =>
        simp only [drawFrom, Piece.ink, if_true] at hle
        rw [singleton_append, lexFrom_blank _ _ _ (by decide)] at hle
        exact ih h _ pending hs hle
    | newline depth =>
      cases ind with
      | false => exact ih h pen pending hs hle
      | true =>
        simp only [drawFrom, Piece.ink, if_true, lineBreak] at hle
        rw [cons_append, lexFrom_newline, lexFrom_spaces] at hle
        exact ih h _ pending hs hle
    | string value =>
      obtain ⟨quote, cs, hqu, hq, hn⟩ :=
        next_quoted prev ind value.toList
          (drawFrom ind ((pen.writeAll (gap pen.last (quoted ind value.toList))).writeAll
            (quoted ind value.toList)) [] ps).code
      have hk : kindOf (quote :: cs) = .string := by
        rcases hq with rfl | rfl <;> rfl
      have hh : slashHolds (regexAllowed prev) (quote :: cs) (opening? ind ps) = true := by
        rcases hq with rfl | rfl <;> simp [slashHolds]
      simp only [drawFrom, Piece.ink, append_assoc] at hle
      obtain ⟨off, hga⟩ := lexFrom_gap off newline prev _ _ _
      rw [hga] at hle
      simp only [slashesHold, draft, Piece.ink] at hs ⊢
      rw [hqu] at hn hs hle ⊢
      rw [hh, Bool.true_and] at hs
      exact step h.2 (by rw [hk]; exact hn) hle hs
    | token text =>
      obtain ⟨hl, -, hfl⟩ := h
      obtain ⟨ch, cs, ht⟩ := hl.exists_cons
      simp only [drawFrom, Piece.ink, append_assoc] at hle
      obtain ⟨off, hga⟩ := lexFrom_gap off newline prev _ _ _
      rw [hga] at hle
      simp only [slashesHold, draft, Piece.ink] at hs ⊢
      rw [ht] at hl hfl hs hle ⊢
      cases hh : slashHolds (regexAllowed prev) (ch :: cs) (opening? ind ps) with
      | true =>
        rw [hh, Bool.true_and] at hs
        exact step hfl (by simpa using next_drawFrom hl hfl _ hh .none) hle hs
      | false =>
        have hla := getLast?_eq_some_getLast (cons_ne_nil ch cs)
        refine gist_ne_of_next hl hla ?_ (fun f hf =>
          clear_head_drawFrom hfl (Pen.last_writeAll hla _) hf) hle _
        refine (slashHolds_congr fun he => ?_).trans hh
        exact any_isFlag_head?_drawFrom hfl (Pen.last_writeAll he _) []

end Inlay.Script
