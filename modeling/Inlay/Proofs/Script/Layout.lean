/-
Code as a sequence of tokens.

`Flows` says of a list of pieces that its tokens can be told apart once
they are written: what may follow a token without a blank depends only on
the edge it leaves, so the code of a tree flows because the codes of its
parts do. `Reads` says which tokens the code gives back: a cursor that
stands before them gets behind them. It hands on whether a line break may
have been written since the last token.
-/
import Inlay.Script.Code
import Inlay.Proofs.Script.Lexis

namespace Inlay.Script

open Lexeme (isWordStart longPunctuators)

variable {cs text : List Char} {e : Edge} {n : Node} {c' c : Cursor} {b' b ind k : Bool}
  {ps : List Piece} {E : Edge → Prop}

-- == texts

/-- The kind of the token that a text of generated code is. -/
def kindOf : List Char → TokenKind
  | c :: rest =>
      if isWordStart c then .word
      else if c.isDigit then .number
      else if c = '"' ∨ c = '\'' then .string
      else if c = '/' ∧ rest ≠ [] ∧ rest ≠ ['='] then .regex
      else .punct
  | [] => .punct

theorem kindOf_ne_eof (text : List Char) : kindOf text ≠ .eof := by
  cases text with
  | nil => decide
  | cons c rest =>
    simp only [kindOf]
    split
    · decide
    · split
      · decide
      · split
        · decide
        · split <;> decide

/-- Digits, at least one. -/
def IsDigits (cs : List Char) : Prop := cs ≠ [] ∧ ∀ c ∈ cs, c.isDigit = true

/-- A number as it is written: digits, a point and digits or none, an
exponent or none. -/
def IsNumeral (cs : List Char) : Prop :=
  ∃ whole fraction exponent, cs = whole ++ (fraction ++ exponent) ∧ IsDigits whole ∧
    (fraction = [] ∨ ∃ ds, fraction = '.' :: ds ∧ IsDigits ds) ∧
    (exponent = [] ∨ ∃ sign ds, exponent = 'e' :: (sign ++ ds) ∧
      (sign = [] ∨ sign = ['-']) ∧ IsDigits ds)

/-- The fixed texts of tokens: words and punctuators. -/
def isFixed : List Char → Bool
  | c :: rest =>
      isWordStart c && rest.all Lexeme.isWordPart || punctuators.contains (c :: rest)
  | [] => false

/-- A number as it is written, with a value that is finite. -/
def IsFinite (cs : List Char) : Prop :=
  IsNumeral cs ∧ ∃ d, numberValue? (String.ofList cs) = some (.finite d)

/-- A text that is read as one token, if a slash is read as what it
was written for. -/
def Legible (text : List Char) : Prop := isFixed text = true ∨ IsFinite text ∨ IsRegex text

theorem IsWord.isFixed (h : IsWord cs) : isFixed cs = true := by
  obtain ⟨c, rest, rfl, hc, hr⟩ := h
  simp only [Script.isFixed, hc, Bool.true_and, Bool.or_eq_true, List.all_eq_true]
  exact .inl hr

theorem IsRegex.kindOf_eq (h : IsRegex cs) : kindOf cs = .regex := by
  obtain ⟨pattern, flags, rfl, hh, -⟩ := h
  cases pattern with
  | nil => exact absurd rfl (hh '/' rfl).2
  | cons c pattern => simp [kindOf, isWordStart]

-- == edges

/-- What a token leaves behind. -/
inductive Edge where
  /-- Anything may follow. -/
  | free
  /-- The end of a number, which a point would go on. -/
  | number
  /-- An operator that another character may make longer. -/
  | operator
  /-- A point, which a digit would make a number. -/
  | point
  deriving DecidableEq

namespace Edge

/-- Whether some punctuator is longer than the text and starts with
it. -/
def isExtensible (text : List Char) : Bool :=
  longPunctuators.any fun p => text.isPrefixOf p && text.length < p.length

/-- The edge behind a token. -/
def behind (text : List Char) : Edge :=
  match kindOf text with
  | .number => .number
  | .punct =>
      if text = ['.'] then .point else if isExtensible text then .operator else .free
  | _ => .free

/-- The characters that make operators longer, but for the signs, which
a blank keeps apart. -/
def extending : List Char := ['=', '<', '>', '&', '|']

/-- Whether a token may stand behind the edge. -/
def admits (text : List Char) : Edge → Bool
  | free => true
  | number => text != ['.']
  | operator => !(text.head?.any extending.contains)
  | point => kindOf text == .word

end Edge

theorem IsRegex.admits (h : IsRegex cs) (he : e ≠ .point) : e.admits cs = true := by
  obtain ⟨pattern, flags, rfl, -⟩ := h
  cases e with
  | free | number | operator => simp [Edge.admits, Edge.extending]
  | point => exact absurd rfl he

/-- The tokens of the pieces can be told apart: the first one stands
behind the edge `e`, the last one leaves the edge `e'`. -/
def Flows : Edge → List Piece → Edge → Prop
  | e, [], e' => e = e'
  | e, .token text :: ps, e' =>
      Legible text.toList ∧ e.admits text.toList = true ∧ Flows (.behind text.toList) ps e'
  | e, .string _ :: ps, e' => e ≠ .point ∧ Flows .free ps e'
  | e, .space :: ps, e' => Flows e ps e'
  | e, .newline _ :: ps, e' => Flows e ps e'
  | e, .mark _ :: ps, e' => Flows e ps e'

theorem Flows.append {e₁ e₂ : Edge} {qs : List Piece} (h : Flows e ps e₁) (h' : Flows e₁ qs e₂) :
    Flows e (ps ++ qs) e₂ := by
  induction ps generalizing e with
  | nil =>
    cases h
    exact h'
  | cons p ps ih =>
    cases p with
    | token text => exact ⟨h.1, h.2.1, ih h.2.2⟩
    | string value => exact ⟨h.1, ih h.2⟩
    | space | newline _ | mark _ => exact ih (e := e) h

-- == code that flows

/-- The edge of code that has come to an end; it may be that of a
number. -/
def Settled (number : Bool) (e : Edge) : Prop := e = .free ∨ number = true ∧ e = .number

/-- The pieces flow behind each of the edges and end settled. -/
def Flowing (E : Edge → Prop) (ps : List Piece) (number : Bool) : Prop :=
  ∀ e, E e → ∃ e', Settled number e' ∧ Flows e ps e'

/-- Code that may stand behind an operator, like an expression. -/
abbrev Opens (ps : List Piece) (number : Bool) : Prop := Flowing (· ≠ .point) ps number

/-- Code that may stand behind an operand, which may be a number. -/
abbrev Follows (ps : List Piece) (number : Bool) : Prop := Flowing (Settled true) ps number

/-- Code that may stand behind a token that nothing makes longer. -/
abbrev Rests (ps : List Piece) (number : Bool) : Prop := Flowing (Settled false) ps number

namespace Flowing

variable {E E' : Edge → Prop} {ps qs : List Piece} {n n' : Bool} {s : String}

theorem mono (h : Flowing E ps n) (hE : ∀ e, E' e → E e) : Flowing E' ps n :=
  fun e he => h e (hE e he)

theorem loosen (h : Flowing E ps false) : Flowing E ps n := by
  intro e he
  obtain ⟨e', hs, hf⟩ := h e he
  refine ⟨e', .inl ?_, hf⟩
  simpa [Settled] using hs

theorem append (h : Flowing E ps n') (h' : Flowing (Settled n') qs n) : Flowing E (ps ++ qs) n := by
  intro e he
  obtain ⟨e₁, hs, hf⟩ := h e he
  obtain ⟨e₂, hs', hf'⟩ := h' e₁ hs
  exact ⟨e₂, hs', hf.append hf'⟩

theorem follows (h : Opens ps n) : Follows ps n :=
  h.mono fun e he => by rcases he with rfl | ⟨-, rfl⟩ <;> decide

theorem rests (h : Follows ps n) : Rests ps n :=
  h.mono fun e he => .inl (by simpa [Settled] using he)

theorem nil : Rests [] n := by
  rintro e (rfl | ⟨h, -⟩)
  · exact ⟨.free, .inl rfl, rfl⟩
  · cases h

@[simp] theorem space_iff : Flowing E (.space :: ps) n ↔ Flowing E ps n := .rfl

@[simp] theorem newline_iff {d : Nat} : Flowing E (.newline d :: ps) n ↔ Flowing E ps n := .rfl

@[simp] theorem mark_iff {m : Mark} : Flowing E (.mark m :: ps) n ↔ Flowing E ps n := .rfl

theorem string {v : String} (hE : ∀ e, E e → e ≠ .point) (h : Rests ps n) :
    Flowing E (.string v :: ps) n := by
  intro e he
  obtain ⟨e', hs, hf⟩ := h .free (.inl rfl)
  exact ⟨e', hs, hE e he, hf⟩

theorem token (hs : Legible s.toList) (hE : ∀ e, E e → e.admits s.toList = true)
    (h : Flowing (· = .behind s.toList) ps n) : Flowing E (.token s :: ps) n := by
  intro e he
  obtain ⟨e', hse, hf⟩ := h _ rfl
  exact ⟨e', hse, hs, hE e he, hf⟩

end Flowing

/-- A fixed text that may stand behind an operator. -/
def isOpener (text : List Char) : Bool := isFixed text && Edge.admits text .operator && text != ['.']

/-- A fixed text that may stand behind an operand. -/
def isFollower (text : List Char) : Bool := isFixed text && text != ['.']

theorem isFollower_of_isOpener (h : isOpener text = true) : isFollower text = true := by
  simp only [isOpener, isFollower, Bool.and_eq_true] at h ⊢
  exact ⟨h.1.1, h.2⟩

theorem Edge.admits_of_isOpener (h : isOpener text = true) (he : e ≠ .point) :
    e.admits text = true := by
  simp only [isOpener, Bool.and_eq_true] at h
  cases e with
  | free => rfl
  | number => exact h.2
  | operator => exact h.1.2
  | point => exact absurd rfl he

theorem Edge.admits_of_isFollower (h : isFollower text = true) (he : Settled true e) :
    e.admits text = true := by
  simp only [isFollower, Bool.and_eq_true] at h
  rcases he with rfl | ⟨-, rfl⟩
  · rfl
  · exact h.2

theorem Edge.behind_ne_point (h : isFollower text = true) : Edge.behind text ≠ .point := by
  simp only [isFollower, Bool.and_eq_true, bne_iff_ne, ne_eq] at h
  unfold behind
  split
  · simp
  · rw [if_neg h.2]
    split <;> simp
  · simp

namespace Flowing

variable {E : Edge → Prop} {ps : List Piece} {n : Bool} {s : String}

theorem token_of_isOpener (h : Flowing E ps n) (hs : isOpener s.toList = true)
    (he : E (.behind s.toList)) : Opens (.token s :: ps) n := by
  refine token (.inl ?_) (fun e => Edge.admits_of_isOpener hs) (h.mono fun e heq => heq ▸ he)
  simp only [isOpener, Bool.and_eq_true] at hs
  exact hs.1.1

theorem token_of_isFollower (h : Flowing E ps n) (hs : isFollower s.toList = true)
    (he : E (.behind s.toList)) : Follows (.token s :: ps) n := by
  refine token (.inl ?_) (fun e => Edge.admits_of_isFollower hs) (h.mono fun e heq => heq ▸ he)
  simp only [isFollower, Bool.and_eq_true] at hs
  exact hs.1

theorem opener (h : Opens ps n) (hs : isOpener s.toList = true) : Opens (.token s :: ps) n :=
  token_of_isOpener h hs (Edge.behind_ne_point (isFollower_of_isOpener hs))

/-- An operator behind an operand, and another operand behind it. -/
theorem joiner (h : Opens ps n) (hs : isFollower s.toList = true) : Follows (.token s :: ps) n :=
  token_of_isFollower h hs (Edge.behind_ne_point hs)

/-- A token that opens and that nothing makes longer. -/
theorem opening (h : Rests ps n) (hs : isOpener s.toList = true)
    (hf : Edge.behind s.toList = .free) : Opens (.token s :: ps) n :=
  token_of_isOpener h hs (.inl hf)

/-- A token behind an operand that nothing makes longer. -/
theorem closing (h : Rests ps n) (hs : isFollower s.toList = true)
    (hf : Edge.behind s.toList = .free) : Follows (.token s :: ps) n :=
  token_of_isFollower h hs (.inl hf)

end Flowing

-- == reading the code

/-- The current token has the given text; if no line break may stand
before it, none does. -/
def Cursor.Shows (c : Cursor) (broken : Bool) (text : List Char) : Prop :=
  c.current.kind = kindOf text ∧ c.current.text = String.ofList text ∧
    (broken = false → c.current.newlineBefore = false)

/-- The tokens of the pieces stand between the two cursors. `b` and `b'`
say whether a line break may stand before the first token behind each. -/
def Reads (indented : Bool) : List Piece → Bool → Cursor → Bool → Cursor → Prop
  | [], b, c, b', c' => b = b' ∧ c = c'
  | .token text :: ps, b, c, b', c' =>
      c.Shows b text.toList ∧ Reads indented ps false c.advance b' c'
  | .string value :: ps, b, c, b', c' =>
      c.Shows b (quoted indented value.toList) ∧ Reads indented ps false c.advance b' c'
  | .space :: ps, b, c, b', c' => Reads indented ps b c b' c'
  | .newline _ :: ps, _, c, b', c' => Reads indented ps true c b' c'
  | .mark _ :: ps, b, c, b', c' => Reads indented ps b c b' c'

namespace Reads

variable {ind b b' b'' : Bool} {ps qs : List Piece} {c c' c'' : Cursor}

@[simp] theorem token_iff {s : String} :
    Reads ind (.token s :: ps) b c b' c' ↔
      c.Shows b s.toList ∧ Reads ind ps false c.advance b' c' := .rfl

@[simp] theorem string_iff {v : String} :
    Reads ind (.string v :: ps) b c b' c' ↔
      c.Shows b (quoted ind v.toList) ∧ Reads ind ps false c.advance b' c' := .rfl

@[simp] theorem space_iff : Reads ind (.space :: ps) b c b' c' ↔ Reads ind ps b c b' c' := .rfl

@[simp] theorem newline_iff {d : Nat} :
    Reads ind (.newline d :: ps) b c b' c' ↔ Reads ind ps true c b' c' := .rfl

@[simp] theorem mark_iff {m : Mark} :
    Reads ind (.mark m :: ps) b c b' c' ↔ Reads ind ps b c b' c' := .rfl

@[simp] theorem append_iff :
    Reads ind (ps ++ qs) b c b'' c'' ↔
      ∃ b' c', Reads ind ps b c b' c' ∧ Reads ind qs b' c' b'' c'' := by
  induction ps generalizing b c with
  | nil =>
    constructor
    · exact fun h => ⟨b, c, ⟨rfl, rfl⟩, h⟩
    · rintro ⟨b', c', ⟨rfl, rfl⟩, h⟩
      exact h
  | cons p ps ih =>
    cases p <;> simp only [List.cons_append, token_iff, string_iff, space_iff, newline_iff,
      mark_iff, ih] <;> grind

end Reads

/-- The mark of a node shows nothing. -/
@[simp] theorem reads_marks_append :
    Reads ind (n.marks ++ ps) b c b' c' ↔ Reads ind ps b c b' c' := by
  unfold Node.marks
  split <;> simp

@[simp] theorem flowing_marks_append : Flowing E (n.marks ++ ps) k ↔ Flowing E ps k := by
  unfold Node.marks
  split <;> simp

theorem reads_filter : Reads ind (ps.filter (!·.isMark)) b c b' c' ↔ Reads ind ps b c b' c' := by
  induction ps generalizing b c with
  | nil => rfl
  | cons p ps ih =>
    cases p with
    | token | string => exact and_congr_right fun _ => ih
    | space | newline | mark => exact ih

theorem flowing_filter : Flowing E (ps.filter (!·.isMark)) k ↔ Flowing E ps k := by
  have hf (e e') : Flows e (ps.filter (!·.isMark)) e' ↔ Flows e ps e' := by
    induction ps generalizing e with
    | nil => rfl
    | cons p ps ih =>
      cases p with
      | token => exact and_congr_right fun _ => and_congr_right fun _ => ih _
      | string => exact and_congr_right fun _ => ih _
      | space | newline | mark => exact ih _
  simp only [Flowing, hf]

-- == tokens that show

namespace Cursor.Shows

variable {c : Cursor} {b : Bool} {s : String} {text : List Char}

theorem kind_eq (h : c.Shows b text) : c.current.kind = kindOf text := h.1

theorem text_eq (h : c.Shows b s.toList) : c.current.text = s := by
  rw [h.2.1, String.ofList_toList]

theorem isEnd (h : c.Shows b text) : c.current.isEnd = false := by
  rw [Token.isEnd, h.1, beq_eq_false_iff_ne]
  exact kindOf_ne_eof text

theorem is_self (h : c.Shows b s.toList) (hk : kindOf s.toList = .punct ∨ kindOf s.toList = .word) :
    c.current.is s = true := by
  rw [Token.is, h.text_eq, h.1]
  rcases hk with hk | hk <;> simp [hk]

theorem is_other {s' : String} (h : c.Shows b s.toList) (hne : s ≠ s') :
    c.current.is s' = false := by
  rw [Token.is, h.text_eq]
  simp [hne]

end Cursor.Shows

end Inlay.Script
