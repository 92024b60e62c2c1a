/-
Mappings that are read back.

The decoder follows the format, not the encoder: a semicolon goes to the
next line and sets the column back, a comma only separates. A segment is
one, four or five numbers, each the difference to the same number of the
segment before it. Whatever mappings are written, line by line, are read
back (`decode_encode`).
-/
import Inlay.Proofs.Basics
import Inlay.SourceMap

namespace Inlay.SourceMap

open List

-- == numbers

/-- The value of a base64 digit. -/
def digit? (c : Char) : Option Nat :=
  if 'A' ≤ c ∧ c ≤ 'Z' then some (c.toNat - 'A'.toNat)
  else if 'a' ≤ c ∧ c ≤ 'z' then some (c.toNat - 'a'.toNat + 26)
  else if '0' ≤ c ∧ c ≤ '9' then some (c.toNat - '0'.toNat + 52)
  else if c = '+' then some 62
  else if c = '/' then some 63
  else none

/-- A number whose lowest bit is its sign. -/
def signed (n : Nat) : Int := if n % 2 = 1 then -(n / 2 : Nat) else (n / 2 : Nat)

/-- The numbers that digits are read as. Of the first number there are
digits before these, worth `low`, and the next digit counts `weight`. -/
def numbersFrom (low weight : Nat) : List Nat → Option (List Int)
  | [] => if weight = 1 then some [] else none
  | d :: rest =>
      if d < 32 then (numbersFrom 0 1 rest).map (signed (low + weight * d) :: ·)
      else numbersFrom (low + weight * (d - 32)) (weight * 32) rest

/-- The numbers of a segment. -/
def numbers? (word : List Char) : Option (List Int) :=
  (word.mapM digit?).bind (numbersFrom 0 1)

theorem digit?_base64 {d : Nat} (hd : d < 64) : digit? (base64 d) = some d := by
  revert d
  decide

theorem lt_of_mem_vlqDigits {n d : Nat} (hd : d ∈ vlqDigits n) : d < 64 := by
  fun_induction vlqDigits n with
  | case1 n hn =>
    obtain rfl := mem_singleton.1 hd
    omega
  | case2 n hn ih =>
    rcases mem_cons.1 hd with rfl | hd
    · omega
    · exact ih hd

theorem numbersFrom_vlqDigits (low weight n : Nat) (rest : List Nat) :
    numbersFrom low weight (vlqDigits n ++ rest) =
      (numbersFrom 0 1 rest).map (signed (low + weight * n) :: ·) := by
  fun_induction vlqDigits n generalizing low weight with
  | case1 n hn =>
    rw [singleton_append, numbersFrom, if_pos hn]
  | case2 n hn ih =>
    rw [cons_append, numbersFrom, if_neg (by omega), ih]
    have hs : low + weight * (32 + n % 32 - 32) + weight * 32 * (n / 32) = low + weight * n := by
      rw [Nat.add_sub_cancel_left, Nat.add_assoc, Nat.mul_assoc, ← Nat.mul_add, Nat.mod_add_div]
    rw [hs]

/-- The lowest bit is the sign. -/
theorem signed_magnitude (value : Int) :
    signed (2 * value.natAbs + if value < 0 then 1 else 0) = value := by
  unfold signed
  split <;> split <;> omega

theorem numbers?_vlq (values : List Int) : numbers? (values.flatMap vlq) = some values := by
  have hdi : ∀ ds : List Nat, (∀ d ∈ ds, d < 64) → (ds.map base64).mapM digit? = some ds := by
    intro ds hds
    induction ds with
    | nil => rfl
    | cons d ds ih =>
      rw [map_cons, mapM_cons, digit?_base64 (hds d (.head _)), ih fun e he => hds e (.tail _ he)]
      rfl
  let digits (value : Int) : List Nat :=
    vlqDigits (2 * value.natAbs + if value < 0 then 1 else 0)
  have hw : values.flatMap vlq = (values.flatMap digits).map base64 := by
    rw [map_flatMap]
    rfl
  have hr : numbersFrom 0 1 (values.flatMap digits) = some values := by
    clear hw
    induction values with
    | nil => rfl
    | cons value values ih =>
      rw [flatMap_cons, numbersFrom_vlqDigits, ih, Nat.zero_add, Nat.one_mul, signed_magnitude]
      rfl
  rw [numbers?, hw, hdi, Option.bind_some, hr]
  intro d hd
  obtain ⟨value, -, hd⟩ := mem_flatMap.1 hd
  exact lt_of_mem_vlqDigits hd

-- == segments

/-- The point of a source that a segment comes from. All numbers count
from zero. -/
structure Origin where
  source : Nat
  line : Nat
  column : Nat
  name : Option Nat
  deriving DecidableEq, Repr

/-- A generated position, and what it comes from. -/
structure Segment where
  line : Nat
  column : Nat
  origin : Option Origin
  deriving DecidableEq, Repr

/-- The segment that a mapping is written as. -/
def Mapping.toSegment (m : Mapping) : Segment :=
  ⟨m.line, m.column, some ⟨m.source, m.originLine, m.originColumn, m.name⟩⟩

/-- A number by its difference to another one. It is not negative. -/
def moved? (anchor : Nat) (difference : Int) : Option Nat := ((anchor : Int) + difference).toNat?

/-- The segment of some numbers, and what the next one is a difference
to. -/
def segment? (a : Anchor) : List Int → Option (Segment × Anchor)
  | [column] => do
      let column ← moved? a.column column
      return (⟨a.line, column, none⟩, { a with column })
  | column :: source :: line :: originColumn :: names => do
      let column ← moved? a.column column
      let source ← moved? a.source source
      let originLine ← moved? a.originLine line
      let originColumn ← moved? a.originColumn originColumn
      let a := { a with column, source, originLine, originColumn }
      match names with
      | [] => return (⟨a.line, column, some ⟨source, originLine, originColumn, none⟩⟩, a)
      | [name] => do
          let name ← moved? a.name name
          return (⟨a.line, column, some ⟨source, originLine, originColumn, some name⟩⟩,
            { a with name })
      | _ => none
  | _ => none

theorem moved?_delta (value anchor : Nat) : moved? anchor ((value : Int) - anchor) = some value := by
  rw [moved?, Int.add_comm, Int.sub_add_cancel]
  rfl

/-- The numbers of a mapping. -/
def differences (a : Anchor) (m : Mapping) : List Int :=
  let column := if a.line < m.line then 0 else a.column
  [(m.column : Int) - column, (m.source : Int) - a.source, (m.originLine : Int) - a.originLine,
    (m.originColumn : Int) - a.originColumn] ++ (m.name.map fun name => (name : Int) - a.name).toList

theorem segment_eq (a : Anchor) (m : Mapping) : segment a m = (differences a m).flatMap vlq := by
  unfold segment differences delta
  cases m.name with
  | none => simp
  | some name => simp

/-- The anchor at the start of a mapping's line. -/
def Anchor.goto (a : Anchor) (line : Nat) : Anchor :=
  { a with line, column := if a.line < line then 0 else a.column }

theorem segment?_differences {a : Anchor} {m : Mapping} :
    segment? (a.goto m.line) (differences a m) = some (m.toSegment, a.after m) := by
  obtain ⟨line, column, source, originLine, originColumn, name⟩ := m
  simp only [differences, Anchor.goto]
  generalize (if a.line < line then 0 else a.column) = start
  cases name with
  | none => simp [segment?, Anchor.after, moved?_delta, Mapping.toSegment]
  | some name => simp [segment?, Anchor.after, moved?_delta, Mapping.toSegment]

-- == texts

def isSeparator (c : Char) : Bool := c == ';' || c == ','

/-- The segments of a text, behind an anchor. -/
def decodeFrom (a : Anchor) (cs : List Char) : Option (List Segment) :=
  match cs with
  | [] => some []
  | c :: rest =>
      if c = ';' then decodeFrom { a with line := a.line + 1, column := 0 } rest
      else if c = ',' then decodeFrom a rest
      else do
        let numbers ← numbers? (c :: rest.takeWhile (!isSeparator ·))
        let (segment, a) ← segment? a numbers
        let segments ← decodeFrom a (rest.dropWhile (!isSeparator ·))
        return segment :: segments
termination_by cs.length
decreasing_by
  · exact Nat.lt_succ_self _
  · exact Nat.lt_succ_self _
  · exact Nat.lt_succ_of_le (dropWhile_suffix _).length_le

/-- The segments that the text of mappings stands for. -/
def decode (text : String) : Option (List Segment) := decodeFrom .start text.toList

theorem isSeparator_base64 {d : Nat} (hd : d < 64) : isSeparator (base64 d) = false := by
  revert d
  decide

theorem isSeparator_of_mem_vlq {value : Int} {c : Char} (hc : c ∈ vlq value) :
    isSeparator c = false := by
  obtain ⟨d, hd, rfl⟩ := mem_map.1 hc
  exact isSeparator_base64 (lt_of_mem_vlqDigits hd)

theorem vlq_ne_nil (value : Int) : vlq value ≠ [] := by
  have hd (n : Nat) : vlqDigits n ≠ [] := by
    rw [vlqDigits]
    split <;> exact cons_ne_nil _ _
  exact fun hn => hd _ (map_eq_nil_iff.1 hn)

theorem decodeFrom_lines (a : Anchor) (line : Nat) (hl : a.line ≤ line) (cs : List Char) :
    decodeFrom a (List.replicate (line - a.line) ';' ++ cs) = decodeFrom (a.goto line) cs := by
  obtain ⟨k, rfl⟩ := Nat.exists_eq_add_of_le hl
  rw [Nat.add_sub_cancel_left]
  induction k generalizing a with
  | zero =>
    show decodeFrom a cs = decodeFrom (a.goto a.line) cs
    rw [Anchor.goto, if_neg (Nat.lt_irrefl _)]
  | succ k ih =>
    rw [replicate_succ, cons_append, decodeFrom, if_pos rfl,
      ih { a with line := a.line + 1, column := 0 } (Nat.le_add_right _ _)]
    simp [Anchor.goto, Nat.add_assoc, Nat.add_comm 1 k]

/-- A segment and what stands behind the next separator. -/
theorem decodeFrom_segment {a : Anchor} {numbers : List Int} (hne : numbers ≠ []) {cs : List Char}
    (hcs : ∀ c ∈ cs.head?, isSeparator c = true) :
    decodeFrom a (numbers.flatMap vlq ++ cs) = do
      let (segment, a) ← segment? a numbers
      let segments ← decodeFrom a cs
      return segment :: segments := by
  have hw : ∀ c ∈ numbers.flatMap vlq, (!isSeparator c) = true := by
    intro c hc
    obtain ⟨value, -, hc⟩ := mem_flatMap.1 hc
    rw [isSeparator_of_mem_vlq hc]
    rfl
  have hr := numbers?_vlq numbers
  obtain ⟨c, rest, hco⟩ : ∃ c rest, numbers.flatMap vlq = c :: rest := by
    obtain ⟨value, values, rfl⟩ := exists_cons_of_ne_nil hne
    obtain ⟨c, rest, hv⟩ := exists_cons_of_ne_nil (vlq_ne_nil value)
    exact ⟨c, rest ++ values.flatMap vlq, by rw [flatMap_cons, hv, cons_append]⟩
  rw [hco] at hw hr ⊢
  have hc : isSeparator c = false := by simpa using hw c (.head _)
  have hre : ∀ d ∈ rest, (!isSeparator d) = true := fun d hd => hw d (.tail _ hd)
  have hh : cs.takeWhile (!isSeparator ·) = [] ∧ cs.dropWhile (!isSeparator ·) = cs := by
    cases cs with
    | nil => exact ⟨rfl, rfl⟩
    | cons d cs =>
      have hd := hcs d rfl
      simp [hd]
  rw [cons_append, decodeFrom, if_neg, if_neg, takeWhile_append_of_pos hre,
    dropWhile_append_of_pos hre, hh.1, hh.2, append_nil, hr]
  · rfl
  · rintro rfl
    cases hc
  · rintro rfl
    cases hc

/-- What follows a segment starts with a separator. -/
theorem isSeparator_head?_encodeFrom (a : Anchor) (ms : List Mapping) :
    ∀ c ∈ (encodeFrom a false ms).head?, isSeparator c = true := by
  cases ms with
  | nil => nofun
  | cons m ms =>
    intro c hc
    rw [encodeFrom] at hc
    split at hc
    · next hl =>
      obtain ⟨k, hk⟩ := Nat.exists_eq_succ_of_ne_zero (Nat.sub_ne_zero_of_lt hl)
      rw [hk, replicate_succ] at hc
      obtain rfl : ';' = c := by simpa using hc
      rfl
    · obtain rfl : ',' = c := by simpa using hc
      rfl

theorem decodeFrom_encodeFrom {a : Anchor} {first : Bool} {ms : List Mapping}
    (hms : ms.Pairwise fun m m' => m.line ≤ m'.line) (ha : ∀ m ∈ ms, a.line ≤ m.line) :
    decodeFrom a (encodeFrom a first ms) = some (ms.map Mapping.toSegment) := by
  induction ms generalizing a first with
  | nil => simp [encodeFrom, decodeFrom]
  | cons m ms ih =>
    obtain ⟨hm, hms⟩ := pairwise_cons.1 hms
    have hl := ha m (.head _)
    have hr : decodeFrom (a.after m) (encodeFrom (a.after m) false ms) =
        some (ms.map Mapping.toSegment) := ih hms fun m' hm' => hm m' hm'
    -- whatever the separator is, the segment is read from the start of its line on
    have hs : decodeFrom a (encodeFrom a first (m :: ms)) =
        decodeFrom (a.goto m.line) (segment a m ++ encodeFrom (a.after m) false ms) := by
      rw [encodeFrom]
      split
      · rw [append_assoc, decodeFrom_lines a m.line hl]
      · have hg : a.goto m.line = a := by
          rw [Anchor.goto, if_neg ‹_›, show m.line = a.line by omega]
        rw [hg]
        cases first with
        | true => rw [append_assoc]; rfl
        | false =>
          show decodeFrom a (',' :: (segment a m ++ _)) = _
          rw [decodeFrom, if_neg (by decide), if_pos rfl]
    rw [hs, segment_eq, decodeFrom_segment (by simp [differences])
      (isSeparator_head?_encodeFrom _ _), segment?_differences]
    simp [hr]

/-- Mappings that are written line by line are read back. -/
theorem decode_encode {ms : List Mapping} (hms : ms.Pairwise fun m m' => m.line ≤ m'.line) :
    decode (encode ms) = some (ms.map Mapping.toSegment) := by
  rw [decode, encode, String.toList_ofList]
  exact decodeFrom_encodeFrom hms fun m _ => Nat.zero_le _

end Inlay.SourceMap
