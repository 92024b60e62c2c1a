/-
The texts of numbers are read as the numbers.

`numberText` writes a decimal that denotes the double, in one of three
forms; each of them is a numeral, and what is read from it is the same
decimal again or one of the same value.
-/
import Inlay.Proofs.Decimal.Readback
import Inlay.Proofs.Script.ExpressionCode

namespace Inlay.Script

open List

variable {text cs ds : List Char} {digits : Nat} {power : Int} {d : Double} {raw : String}

-- == digits

theorem decimalDigits_eq (cs : List Char) : decimalDigits cs = Nat.ofDigitChars 10 cs 0 := by
  rw [Nat.ofDigitChars_eq_foldl, decimalDigits]
  congr 1
  funext n c
  rw [Nat.mul_comm]

theorem decimalDigits_toDigits (n : Nat) : decimalDigits (Nat.toDigits 10 n) = n := by
  rw [decimalDigits_eq, Nat.ofDigitChars_ten_toDigits]

theorem isDigits_toDigits (n : Nat) : IsDigits (Nat.toDigits 10 n) :=
  ⟨Nat.toDigits_ne_nil, fun _ hc => Nat.isDigit_of_mem_toDigits (by decide) (by decide) hc⟩

theorem IsDigits.append (h : IsDigits cs) (hds : ∀ c ∈ ds, c.isDigit = true) :
    IsDigits (cs ++ ds) := by
  refine ⟨fun hn => h.1 (append_eq_nil_iff.1 hn).1, fun c hc => ?_⟩
  rcases mem_append.1 hc with hc | hc
  · exact h.2 c hc
  · exact hds c hc

-- == numerals

/-- The text is a numeral for `digits * 10 ^ power`. -/
def Writes (text : List Char) (digits : Nat) (power : Int) : Prop :=
  ∃ whole fraction exponent, text = whole ++ (fraction ++ exponent) ∧ IsDigits whole ∧
    (fraction = [] ∨ ∃ ds, fraction = '.' :: ds ∧ IsDigits ds) ∧
    (exponent = [] ∨ ∃ sign ds, exponent = 'e' :: (sign ++ ds) ∧
      (sign = [] ∨ sign = ['-']) ∧ IsDigits ds) ∧
    decimalDigits (whole ++ fraction.tail) = digits ∧
    exponentOf exponent - fraction.tail.length = power

theorem Writes.isNumeral (h : Writes text digits power) : IsNumeral text := by
  obtain ⟨whole, fraction, exponent, ht, hw, hf, he, -⟩ := h
  exact ⟨whole, fraction, exponent, ht, hw, hf, he⟩

theorem takeWhile_append_of_all (p : Char → Bool) (cs ds : List Char) (hcs : ∀ c ∈ cs, p c = true)
    (hds : ∀ c, ds.head? = some c → p c = false) :
    (cs ++ ds).takeWhile p = cs ∧ (cs ++ ds).dropWhile p = ds := by
  rw [takeWhile_append_of_pos hcs, dropWhile_append_of_pos hcs]
  cases ds with
  | nil => simp
  | cons c ds => simp [hds c rfl]

/-- What is read from a numeral is the decimal it writes. -/
theorem Writes.decimalValue (h : Writes text digits power)
    (hr : Double.ofDecimal false digits power = some d) : decimalValue text = .finite d := by
  obtain ⟨whole, fraction, exponent, rfl, hw, hf, he, rfl, rfl⟩ := h
  have hd : ∀ {c : Char}, c.isDigit = true → c ≠ '.' ∧ c ≠ 'e' ∧ c ≠ 'E' := by
    intro c hc
    refine ⟨?_, ?_, ?_⟩ <;> rintro rfl <;> exact absurd hc (by decide)
  have hm := takeWhile_append_of_all (fun c => !(c == 'e' || c == 'E'))
    (whole ++ fraction) exponent (by
      intro c hc
      rcases mem_append.1 hc with hc | hc
      · simp [hd (hw.2 c hc)]
      · rcases hf with rfl | ⟨ds, rfl, hds⟩
        · cases hc
        · rcases mem_cons.1 hc with rfl | hc
          · decide
          · simp [hd (hds.2 c hc)]) (by
      intro c hc
      rcases he with rfl | ⟨sign, ds, rfl, -⟩
      · cases hc
      · cases hc
        decide)
  have hwh := takeWhile_append_of_all (· != '.') whole fraction (by
      intro c hc
      simp [hd (hw.2 c hc)]) (by
      intro c hc
      rcases hf with rfl | ⟨ds, rfl, -⟩
      · cases hc
      · cases hc
        decide)
  rw [← append_assoc]
  unfold Script.decimalValue
  dsimp only
  rw [hm.1, hm.2, hwh.1, hwh.2, hr]

theorem Writes.numberValue? (h : Writes text digits power) :
    numberValue? (String.ofList text) = some (Script.decimalValue text) := by
  obtain ⟨whole, fraction, exponent, rfl, hw, hf, he, -, -⟩ := h
  unfold Script.numberValue?
  rw [String.toList_ofList]
  split
  · rename_i x ds heq
    -- the second character is no `x`, for it is a digit, a point or an `e`
    have hx : ¬(x = 'x' ∨ x = 'X') := by
      have hm : x.isDigit = true ∨ x = '.' ∨ x = 'e' := by
        rcases whole with _ | ⟨c, _ | ⟨c', whole⟩⟩
        · exact absurd rfl hw.1
        · rcases hf with rfl | ⟨fs, rfl, -⟩
          · rcases he with rfl | ⟨sign, es, rfl, -⟩
            · cases heq
            · cases heq
              exact .inr (.inr rfl)
          · cases heq
            exact .inr (.inl rfl)
        · cases heq
          exact .inl (hw.2 x (by simp))
      rintro (rfl | rfl) <;> exact absurd hm (by decide)
    rw [if_neg hx]
  · rfl

-- == forms

theorem writes_natural (n : Nat) : Writes (Nat.toDigits 10 n) n 0 :=
  ⟨_, [], [], by simp, isDigits_toDigits n, .inl rfl, .inl rfl,
    by simpa using decimalDigits_toDigits n, rfl⟩

theorem writes_positional (D : Decimal) :
    Writes D.positional.toList D.digits D.power ∨
      0 ≤ D.power ∧ Writes D.positional.toList (D.digits * 10 ^ D.power.natAbs) 0 := by
  have hd := isDigits_toDigits D.digits
  have hv := decimalDigits_toDigits D.digits
  unfold Decimal.positional Decimal.digitsOf
  dsimp only
  split
  · -- zeros behind the digits
    rename_i hp
    refine .inr ⟨hp, Nat.toDigits 10 D.digits ++ List.replicate D.power.natAbs '0', [], [],
      by simp, hd.append ?_, .inl rfl, .inl rfl, ?_, rfl⟩
    · intro c hc
      rw [eq_of_mem_replicate hc]
      decide
    · rw [tail_nil, append_nil, decimalDigits_eq, Nat.ofDigitChars_append,
        ← decimalDigits_eq, hv, Nat.ofDigitChars_replicate_zero, Nat.mul_comm]
  · rename_i hp
    refine .inl ?_
    split
    · -- a point between the digits
      rename_i hpl
      set k := (Nat.toDigits 10 D.digits).length - D.power.natAbs with hk
      refine ⟨(Nat.toDigits 10 D.digits).take k, '.' :: (Nat.toDigits 10 D.digits).drop k, [],
        by simp, ⟨?_, fun c hc => hd.2 c (mem_of_mem_take hc)⟩,
        .inr ⟨_, rfl, ?_, fun c hc => hd.2 c (mem_of_mem_drop hc)⟩, .inl rfl, ?_, ?_⟩
      · rw [Ne, take_eq_nil_iff]
        simp only [Nat.toDigits_ne_nil, or_false]
        omega
      · rw [Ne, drop_eq_nil_iff]
        omega
      · rw [tail_cons, take_append_drop, hv]
      · rw [tail_cons, length_drop]
        simp only [exponentOf]
        omega
    · -- zeros before the digits
      rename_i hpl
      refine ⟨['0'], '.' :: (List.replicate (D.power.natAbs - (Nat.toDigits 10 D.digits).length)
        '0' ++ Nat.toDigits 10 D.digits), [], by simp, ⟨by decide, by simp⟩,
        .inr ⟨_, rfl, ?_, ?_⟩, .inl rfl, ?_, ?_⟩
      · simp [Nat.toDigits_ne_nil]
      · intro c hc
        rcases mem_append.1 hc with hc | hc
        · rw [eq_of_mem_replicate hc]
          decide
        · exact hd.2 c hc
      · rw [tail_cons, ← append_assoc, decimalDigits_eq, Nat.ofDigitChars_append,
          Nat.ofDigitChars_append, Nat.ofDigitChars_replicate_zero]
        rw [show Nat.ofDigitChars 10 ['0'] 0 = 0 from rfl, Nat.mul_zero, ← decimalDigits_eq, hv]
      · rw [tail_cons, length_append, length_replicate]
        simp only [exponentOf]
        omega

theorem exponentOf_digits (h : IsDigits ds) : exponentOf ('e' :: ds) = decimalDigits ds := by
  obtain ⟨hne, hds⟩ := h
  cases ds with
  | nil => exact absurd rfl hne
  | cons c ds =>
    have hc := hds c (mem_cons_self ..)
    unfold exponentOf
    split
    · rename_i heq
      cases heq
      exact absurd hc (by decide)
    · rename_i heq
      cases heq
      exact absurd hc (by decide)
    · rename_i heq
      cases heq
      rfl
    · rename_i heq
      cases heq

/-- The exponent is what stands behind its letter. -/
theorem exists_exponent (D : Decimal) : ∃ exponent,
    (exponent = [] ∨ ∃ sign ds, exponent = 'e' :: (sign ++ ds) ∧
      (sign = [] ∨ sign = ['-']) ∧ IsDigits ds) ∧ exponentOf exponent = D.exponent ∧
    (D.scientific "").toList = (match Nat.toDigits 10 D.digits with
      | first :: second :: rest => first :: '.' :: second :: rest
      | short => short) ++ exponent := by
  have hds := isDigits_toDigits D.exponent.natAbs
  have hva := decimalDigits_toDigits D.exponent.natAbs
  by_cases hn : D.exponent < 0
  · refine ⟨'e' :: (['-'] ++ Nat.toDigits 10 D.exponent.natAbs),
      .inr ⟨_, _, rfl, .inr rfl, hds⟩, ?_, ?_⟩
    · show -(decimalDigits (Nat.toDigits 10 D.exponent.natAbs) : Int) = D.exponent
      rw [hva]
      omega
    · unfold Decimal.scientific
      dsimp only
      rw [if_pos hn, Nat.toString_eq_ofList_toDigits]
      simp only [Decimal.digitsOf, String.toList_append, String.toList_ofList, append_assoc]
      rfl
  · refine ⟨'e' :: ([] ++ Nat.toDigits 10 D.exponent.natAbs),
      .inr ⟨_, _, rfl, .inl rfl, hds⟩, ?_, ?_⟩
    · rw [nil_append, exponentOf_digits hds, hva]
      omega
    · unfold Decimal.scientific
      dsimp only
      rw [if_neg hn, Nat.toString_eq_ofList_toDigits]
      simp only [Decimal.digitsOf, String.toList_append, String.toList_ofList, append_assoc]
      rfl

theorem writes_scientific (D : Decimal) : Writes (D.scientific "").toList D.digits D.power := by
  have hd := isDigits_toDigits D.digits
  have hv := decimalDigits_toDigits D.digits
  obtain ⟨exponent, he, hex, ht⟩ := exists_exponent D
  rw [ht]
  unfold Decimal.exponent Decimal.digitsOf at hex
  split
  · rename_i first second rest heq
    rw [heq] at hd hv hex
    refine ⟨[first], '.' :: second :: rest, exponent, by simp, ⟨by simp, ?_⟩,
      .inr ⟨_, rfl, by simp, ?_⟩, he, by simpa using hv, ?_⟩
    · exact fun c hc => hd.2 c (by simp_all)
    · exact fun c hc => hd.2 c (mem_cons_of_mem _ hc)
    · rw [hex, tail_cons]
      simp only [length_cons]
      omega
  · rename_i hs
    have hle : (Nat.toDigits 10 D.digits).length = 1 := by
      rcases hl : Nat.toDigits 10 D.digits with _ | ⟨first, _ | ⟨second, rest⟩⟩
      · exact absurd hl Nat.toDigits_ne_nil
      · rfl
      · exact absurd hl (hs first second rest)
    refine ⟨_, [], exponent, rfl, hd, .inl rfl, he, by simpa using hv, ?_⟩
    rw [hex, hle]
    simp

-- == whole texts

/-- The text of a number writes a decimal that denotes it. -/
theorem writes_numberText (hd : d.IsCanonical) (hne : d.neg = false) :
    ∃ digits power, Writes (numberText d).toList digits power ∧ d.Denotes digits power := by
  have hs := Double.denotes_shortest .up hd
  have hp : ∃ digits power, Writes (Decimal.shortest .up d).positional.toList digits power ∧
        d.Denotes digits power := by
    rcases writes_positional (Decimal.shortest .up d) with h | ⟨hpo, h⟩
    · exact ⟨_, _, h, hs⟩
    · exact ⟨_, _, h, hs.shift hpo⟩
  unfold numberText
  dsimp only
  split
  · refine ⟨_, _, ?_, hs⟩
    unfold exponentNumber
    rw [hne]
    simpa using writes_scientific (Decimal.shortest .up d)
  · unfold plainNumber
    rw [hne]
    simp only [Bool.false_eq_true, if_false, String.empty_append]
    split
    · rename_i n hn
      split
      · have hno := (Double.value_of_toInt? hn).2 hne
        refine ⟨n.natAbs, 0, ?_, Double.denotes_natAbs hn⟩
        obtain ⟨k, rfl⟩ := Int.eq_ofNat_of_zero_le hno
        have ht : (toString (k : Int)) = String.ofList (Nat.toDigits 10 k) :=
          Nat.toString_eq_ofList_toDigits
        rw [ht, String.toList_ofList]
        exact writes_natural k
      · exact hp
    · exact hp

theorem isCanonical_of_decimalValue (h : decimalValue cs = .finite d) :
    d.IsCanonical ∧ d.neg = false := by
  unfold decimalValue at h
  dsimp only at h
  split at h
  · rename_i d' hr
    cases h
    exact Double.isCanonical_of_ofDecimal hr
  · cases h

variable (h : numberValue? raw = some (.finite d))

include h

theorem isCanonical_of_numberValue? : d.IsCanonical ∧ d.neg = false := by
  unfold numberValue? at h
  split at h
  · split at h
    · -- a he number
      rw [Option.bind_eq_bind, Option.bind_eq_some_iff] at h
      obtain ⟨n, -, h⟩ := h
      split at h
      · cases hr : Double.ofInt? n with
        | none =>
          rw [hr] at h
          cases h
        | some d' =>
          rw [hr] at h
          cases h
          have hn : decide ((n : Int) < 0) = false := decide_eq_false (by omega)
          rw [Double.ofInt?, hn] at hr
          exact Double.isCanonical_of_ofRatio Nat.one_pos hr
      · cases h
    · exact isCanonical_of_decimalValue (Option.some.inj h)
  · exact isCanonical_of_decimalValue (Option.some.inj h)

/-- The tree holds the double itself, or the whole number it is. -/
theorem toDouble?_of_toJson :
    ∃ number, (NumberValue.finite d).toJson = .num number ∧ number.toDouble? = some d := by
  obtain ⟨hd, hn⟩ := isCanonical_of_numberValue? h
  unfold NumberValue.toJson
  cases hint : d.toInt? with
  | none => exact ⟨.dbl d, by simp [hint], rfl⟩
  | some n =>
    by_cases hs : n.natAbs < Nat.pow 2 53
    · exact ⟨.int n, by simp [hint, hs], Double.ofInt?_of_toInt? hd hn hint⟩
    · exact ⟨.dbl d, by simp [hint, hs], rfl⟩

/-- A finite number is written so that it is read again. -/
theorem renders_finite : Renders (.finite d) := by
  obtain ⟨hd, hn⟩ := isCanonical_of_numberValue? h
  obtain ⟨digits, power, hw, hde⟩ := writes_numberText hd hn
  have hr := Double.ofDecimal_of_denotes hd hde
  rw [hn] at hr
  have hv := hw.numberValue?
  rw [String.ofList_toList, hw.decimalValue hr] at hv
  obtain ⟨number, hj, hdo⟩ := toDouble?_of_toJson h
  refine ⟨number, d, .finite d, hj, hdo, ⟨hw.isNumeral, d, ?_⟩, hv, rfl⟩
  rwa [String.ofList_toList]

end Inlay.Script
