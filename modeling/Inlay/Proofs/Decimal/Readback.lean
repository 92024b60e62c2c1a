/-
The shortest decimal of a double is rounded to the double.

`shortest` only takes decimals of the double's interval, so all there is to
show is that it finds one: a grid with seventeen digits is fine enough
(`exists_onGrid_of_fine`).
-/
import Inlay.Proofs.Decimal.Rounding

namespace Inlay

-- == intervals

namespace Decimal.Interval

variable {d : Double} {num den : Nat}

theorem den_pos (d : Double) : 0 < (Interval.of d).den :=
  Double.scale_pos 1 _ (by decide)

/-- What a multiple of the quarter unit is over the denominator. -/
theorem quarters_div (d : Double) (k : Nat) :
    ((k * (Double.scale 1 4 (-d.exponent)).1 : Nat) : ℚ) / (Double.scale 1 4 (-d.exponent)).2 =
      k / 4 * 2 ^ d.exponent := by
  have h := Double.scale_div 1 4 (-d.exponent)
  rw [neg_neg] at h
  push_cast at h ⊢
  rw [mul_div_assoc, h]
  ring

theorem value_div (d : Double) : ((Interval.of d).value : ℚ) / (Interval.of d).den = d.value := by
  refine (quarters_div d (4 * d.mantissa)).trans ?_
  rw [Double.value]
  push_cast
  ring

theorem upper_div (d : Double) :
    ((Interval.of d).upper : ℚ) / (Interval.of d).den = (d.mantissa + 1 / 2) * 2 ^ d.exponent := by
  refine (quarters_div d (4 * d.mantissa + 2)).trans ?_
  push_cast
  ring

theorem lower_div (hm : 0 < d.mantissa) :
    ((Interval.of d).lower : ℚ) / (Interval.of d).den =
      (d.mantissa - d.reach) * 2 ^ d.exponent := by
  refine (quarters_div d _).trans ?_
  unfold Double.reach
  by_cases hs : d.mantissa = Nat.pow 2 52 ∧ Double.minExponent < d.exponent
  · rw [if_pos hs, if_pos (by simpa using hs), Nat.cast_sub (by omega)]
    push_cast
    ring
  · rw [if_neg hs, if_neg (by simpa using hs), Nat.cast_sub (by omega)]
    push_cast
    ring

/-- The interval of a double holds the fractions it attracts. -/
theorem holds_iff (hm : 0 < d.mantissa) (hde : 0 < den) :
    (Interval.of d).holds num den = true ↔ d.Attracts (num / den) := by
  have hi : (0 : ℚ) < (Interval.of d).den := by exact_mod_cast den_pos d
  have hd : (0 : ℚ) < den := by exact_mod_cast hde
  have hle : ∀ {a : Nat}, a * den ≤ num * (Interval.of d).den ↔
      (a : ℚ) / (Interval.of d).den ≤ num / den := by
    intro a
    rw [div_le_div_iff₀ hi hd]
    exact_mod_cast Iff.rfl
  have hge : ∀ {a : Nat}, num * (Interval.of d).den ≤ a * den ↔
      (num : ℚ) / den ≤ a / (Interval.of d).den := by
    intro a
    rw [div_le_div_iff₀ hd hi]
    exact_mod_cast Iff.rfl
  have hlt : ∀ {a b : Nat}, a < b ↔ ¬b ≤ a := by
    intro a b
    omega
  have he : (Interval.of d).closed = true ↔ d.mantissa % 2 = 0 := by
    simp [Interval.of]
  unfold holds
  dsimp only
  split
  · rename_i hc
    rw [Bool.and_eq_true, decide_eq_true_iff, decide_eq_true_iff, hle, hge, lower_div hm, upper_div]
    refine ⟨fun h => ⟨h.1, h.2, fun hod => ?_⟩, fun h => ⟨h.low, h.high⟩⟩
    have := he.1 hc
    omega
  · rename_i ho
    rw [Bool.and_eq_true, decide_eq_true_iff, decide_eq_true_iff, hlt, hlt, hge, hle,
      lower_div hm, upper_div, not_le, not_le]
    have hod : d.mantissa % 2 = 1 := by
      rw [he] at ho
      omega
    exact ⟨fun h => ⟨h.1.le, h.2.le, fun _ => h⟩, fun h => h.odd hod⟩

end Decimal.Interval

-- == grids

namespace Decimal

variable {d : Double} {D : Decimal} {tie : Tie} {num den : Nat} {p : Int}

/-- The number that a decimal stands for. -/
def value (D : Decimal) : ℚ := D.digits * 10 ^ D.power

/-- A decimal as a fraction. -/
def point (p : Int) (n : Nat) : Nat × Nat :=
  if p < 0 then (n, Nat.pow 10 p.natAbs) else (n * Nat.pow 10 p.natAbs, 1)

theorem point_pos (p : Int) (n : Nat) : 0 < (point p n).2 := by
  unfold point
  split
  · exact Nat.pow_pos (by decide)
  · exact Nat.one_pos

theorem point_div (p : Int) (n : Nat) : ((point p n).1 : ℚ) / (point p n).2 = n * 10 ^ p := by
  unfold point
  split
  · rename_i hp
    rw [← neg_neg p, zpow_neg, Double.zpow_neg_natAbs 10 hp, neg_neg, Nat.pow_eq]
    push_cast
    rw [div_eq_mul_inv]
  · rename_i hp
    rw [Double.zpow_natAbs 10 (by omega), Nat.pow_eq]
    push_cast
    rw [div_one]

/-- The double in steps of a grid. -/
def steps (d : Double) (p : Int) : Nat × Nat :=
  if p < 0 then ((Interval.of d).value * Nat.pow 10 p.natAbs, (Interval.of d).den)
  else ((Interval.of d).value, (Interval.of d).den * Nat.pow 10 p.natAbs)

theorem steps_pos (d : Double) (p : Int) : 0 < (steps d p).2 := by
  unfold steps
  split
  · exact Interval.den_pos d
  · exact Nat.mul_pos (Interval.den_pos d) (Nat.pow_pos (by decide))

theorem steps_div (d : Double) (p : Int) :
    ((steps d p).1 : ℚ) / (steps d p).2 = d.value / 10 ^ p := by
  have h := Interval.value_div d
  unfold steps
  split
  · rename_i hp
    rw [div_eq_mul_inv _ ((10 : ℚ) ^ p), ← zpow_neg, Double.zpow_neg_natAbs 10 hp, ← h, Nat.pow_eq]
    push_cast
    ring
  · rename_i hp
    rw [Double.zpow_natAbs 10 (by omega), ← h, Nat.pow_eq]
    push_cast
    rw [div_div]

/-- The neighbour below the double, counted in steps of the grid. -/
def down (d : Double) (p : Int) : Nat := (steps d p).1 / (steps d p).2

/-- Whether a point of the grid is inside the double's interval. -/
def inside (d : Double) (p : Int) (n : Nat) : Bool :=
  (Interval.of d).holds (point p n).1 (point p n).2

theorem inside_iff {n : Nat} (hm : 0 < d.mantissa) :
    inside d p n = true ↔ d.Attracts (n * 10 ^ p) := by
  rw [inside, Interval.holds_iff hm (point_pos p n), point_div]

theorem onGrid_eq (tie : Tie) (d : Double) (p : Int) :
    ∃ up : Bool, onGrid tie (Interval.of d) p = match inside d p (down d p) && down d p != 0,
        (steps d p).1 % (steps d p).2 != 0 && inside d p (down d p + 1) with
      | false, false => none
      | true, false => some ⟨down d p, p⟩
      | false, true => some ⟨down d p + 1, p⟩
      | true, true => some ⟨if up then down d p + 1 else down d p, p⟩ :=
  ⟨_, rfl⟩

/-- What a grid gives is inside the interval. -/
theorem inside_of_onGrid (h : onGrid tie (Interval.of d) p = some D) :
    D.power = p ∧ inside d p D.digits = true := by
  obtain ⟨up, heq⟩ := onGrid_eq tie d p
  rw [heq] at h
  split at h
  case h_1 => cases h
  case h_2 hd hup =>
    cases h
    exact ⟨rfl, (Bool.and_eq_true_iff.1 hd).1⟩
  case h_3 hd hup =>
    cases h
    exact ⟨rfl, (Bool.and_eq_true_iff.1 hup).2⟩
  case h_4 hd hup =>
    cases h
    cases up with
    | true => exact ⟨rfl, (Bool.and_eq_true_iff.1 hup).2⟩
    | false => exact ⟨rfl, (Bool.and_eq_true_iff.1 hd).1⟩

/-- A grid gives something if a neighbour of the double is inside. -/
theorem exists_onGrid (tie : Tie) (h : inside d p (down d p) = true ∧ down d p ≠ 0 ∨
      (steps d p).1 % (steps d p).2 ≠ 0 ∧ inside d p (down d p + 1) = true) :
    ∃ D, onGrid tie (Interval.of d) p = some D := by
  obtain ⟨up, heq⟩ := onGrid_eq tie d p
  rw [heq]
  split
  case h_1 hd hup =>
    rcases h with ⟨hin, hne⟩ | ⟨hne, hin⟩
    · simp [hin, hne] at hd
    · simp [hin, hne] at hup
  all_goals exact ⟨_, rfl⟩

-- == fine enough

/-- How far the interval of a double reaches, compared to the double. -/
theorem value_le_reach (hd : d.IsCanonical) : d.value ≤ 2 ^ 54 * (d.reach * 2 ^ d.exponent) := by
  have hp : (0 : ℚ) < 2 ^ d.exponent := by positivity
  have hm := Double.mantissa_le hd
  have hle : (d.mantissa : ℚ) ≤ 2 ^ 54 * d.reach := by
    unfold Double.reach
    split
    · rename_i hs
      rw [hs.1, Nat.pow_eq]
      norm_num
    · linarith
  calc d.value ≤ 2 ^ 54 * d.reach * 2 ^ d.exponent := mul_le_mul_of_nonneg_right hle hp.le
    _ = 2 ^ 54 * (d.reach * 2 ^ d.exponent) := mul_assoc ..

theorem value_pos (hm : 0 < d.mantissa) : 0 < d.value := by
  have : (0 : ℚ) < d.mantissa := by exact_mod_cast hm
  unfold Double.value
  positivity

theorem attracts_of_near {x : ℚ} (hl : d.value - d.reach * 2 ^ d.exponent < x)
    (hh : x < d.value + d.reach * 2 ^ d.exponent) : d.Attracts x := by
  have hp : (0 : ℚ) < 2 ^ d.exponent := by positivity
  have hr : d.reach * 2 ^ d.exponent ≤ 1 / 2 * 2 ^ d.exponent :=
    mul_le_mul_of_nonneg_right d.reach_le hp.le
  have h₁ : (d.mantissa - d.reach) * 2 ^ d.exponent < x := by
    rw [sub_mul]
    exact hl
  have h₂ : x < (d.mantissa + 1 / 2) * 2 ^ d.exponent := by
    rw [add_mul]
    exact hh.trans_le (by unfold Double.value; linarith)
  exact ⟨h₁.le, h₂.le, fun _ => ⟨h₁, h₂⟩⟩

/-- Seventeen digits are enough: a neighbour on the grid is inside. -/
theorem exists_onGrid_of_fine (tie : Tie) (hd : d.IsCanonical) (hm : 0 < d.mantissa)
    (hp : 10 ^ 16 * 10 ^ p ≤ d.value) : ∃ D, onGrid tie (Interval.of d) p = some D := by
  have hg : (0 : ℚ) < 10 ^ p := by positivity
  have hv := value_pos hm
  have hh : 10 ^ p / 2 < d.reach * 2 ^ d.exponent := by
    have := value_le_reach hd
    linarith
  -- the double is `down + f` steps, with a rest `f` below one
  have hpo := steps_pos d p
  have hde : (0 : ℚ) < (steps d p).2 := by exact_mod_cast hpo
  have hs : ((steps d p).2 : ℚ) * down d p + ((steps d p).1 % (steps d p).2 : Nat) =
      (steps d p).1 := by
    exact_mod_cast Nat.div_add_mod (steps d p).1 (steps d p).2
  have hr : (((steps d p).1 % (steps d p).2 : Nat) : ℚ) < (steps d p).2 := by
    exact_mod_cast Nat.mod_lt _ hpo
  obtain ⟨f, hf⟩ : ∃ f : ℚ, f = ((steps d p).1 % (steps d p).2 : Nat) / (steps d p).2 :=
    ⟨_, rfl⟩
  have hf1 : f < 1 := by
    rw [hf]
    exact (div_lt_one hde).2 hr
  have hva : d.value = (down d p + f) * 10 ^ p := by
    rw [← div_eq_iff hg.ne', ← steps_div, hf]
    field_simp
    linarith
  refine exists_onGrid tie ?_
  by_cases hle : f ≤ 1 / 2
  · refine .inl ⟨(inside_iff hm).2 (attracts_of_near ?_ ?_), fun hz => ?_⟩
    · rw [hva]
      nlinarith
    · have hf0 : 0 ≤ f := by
        rw [hf]
        positivity
      rw [hva]
      nlinarith
    · rw [hva, hz] at hp
      push_cast at hp
      nlinarith
  · refine .inr ⟨fun hz => hle ?_, (inside_iff hm).2 (attracts_of_near ?_ ?_)⟩
    · rw [hf, hz]
      norm_num
    · rw [hva]
      push_cast
      nlinarith
    · rw [hva]
      push_cast
      nlinarith

theorem exists_onGrid_of_refine {i : Interval} {k : Nat}
    (h : ∃ D, onGrid tie i (p - k) = some D) : ∃ p', onGrid tie i p' = some (refine tie i k p) := by
  induction k generalizing p with
  | zero =>
    obtain ⟨D, hD⟩ := h
    simp only [Nat.cast_zero, sub_zero] at hD
    exact ⟨p, by rw [refine, hD]; rfl⟩
  | succ k ih =>
    unfold refine
    cases hg : onGrid tie i p with
    | some D => exact ⟨p, hg⟩
    | none =>
      refine ih ?_
      rw [show p - 1 - (k : Int) = p - ((k + 1 : Nat) : Int) by push_cast; ring]
      exact h

-- == leading digits

theorem pow_digitCount_le {n : Nat} (hn : 0 < n) : 10 ^ (Double.digitCount n - 1) ≤ n := by
  unfold Double.digitCount
  by_contra hlt
  by_cases ho : (Nat.toDigits 10 n).length = 1
  · rw [ho] at hlt
    omega
  · have hp := Nat.length_toDigits_pos (b := 10) (n := n)
    have := (Nat.length_toDigits_le_iff (by decide) (by omega)).2 (Nat.lt_of_not_le hlt)
    omega

theorem lt_pow_digitCount (n : Nat) : n < 10 ^ Double.digitCount n :=
  (Nat.length_toDigits_le_iff (by decide) Nat.length_toDigits_pos).1 (Nat.le_refl _)

/-- The power that is counted by the first digit is no greater than the
number. -/
theorem leadingPower_le (hnu : 0 < num) (hde : 0 < den) :
    (10 : ℚ) ^ leadingPower num den ≤ num / den := by
  have hn : (0 : ℚ) < num := by exact_mod_cast hnu
  have hd : (0 : ℚ) < den := by exact_mod_cast hde
  have hdi : ∀ n, 0 < Double.digitCount n := fun n => Nat.length_toDigits_pos
  unfold leadingPower
  split
  · rename_i hle
    have hp := pow_digitCount_le (Nat.div_pos hle hde)
    have := hdi (num / den)
    rw [show (Double.digitCount (num / den) : Int) - 1 =
      ((Double.digitCount (num / den) - 1 : Nat) : Int) by omega, zpow_natCast, le_div_iff₀ hd]
    exact_mod_cast (Nat.le_div_iff_mul_le hde).1 hp
  · dsimp only
    have := hdi (den / num)
    split
    · rename_i hle
      rw [show (Double.digitCount (den / num) : Int) - 1 =
        ((Double.digitCount (den / num) - 1 : Nat) : Int) by omega, zpow_neg, zpow_natCast,
        inv_eq_one_div, div_le_div_iff₀ (by positivity) hd, one_mul]
      exact_mod_cast hle
    · rw [zpow_neg, zpow_natCast, inv_eq_one_div, div_le_div_iff₀ (by positivity) hd, one_mul]
      have hlt := (Nat.div_lt_iff_lt_mul hnu).1 (lt_pow_digitCount (den / num))
      rw [Nat.mul_comm] at hlt
      exact_mod_cast hlt.le

-- == shortest

theorem value_trim_go (k : Nat) (D : Decimal) : (trim.go k D).value = D.value := by
  induction k generalizing D with
  | zero => rfl
  | succ k ih =>
    unfold trim.go
    split
    · rename_i h
      simp only [Bool.and_eq_true, beq_iff_eq] at h
      have hd : (D.digits : ℚ) = (D.digits / 10 : Nat) * 10 := by
        exact_mod_cast (Nat.div_mul_cancel (Nat.dvd_of_mod_eq_zero h.2)).symm
      rw [ih]
      unfold value
      dsimp only
      rw [zpow_add_one₀ (by norm_num), hd]
      ring
    · rfl

/-- The shortest decimal of a double is in its interval. -/
theorem attracts_shortest (tie : Tie) (hd : d.IsCanonical) (hm : 0 < d.mantissa) :
    d.Attracts (shortest tie d).value := by
  have hv := value_pos hm
  have hi : (0 : ℚ) < (Interval.of d).den := by exact_mod_cast Interval.den_pos d
  have hva : 0 < (Interval.of d).value := by
    rw [← Interval.value_div] at hv
    exact_mod_cast (div_pos_iff_of_pos_right hi).1 hv
  have hl := leadingPower_le hva (Interval.den_pos d)
  rw [Interval.value_div] at hl
  set p := leadingPower (Interval.of d).value (Interval.of d).den
  have hf : 10 ^ 16 * 10 ^ (p - (16 : Nat)) ≤ d.value := by
    rwa [← zpow_natCast, ← zpow_add₀ (by norm_num), show ((16 : Nat) : Int) + (p - (16 : Nat)) = p
      by ring]
  obtain ⟨p', hg⟩ := exists_onGrid_of_refine (exists_onGrid_of_fine tie hd hm hf)
  obtain ⟨hp, hin⟩ := inside_of_onGrid hg
  rw [shortest, if_neg hm.ne']
  show d.Attracts (trim.go _ _).value
  rw [value_trim_go, value, hp]
  exact (inside_iff hm).1 hin

end Decimal

-- == reading

namespace Double

variable {d : Double} {digits : Nat} {power : Int}

/-- The decimal is zero, if the double is, or else near enough to it. -/
def Denotes (d : Double) (digits : Nat) (power : Int) : Prop :=
  if d.mantissa = 0 then digits = 0 else d.Attracts (digits * 10 ^ power)

theorem eq_zero_of_mantissa (hd : d.IsCanonical) (hm : d.mantissa = 0) : d = zero d.neg := by
  obtain ⟨neg, mantissa, exponent⟩ := d
  obtain rfl : mantissa = 0 := hm
  obtain rfl : exponent = minExponent := hd.2.2.2.resolve_left (Nat.not_le.2 (Nat.pow_pos (by decide)))
  rfl

/-- No double is beyond the powers that are read. -/
theorem Attracts.power_le (hx : d.Attracts (digits * 10 ^ power)) (hd : d.IsCanonical)
    (hdi : 0 < digits) : power ≤ 310 := by
  by_contra hlt
  have hm := mantissa_le hd
  have he : (2 : ℚ) ^ d.exponent ≤ 2 ^ maxExponent :=
    zpow_le_zpow_right₀ (by norm_num) hd.2.2.1
  have ht : (10 : ℚ) ^ (311 : Int) ≤ 10 ^ power :=
    zpow_le_zpow_right₀ (by norm_num) (by omega)
  have ho : (1 : ℚ) ≤ digits := by exact_mod_cast hdi
  have hge : (10 : ℚ) ^ (311 : Int) ≤ digits * 10 ^ power := by
    calc (10 : ℚ) ^ (311 : Int) ≤ 1 * 10 ^ power := by rwa [one_mul]
      _ ≤ digits * 10 ^ power := mul_le_mul_of_nonneg_right ho (by positivity)
  have hle : (d.mantissa + 1 / 2) * (2 : ℚ) ^ d.exponent ≤ 2 ^ 53 * 2 ^ maxExponent :=
    mul_le_mul (by linarith) he (by positivity) (by positivity)
  have hb : (2 : ℚ) ^ 53 * 2 ^ maxExponent < 10 ^ (311 : Int) := by
    have hn : 2 ^ 53 * 2 ^ 971 < 10 ^ 311 := by decide +kernel
    have hc : (2 : ℚ) ^ 53 * 2 ^ 971 < 10 ^ 311 := by exact_mod_cast hn
    rw [maxExponent, zpow_ofNat, zpow_ofNat]
    exact hc
  linarith [hx.high]

/-- No double but zero is below the powers that are read. -/
theorem Attracts.le_power (hx : d.Attracts (digits * 10 ^ power)) (hd : d.IsCanonical)
    (hm : 0 < d.mantissa) : -330 ≤ power + digitCount digits := by
  by_contra hlt
  have ho : (1 : ℚ) ≤ d.mantissa := by exact_mod_cast hm
  have he : (2 : ℚ) ^ minExponent ≤ 2 ^ d.exponent :=
    zpow_le_zpow_right₀ (by norm_num) hd.2.1
  have hdi : (digits : ℚ) < 10 ^ (digitCount digits : Int) := by
    rw [zpow_natCast]
    exact_mod_cast Decimal.lt_pow_digitCount digits
  have ht : (10 : ℚ) ^ (power + digitCount digits) ≤ 10 ^ (-331 : Int) :=
    zpow_le_zpow_right₀ (by norm_num) (by omega)
  have hlt' : (digits : ℚ) * 10 ^ power < 10 ^ (-331 : Int) := by
    calc (digits : ℚ) * 10 ^ power < 10 ^ (digitCount digits : Int) * 10 ^ power :=
          mul_lt_mul_of_pos_right hdi (by positivity)
      _ = 10 ^ (power + digitCount digits) := by
          rw [zpow_add₀ (by norm_num), mul_comm]
      _ ≤ 10 ^ (-331 : Int) := ht
  have hl : 1 / 2 * (2 : ℚ) ^ minExponent ≤ (d.mantissa - d.reach) * 2 ^ d.exponent :=
    mul_le_mul (by linarith [d.reach_le]) he (by positivity) (by linarith [d.reach_le])
  have hb : (10 : ℚ) ^ (-331 : Int) < 1 / 2 * 2 ^ minExponent := by
    have hn : 2 * 2 ^ 1074 < 10 ^ 331 := by decide +kernel
    have hc : (2 : ℚ) * 2 ^ 1074 < 10 ^ 331 := by exact_mod_cast hn
    rw [minExponent, zpow_neg, zpow_neg, one_div, ← mul_inv]
    exact inv_strictAnti₀ (by positivity) hc
  linarith [hx.low]

/-- A decimal that denotes a double is read as the double. -/
theorem ofDecimal_of_denotes (hd : d.IsCanonical) (h : d.Denotes digits power) :
    ofDecimal d.neg digits power = some d := by
  unfold Denotes at h
  split at h
  · rename_i hm
    subst h
    rw [ofDecimal, if_pos rfl, ← eq_zero_of_mantissa hd hm]
  · rename_i hm
    have hm := Nat.pos_of_ne_zero hm
    have hdi : 0 < digits := by
      rcases Nat.eq_zero_or_pos digits with rfl | hpo
      · simpa using h.pos hm
      · exact hpo
    have hh := h.power_le hd hdi
    have hl := h.le_power hd hm
    have hp := Decimal.point_div power digits
    have hpo := Decimal.point_pos power digits
    unfold ofDecimal
    rw [if_neg hdi.ne', if_neg (by omega), if_neg (by omega)]
    unfold Decimal.point at hp hpo
    split at hp
    · rename_i hne
      rw [if_pos hne] at hpo ⊢
      exact ofRatio_of_attracts hd hm hpo (by rw [hp]; exact h)
    · rename_i hn
      rw [if_neg hn]
      exact ofRatio_of_attracts hd hm Nat.one_pos (by rw [hp]; exact h)

theorem denotes_shortest (tie : Decimal.Tie) (hd : d.IsCanonical) :
    d.Denotes (Decimal.shortest tie d).digits (Decimal.shortest tie d).power := by
  unfold Denotes
  split
  · rename_i hm
    rw [Decimal.shortest, if_pos hm]
  · rename_i hm
    exact Decimal.attracts_shortest tie hd (Nat.pos_of_ne_zero hm)

/-- Zeros behind the digits stand for a power. -/
theorem Denotes.shift (h : d.Denotes digits power) (hp : 0 ≤ power) :
    d.Denotes (digits * 10 ^ power.natAbs) 0 := by
  unfold Denotes at h ⊢
  split at h
  · rename_i hm
    rw [if_pos hm, h, Nat.zero_mul]
  · rename_i hm
    rw [if_neg hm, zpow_zero, mul_one]
    rw [zpow_natAbs 10 hp] at h
    exact_mod_cast h

theorem isCanonical_of_ofDecimal {neg : Bool} (h : ofDecimal neg digits power = some d) :
    d.IsCanonical ∧ d.neg = neg := by
  unfold ofDecimal at h
  have hz : (zero neg).IsCanonical ∧ (zero neg).neg = neg :=
    ⟨by cases neg <;> decide, rfl⟩
  split at h
  · cases h
    exact hz
  split at h
  · cases h
  split at h
  · cases h
    exact hz
  split at h
  · exact isCanonical_of_ofRatio (Nat.pow_pos (by decide)) h
  · exact isCanonical_of_ofRatio Nat.one_pos h

-- == whole numbers

theorem value_of_toInt? {n : Int} (h : d.toInt? = some n) :
    d.value = n.natAbs ∧ (d.neg = false → 0 ≤ n) := by
  unfold toInt? at h
  dsimp only at h
  split at h
  case isFalse => cases h
  case isTrue hm =>
    obtain rfl := Option.some.inj h
    have hdv := Nat.div_mul_cancel (Nat.dvd_of_mod_eq_zero hm)
    have hr : (d.ratio.1 : ℚ) / d.ratio.2 = d.value := by
      unfold ratio value
      split
      · rename_i he
        rw [← neg_neg d.exponent, zpow_neg, zpow_neg_natAbs 2 he, neg_neg, Nat.pow_eq]
        push_cast
        rw [div_eq_mul_inv]
      · rename_i he
        rw [zpow_natAbs 2 (by omega), Nat.pow_eq]
        push_cast
        rw [div_one]
    have hd : (d.ratio.2 : ℚ) ≠ 0 := by
      unfold ratio
      split
      · rw [Nat.pow_eq]
        positivity
      · norm_num
    refine ⟨?_, fun hn => ?_⟩
    · rw [← hr, div_eq_iff hd]
      have ha : ∀ k : Nat, (if d.neg then -(k : Int) else k).natAbs = k := by
        intro k
        split <;> simp
      rw [ha]
      exact_mod_cast hdv.symm
    · rw [hn]
      exact Int.natCast_nonneg _

theorem denotes_natAbs {n : Int} (h : d.toInt? = some n) : d.Denotes n.natAbs 0 := by
  obtain ⟨hv, -⟩ := value_of_toInt? h
  unfold Denotes
  split
  · rename_i hm
    rw [value, hm, Nat.cast_zero, zero_mul] at hv
    exact_mod_cast hv.symm
  · rw [zpow_zero, mul_one, ← hv]
    exact attracts_value d

/-- A whole double is the double nearest to its whole number. -/
theorem ofInt?_of_toInt? {n : Int} (hd : d.IsCanonical) (hne : d.neg = false)
    (h : d.toInt? = some n) : ofInt? n = some d := by
  have hn := (value_of_toInt? h).2 hne
  have hr := ofDecimal_of_denotes hd (denotes_natAbs h)
  rw [hne] at hr
  unfold ofInt?
  rw [decide_eq_false (by omega), ← hr]
  unfold ofDecimal
  by_cases hz : n.natAbs = 0
  · rw [if_pos hz, hz, ofRatio, if_pos rfl]
  · rw [if_neg hz, if_neg (by decide), if_neg (by omega), if_neg (by decide)]
    simp

end Double

end Inlay
