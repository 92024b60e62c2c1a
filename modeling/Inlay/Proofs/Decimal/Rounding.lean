/-
Fractions are rounded to the nearest double.

The fractions that are nearer to a double than to any other one form an
interval around it, to which its ends belong if the mantissa is even, and
every fraction in it is rounded to that double (`ofRatio_of_attracts`).
-/
import Inlay.Decimal.Shortest
import Mathlib

namespace Inlay.Double

variable {d : Double} {num den n m : Nat} {e t : Int} {x : ℚ}

-- == scaling

theorem scale_pos (num : Nat) (e : Int) (h : 0 < den) : 0 < (scale num den e).2 := by
  unfold scale
  split
  · exact h
  · exact Nat.mul_pos h (Nat.pow_pos (by decide))

theorem zpow_neg_natAbs (b : ℚ) (he : e < 0) : b ^ (-e) = b ^ e.natAbs := by
  rw [show -e = (e.natAbs : ℤ) by omega, zpow_natCast]

theorem zpow_natAbs (b : ℚ) (he : 0 ≤ e) : b ^ e = b ^ e.natAbs := by
  conv_lhs => rw [show e = (e.natAbs : ℤ) by omega, zpow_natCast]

/-- Scaling divides the fraction by the power of two. -/
theorem scale_div (num den : Nat) (e : Int) :
    ((scale num den e).1 : ℚ) / (scale num den e).2 = num / den * 2 ^ (-e) := by
  unfold scale
  split
  · rename_i he
    rw [zpow_neg_natAbs 2 he, Nat.pow_eq]
    push_cast
    ring
  · rename_i he
    rw [zpow_neg, zpow_natAbs 2 (by omega), Nat.pow_eq]
    push_cast
    rw [← div_div, div_eq_mul_inv _ ((2 : ℚ) ^ _)]

-- == rounding

theorem roundDiv_cases (num den : Nat) :
    roundDiv num den = num / den ∧
        (2 * (num % den) < den ∨ 2 * (num % den) = den ∧ num / den % 2 = 0) ∨
      roundDiv num den = num / den + 1 ∧
        (den < 2 * (num % den) ∨ 2 * (num % den) = den ∧ num / den % 2 = 1) := by
  unfold roundDiv
  dsimp only
  split
  · exact .inl ⟨rfl, .inl ‹_›⟩
  · split
    · rcases Nat.mod_two_eq_zero_or_one (num / den) with h | h
      · exact .inl ⟨by rw [h]; rfl, .inr ⟨‹_›, h⟩⟩
      · exact .inr ⟨by rw [h], .inr ⟨‹_›, h⟩⟩
    · exact .inr ⟨rfl, .inl (by omega)⟩

/-- The whole part and the rest of a fraction, and what it is rounded
to. -/
theorem roundDiv_spec (num : Nat) (h : 0 < den) :
    ∃ (q : Nat) (f : ℚ), (num : ℚ) / den = q + f ∧ 0 ≤ f ∧ f < 1 ∧
      (roundDiv num den = q ∧ (f < 1 / 2 ∨ f = 1 / 2 ∧ q % 2 = 0) ∨
        roundDiv num den = q + 1 ∧ (1 / 2 < f ∨ f = 1 / 2 ∧ q % 2 = 1)) := by
  have hd : (0 : ℚ) < den := by exact_mod_cast h
  have hs : (den : ℚ) * (num / den : Nat) + (num % den : Nat) = num := by
    exact_mod_cast Nat.div_add_mod num den
  have hr : ((num % den : Nat) : ℚ) < den := by exact_mod_cast Nat.mod_lt num h
  have hlt : ∀ {a b : Nat}, 2 * a < b ↔ (a : ℚ) < 1 / 2 * b := by
    intro a b
    rw [← Nat.cast_lt (α := ℚ)]
    push_cast
    constructor <;> intro <;> linarith
  refine ⟨num / den, ((num % den : Nat) : ℚ) / den, ?_, by positivity, (div_lt_one hd).2 hr, ?_⟩
  · field_simp
    linarith
  · rw [div_lt_iff₀ hd, lt_div_iff₀ hd, div_eq_iff hd.ne', ← hlt]
    have heq : 2 * (num % den) = den ↔ ((num % den : Nat) : ℚ) = 1 / 2 * den := by
      rw [← Nat.cast_inj (R := ℚ)]
      push_cast
      constructor <;> intro <;> linarith
    have hgt : den < 2 * (num % den) ↔ (1 / 2 * den : ℚ) < (num % den : Nat) := by
      rw [← Nat.cast_lt (α := ℚ)]
      push_cast
      constructor <;> intro <;> linarith
    rw [← heq, ← hgt]
    exact roundDiv_cases num den

/-- A whole number within half a unit is the one that is rounded to; at
exactly half a unit it has to be even. -/
theorem roundDiv_eq (h : 0 < den) (hl : (m : ℚ) - 1 / 2 ≤ num / den)
    (hh : (num : ℚ) / den ≤ m + 1 / 2)
    (ht : m % 2 = 1 → (m : ℚ) - 1 / 2 < num / den ∧ (num : ℚ) / den < m + 1 / 2) :
    roundDiv num den = m := by
  obtain ⟨q, f, hx, hf0, hf1, hro⟩ := roundDiv_spec num h
  rw [hx] at hl hh ht
  have hle : m ≤ q + 1 := by
    have : (m : ℚ) < (q + 2 : Nat) := by push_cast; linarith
    exact Nat.lt_succ_iff.1 (by exact_mod_cast this)
  have hge : q ≤ m := by
    have : (q : ℚ) < (m + 1 : Nat) := by push_cast; linarith
    exact Nat.lt_succ_iff.1 (by exact_mod_cast this)
  obtain rfl | rfl : m = q ∨ m = q + 1 := by omega
  · -- the number below
    rcases hro with ⟨hr, -⟩ | ⟨-, hf | ⟨hf, hq⟩⟩
    · exact hr
    · linarith
    · linarith [(ht hq).2]
  · -- the number above
    rcases hro with ⟨-, hf | ⟨hf, hq⟩⟩ | ⟨hr, -⟩
    · push_cast at hl
      linarith
    · have := (ht (by omega)).1
      push_cast at this
      linarith
    · exact hr

theorem roundDiv_le (num : Nat) (h : 0 < den) : (roundDiv num den : ℚ) ≤ num / den + 1 / 2 := by
  obtain ⟨q, f, hx, hf0, hf1, ⟨hr, -⟩ | ⟨hr, hf⟩⟩ := roundDiv_spec num h
  · rw [hr, hx]
    linarith
  · rw [hr, hx]
    push_cast
    rcases hf with hf | ⟨hf, -⟩ <;> linarith

theorem le_roundDiv (num : Nat) (h : 0 < den) : (num : ℚ) / den - 1 / 2 ≤ roundDiv num den := by
  obtain ⟨q, f, hx, hf0, hf1, ⟨hr, hf⟩ | ⟨hr, -⟩⟩ := roundDiv_spec num h
  · rw [hr, hx]
    rcases hf with hf | ⟨hf, -⟩ <;> linarith
  · rw [hr, hx]
    push_cast
    linarith

-- == exponents

/-- The exponent at which the mantissa of a number has 53 bits, or the
least one. -/
structure IsExponent (x : ℚ) (e : Int) : Prop where
  least : minExponent ≤ e
  below : x < 2 ^ (e + 53)
  full : e = minExponent ∨ 2 ^ (e + 52) ≤ x

theorem IsExponent.unique {e' : Int} (h : IsExponent x e) (h' : IsExponent x e') : e = e' := by
  -- of two different exponents the greater one has too few bits
  have key : ∀ {a b : Int}, IsExponent x a → IsExponent x b → ¬a < b := by
    intro a b ha hb hlt
    rcases hb.full with hm | hf
    · have := ha.least
      omega
    · have hp : (2 : ℚ) ^ (a + 53) ≤ 2 ^ (b + 52) :=
        zpow_le_zpow_right₀ (by norm_num) (by omega)
      linarith [ha.below]
  have := key h h'
  have := key h' h
  omega

theorem log2_bounds (h : 0 < n) :
    (2 : ℚ) ^ (n.log2 : Int) ≤ n ∧ (n : ℚ) < 2 ^ ((n.log2 : Int) + 1) := by
  constructor
  · rw [zpow_natCast]
    exact_mod_cast Nat.log2_self_le h.ne'
  · rw [show (n.log2 : Int) + 1 = (n.log2 + 1 : Nat) by simp, zpow_natCast]
    exact_mod_cast Nat.lt_log2_self

theorem exponentOf_spec (hn : 0 < num) (hde : 0 < den) :
    IsExponent (num / den) (exponentOf num den) := by
  have hd : (0 : ℚ) < den := by exact_mod_cast hde
  obtain ⟨hn₁, hn₂⟩ := log2_bounds hn
  obtain ⟨hd₁, hd₂⟩ := log2_bounds hde
  set t : Int := (num.log2 : Int) - (den.log2 : Int) with ht
  -- the logarithms determine the fraction up to a factor of two each way
  have hu : (num : ℚ) / den < 2 ^ (t + 1) := by
    rw [div_lt_iff₀ hd]
    calc (num : ℚ) < 2 ^ ((num.log2 : Int) + 1) := hn₂
      _ = 2 ^ (t + 1) * 2 ^ (den.log2 : Int) := by
        rw [← zpow_add₀ (by norm_num)]
        congr 1
        omega
      _ ≤ 2 ^ (t + 1) * den := by gcongr
  have hl : (2 : ℚ) ^ (t - 1) < num / den := by
    rw [lt_div_iff₀ hd]
    calc (2 : ℚ) ^ (t - 1) * den < 2 ^ (t - 1) * 2 ^ ((den.log2 : Int) + 1) := by gcongr
      _ = 2 ^ (num.log2 : Int) := by
        rw [← zpow_add₀ (by norm_num)]
        congr 1
        omega
      _ ≤ num := hn₁
  have hc : (scale num den t).2 ≤ (scale num den t).1 ↔ (2 : ℚ) ^ t ≤ num / den := by
    have hp : (0 : ℚ) < (scale num den t).2 := by exact_mod_cast scale_pos num t hde
    rw [← Nat.cast_le (α := ℚ), ← one_le_div hp, scale_div, zpow_neg,
      ← div_eq_mul_inv, one_le_div (by positivity)]
  have he : exponentOf num den =
      max minExponent (if (2 : ℚ) ^ t ≤ num / den then t - 52 else t - 53) := by
    unfold exponentOf
    simp only [← ht, hc]
  rw [he]
  split
  · rename_i hle
    rcases max_cases minExponent (t - 52) with ⟨hm, hmi⟩ | ⟨hm, -⟩ <;> rw [hm]
    · refine ⟨le_refl _, hu.trans_le (zpow_le_zpow_right₀ (by norm_num) ?_), .inl rfl⟩
      omega
    · refine ⟨by omega, ?_, .inr ?_⟩
      · rwa [show t - 52 + 53 = t + 1 by ring]
      · rwa [show t - 52 + 52 = t by ring]
  · rename_i hlt
    have hlt' := not_le.1 hlt
    rcases max_cases minExponent (t - 53) with ⟨hm, hmi⟩ | ⟨hm, -⟩ <;> rw [hm]
    · refine ⟨le_refl _, hlt'.trans_le (zpow_le_zpow_right₀ (by norm_num) ?_), .inl rfl⟩
      omega
    · refine ⟨by omega, ?_, .inr ?_⟩
      · rwa [show t - 53 + 53 = t by ring]
      · rw [show t - 53 + 52 = t - 1 by ring]
        exact hl.le

-- == intervals

/-- The magnitude of a double. -/
def value (d : Double) : ℚ := d.mantissa * 2 ^ d.exponent

/-- How far the interval of a double reaches below it, in units of its
last bit. Below a power of two the doubles lie twice as dense. -/
def reach (d : Double) : ℚ :=
  if d.mantissa = Nat.pow 2 52 ∧ minExponent < d.exponent then 1 / 4 else 1 / 2

/-- The number is at least as near to the double as to any other one,
and nearer if the mantissa is odd. -/
structure Attracts (d : Double) (x : ℚ) : Prop where
  low : (d.mantissa - d.reach) * 2 ^ d.exponent ≤ x
  high : x ≤ (d.mantissa + 1 / 2) * 2 ^ d.exponent
  odd : d.mantissa % 2 = 1 →
    (d.mantissa - d.reach) * 2 ^ d.exponent < x ∧ x < (d.mantissa + 1 / 2) * 2 ^ d.exponent

theorem reach_pos (d : Double) : 0 < d.reach := by
  unfold reach
  split <;> norm_num

theorem reach_le (d : Double) : d.reach ≤ 1 / 2 := by
  unfold reach
  split <;> norm_num

theorem attracts_value (d : Double) : d.Attracts d.value := by
  have hp : (0 : ℚ) < 2 ^ d.exponent := by positivity
  have hr := d.reach_pos
  have hl : (d.mantissa - d.reach) * 2 ^ d.exponent < d.value :=
    mul_lt_mul_of_pos_right (by linarith) hp
  have hh : d.value < (d.mantissa + 1 / 2) * 2 ^ d.exponent :=
    mul_lt_mul_of_pos_right (by linarith) hp
  exact ⟨hl.le, hh.le, fun _ => ⟨hl, hh⟩⟩

theorem Attracts.pos (h : d.Attracts x) (hm : 0 < d.mantissa) : 0 < x := by
  have hm' : (1 : ℚ) ≤ d.mantissa := by exact_mod_cast hm
  have hp : (0 : ℚ) < 2 ^ d.exponent := by positivity
  refine lt_of_lt_of_le (mul_pos ?_ hp) h.low
  linarith [d.reach_le]

theorem zpow_shift (e : Int) (k : Nat) : (2 : ℚ) ^ (e + k) = 2 ^ k * 2 ^ e := by
  rw [zpow_add₀ (by norm_num), zpow_natCast, mul_comm]

theorem mantissa_le (hd : d.IsCanonical) : (d.mantissa : ℚ) ≤ 2 ^ 53 - 1 := by
  have h : d.mantissa + 1 ≤ 2 ^ 53 := hd.1
  have h' : ((d.mantissa + 1 : Nat) : ℚ) ≤ (2 ^ 53 : Nat) := by exact_mod_cast h
  push_cast at h'
  linarith

/-- A number that a double attracts has the exponent of the double, or it
lies below a power of two. -/
theorem Attracts.exponent (hx : d.Attracts x) (hd : d.IsCanonical) :
    IsExponent x d.exponent ∨
      d.mantissa = 2 ^ 52 ∧ minExponent < d.exponent ∧ x < 2 ^ (d.exponent + 52) := by
  have hp : (0 : ℚ) < 2 ^ d.exponent := by positivity
  have hm := mantissa_le hd
  have hb : x < 2 ^ (d.exponent + 53) := by
    calc x ≤ (d.mantissa + 1 / 2) * 2 ^ d.exponent := hx.high
      _ < 2 ^ 53 * 2 ^ d.exponent := mul_lt_mul_of_pos_right (by linarith) hp
      _ = 2 ^ (d.exponent + 53) := (zpow_shift _ 53).symm
  by_cases hmi : d.exponent = minExponent
  · exact .inl ⟨hd.2.1, hb, .inl hmi⟩
  by_cases hf : (2 : ℚ) ^ (d.exponent + 52) ≤ x
  · exact .inl ⟨hd.2.1, hb, .inr hf⟩
  refine .inr ⟨?_, lt_of_le_of_ne hd.2.1 (Ne.symm hmi), not_le.1 hf⟩
  have hge : 2 ^ 52 ≤ d.mantissa := hd.2.2.2.resolve_right hmi
  -- with a greater mantissa the whole interval is above the power of two
  have hlt : (d.mantissa : ℚ) < 2 ^ 52 + 1 := by
    have hl := hx.low.trans_lt (not_le.1 hf)
    rw [show (52 : Int) = (52 : Nat) from rfl, zpow_shift] at hl
    have := lt_of_mul_lt_mul_right hl hp.le
    linarith [d.reach_le]
  have hle : d.mantissa < 2 ^ 52 + 1 := by exact_mod_cast hlt
  omega

/-- The scaled number that is rounded to the mantissa. -/
theorem scale_bounds (num den : Nat) (e : Int) (a b : ℚ) (hl : a * 2 ^ e ≤ num / den)
    (hh : (num : ℚ) / den ≤ b * 2 ^ e) :
    a ≤ ((scale num den e).1 : ℚ) / (scale num den e).2 ∧
      ((scale num den e).1 : ℚ) / (scale num den e).2 ≤ b := by
  have hp : (0 : ℚ) < 2 ^ e := by positivity
  rw [scale_div, zpow_neg, ← div_eq_mul_inv]
  exact ⟨(le_div_iff₀ hp).2 hl, (div_le_iff₀ hp).2 hh⟩

theorem ofRatio_eq (hn : 0 < num) (neg : Bool) (he : exponentOf num den = e)
    (hm : roundDiv (scale num den e).1 (scale num den e).2 = m) :
    ofRatio neg num den =
      if m = 2 ^ 53 then (if maxExponent < e + 1 then none else some ⟨neg, 2 ^ 52, e + 1⟩)
      else if maxExponent < e then none else some ⟨neg, m, e⟩ := by
  unfold ofRatio
  rw [if_neg hn.ne', he]
  dsimp only
  rw [hm]
  by_cases h : m = 2 ^ 53
  · rw [if_pos h, if_pos (show m = Nat.pow 2 53 from h)]
    rfl
  · rw [if_neg h, if_neg (show m ≠ Nat.pow 2 53 from h)]

/-- A fraction that a double attracts is rounded to it. -/
theorem ofRatio_of_attracts (hd : d.IsCanonical) (hm : 0 < d.mantissa) (hde : 0 < den)
    (hx : d.Attracts (num / den)) : ofRatio d.neg num den = some d := by
  have hn : 0 < num := by
    rcases Nat.eq_zero_or_pos num with rfl | h
    · simpa using hx.pos hm
    · exact h
  have hs := exponentOf_spec hn hde
  have hp : (0 : ℚ) < 2 ^ d.exponent := by positivity
  rcases hx.exponent hd with hex | ⟨hma, hmi, hb⟩
  · -- the mantissa is the nearest whole number
    have he := hs.unique hex
    have hre := d.reach_le
    have hlo : ((d.mantissa : ℚ) - 1 / 2) * 2 ^ d.exponent ≤
        (d.mantissa - d.reach) * 2 ^ d.exponent :=
      mul_le_mul_of_nonneg_right (by linarith) hp.le
    obtain ⟨h₁, h₂⟩ := scale_bounds num den _ _ _ (hlo.trans hx.low) hx.high
    have hr := roundDiv_eq (m := d.mantissa) (scale_pos num _ hde) h₁ h₂ fun ho => by
      obtain ⟨hl, hh⟩ := hx.odd ho
      rw [scale_div, zpow_neg, ← div_eq_mul_inv]
      exact ⟨(lt_div_iff₀ hp).2 (hlo.trans_lt hl), (div_lt_iff₀ hp).2 hh⟩
    rw [ofRatio_eq hn d.neg he hr, if_neg (show d.mantissa ≠ 2 ^ 53 from Nat.ne_of_lt hd.1),
      if_neg (not_lt.2 hd.2.2.1)]
  · -- below a power of two the fraction is rounded up to it
    have hha : (2 : ℚ) ^ d.exponent = 2 * 2 ^ (d.exponent - 1) := by
      rw [mul_comm, ← zpow_add_one₀ (by norm_num), sub_add_cancel]
    have hre : d.reach = 1 / 4 := if_pos ⟨hma, hmi⟩
    have hlo := hx.low
    rw [hma, hre, hha] at hlo
    push_cast at hlo
    rw [show (52 : Int) = (52 : Nat) from rfl, zpow_shift, hha] at hb
    have hex : IsExponent ((num : ℚ) / den) (d.exponent - 1) := by
      refine ⟨by omega, ?_, .inr ?_⟩
      · rw [show (53 : Int) = (53 : Nat) from rfl, zpow_shift]
        linarith
      · rw [show (52 : Int) = (52 : Nat) from rfl, zpow_shift]
        linarith
    have he := hs.unique hex
    obtain ⟨h₁, h₂⟩ := scale_bounds num den (d.exponent - 1)
      (((2 ^ 53 : Nat) : ℚ) - 1 / 2) ((2 ^ 53 : Nat) + 1 / 2) (by push_cast; linarith)
      (by push_cast; linarith)
    have hr := roundDiv_eq (scale_pos num _ hde) h₁ h₂ fun ho => absurd ho (by decide)
    have hd' : d = ⟨d.neg, 2 ^ 52, d.exponent - 1 + 1⟩ := by
      rw [sub_add_cancel, ← hma]
    have hmax := hd.2.2.1
    rw [ofRatio_eq hn d.neg he hr, if_pos rfl, if_neg (by omega), ← hd']

theorem isCanonical_of_ofRatio {neg : Bool} (hd : 0 < den)
    (h : ofRatio neg num den = some d) : d.IsCanonical ∧ d.neg = neg := by
  rcases Nat.eq_zero_or_pos num with rfl | hn
  · rw [ofRatio, if_pos rfl] at h
    cases h
    exact ⟨by cases neg <;> decide, rfl⟩
  obtain ⟨hl, hb, hf⟩ := exponentOf_spec hn hd
  generalize he : exponentOf num den = e at hl hb hf
  generalize hm : roundDiv (scale num den e).1 (scale num den e).2 = m
  have hp : (0 : ℚ) < 2 ^ e := by positivity
  have hs : ((scale num den e).1 : ℚ) / (scale num den e).2 = num / den / 2 ^ e := by
    rw [scale_div, zpow_neg, ← div_eq_mul_inv]
  have hle : m ≤ 2 ^ 53 := by
    have hr := roundDiv_le (scale num den e).1 (scale_pos num e hd)
    rw [hm, hs] at hr
    rw [show (53 : Int) = (53 : Nat) from rfl, zpow_shift, ← div_lt_iff₀ hp] at hb
    have : (m : ℚ) < (2 ^ 53 + 1 : Nat) := by push_cast; linarith
    exact Nat.lt_succ_iff.1 (by exact_mod_cast this)
  have hge : 2 ^ 52 ≤ m ∨ e = minExponent := by
    rcases hf with hmi | hf
    · exact .inr hmi
    · have hr := le_roundDiv (scale num den e).1 (scale_pos num e hd)
      rw [hm, hs] at hr
      rw [show (52 : Int) = (52 : Nat) from rfl, zpow_shift, ← le_div_iff₀ hp] at hf
      have : ((2 ^ 52 : Nat) : ℚ) < (m + 1 : Nat) := by push_cast; linarith
      exact .inl (Nat.lt_succ_iff.1 (by exact_mod_cast this))
  rw [ofRatio_eq hn neg he hm] at h
  split at h <;> split at h
  · cases h
  · cases h
    rename_i hma
    have hl' : minExponent ≤ e + 1 := by omega
    exact ⟨⟨Nat.pow_lt_pow_right (by decide) (by decide), hl', not_lt.1 hma,
      .inl (Nat.le_refl _)⟩, rfl⟩
  · cases h
  · cases h
    rename_i hne hma
    exact ⟨⟨lt_of_le_of_ne hle hne, hl, not_lt.1 hma, hge⟩, rfl⟩

end Inlay.Double
