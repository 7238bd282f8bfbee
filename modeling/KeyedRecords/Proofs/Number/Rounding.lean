import KeyedRecords.Number.Binary64
import Mathlib.Algebra.Order.Field.Power
import Mathlib.Data.Int.Log
import Mathlib.Data.Rat.Floor
import Mathlib.Tactic.FieldSimp
import Mathlib.Tactic.Linarith
import Mathlib.Tactic.NormNum
import Mathlib.Tactic.Positivity
import Mathlib.Tactic.Ring

/-! Rounding of a ratio depends on its value alone and leaves the value of a float alone. Main
statements: `ofRatio?_congr`, `ofRatio?_exact`, and `ofDecimal?_eq_ofRatio?`, by which the shortcuts for
decimals out of any float's reach change no result. -/

namespace KeyedRecords.Binary64

/-! ## The unit in the last place -/

theorem zpow_mul_pow_toNat {b : ℚ} (hb : b ≠ 0) (k : ℤ) : b ^ k * b ^ (-k).toNat = b ^ k.toNat := by
  rw [← zpow_natCast, ← zpow_natCast, ← zpow_add₀ hb]
  congr 1
  omega

theorem below_iff {num den : ℕ} (hden : 0 < den) (k : ℤ) :
    below num den k = true ↔ (num : ℚ) / den < 2 ^ k := by
  have hdenQ : (0 : ℚ) < den := by exact_mod_cast hden
  have hscale : (0 : ℚ) < 2 ^ (-k).toNat := by positivity
  have hsplit := zpow_mul_pow_toNat (b := 2) (by norm_num) k
  rw [below, decide_eq_true_iff, div_lt_iff₀ hdenQ, ← mul_lt_mul_iff_of_pos_right hscale,
    mul_right_comm, hsplit, mul_comm (2 ^ k.toNat : ℚ)]
  simp only [Nat.pow_eq]
  exact_mod_cast Iff.rfl

/-- The ratio lies within one binary place of what the lengths of its two parts say. -/
theorem ratio_bounds {num den : ℕ} (hnum : 0 < num) (hden : 0 < den) :
    (2 : ℚ) ^ ((num.log2 : ℤ) - den.log2 - 1) ≤ (num : ℚ) / den ∧
      (num : ℚ) / den < 2 ^ ((num.log2 : ℤ) - den.log2 + 1) := by
  have hdenQ : (0 : ℚ) < den := by exact_mod_cast hden
  have numLow : (2 : ℚ) ^ num.log2 ≤ num := by exact_mod_cast Nat.log2_self_le hnum.ne'
  have numHigh : (num : ℚ) < 2 ^ (num.log2 + 1) := by exact_mod_cast Nat.lt_log2_self
  have denLow : (2 : ℚ) ^ den.log2 ≤ den := by exact_mod_cast Nat.log2_self_le hden.ne'
  have denHigh : (den : ℚ) < 2 ^ (den.log2 + 1) := by exact_mod_cast Nat.lt_log2_self
  constructor
  · rw [le_div_iff₀ hdenQ]
    calc (2 : ℚ) ^ ((num.log2 : ℤ) - den.log2 - 1) * den
        ≤ 2 ^ ((num.log2 : ℤ) - den.log2 - 1) * 2 ^ ((den.log2 : ℤ) + 1) := by
          refine mul_le_mul_of_nonneg_left ?_ (by positivity)
          exact_mod_cast denHigh.le
      _ = 2 ^ num.log2 := by rw [← zpow_add₀ two_ne_zero, ← zpow_natCast]; congr 1; ring
      _ ≤ num := numLow
  · rw [div_lt_iff₀ hdenQ]
    calc (num : ℚ) < 2 ^ (num.log2 + 1) := numHigh
      _ = 2 ^ ((num.log2 : ℤ) - den.log2 + 1) * 2 ^ (den.log2 : ℤ) := by
          rw [← zpow_add₀ two_ne_zero, ← zpow_natCast]; congr 1; push_cast; ring
      _ ≤ 2 ^ ((num.log2 : ℤ) - den.log2 + 1) * den := by
          refine mul_le_mul_of_nonneg_left ?_ (by positivity)
          rw [zpow_natCast]
          exact denLow

theorem log_eq_of_bounds {r : ℚ} {k : ℤ} (hlow : (2 : ℚ) ^ k ≤ r) (hhigh : r < 2 ^ (k + 1)) :
    Int.log 2 r = k := by
  have hpos : 0 < r := lt_of_lt_of_le (by positivity) hlow
  have hle : k ≤ Int.log 2 r := (Int.zpow_le_iff_le_log (by norm_num) hpos).1 (by exact_mod_cast hlow)
  have hlt : Int.log 2 r < k + 1 :=
    (Int.lt_zpow_iff_log_lt (by norm_num) hpos).1 (by exact_mod_cast hhigh)
  omega

theorem unitExponent_eq {num den : ℕ} (hnum : 0 < num) (hden : 0 < den) :
    unitExponent num den = max (-1074) (Int.log 2 ((num : ℚ) / den) - 52) := by
  obtain ⟨hlow, hhigh⟩ := ratio_bounds hnum hden
  simp only [unitExponent]
  by_cases hb : below num den ((num.log2 : ℤ) - den.log2) = true
  · have hlt := (below_iff hden _).1 hb
    rw [if_pos hb, log_eq_of_bounds hlow (by simpa using hlt)]
    congr 1
    ring
  · have hge := not_lt.1 fun h => hb ((below_iff hden _).2 h)
    rw [if_neg hb, log_eq_of_bounds hge hhigh]

/-! ## Rounding to an integer -/

theorem nearest_mul (num den : ℕ) {c : ℕ} (hc : 0 < c) :
    nearest (num * c) (den * c) = nearest num den := by
  have hmod : 2 * (num * c % (den * c)) = 2 * (num % den) * c := by
    rw [Nat.mul_mod_mul_right, Nat.mul_assoc]
  simp only [nearest, Nat.mul_div_mul_right num den hc, hmod, Nat.mul_lt_mul_right hc]

theorem nearest_congr {num den num' den' : ℕ} (hden : 0 < den) (hden' : 0 < den')
    (h : num * den' = num' * den) : nearest num den = nearest num' den' := by
  rw [← nearest_mul num den hden', ← nearest_mul num' den' hden, h, Nat.mul_comm den den']

theorem nearest_mul_self (m : ℕ) {den : ℕ} (hden : 0 < den) : nearest (m * den) den = m := by
  simp [nearest, Nat.mul_div_cancel m hden, hden]

/-! ## Rounding to a float -/

/-- A ratio is rounded by its value, not by how it is written. -/
theorem ofRatio?_congr (negative : Bool) {num den num' den' : ℕ} (hden : 0 < den) (hden' : 0 < den')
    (h : num * den' = num' * den) : ofRatio? negative num den = ofRatio? negative num' den' := by
  by_cases hzero : num = 0
  · have hzero' : num' = 0 := by
      rw [hzero, Nat.zero_mul] at h
      exact (Nat.mul_eq_zero.1 h.symm).resolve_right hden.ne'
    simp [ofRatio?, hzero, hzero']
  · have hnum : 0 < num := Nat.pos_of_ne_zero hzero
    have hnum' : 0 < num' := by
      rcases Nat.eq_zero_or_pos num' with rfl | hpos
      · simp [hzero, hden'.ne'] at h
      · exact hpos
    have hratio : (num : ℚ) / den = num' / den' := by
      rw [div_eq_div_iff (by exact_mod_cast hden.ne') (by exact_mod_cast hden'.ne')]
      exact_mod_cast h
    have hunit : unitExponent num den = unitExponent num' den' := by
      rw [unitExponent_eq hnum hden, unitExponent_eq hnum' hden', hratio]
    have hsignificand : ∀ a b : ℕ, 0 < b →
        nearest (num * a) (den * b) = nearest (num' * a) (den' * b) := by
      intro a b hb
      refine nearest_congr (Nat.mul_pos hden hb) (Nat.mul_pos hden' hb) ?_
      calc num * a * (den' * b) = num * den' * (a * b) := by ring
        _ = num' * den * (a * b) := by rw [h]
        _ = num' * a * (den * b) := by ring
    simp only [ofRatio?, hzero, hnum'.ne', if_false, hunit, Nat.pow_eq]
    rw [hsignificand _ _ (Nat.two_pow_pos _)]

def magnitude (x : Binary64) : ℚ := x.significand * 2 ^ x.exponent

theorem ofParts?_self (x : Binary64) : ofParts? x.negative x.significand x.exponent = some x := by
  simp [ofParts?, x.canonical]

theorem two_pow_le_cast {m : ℕ} (h : leadingBit ≤ m) : (2 : ℚ) ^ (52 : ℤ) ≤ m := by
  norm_num [leadingBit] at h ⊢
  exact_mod_cast h

theorem significand_lt (x : Binary64) : (x.significand : ℚ) < 2 ^ (53 : ℤ) := by
  have hlt := x.canonical.1
  norm_num [leadingBit] at hlt ⊢
  exact_mod_cast hlt

theorem log_magnitude_lt {x : Binary64} (h : x.significand ≠ 0) :
    Int.log 2 x.magnitude < 53 + x.exponent := by
  have hm : (0 : ℚ) < x.significand := by exact_mod_cast Nat.pos_of_ne_zero h
  refine (Int.lt_zpow_iff_log_lt (by norm_num) (by unfold magnitude; positivity)).1 ?_
  rw [Nat.cast_ofNat, zpow_add₀ two_ne_zero]
  exact mul_lt_mul_of_pos_right (significand_lt x) (by positivity)

theorem le_log_magnitude {x : Binary64} (h : leadingBit ≤ x.significand) :
    52 + x.exponent ≤ Int.log 2 x.magnitude := by
  have hcap := two_pow_le_cast h
  have hm : (0 : ℚ) < x.significand := lt_of_lt_of_le (by positivity) hcap
  refine (Int.zpow_le_iff_le_log (by norm_num) (by unfold magnitude; positivity)).1 ?_
  rw [Nat.cast_ofNat, zpow_add₀ two_ne_zero]
  exact mul_le_mul_of_nonneg_right hcap (by positivity)

/-- The exponent of a float is that of the unit in the last place around its magnitude. -/
theorem exponent_eq {x : Binary64} (h : x.significand ≠ 0) :
    max (-1074) (Int.log 2 x.magnitude - 52) = x.exponent := by
  have hlt := log_magnitude_lt h
  obtain ⟨-, hleast, -, hfull | hleast'⟩ := x.canonical
  · have hle := le_log_magnitude hfull
    omega
  · omega

/-- A ratio that is the magnitude of a float is rounded to that float. -/
theorem ofRatio?_exact {x : Binary64} (h : x.significand ≠ 0) {num den : ℕ} (hden : 0 < den)
    (hvalue : (num : ℚ) / den = x.magnitude) : ofRatio? x.negative num den = some x := by
  have hdenQ : (den : ℚ) ≠ 0 := by exact_mod_cast hden.ne'
  have hnum : 0 < num := by
    refine Nat.pos_of_ne_zero fun hzero => ?_
    have hm : (x.significand : ℚ) ≠ 0 := by exact_mod_cast h
    rw [hzero, Nat.cast_zero, zero_div] at hvalue
    exact mul_ne_zero hm (zpow_ne_zero _ two_ne_zero) hvalue.symm
  have hunit : unitExponent num den = x.exponent := by
    rw [unitExponent_eq hnum hden, hvalue, exponent_eq h]
  -- Scaled by the unit, the ratio is the significand itself.
  have hscaled : num * 2 ^ (-x.exponent).toNat = x.significand * (den * 2 ^ x.exponent.toNat) := by
    have hpow := zpow_mul_pow_toNat (b := 2) (by norm_num) x.exponent
    have hcross : (num : ℚ) = x.significand * 2 ^ x.exponent * den := by
      rw [div_eq_iff hdenQ] at hvalue
      exact hvalue
    have hq : (num : ℚ) * 2 ^ (-x.exponent).toNat =
        x.significand * (den * 2 ^ x.exponent.toNat) := by
      rw [hcross, ← hpow]
      ring
    exact_mod_cast hq
  have hsmall : x.significand ≠ 2 * leadingBit := x.canonical.1.ne
  simp only [ofRatio?, hnum.ne', if_false, hunit, Nat.pow_eq, hscaled,
    nearest_mul_self _ (Nat.mul_pos hden (Nat.two_pow_pos _)), hsmall, ofParts?_self]

/-! ## Decimals -/

theorem ofParts?_eq_none {negative : Bool} {significand : ℕ} {exponent : ℤ} (h : 971 < exponent) :
    ofParts? negative significand exponent = none := by
  have hnot : ¬ Canonical significand exponent := fun hc => absurd hc.2.2.1 (by omega)
  simp [ofParts?, hnot]

theorem ofRatio?_eq_none (negative : Bool) {num den : ℕ} (hden : 0 < den) {k : ℤ} (hk : 1025 ≤ k)
    (h : (2 : ℚ) ^ k ≤ num / den) : ofRatio? negative num den = none := by
  have hdenQ : (0 : ℚ) < den := by exact_mod_cast hden
  have hpos : (0 : ℚ) < num / den := lt_of_lt_of_le (by positivity) h
  have hnum : 0 < num := by
    have hnumQ := (div_pos_iff_of_pos_right hdenQ).1 hpos
    exact_mod_cast hnumQ
  have hlog : k ≤ Int.log 2 ((num : ℚ) / den) :=
    (Int.zpow_le_iff_le_log (by norm_num) hpos).1 (by exact_mod_cast h)
  have hunit := unitExponent_eq hnum hden
  simp only [ofRatio?, hnum.ne', if_false]
  split
  · exact ofParts?_eq_none (by omega)
  · exact ofParts?_eq_none (by omega)

/-- Half a unit of the least exponent is not reached. -/
theorem nearest_eq_zero {num den : ℕ} {e : ℤ} (hden : 0 < den) (h : (num : ℚ) / den < 2 ^ (e - 1)) :
    nearest (num * 2 ^ (-e).toNat) (den * 2 ^ e.toNat) = 0 := by
  have hdenQ : (0 : ℚ) < den := by exact_mod_cast hden
  have hhalf : 2 * (num * 2 ^ (-e).toNat) < den * 2 ^ e.toNat := by
    have hpow := zpow_mul_pow_toNat (b := 2) (by norm_num) e
    have hscaled : (num : ℚ) < 2 ^ (e - 1) * den := (div_lt_iff₀ hdenQ).1 h
    have hq : (2 : ℚ) * (num * 2 ^ (-e).toNat) < den * 2 ^ e.toNat := by
      calc (2 : ℚ) * (num * 2 ^ (-e).toNat) = num * (2 * 2 ^ (-e).toNat) := by ring
        _ < 2 ^ (e - 1) * den * (2 * 2 ^ (-e).toNat) := mul_lt_mul_of_pos_right hscaled (by positivity)
        _ = den * (2 ^ e * 2 ^ (-e).toNat) := by rw [zpow_sub_one₀ two_ne_zero]; ring
        _ = den * 2 ^ e.toNat := by rw [hpow]
    exact_mod_cast hq
  have hlow : num * 2 ^ (-e).toNat < den * 2 ^ e.toNat := by omega
  simp [nearest, Nat.div_eq_of_lt hlow, Nat.mod_eq_of_lt hlow, hhalf]

theorem ofRatio?_eq_zero (negative : Bool) {num den : ℕ} (hden : 0 < den) {k : ℤ} (hk : k ≤ -1075)
    (h : (num : ℚ) / den < 2 ^ k) : ofRatio? negative num den = some (zero negative) := by
  by_cases hzero : num = 0
  · simp [ofRatio?, hzero]
  · have hnum : 0 < num := Nat.pos_of_ne_zero hzero
    have hpos : (0 : ℚ) < num / den :=
      div_pos (by exact_mod_cast hnum) (by exact_mod_cast hden)
    have hlog : Int.log 2 ((num : ℚ) / den) < k :=
      (Int.lt_zpow_iff_log_lt (by norm_num) hpos).1 (by exact_mod_cast h)
    have hunit : unitExponent num den = -1074 := by
      rw [unitExponent_eq hnum hden]
      omega
    have hhalf : (num : ℚ) / den < 2 ^ (unitExponent num den - 1) :=
      lt_of_lt_of_le h (zpow_le_zpow_right₀ (by norm_num) (by omega))
    have hparts : ofParts? negative 0 (unitExponent num den) = some (zero negative) := by
      rw [hunit]
      exact ofParts?_self (zero negative)
    simp only [ofRatio?, hzero, if_false, Nat.pow_eq, nearest_eq_zero hden hhalf, hparts]
    rfl

theorem decimal_ratio (c : ℕ) (e : ℤ) :
    ((c * 10 ^ e.toNat : ℕ) : ℚ) / ((10 ^ (-e).toNat : ℕ) : ℚ) = c * 10 ^ e := by
  have hpow := zpow_mul_pow_toNat (b := 10) (by norm_num) e
  push_cast
  rw [← hpow, div_eq_iff (by positivity)]
  ring

/-- The shortcuts for exponents out of any float's reach give what rounding gives. -/
theorem ofDecimal?_eq_ofRatio? (negative : Bool) (c : ℕ) (e : ℤ) :
    ofDecimal? negative c e = ofRatio? negative (c * 10 ^ e.toNat) (10 ^ (-e).toNat) := by
  have hden : 0 < 10 ^ (-e).toNat := Nat.pow_pos (by norm_num)
  by_cases hzero : c = 0
  · simp [ofDecimal?, ofRatio?, hzero]
  have hone : (1 : ℚ) ≤ c := by exact_mod_cast Nat.pos_of_ne_zero hzero
  by_cases hlarge : 310 < e
  · have hreach : (2 : ℚ) ^ (205 * 5 : ℤ) ≤ c * 10 ^ e := by
      calc (2 : ℚ) ^ (205 * 5 : ℤ) = (2 ^ (205 : ℤ)) ^ (5 : ℤ) := zpow_mul 2 205 5
        _ ≤ (10 ^ (62 : ℤ)) ^ (5 : ℤ) := zpow_le_zpow_left₀ (by norm_num) (by positivity) (by norm_num)
        _ = 10 ^ (62 * 5 : ℤ) := (zpow_mul 10 62 5).symm
        _ ≤ 10 ^ e := zpow_le_zpow_right₀ (by norm_num) (by omega)
        _ ≤ c * 10 ^ e := le_mul_of_one_le_left (by positivity) hone
    rw [ofRatio?_eq_none negative hden (k := 205 * 5) (by norm_num)
      (by rw [decimal_ratio]; exact hreach)]
    simp [ofDecimal?, hzero, hlarge]
  by_cases hsmall : e + Nat.log2 c + 1 < -330
  · have hdigits : (c : ℚ) < 10 ^ ((Nat.log2 c : ℤ) + 1) := by
      calc (c : ℚ) < 2 ^ (Nat.log2 c + 1) := by exact_mod_cast Nat.lt_log2_self
        _ ≤ 10 ^ (Nat.log2 c + 1) := by gcongr; norm_num
        _ = 10 ^ ((Nat.log2 c : ℤ) + 1) := by rw [← zpow_natCast]; push_cast; rfl
    have hreach : (c : ℚ) * 10 ^ e < 2 ^ (-215 * 5 : ℤ) := by
      calc (c : ℚ) * 10 ^ e < 10 ^ ((Nat.log2 c : ℤ) + 1) * 10 ^ e :=
            mul_lt_mul_of_pos_right hdigits (by positivity)
        _ = 10 ^ ((Nat.log2 c : ℤ) + 1 + e) := by rw [← zpow_add₀ (by norm_num)]
        _ ≤ 10 ^ (-66 * 5 : ℤ) := zpow_le_zpow_right₀ (by norm_num) (by omega)
        _ = (10 ^ (-66 : ℤ)) ^ (5 : ℤ) := zpow_mul 10 (-66) 5
        _ ≤ (2 ^ (-215 : ℤ)) ^ (5 : ℤ) := zpow_le_zpow_left₀ (by norm_num) (by positivity) (by norm_num)
        _ = 2 ^ (-215 * 5 : ℤ) := (zpow_mul 2 (-215) 5).symm
    rw [ofRatio?_eq_zero negative hden (k := -215 * 5) (by norm_num)
      (by rw [decimal_ratio]; exact hreach)]
    simp [ofDecimal?, hzero, hlarge, hsmall]
  · simp [ofDecimal?, hzero, hlarge, hsmall]

/-- Two decimals of one value are read as one float. -/
theorem ofDecimal?_congr (negative : Bool) {c c' : ℕ} {e e' : ℤ}
    (h : (c : ℚ) * 10 ^ e = c' * 10 ^ e') : ofDecimal? negative c e = ofDecimal? negative c' e' := by
  have hden : ∀ n : ℕ, 0 < 10 ^ n := fun n => Nat.pow_pos (by norm_num)
  rw [ofDecimal?_eq_ofRatio?, ofDecimal?_eq_ofRatio?]
  refine ofRatio?_congr negative (hden _) (hden _) ?_
  rw [← decimal_ratio, ← decimal_ratio, div_eq_div_iff (by exact_mod_cast (hden _).ne')
    (by exact_mod_cast (hden _).ne')] at h
  exact_mod_cast h

end KeyedRecords.Binary64
