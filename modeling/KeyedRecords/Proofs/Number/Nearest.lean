import KeyedRecords.Proofs.Number.FloatText

/-! The magnitudes that are read as a float. Rounding keeps the order, so the magnitudes read as one float fill an
interval around its own. It reaches half a unit in the last place to either side, below a power of two a quarter. Main
statements: `ofRatio?_eq_some_iff`, `Takes.between`, `takes_of_close`. -/

namespace KeyedRecords.Binary64

/-! ## The nearest integer -/

theorem nearest_cases (num den : ℕ) :
    (nearest num den = num / den ∧ 2 * (num % den) ≤ den) ∨
      (nearest num den = num / den + 1 ∧ den ≤ 2 * (num % den)) := by
  simp only [nearest]
  split
  · exact Or.inl ⟨rfl, by omega⟩
  · split
    · exact Or.inr ⟨rfl, by omega⟩
    · split
      · exact Or.inl ⟨rfl, by omega⟩
      · exact Or.inr ⟨rfl, by omega⟩

/-- Rounding moves a ratio by half a unit at most. -/
theorem abs_nearest_sub_le (num : ℕ) {den : ℕ} (hden : 0 < den) :
    |(nearest num den : ℚ) - num / den| ≤ 1 / 2 := by
  have hdenQ : (0 : ℚ) < den := by exact_mod_cast hden
  have hratio : (num : ℚ) / den = (num / den : ℕ) + ((num % den : ℕ) : ℚ) / den := by
    rw [div_eq_iff hdenQ.ne', add_mul, div_mul_cancel₀ _ hdenQ.ne']
    exact_mod_cast (Nat.div_add_mod' num den).symm
  have hrest : (0 : ℚ) ≤ ((num % den : ℕ) : ℚ) / den := by positivity
  have hless : ((num % den : ℕ) : ℚ) / den < 1 :=
    (div_lt_one hdenQ).2 (by exact_mod_cast Nat.mod_lt num hden)
  rw [hratio, abs_le]
  rcases nearest_cases num den with ⟨heq, hhalf⟩ | ⟨heq, hhalf⟩
  · have hquarter : ((num % den : ℕ) : ℚ) / den ≤ 1 / 2 := by
      rw [div_le_div_iff₀ hdenQ two_pos, one_mul, mul_comm]
      exact_mod_cast hhalf
    rw [heq]
    constructor <;> linarith
  · have hquarter : 1 / 2 ≤ ((num % den : ℕ) : ℚ) / den := by
      rw [div_le_div_iff₀ two_pos hdenQ, one_mul, mul_comm]
      exact_mod_cast hhalf
    rw [heq]
    push_cast
    constructor <;> linarith

def nearestInteger (r : ℚ) : ℕ := nearest r.num.toNat r.den

theorem ratio_toNat {r : ℚ} (hr : 0 ≤ r) : (r.num.toNat : ℚ) / r.den = r := by
  have hnum : ((r.num.toNat : ℕ) : ℤ) = r.num := Int.toNat_of_nonneg (Rat.num_nonneg.2 hr)
  conv_rhs => rw [← Rat.num_div_den r]
  rw [← hnum]
  push_cast
  rfl

theorem nearest_eq_nearestInteger (num : ℕ) {den : ℕ} (hden : 0 < den) :
    nearest num den = nearestInteger (num / den) := by
  have hdenQ : (den : ℚ) ≠ 0 := by exact_mod_cast hden.ne'
  have hratio := ratio_toNat (r := num / den) (by positivity)
  refine nearest_congr hden (Rat.den_pos _) ?_
  rw [div_eq_div_iff (by exact_mod_cast (Rat.den_pos _).ne') hdenQ] at hratio
  exact_mod_cast hratio.symm

theorem abs_nearestInteger_sub_le {r : ℚ} (hr : 0 ≤ r) : |(nearestInteger r : ℚ) - r| ≤ 1 / 2 := by
  have hround := abs_nearest_sub_le r.num.toNat r.den_pos
  rwa [ratio_toNat hr] at hround

theorem nearestInteger_eq {r : ℚ} (hr : 0 ≤ r) {n : ℕ} (h : |r - n| < 1 / 2) : nearestInteger r = n := by
  have hround := abs_le.1 (abs_nearestInteger_sub_le hr)
  have hclose := abs_lt.1 h
  have hlow : (n : ℚ) < nearestInteger r + 1 := by linarith
  have hhigh : (nearestInteger r : ℚ) < n + 1 := by linarith
  have hlowNat : n < nearestInteger r + 1 := by exact_mod_cast hlow
  have hhighNat : nearestInteger r < n + 1 := by exact_mod_cast hhigh
  omega

theorem nearestInteger_natCast (n : ℕ) : nearestInteger n = n :=
  nearestInteger_eq (by positivity) (by simp)

/-- Rounding keeps the order: two ratios that it puts the other way round are both half way, and so equal. -/
theorem nearestInteger_mono {r s : ℚ} (hr : 0 ≤ r) (h : r ≤ s) : nearestInteger r ≤ nearestInteger s := by
  by_contra hlt
  have hstep : (nearestInteger s : ℚ) + 1 ≤ nearestInteger r := by exact_mod_cast not_le.1 hlt
  have hround := abs_le.1 (abs_nearestInteger_sub_le hr)
  have hround' := abs_le.1 (abs_nearestInteger_sub_le (hr.trans h))
  have hequal : r = s := by linarith
  exact hlt (by rw [hequal])

/-! ## The rounded magnitude -/

/-- The exponent of the unit in the last place of the floats around a magnitude. -/
def lastPlace (q : ℚ) : ℤ := max (-1074) (Int.log 2 q - 52)

/-- A magnitude rounded to the floats around it, however large. -/
def rounded (q : ℚ) : ℚ := nearestInteger (q / 2 ^ lastPlace q) * 2 ^ lastPlace q

theorem neg_1074_le_lastPlace (q : ℚ) : -1074 ≤ lastPlace q := le_max_left _ _

theorem lt_full {q : ℚ} (hq : 0 < q) : q < 2 ^ (53 + lastPlace q) := by
  have hlog : Int.log 2 q < 53 + lastPlace q := by
    unfold lastPlace
    omega
  exact_mod_cast (Int.lt_zpow_iff_log_lt one_lt_two hq).2 hlog

theorem full_le {q : ℚ} (hq : 0 < q) (h : -1074 < lastPlace q) : 2 ^ (52 + lastPlace q) ≤ q := by
  have hlog : 52 + lastPlace q ≤ Int.log 2 q := by
    unfold lastPlace at h ⊢
    omega
  exact_mod_cast (Int.zpow_le_iff_le_log one_lt_two hq).2 hlog

/-- Magnitudes from `2 ^ -1022` on are rounded to 53 binary digits. -/
theorem full_le_of_normal {q : ℚ} (h : 2 ^ (-1022 : ℤ) ≤ q) : 2 ^ (52 + lastPlace q) ≤ q := by
  rcases (neg_1074_le_lastPlace q).eq_or_lt with hleast | hmore
  · rw [← hleast]
    exact h
  · exact full_le (lt_of_lt_of_le (by positivity) h) hmore

theorem lastPlace_mono {q r : ℚ} (hq : 0 < q) (h : q ≤ r) : lastPlace q ≤ lastPlace r := by
  have hlog := Int.log_mono_right (b := 2) hq h
  unfold lastPlace
  omega

theorem nearest_le_full {q : ℚ} (hq : 0 < q) : nearestInteger (q / 2 ^ lastPlace q) ≤ 2 * leadingBit := by
  have hbound : q / 2 ^ lastPlace q ≤ (2 * leadingBit : ℕ) := by
    have hlt := lt_full hq
    rw [zpow_add₀ two_ne_zero] at hlt
    rw [div_le_iff₀ (by positivity)]
    norm_num at hlt ⊢
    exact hlt.le
  calc nearestInteger (q / 2 ^ lastPlace q)
      ≤ nearestInteger (2 * leadingBit : ℕ) := nearestInteger_mono (by positivity) hbound
    _ = 2 * leadingBit := nearestInteger_natCast _

theorem full_le_nearest {q : ℚ} (hq : 0 < q) (h : -1074 < lastPlace q) :
    leadingBit ≤ nearestInteger (q / 2 ^ lastPlace q) := by
  have hbound : (leadingBit : ℕ) ≤ q / 2 ^ lastPlace q := by
    have hle := full_le hq h
    rw [zpow_add₀ two_ne_zero] at hle
    rw [le_div_iff₀ (by positivity)]
    norm_num at hle ⊢
    exact hle
  calc leadingBit = nearestInteger (leadingBit : ℕ) := (nearestInteger_natCast _).symm
    _ ≤ nearestInteger (q / 2 ^ lastPlace q) := nearestInteger_mono (by positivity) hbound

theorem rounded_zero : rounded 0 = 0 := by
  rw [rounded, zero_div]
  exact mul_eq_zero_of_left (by exact_mod_cast nearestInteger_natCast 0) _

/-- Rounding keeps the order, also where the unit in the last place changes: the power of two there is a float of both
sides. -/
theorem rounded_mono {q r : ℚ} (hq : 0 ≤ q) (h : q ≤ r) : rounded q ≤ rounded r := by
  rcases hq.eq_or_lt with rfl | hq
  · rw [rounded_zero]
    unfold rounded
    positivity
  have hr : 0 < r := hq.trans_le h
  rcases (lastPlace_mono hq h).eq_or_lt with hsame | hless
  · unfold rounded
    rw [hsame]
    have hscaled : q / 2 ^ lastPlace r ≤ r / 2 ^ lastPlace r := by gcongr
    have hround := nearestInteger_mono (by positivity) hscaled
    gcongr
  · have hupper : rounded q ≤ 2 ^ (53 + lastPlace q) := by
      rw [rounded, zpow_add₀ two_ne_zero]
      have hfull := nearest_le_full hq
      gcongr
      exact_mod_cast hfull
    have hlower : 2 ^ (52 + lastPlace r) ≤ rounded r := by
      rw [rounded, zpow_add₀ two_ne_zero]
      have hfull := full_le_nearest hr ((neg_1074_le_lastPlace q).trans_lt hless)
      gcongr
      exact_mod_cast hfull
    calc rounded q ≤ 2 ^ (53 + lastPlace q) := hupper
      _ ≤ 2 ^ (52 + lastPlace r) := zpow_le_zpow_right₀ (by norm_num) (by omega)
      _ ≤ rounded r := hlower

/-! ## Reading a ratio -/

theorem magnitude_eq_zero_iff {x : Binary64} : x.magnitude = 0 ↔ x.significand = 0 := by
  rw [magnitude, mul_eq_zero, Nat.cast_eq_zero]
  exact or_iff_left (zpow_ne_zero _ two_ne_zero)

/-- A float is told by its sign and its magnitude. -/
theorem eq_of_magnitude {x y : Binary64} (hsign : x.negative = y.negative) (h : x.magnitude = y.magnitude) :
    x = y := by
  by_cases hzero : x.significand = 0
  · have hzero' : y.significand = 0 := by
      rw [← magnitude_eq_zero_iff, ← h, magnitude_eq_zero_iff]
      exact hzero
    rw [eq_zero_of_significand hzero, eq_zero_of_significand hzero', hsign]
  · have hzero' : y.significand ≠ 0 := by
      rw [Ne, ← magnitude_eq_zero_iff, ← h, magnitude_eq_zero_iff]
      exact hzero
    have hexponent : x.exponent = y.exponent := by rw [← exponent_eq hzero, ← exponent_eq hzero', h]
    have hsignificand : x.significand = y.significand := by
      have hpow : (2 : ℚ) ^ y.exponent ≠ 0 := zpow_ne_zero _ two_ne_zero
      rw [magnitude, magnitude, hexponent] at h
      exact_mod_cast mul_right_cancel₀ hpow h
    cases x
    cases y
    simp_all

theorem ofParts?_eq_some_iff {negative : Bool} {significand : ℕ} {exponent : ℤ} {x : Binary64} :
    ofParts? negative significand exponent = some x ↔
      x.negative = negative ∧ x.significand = significand ∧ x.exponent = exponent := by
  unfold ofParts?
  split
  · rename_i hcanonical
    rw [Option.some_inj]
    constructor
    · rintro rfl
      exact ⟨rfl, rfl, rfl⟩
    · rintro ⟨rfl, rfl, rfl⟩
      rfl
  · rename_i hnot
    constructor
    · intro h
      cases h
    · rintro ⟨-, rfl, rfl⟩
      exact absurd x.canonical hnot

/-- The parts that a ratio is rounded to are those of its rounded magnitude, and canonical unless they are too large. -/
theorem exists_parts (negative : Bool) {num den : ℕ} (hnum : 0 < num) (hden : 0 < den) :
    ∃ significand exponent, ofRatio? negative num den = ofParts? negative significand exponent ∧
      significand * (2 : ℚ) ^ exponent = rounded (num / den) ∧
      significand < 2 * leadingBit ∧ -1074 ≤ exponent ∧ (leadingBit ≤ significand ∨ exponent = -1074) := by
  have hq : (0 : ℚ) < num / den := by positivity
  have hplace : unitExponent num den = lastPlace (num / den) := unitExponent_eq hnum hden
  have hleast := neg_1074_le_lastPlace ((num : ℚ) / den)
  have hnearest : nearest (num * 2 ^ (-lastPlace (num / den)).toNat) (den * 2 ^ (lastPlace (num / den)).toNat) =
      nearestInteger (num / den / 2 ^ lastPlace ((num : ℚ) / den)) := by
    rw [nearest_eq_nearestInteger _ (by positivity)]
    congr 1
    have hpow := zpow_mul_pow_toNat (b := 2) (by norm_num) (lastPlace (num / den))
    push_cast
    rw [← hpow]
    field_simp
  have hfull := nearest_le_full hq
  simp only [ofRatio?, hnum.ne', if_false, Nat.pow_eq, hplace, hnearest]
  split
  · rename_i hcarry
    refine ⟨leadingBit, lastPlace (num / den) + 1, rfl, ?_, by decide, by omega, Or.inl le_rfl⟩
    rw [rounded, hcarry, zpow_add_one₀ two_ne_zero]
    push_cast
    ring
  · rename_i hfits
    refine ⟨_, _, rfl, rfl, by omega, hleast, ?_⟩
    by_cases hsubnormal : lastPlace ((num : ℚ) / den) = -1074
    · exact Or.inr hsubnormal
    · exact Or.inl (full_le_nearest hq (by omega))

theorem magnitude_lt (x : Binary64) : x.magnitude < 2 ^ (1024 : ℤ) := by
  calc x.magnitude < 2 ^ (53 : ℤ) * 2 ^ x.exponent := mul_lt_mul_of_pos_right (significand_lt x) (by positivity)
    _ = 2 ^ (53 + x.exponent) := (zpow_add₀ two_ne_zero _ _).symm
    _ ≤ 2 ^ (1024 : ℤ) := zpow_le_zpow_right₀ (by norm_num) (by have := x.canonical.2.2.1; omega)

/-- A ratio is read as the float of the sign whose magnitude is the rounded one. -/
theorem ofRatio?_eq_some_iff {negative : Bool} {num den : ℕ} (hden : 0 < den) {x : Binary64} :
    ofRatio? negative num den = some x ↔ x.negative = negative ∧ rounded (num / den) = x.magnitude := by
  rcases Nat.eq_zero_or_pos num with rfl | hnum
  · have hzero : ofRatio? negative 0 den = some (zero negative) := if_pos rfl
    rw [hzero, Option.some_inj, Nat.cast_zero, zero_div, rounded_zero]
    constructor
    · rintro rfl
      exact ⟨rfl, (magnitude_eq_zero_iff.2 rfl).symm⟩
    · rintro ⟨rfl, h⟩
      exact (eq_zero_of_significand (magnitude_eq_zero_iff.1 h.symm)).symm
  · obtain ⟨significand, exponent, hparts, hrounded, hless, hleast, hfull⟩ := exists_parts negative hnum hden
    rw [hparts, ofParts?_eq_some_iff, ← hrounded]
    constructor
    · rintro ⟨hsign, rfl, rfl⟩
      exact ⟨hsign, rfl⟩
    · rintro ⟨hsign, h⟩
      have hgreatest : exponent ≤ 971 := by
        rcases hfull with hfull | rfl
        · have hbound : (2 : ℚ) ^ (52 + exponent) < 2 ^ (1024 : ℤ) := by
            calc (2 : ℚ) ^ (52 + exponent) = 2 ^ (52 : ℤ) * 2 ^ exponent := zpow_add₀ two_ne_zero _ _
              _ ≤ significand * 2 ^ exponent := mul_le_mul_of_nonneg_right (two_pow_le_cast hfull) (by positivity)
              _ = x.magnitude := h
              _ < 2 ^ (1024 : ℤ) := magnitude_lt x
          have hexponent := (zpow_lt_zpow_iff_right₀ (by norm_num)).1 hbound
          omega
        · decide
      have hsame := eq_of_magnitude (x := x) (y := ⟨negative, significand, exponent, hless, hleast, hgreatest, hfull⟩)
        hsign h.symm
      rw [hsame]
      exact ⟨rfl, rfl, rfl⟩

/-! ## The magnitudes read as a float -/

/-- Whether a magnitude is read, with the sign of a float, as that float. -/
def Takes (x : Binary64) (q : ℚ) : Prop := 0 ≤ q ∧ ofRatio? x.negative q.num.toNat q.den = some x

variable {x : Binary64}

theorem takes_iff {q : ℚ} : x.Takes q ↔ 0 ≤ q ∧ rounded q = x.magnitude := by
  refine and_congr_right fun hq => ?_
  rw [ofRatio?_eq_some_iff q.den_pos, ratio_toNat hq]
  exact and_iff_right rfl

/-- The decimals read as a float are those of the magnitudes read as it. -/
theorem ofDecimal?_eq_some_iff {negative : Bool} {c : ℕ} {e : ℤ} :
    ofDecimal? negative c e = some x ↔ x.negative = negative ∧ x.Takes (c * 10 ^ e) := by
  rw [ofDecimal?_eq_ofRatio?, ofRatio?_eq_some_iff (by positivity), decimal_ratio, takes_iff]
  exact and_congr_right fun _ => (and_iff_right (by positivity)).symm

theorem readsBack_iff {c : ℕ} {e : ℤ} : x.readsBack c e = true ↔ x.Takes (c * 10 ^ e) := by
  rw [readsBack, decide_eq_true_iff, ofDecimal?_eq_some_iff]
  exact and_iff_right rfl

theorem takes_magnitude (x : Binary64) : x.Takes x.magnitude := by
  have hread := ofDecimal?_exactDecimal x
  rw [ofDecimal?_eq_some_iff, exactDecimal_value] at hread
  exact hread.2

theorem takes_zero_iff : x.Takes 0 ↔ x.significand = 0 := by
  rw [takes_iff, rounded_zero, ← magnitude_eq_zero_iff, eq_comm (a := (0 : ℚ))]
  exact and_iff_right le_rfl

/-- What lies between two magnitudes read as a float is read as it too. -/
theorem Takes.between {q r s : ℚ} (hq : x.Takes q) (hs : x.Takes s) (hqr : q ≤ r) (hrs : r ≤ s) : x.Takes r := by
  rw [takes_iff] at hq hs ⊢
  have hr : 0 ≤ r := hq.1.trans hqr
  have hlow := rounded_mono hq.1 hqr
  have hhigh := rounded_mono hr hrs
  exact ⟨hr, le_antisymm (hhigh.trans_eq hs.2) (hq.2.symm.trans_le hlow)⟩

theorem Takes.abs_sub_le {q : ℚ} (h : x.Takes q) : |x.magnitude - q| ≤ 2 ^ lastPlace q / 2 := by
  obtain ⟨hq, hrounded⟩ := takes_iff.1 h
  have hunit : (0 : ℚ) < 2 ^ lastPlace q := by positivity
  have hround := abs_nearestInteger_sub_le (r := q / 2 ^ lastPlace q) (by positivity)
  have hscaled : x.magnitude - q = (nearestInteger (q / 2 ^ lastPlace q) - q / 2 ^ lastPlace q) * 2 ^ lastPlace q := by
    rw [← hrounded, rounded, sub_mul, div_mul_cancel₀ _ hunit.ne']
  rw [hscaled, abs_mul, abs_of_pos hunit]
  linarith [mul_le_mul_of_nonneg_right hround hunit.le]

/-- Two magnitudes read as one float differ by a unit in the last place at most. -/
theorem Takes.sub_le {q r : ℚ} (hq : x.Takes q) (hr : x.Takes r) (hpos : 0 < q) (h : q ≤ r) :
    r - q ≤ 2 ^ lastPlace r := by
  have hplace : (2 : ℚ) ^ lastPlace q ≤ 2 ^ lastPlace r := zpow_le_zpow_right₀ (by norm_num) (lastPlace_mono hpos h)
  have hlow := abs_le.1 hq.abs_sub_le
  have hhigh := abs_le.1 hr.abs_sub_le
  linarith

/-- Just below a float the unit in the last place is finer only if the float is a power of two, and then it is half as
large. -/
theorem power_of_two_of_finer {q : ℚ} (hq : 0 < q) (hclose : x.magnitude - x.magnitude / 2 ^ 54 < q)
    (hfiner : lastPlace q < x.exponent) : x.significand = leadingBit ∧ lastPlace q = x.exponent - 1 := by
  have hunit : (0 : ℚ) < 2 ^ x.exponent := by positivity
  have hleast := neg_1074_le_lastPlace q
  have hfull : leadingBit ≤ x.significand := x.canonical.2.2.2.resolve_right (by omega)
  have hbelow : q < 4503599627370496 * 2 ^ x.exponent := by
    calc q < 2 ^ (53 + lastPlace q) := lt_full hq
      _ ≤ 2 ^ (52 + x.exponent) := zpow_le_zpow_right₀ (by norm_num) (by omega)
      _ = 4503599627370496 * 2 ^ x.exponent := by rw [zpow_add₀ two_ne_zero]; norm_num
  have hsignificand : x.significand = leadingBit := by
    by_contra hne
    have hmore : (4503599627370497 : ℚ) ≤ x.significand := by exact_mod_cast hfull.lt_of_ne' hne
    have hmagnitude : 4503599627370497 * 2 ^ x.exponent ≤ x.magnitude := mul_le_mul_of_nonneg_right hmore hunit.le
    linarith
  have hmagnitude : x.magnitude = 4503599627370496 * 2 ^ x.exponent := by
    rw [magnitude, hsignificand]
    norm_num
  have hpower : (2 : ℚ) ^ (51 + x.exponent) < 2 ^ (53 + lastPlace q) := by
    calc (2 : ℚ) ^ (51 + x.exponent) = 2251799813685248 * 2 ^ x.exponent := by rw [zpow_add₀ two_ne_zero]; norm_num
      _ < q := by linarith
      _ < 2 ^ (53 + lastPlace q) := lt_full hq
  have hplace := (zpow_lt_zpow_iff_right₀ (by norm_num)).1 hpower
  exact ⟨hsignificand, by omega⟩

/-- What differs from the magnitude of a float by less than a part in `2 ^ 54` is read as the float: the part is at most
half a unit in the last place, and a quarter at a power of two. -/
theorem takes_of_close {q : ℚ} (h : |q - x.magnitude| < x.magnitude / 2 ^ 54) : x.Takes q := by
  have hmagnitude : 0 < x.magnitude := by
    have hpos := (abs_nonneg _).trans_lt h
    linarith
  obtain ⟨hlow, hhigh⟩ := abs_lt.1 h
  have hq : 0 < q := by linarith
  have hvalue : x.magnitude = x.significand * 2 ^ x.exponent := rfl
  have hcap : x.magnitude ≤ 9007199254740991 * 2 ^ x.exponent := by
    have hless : (x.significand : ℚ) ≤ 9007199254740991 := by exact_mod_cast Nat.le_of_lt_succ x.canonical.1
    rw [hvalue]
    gcongr
  -- On the grid of either unit the nearest multiple is the magnitude.
  have hrounded : ∀ n : ℕ, x.magnitude = n * 2 ^ lastPlace q → x.magnitude / 2 ^ 53 ≤ 2 ^ lastPlace q →
      rounded q = x.magnitude := by
    intro n hgrid hfine
    have hunit : (0 : ℚ) < 2 ^ lastPlace q := by positivity
    have hclose : |q / 2 ^ lastPlace q - n| < 1 / 2 := by
      have hscaled : q / 2 ^ lastPlace q - n = (q - x.magnitude) / 2 ^ lastPlace q := by
        rw [hgrid]
        field_simp
      rw [hscaled, abs_div, abs_of_pos hunit, div_lt_iff₀ hunit]
      linarith
    rw [rounded, nearestInteger_eq (by positivity) hclose, hgrid]
  refine takes_iff.2 ⟨hq.le, ?_⟩
  rcases lt_trichotomy (lastPlace q) x.exponent with hfiner | hsame | hcoarser
  · obtain ⟨hpower, hplace⟩ := power_of_two_of_finer hq (by linarith) hfiner
    have hgrid : x.magnitude = (2 * leadingBit : ℕ) * 2 ^ lastPlace q := by
      rw [hvalue, hpower, hplace, zpow_sub_one₀ two_ne_zero]
      push_cast
      ring
    refine hrounded _ hgrid ?_
    rw [hgrid]
    norm_num
  · refine hrounded x.significand (by rw [hsame, hvalue]) ?_
    rw [hsame]
    linarith
  · have hfull := full_le hq (x.canonical.2.1.trans_lt hcoarser)
    have hstep : (2 : ℚ) ^ (53 + x.exponent) ≤ 2 ^ (52 + lastPlace q) :=
      zpow_le_zpow_right₀ (by norm_num) (by omega)
    rw [zpow_add₀ two_ne_zero] at hstep
    norm_num at hstep
    linarith

end KeyedRecords.Binary64
