import KeyedRecords.Proofs.Lists
import KeyedRecords.Proofs.Number.Nearest

/-! Of the decimals that are read as a float, one stands for it: it has the fewest digits, and of those with as few it
is the nearest to the float. The text of a float writes it. Among the decimals of so many digits only the two
neighbours of the float have to be looked at, and seventeen digits are always enough. Main statements:
`shortest_shortestDecimal`, `Shortest.unique`, `shortest_of_fifteen`. -/

namespace KeyedRecords

/-- Whether a magnitude is a decimal of at most some number of significant digits. -/
def HasDigits (n : ℕ) (q : ℚ) : Prop := ∃ (c : ℕ) (e : ℤ), c < 10 ^ n ∧ q = c * 10 ^ e

/-- Whether a decimal is nearer to a magnitude than another, or as near and the even multiple of the step between the
two. -/
def Nearer (m q r : ℚ) : Prop := |q - m| < |r - m| ∨ |q - m| = |r - m| ∧ ∃ c : ℕ, Even c ∧ q = c * |q - r|

/-- The decimal that stands for a float: it is read as the float, no other one with fewer digits is, and of those with
as few digits it is the nearest. -/
structure Binary64.Shortest (x : Binary64) (q : ℚ) : Prop where
  takes : x.Takes q
  fewest : ∀ n r, x.Takes r → HasDigits n r → HasDigits n q
  nearest : ∀ r, x.Takes r → (∀ n, HasDigits n q → HasDigits n r) → r ≠ q → Nearer x.magnitude q r

/-! ## Decimals of so many digits -/

theorem HasDigits.mono {n k : ℕ} {q : ℚ} (h : HasDigits n q) (hle : n ≤ k) : HasDigits k q := by
  obtain ⟨c, e, hc, hq⟩ := h
  exact ⟨c, e, hc.trans_le (Nat.pow_le_pow_right (by decide) hle), hq⟩

theorem hasDigits_zero_iff {q : ℚ} : HasDigits 0 q ↔ q = 0 := by
  constructor
  · rintro ⟨c, e, hc, rfl⟩
    simp [Nat.lt_one_iff.1 hc]
  · rintro rfl
    exact ⟨0, 0, by decide, by simp⟩

theorem hasDigits_of_le {n c : ℕ} (hn : 0 < n) (hc : c ≤ 10 ^ n) (g : ℤ) : HasDigits n (c * 10 ^ g) := by
  rcases hc.eq_or_lt with rfl | hless
  · refine ⟨1, n + g, Nat.one_lt_pow hn.ne' (by decide), ?_⟩
    rw [zpow_add₀ (by norm_num), zpow_natCast]
    push_cast
    ring
  · exact ⟨c, g, hless, rfl⟩

/-- A decimal of few digits that is not too small is a multiple of the unit of a grid. -/
theorem HasDigits.on_grid {n : ℕ} {q : ℚ} (h : HasDigits n q) {g : ℤ} (hq : 10 ^ n * 10 ^ g ≤ 10 * q) :
    ∃ c : ℕ, q = c * 10 ^ g := by
  obtain ⟨c, e, hc, rfl⟩ := h
  rcases le_or_gt g e with hge | hlt
  · refine ⟨c * 10 ^ (e - g).toNat, ?_⟩
    push_cast
    rw [← zpow_natCast, Int.toNat_of_nonneg (by omega), mul_assoc, ← zpow_add₀ (by norm_num), sub_add_cancel]
  · have hcQ : (c : ℚ) < 10 ^ n := by exact_mod_cast hc
    have hsmall : 10 * ((c : ℚ) * 10 ^ e) < 10 ^ n * 10 ^ g := by
      calc 10 * ((c : ℚ) * 10 ^ e) = c * 10 ^ (e + 1) := by rw [zpow_add_one₀ (by norm_num)]; ring
        _ < 10 ^ n * 10 ^ (e + 1) := by gcongr
        _ ≤ 10 ^ n * 10 ^ g := by
          gcongr
          · norm_num
          · omega
    exact absurd hq (not_le.2 hsmall)

namespace Binary64

/-- A grid on which a float lies between two decimals of so many digits. -/
structure Grid (x : Binary64) (n low : ℕ) (g : ℤ) : Prop where
  few : low < 10 ^ n
  full : 10 ^ n ≤ 10 * low
  below : low * 10 ^ g ≤ x.magnitude
  above : x.magnitude < (low + 1 : ℕ) * 10 ^ g

namespace Grid

variable {x : Binary64} {n low : ℕ} {g : ℤ}

theorem digits_pos (h : x.Grid n low g) : 0 < n := by
  rcases Nat.eq_zero_or_pos n with rfl | hn
  · have hfew := h.few
    have hfull := h.full
    omega
  · exact hn

theorem hasDigits_low (h : x.Grid n low g) : HasDigits n (low * 10 ^ g) :=
  hasDigits_of_le h.digits_pos h.few.le g

theorem hasDigits_high (h : x.Grid n low g) : HasDigits n ((low + 1 : ℕ) * 10 ^ g) :=
  hasDigits_of_le h.digits_pos h.few g

theorem full_units (h : x.Grid n low g) : 10 ^ n * 10 ^ g ≤ 10 * ((low : ℚ) * 10 ^ g) := by
  have hfull : (10 : ℚ) ^ n ≤ 10 * low := by exact_mod_cast h.full
  rw [← mul_assoc]
  gcongr

/-- No decimal of so many digits lies between the lower neighbour and the float. -/
theorem le_low (h : x.Grid n low g) {q : ℚ} (hq : HasDigits n q) (hle : q ≤ x.magnitude) : q ≤ low * 10 ^ g := by
  by_contra hlt
  obtain ⟨c, rfl⟩ := hq.on_grid (h.full_units.trans (by linarith))
  have hunit : (0 : ℚ) < 10 ^ g := by positivity
  have hmore : (low : ℚ) < c := lt_of_mul_lt_mul_right (not_le.1 hlt) hunit.le
  have hless : (c : ℚ) < (low + 1 : ℕ) := lt_of_mul_lt_mul_right (hle.trans_lt h.above) hunit.le
  have hmoreNat : low < c := by exact_mod_cast hmore
  have hlessNat : c < low + 1 := by exact_mod_cast hless
  omega

/-- No decimal of so many digits lies between the float and the upper neighbour. -/
theorem high_le (h : x.Grid n low g) {q : ℚ} (hq : HasDigits n q) (hlt : x.magnitude < q) :
    (low + 1 : ℕ) * 10 ^ g ≤ q := by
  have hbelow := h.below
  obtain ⟨c, rfl⟩ := hq.on_grid (h.full_units.trans (by linarith))
  have hunit : (0 : ℚ) < 10 ^ g := by positivity
  have hmore : (low : ℚ) < c := lt_of_mul_lt_mul_right (hbelow.trans_lt hlt) hunit.le
  gcongr
  exact_mod_cast hmore

/-! Of the two neighbours the nearer one is tried first, in a tie the even one. -/

/-- Whether the lower neighbour is tried first. -/
def LowFirst (x : Binary64) (low : ℕ) (g : ℤ) : Prop :=
  x.magnitude - low * 10 ^ g < (low + 1 : ℕ) * 10 ^ g - x.magnitude ∨
    x.magnitude - low * 10 ^ g = (low + 1 : ℕ) * 10 ^ g - x.magnitude ∧ Even low

theorem nearer_below (h : x.Grid n low g) {r : ℚ} (hr : HasDigits n r) (hle : r ≤ x.magnitude)
    (hne : r ≠ low * 10 ^ g) : Nearer x.magnitude (low * 10 ^ g) r := by
  have hless : r < low * 10 ^ g := lt_of_le_of_ne (h.le_low hr hle) hne
  left
  rw [abs_of_nonpos (by linarith [h.below]), abs_of_nonpos (by linarith)]
  linarith

theorem nearer_above (h : x.Grid n low g) {r : ℚ} (hr : HasDigits n r) (hlt : x.magnitude < r)
    (hne : r ≠ (low + 1 : ℕ) * 10 ^ g) : Nearer x.magnitude ((low + 1 : ℕ) * 10 ^ g) r := by
  have hmore : (low + 1 : ℕ) * 10 ^ g < r := lt_of_le_of_ne (h.high_le hr hlt) hne.symm
  left
  rw [abs_of_pos (by linarith [h.above]), abs_of_pos (by linarith)]
  linarith

theorem step (low : ℕ) (g : ℤ) : ((low + 1 : ℕ) : ℚ) * 10 ^ g - low * 10 ^ g = 10 ^ g := by
  push_cast
  ring

theorem low_nearer (h : x.Grid n low g) (hfirst : LowFirst x low g) {r : ℚ} (hr : HasDigits n r)
    (hlt : x.magnitude < r) : Nearer x.magnitude (low * 10 ^ g) r := by
  have hhigh := h.high_le hr hlt
  rw [Nearer, abs_of_nonpos (by linarith [h.below]), abs_of_pos (by linarith)]
  rcases hfirst with hless | ⟨htie, heven⟩
  · exact Or.inl (by linarith)
  · rcases hhigh.eq_or_lt with rfl | hmore
    · refine Or.inr ⟨by linarith, low, heven, ?_⟩
      rw [abs_sub_comm, step, abs_of_pos (by positivity)]
    · exact Or.inl (by linarith)

theorem high_nearer (h : x.Grid n low g) (hfirst : ¬ LowFirst x low g) {r : ℚ} (hr : HasDigits n r)
    (hle : r ≤ x.magnitude) : Nearer x.magnitude ((low + 1 : ℕ) * 10 ^ g) r := by
  have hlow := h.le_low hr hle
  obtain ⟨hmore, htie⟩ := not_or.1 hfirst
  rw [Nearer, abs_of_pos (by linarith [h.above]), abs_of_nonpos (by linarith)]
  rcases (not_lt.1 hmore).eq_or_lt with hequal | hless
  · rcases hlow.eq_or_lt with rfl | hbelow
    · refine Or.inr ⟨by linarith, low + 1, ?_, ?_⟩
      · exact Nat.even_add_one.2 fun heven => htie ⟨hequal.symm, heven⟩
      · rw [step, abs_of_pos (by positivity)]
    · exact Or.inl (by linarith)
  · exact Or.inl (by linarith)

end Grid

/-- Whether a decimal of so many digits is the best one that is read as a float. -/
structure Best (x : Binary64) (n : ℕ) (q : ℚ) : Prop where
  takes : x.Takes q
  digits : HasDigits n q
  nearest : ∀ r, x.Takes r → HasDigits n r → r ≠ q → Nearer x.magnitude q r

namespace Grid

variable {x : Binary64} {n low : ℕ} {g : ℤ}

/-- If the upper neighbour is not read as the float, nothing above the float is that has as few digits. -/
theorem le_of_takes (h : x.Grid n low g) (hhigh : ¬ x.Takes ((low + 1 : ℕ) * 10 ^ g)) {r : ℚ} (htakes : x.Takes r)
    (hr : HasDigits n r) : r ≤ x.magnitude := by
  by_contra hlt
  have hless := not_le.1 hlt
  exact hhigh ((takes_magnitude x).between htakes h.above.le (h.high_le hr hless))

theorem lt_of_takes (h : x.Grid n low g) (hlow : ¬ x.Takes (low * 10 ^ g)) {r : ℚ} (htakes : x.Takes r)
    (hr : HasDigits n r) : x.magnitude < r := by
  by_contra hge
  have hle := not_lt.1 hge
  exact hlow (htakes.between (takes_magnitude x) (h.le_low hr hle) h.below)

theorem best_low (h : x.Grid n low g) (hlow : x.Takes (low * 10 ^ g))
    (hother : LowFirst x low g ∨ ¬ x.Takes ((low + 1 : ℕ) * 10 ^ g)) : x.Best n (low * 10 ^ g) where
  takes := hlow
  digits := h.hasDigits_low
  nearest := by
    intro r htakes hr hne
    rcases le_or_gt r x.magnitude with hle | hlt
    · exact h.nearer_below hr hle hne
    · rcases hother with hfirst | hhigh
      · exact h.low_nearer hfirst hr hlt
      · exact absurd (h.le_of_takes hhigh htakes hr) (not_le.2 hlt)

theorem best_high (h : x.Grid n low g) (hhigh : x.Takes ((low + 1 : ℕ) * 10 ^ g))
    (hother : ¬ LowFirst x low g ∨ ¬ x.Takes (low * 10 ^ g)) : x.Best n ((low + 1 : ℕ) * 10 ^ g) where
  takes := hhigh
  digits := h.hasDigits_high
  nearest := by
    intro r htakes hr hne
    rcases le_or_gt r x.magnitude with hle | hlt
    · rcases hother with hfirst | hlow
      · exact h.high_nearer hfirst hr hle
      · exact absurd (h.lt_of_takes hlow htakes hr) (not_lt.2 hle)
    · exact h.nearer_above hr hlt hne

theorem none_takes (h : x.Grid n low g) (hlow : ¬ x.Takes (low * 10 ^ g))
    (hhigh : ¬ x.Takes ((low + 1 : ℕ) * 10 ^ g)) {r : ℚ} (hr : HasDigits n r) : ¬ x.Takes r := fun htakes =>
  absurd (h.le_of_takes hhigh htakes hr) (not_le.2 (h.lt_of_takes hlow htakes hr))

end Grid

/-! ## Cutting the exact decimal -/

variable {x : Binary64}

def exactLength (x : Binary64) : ℕ := (Nat.toDigits 10 x.exactDecimal.1).length

theorem exactDecimal_pos (h : x.significand ≠ 0) : 0 < x.exactDecimal.1 := by
  refine Nat.pos_of_ne_zero fun hzero => h ?_
  rw [← magnitude_eq_zero_iff, ← exactDecimal_value, hzero, Nat.cast_zero, zero_mul]

theorem exactDecimal_lt (x : Binary64) : x.exactDecimal.1 < 10 ^ x.exactLength :=
  (Nat.length_toDigits_le_iff (by decide) Nat.length_toDigits_pos).1 le_rfl

theorem le_exactDecimal (h : x.significand ≠ 0) : 10 ^ x.exactLength ≤ 10 * x.exactDecimal.1 := by
  have hpos := exactDecimal_pos h
  obtain ⟨k, hk⟩ : ∃ k, x.exactLength = k + 1 := Nat.exists_eq_add_one.2 Nat.length_toDigits_pos
  rw [hk, Nat.pow_succ, Nat.mul_comm]
  rcases Nat.eq_zero_or_pos k with rfl | hkpos
  · omega
  · have hshort : ¬ x.exactLength ≤ k := by omega
    rw [exactLength, Nat.length_toDigits_le_iff (by decide) hkpos] at hshort
    omega

theorem scale_cut (x : Binary64) (c drop : ℕ) :
    (c : ℚ) * 10 ^ (x.exactDecimal.2 + drop) = (c * 10 ^ drop : ℕ) * 10 ^ x.exactDecimal.2 := by
  rw [zpow_add₀ (by norm_num), zpow_natCast]
  push_cast
  ring

/-- Cut to its leading digits, the exact decimal is the lower neighbour on a grid. -/
theorem grid_of_cut (h : x.significand ≠ 0) (n drop : ℕ) (hn : 0 < n) (hdrop : n + drop = x.exactLength) :
    x.Grid n (x.exactDecimal.1 / 10 ^ drop) (x.exactDecimal.2 + drop) := by
  have hunit : 0 < 10 ^ drop := Nat.pow_pos (by decide)
  have hsplit : 10 ^ x.exactLength = 10 ^ n * 10 ^ drop := by rw [← hdrop, Nat.pow_add]
  constructor
  · rw [Nat.div_lt_iff_lt_mul hunit, ← hsplit]
    exact exactDecimal_lt x
  · obtain ⟨k, rfl⟩ : ∃ k, n = k + 1 := Nat.exists_eq_add_one.2 hn
    have hlarge := le_exactDecimal h
    rw [hsplit, Nat.pow_succ, Nat.mul_right_comm] at hlarge
    rw [Nat.pow_succ, Nat.mul_comm]
    exact Nat.mul_le_mul_left 10 ((Nat.le_div_iff_mul_le hunit).2 (by omega))
  · rw [scale_cut, ← exactDecimal_value]
    gcongr
    exact Nat.div_mul_le_self _ _
  · rw [scale_cut, ← exactDecimal_value]
    gcongr
    rw [Nat.mul_comm]
    exact Nat.lt_mul_div_succ _ hunit

theorem lowFirst_iff (x : Binary64) (drop : ℕ) :
    Grid.LowFirst x (x.exactDecimal.1 / 10 ^ drop) (x.exactDecimal.2 + drop) ↔
      2 * (x.exactDecimal.1 % 10 ^ drop) < 10 ^ drop ∨
        2 * (x.exactDecimal.1 % 10 ^ drop) = 10 ^ drop ∧ x.exactDecimal.1 / 10 ^ drop % 2 = 0 := by
  have hunit : (0 : ℚ) < 10 ^ x.exactDecimal.2 := by positivity
  have hsplit : (x.exactDecimal.1 : ℚ) =
      (x.exactDecimal.1 / 10 ^ drop : ℕ) * (10 ^ drop : ℕ) + (x.exactDecimal.1 % 10 ^ drop : ℕ) := by
    exact_mod_cast (Nat.div_add_mod' x.exactDecimal.1 (10 ^ drop)).symm
  have hbelow : x.magnitude - (x.exactDecimal.1 / 10 ^ drop : ℕ) * 10 ^ (x.exactDecimal.2 + drop) =
      (x.exactDecimal.1 % 10 ^ drop : ℕ) * 10 ^ x.exactDecimal.2 := by
    rw [scale_cut, ← exactDecimal_value, ← sub_mul, Nat.cast_mul]
    congr 1
    linarith
  have habove : (x.exactDecimal.1 / 10 ^ drop + 1 : ℕ) * 10 ^ (x.exactDecimal.2 + drop) - x.magnitude =
      ((10 ^ drop : ℕ) - (x.exactDecimal.1 % 10 ^ drop : ℕ)) * 10 ^ x.exactDecimal.2 := by
    rw [scale_cut, ← exactDecimal_value, ← sub_mul, Nat.cast_mul, Nat.cast_add_one]
    congr 1
    linarith
  have hless : ((x.exactDecimal.1 % 10 ^ drop : ℕ) : ℚ) < (10 ^ drop : ℕ) - (x.exactDecimal.1 % 10 ^ drop : ℕ) ↔
      2 * (x.exactDecimal.1 % 10 ^ drop) < 10 ^ drop := by
    rw [lt_sub_iff_add_lt, ← two_mul]
    exact_mod_cast Iff.rfl
  have htie : ((x.exactDecimal.1 % 10 ^ drop : ℕ) : ℚ) = (10 ^ drop : ℕ) - (x.exactDecimal.1 % 10 ^ drop : ℕ) ↔
      2 * (x.exactDecimal.1 % 10 ^ drop) = 10 ^ drop := by
    rw [eq_sub_iff_add_eq, ← two_mul]
    exact_mod_cast Iff.rfl
  rw [Grid.LowFirst, hbelow, habove, mul_lt_mul_iff_of_pos_right hunit, mul_left_inj' hunit.ne', Nat.even_iff, hless,
    htie]

/-- A cut looks at the two neighbours of the float, at the one to be tried first before the other. -/
theorem cutDecimal?_eq (x : Binary64) (drop : ℕ) : ∃ order,
    x.cutDecimal? drop = (order.find? (x.readsBack · (x.exactDecimal.2 + drop))).map (·, x.exactDecimal.2 + drop) ∧
    (Grid.LowFirst x (x.exactDecimal.1 / 10 ^ drop) (x.exactDecimal.2 + drop) →
      order = [x.exactDecimal.1 / 10 ^ drop, x.exactDecimal.1 / 10 ^ drop + 1]) ∧
    (¬ Grid.LowFirst x (x.exactDecimal.1 / 10 ^ drop) (x.exactDecimal.2 + drop) →
      order = [x.exactDecimal.1 / 10 ^ drop + 1, x.exactDecimal.1 / 10 ^ drop]) := by
  refine ⟨_, rfl, fun hfirst => ?_, fun hfirst => ?_⟩
  · exact if_pos ((lowFirst_iff x drop).1 hfirst)
  · exact if_neg fun hcode => hfirst ((lowFirst_iff x drop).2 hcode)

/-- A cut gives the best decimal of as many digits, if any such decimal is read as the float. -/
theorem cutDecimal?_spec (h : x.significand ≠ 0) (n drop : ℕ) (hn : 0 < n) (hdrop : n + drop = x.exactLength) :
    (∃ d, x.cutDecimal? drop = some d ∧ x.Best n (d.1 * 10 ^ d.2)) ∨
      x.cutDecimal? drop = none ∧ ∀ r, HasDigits n r → ¬ x.Takes r := by
  have hgrid := grid_of_cut h n drop hn hdrop
  obtain ⟨order, hcut, hfirst, hlast⟩ := cutDecimal?_eq x drop
  rw [hcut]
  generalize x.exactDecimal.1 / 10 ^ drop = low at hgrid hfirst hlast
  generalize x.exactDecimal.2 + (drop : ℤ) = g at hgrid hfirst hlast
  have hreads : ∀ {c : ℕ}, x.Takes (c * 10 ^ g) → x.readsBack c g = true := readsBack_iff.2
  have hfails : ∀ {c : ℕ}, ¬ x.Takes (c * 10 ^ g) → x.readsBack c g = false :=
    fun hnot => Bool.eq_false_iff.2 fun hread => hnot (readsBack_iff.1 hread)
  by_cases hlow : x.Takes (low * 10 ^ g)
  · by_cases hhigh : x.Takes ((low + 1 : ℕ) * 10 ^ g)
    · by_cases hlowFirst : Grid.LowFirst x low g
      · exact Or.inl ⟨(low, g), by simp [hfirst hlowFirst, hreads hlow], hgrid.best_low hlow (Or.inl hlowFirst)⟩
      · exact Or.inl ⟨(low + 1, g), by simp [hlast hlowFirst, hreads hhigh], hgrid.best_high hhigh (Or.inl hlowFirst)⟩
    · refine Or.inl ⟨(low, g), ?_, hgrid.best_low hlow (Or.inr hhigh)⟩
      by_cases hlowFirst : Grid.LowFirst x low g
      · simp [hfirst hlowFirst, hreads hlow]
      · simp [hlast hlowFirst, hreads hlow, hfails hhigh]
  · by_cases hhigh : x.Takes ((low + 1 : ℕ) * 10 ^ g)
    · refine Or.inl ⟨(low + 1, g), ?_, hgrid.best_high hhigh (Or.inr hlow)⟩
      by_cases hlowFirst : Grid.LowFirst x low g
      · simp [hfirst hlowFirst, hreads hhigh, hfails hlow]
      · simp [hlast hlowFirst, hreads hhigh]
    · refine Or.inr ⟨?_, fun r hr => hgrid.none_takes hlow hhigh hr⟩
      by_cases hlowFirst : Grid.LowFirst x low g
      · simp [hfirst hlowFirst, hfails hlow, hfails hhigh]
      · simp [hlast hlowFirst, hfails hlow, hfails hhigh]

/-- Seventeen digits are enough: half a step of their grid is less than a part in `2 ^ 54` of the float. -/
theorem exists_takes_of_seventeen {low : ℕ} {g : ℤ} (h : x.Grid 17 low g) : ∃ r, HasDigits 17 r ∧ x.Takes r := by
  have hunit : (0 : ℚ) < 10 ^ g := by positivity
  have hstep := Grid.step low g
  have hlarge : 10 ^ 17 * 10 ^ g ≤ 10 * x.magnitude := h.full_units.trans (by linarith [h.below])
  rcases le_total (x.magnitude - low * 10 ^ g) ((low + 1 : ℕ) * 10 ^ g - x.magnitude) with hless | hless
  · refine ⟨_, h.hasDigits_low, takes_of_close ?_⟩
    rw [abs_of_nonpos (by linarith [h.below])]
    linarith
  · refine ⟨_, h.hasDigits_high, takes_of_close ?_⟩
    rw [abs_of_pos (by linarith [h.above])]
    linarith

/-! ## The shortest decimal -/

/-- The best decimal of the fewest digits is the shortest. -/
theorem Best.shortest {n : ℕ} {q : ℚ} (h : x.Best n q) (hfewer : ∀ k < n, ∀ r, HasDigits k r → ¬ x.Takes r) :
    x.Shortest q where
  takes := h.takes
  fewest := by
    intro k r htakes hr
    rcases lt_or_ge k n with hless | hmore
    · exact absurd htakes (hfewer k hless r hr)
    · exact h.digits.mono hmore
  nearest := fun r htakes hr hne => h.nearest r htakes (hr n h.digits) hne

/-- Two multiples of the step between them are neighbours, so they are not both even. -/
theorem not_both_even {q r : ℚ} (hne : q ≠ r) {c d : ℕ} (hc : Even c) (hd : Even d) (hq : q = c * |q - r|)
    (hr : r = d * |q - r|) : False := by
  have hstep : 0 < |q - r| := abs_pos.2 (sub_ne_zero.2 hne)
  have hone : |(c : ℚ) - d| = 1 := by
    refine mul_right_cancel₀ hstep.ne' ?_
    calc |(c : ℚ) - d| * |q - r| = abs ((c - d) * |q - r|) := by rw [abs_mul, abs_abs]
      _ = |q - r| := by rw [sub_mul, ← hq, ← hr]
      _ = 1 * |q - r| := (one_mul _).symm
  have honeInt : |(c : ℤ) - d| = 1 := by exact_mod_cast hone
  obtain ⟨a, rfl⟩ := hc
  obtain ⟨b, rfl⟩ := hd
  rcases (abs_eq zero_le_one).1 honeInt with hone | hone <;> omega

/-- A float has one shortest decimal: two would have as many digits and be as near, each of them the even multiple. -/
theorem Shortest.unique {q r : ℚ} (hq : x.Shortest q) (hr : x.Shortest r) : q = r := by
  by_contra hne
  have hqr := hq.nearest r hr.takes (fun n => hr.fewest n q hq.takes) (Ne.symm hne)
  have hrq := hr.nearest q hq.takes (fun n => hq.fewest n r hr.takes) hne
  rcases hqr with hless | ⟨hequal, c, hc, hcq⟩
  · rcases hrq with hless' | ⟨hequal, -⟩
    · exact lt_asymm hless hless'
    · exact hless.ne' hequal
  · rcases hrq with hless | ⟨-, d, hd, hdr⟩
    · exact hless.ne' hequal
    · rw [abs_sub_comm] at hdr
      exact not_both_even hne hc hd hcq hdr

theorem shortest_zero (h : x.significand = 0) : x.Shortest 0 where
  takes := takes_zero_iff.2 h
  fewest := fun n _ _ _ => (hasDigits_zero_iff.2 rfl).mono (Nat.zero_le n)
  nearest := fun _ _ hr hne => absurd (hasDigits_zero_iff.1 (hr 0 (hasDigits_zero_iff.2 rfl))) hne

/-- Cuts that give nothing rule out all decimals of as few digits. -/
theorem none_takes_of_cuts (h : x.significand ≠ 0) {count : ℕ} (hcount : count ≤ x.exactLength)
    (hnone : ∀ kept < count, x.cutDecimal? (x.exactLength - 1 - kept) = none) :
    ∀ k ≤ count, ∀ r, HasDigits k r → ¬ x.Takes r := by
  intro k hk r hr
  cases k with
  | zero =>
    rw [hasDigits_zero_iff.1 hr, takes_zero_iff]
    exact h
  | succ kept =>
    rcases cutDecimal?_spec h (kept + 1) (x.exactLength - 1 - kept) (by omega) (by omega) with
      ⟨d, hd, -⟩ | ⟨-, hnot⟩
    · rw [hnone kept (by omega)] at hd
      cases hd
    · exact hnot r hr

theorem best_exactDecimal (x : Binary64) : x.Best x.exactLength x.magnitude where
  takes := takes_magnitude x
  digits := ⟨_, _, exactDecimal_lt x, (exactDecimal_value x).symm⟩
  nearest := by
    intro r _ _ hne
    left
    rw [sub_self, abs_zero]
    exact abs_pos.2 (sub_ne_zero.2 hne)

/-- The decimal that is written for a float is its shortest one. -/
theorem shortest_shortestDecimal (x : Binary64) : x.Shortest (x.shortestDecimal.1 * 10 ^ x.shortestDecimal.2) := by
  have hlength : 0 < x.exactLength := Nat.length_toDigits_pos
  have hdecimal : x.shortestDecimal = ((List.range (min 17 (x.exactLength - 1))).findSome? fun kept =>
      x.cutDecimal? (x.exactLength - 1 - kept)).getD x.exactDecimal := by
    rw [shortestDecimal, List.findSome?_map]
    rfl
  by_cases hzero : x.significand = 0
  · rw [shortestDecimal_of_zero hzero, exactDecimal_value, magnitude_eq_zero_iff.2 hzero]
    exact shortest_zero hzero
  rcases findSome?_range (fun kept => x.cutDecimal? (x.exactLength - 1 - kept)) (min 17 (x.exactLength - 1)) with
    ⟨kept, hkept, d, hd, hsearch, hnone⟩ | ⟨hsearch, hnone⟩
  · rw [hdecimal, hsearch, Option.getD_some]
    rcases cutDecimal?_spec hzero (kept + 1) (x.exactLength - 1 - kept) (by omega) (by omega) with
      ⟨other, hother, hbest⟩ | ⟨hnothing, -⟩
    · rw [hd] at hother
      cases hother
      exact hbest.shortest fun k hk => none_takes_of_cuts hzero (by omega) hnone k (by omega)
    · rw [hd] at hnothing
      cases hnothing
  · rw [hdecimal, hsearch, Option.getD_none, exactDecimal_value]
    have hnot := none_takes_of_cuts hzero (by omega) hnone
    have hshort : x.exactLength ≤ 17 := by
      by_contra hlong
      have hgrid := grid_of_cut hzero 17 (x.exactLength - 17) (by omega) (by omega)
      obtain ⟨r, hr, htakes⟩ := exists_takes_of_seventeen hgrid
      exact hnot 17 (by omega) r hr htakes
    exact (best_exactDecimal x).shortest fun k hk => hnot k (by omega)

/-! ## How many digits a shortest decimal has -/

theorem Shortest.seventeen {q : ℚ} (h : x.Shortest q) : HasDigits 17 q := by
  by_cases hzero : x.significand = 0
  · rw [h.unique (shortest_zero hzero)]
    exact (hasDigits_zero_iff.2 rfl).mono (Nat.zero_le _)
  · rcases le_or_gt x.exactLength 17 with hshort | hlong
    · exact h.fewest 17 _ (takes_magnitude x) ((best_exactDecimal x).digits.mono hshort)
    · have hgrid := grid_of_cut hzero 17 (x.exactLength - 17) (by omega) (by omega)
      obtain ⟨r, hr, htakes⟩ := exists_takes_of_seventeen hgrid
      exact h.fewest 17 r htakes hr

/-- A grid on which a magnitude has a given number of digits. -/
theorem exists_grid {q : ℚ} (hq : 0 < q) (n : ℕ) : ∃ g : ℤ, 10 ^ n * 10 ^ g ≤ 10 * q ∧ q < 10 ^ n * 10 ^ g := by
  have hlow : (10 : ℚ) ^ Int.log 10 q ≤ q := by exact_mod_cast Int.zpow_log_le_self (b := 10) (by decide) hq
  have hhigh : q < (10 : ℚ) ^ (Int.log 10 q + 1) := by
    exact_mod_cast Int.lt_zpow_succ_log_self (b := 10) (by decide) q
  have hscale : (10 : ℚ) ^ n * 10 ^ (Int.log 10 q + 1 - n) = 10 ^ (Int.log 10 q + 1) := by
    rw [← zpow_natCast, ← zpow_add₀ (by norm_num)]
    congr 1
    ring
  refine ⟨Int.log 10 q + 1 - n, ?_, hscale ▸ hhigh⟩
  rw [hscale, zpow_add_one₀ (by norm_num)]
  linarith

/-- The step of the decimals of fifteen digits is wider than the interval of a float that is not too small, so at most
one of them is read as it. -/
theorem eq_of_fifteen {q r : ℚ} (hq : x.Takes q) (hr : x.Takes r) (hdigits : HasDigits 15 q)
    (hdigits' : HasDigits 15 r) (hnormal : 2 ^ (-1022 : ℤ) ≤ r) (hpos : 0 < q) (hle : q ≤ r) : q = r := by
  by_contra hne
  have hless : q < r := lt_of_le_of_ne hle hne
  obtain ⟨g, hlow, hhigh⟩ := exists_grid hpos 15
  obtain ⟨c, hc⟩ := hdigits.on_grid hlow
  obtain ⟨d, hd⟩ := hdigits'.on_grid (hlow.trans (by linarith))
  have hunit : (0 : ℚ) < 10 ^ g := by positivity
  have hstep : (10 : ℚ) ^ g ≤ r - q := by
    rw [hc, hd] at hless ⊢
    have hmore : c + 1 ≤ d := by
      have hcd := lt_of_mul_lt_mul_right hless hunit.le
      exact_mod_cast hcd
    have hmoreQ : (c : ℚ) + 1 ≤ d := by exact_mod_cast hmore
    linarith [mul_le_mul_of_nonneg_right hmoreQ hunit.le]
  have hwidth : r - q ≤ r / 2 ^ 52 := by
    have hplace := full_le_of_normal hnormal
    rw [zpow_add₀ two_ne_zero] at hplace
    norm_num at hplace
    linarith [hq.sub_le hr hpos hle]
  linarith

/-- A decimal of at most fifteen digits that is read as a float, and not too small, is the float's shortest one. -/
theorem shortest_of_fifteen {q : ℚ} (hq : x.Takes q) (hdigits : HasDigits 15 q) (hnormal : 2 ^ (-1022 : ℤ) ≤ q) :
    x.Shortest q := by
  have hpos : 0 < q := lt_of_lt_of_le (by positivity) hnormal
  have hnonzero : ¬ x.Takes 0 := by
    intro hzero
    have hfull := full_le_of_normal hnormal
    have hwidth := hq.abs_sub_le
    rw [zpow_add₀ two_ne_zero] at hfull
    rw [magnitude_eq_zero_iff.2 (takes_zero_iff.1 hzero), zero_sub, abs_neg, abs_of_pos hpos] at hwidth
    norm_num at hfull
    linarith
  have hunique : ∀ r, x.Takes r → HasDigits 15 r → r = q := by
    intro r hr hdigits'
    rcases le_total q r with hle | hle
    · exact (eq_of_fifteen hq hr hdigits hdigits' (hnormal.trans hle) hpos hle).symm
    · have hrpos : 0 < r := lt_of_le_of_ne hr.1 fun hzero => hnonzero (hzero ▸ hr)
      exact eq_of_fifteen hr hq hdigits' hdigits hnormal hrpos hle
  exact {
    takes := hq
    fewest := by
      intro n r hr hdigits'
      rcases le_or_gt 15 n with hmore | hless
      · exact hdigits.mono hmore
      · rw [← hunique r hr (hdigits'.mono hless.le)]
        exact hdigits'
    nearest := fun r hr hdigits' hne => absurd (hunique r hr (hdigits' 15 hdigits)) hne }

end Binary64

end KeyedRecords
