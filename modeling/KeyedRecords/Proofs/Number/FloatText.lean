import KeyedRecords.Attribute
import KeyedRecords.Proofs.Number.Digits
import KeyedRecords.Proofs.Number.Rounding

/-! The text of a number reads back to the number. For floats this takes three steps: the shortest decimal
reads back (`ofDecimal?_shortestDecimal`), its layout keeps the value (`write_isWritten`), and the layout is
parsed into its parts (`IsWritten.parse?_eq`). Main statement: `Number.ofText?_text`. -/

namespace KeyedRecords

/-! ## Shortest decimals -/

namespace Binary64

theorem eq_zero_of_significand {x : Binary64} (h : x.significand = 0) : x = zero x.negative := by
  obtain ⟨negative, significand, exponent, canonical⟩ := x
  cases h
  have hexponent : exponent = -1074 := by
    obtain ⟨-, -, -, hfull | hleast⟩ := canonical
    · exact absurd hfull (by decide)
    · exact hleast
  cases hexponent
  rfl

theorem exactDecimal_value (x : Binary64) :
    (x.exactDecimal.1 : ℚ) * 10 ^ x.exactDecimal.2 = x.magnitude := by
  by_cases hexponent : 0 ≤ x.exponent
  · have hpow : (2 : ℚ) ^ x.exponent.toNat = 2 ^ x.exponent := by
      rw [← zpow_natCast, Int.toNat_of_nonneg hexponent]
    simp [exactDecimal, hexponent, magnitude, hpow]
  · have hpow : (5 : ℚ) ^ (-x.exponent).toNat = 5 ^ (-x.exponent) := by
      rw [← zpow_natCast, Int.toNat_of_nonneg (by omega)]
    have hten : (10 : ℚ) ^ x.exponent = 2 ^ x.exponent * 5 ^ x.exponent := by
      rw [← mul_zpow]
      norm_num
    have hcancel : (5 : ℚ) ^ (-x.exponent) * 5 ^ x.exponent = 1 := by
      rw [← zpow_add₀ (by norm_num), neg_add_cancel, zpow_zero]
    simp only [exactDecimal, hexponent, if_false, magnitude, Nat.pow_eq]
    push_cast
    rw [hpow, hten]
    calc (x.significand : ℚ) * 5 ^ (-x.exponent) * (2 ^ x.exponent * 5 ^ x.exponent)
        = x.significand * 2 ^ x.exponent * (5 ^ (-x.exponent) * 5 ^ x.exponent) := by ring
      _ = x.significand * 2 ^ x.exponent := by rw [hcancel, mul_one]

theorem ofDecimal?_exactDecimal (x : Binary64) :
    ofDecimal? x.negative x.exactDecimal.1 x.exactDecimal.2 = some x := by
  by_cases hzero : x.significand = 0
  · have hcoefficient : x.exactDecimal.1 = 0 := by simp [exactDecimal, hzero, apply_ite Prod.fst]
    rw [hcoefficient, ofDecimal?, if_pos rfl, ← eq_zero_of_significand hzero]
  · have hden : 0 < 10 ^ (-x.exactDecimal.2).toNat := Nat.pow_pos (by norm_num)
    rw [ofDecimal?_eq_ofRatio?]
    exact ofRatio?_exact hzero hden (by rw [decimal_ratio, exactDecimal_value])

theorem readsBack_of_cutDecimal? {x : Binary64} {drop : Nat} {d : Nat × Int}
    (h : x.cutDecimal? drop = some d) : x.readsBack d.1 d.2 = true := by
  simp only [cutDecimal?, Option.map_eq_some_iff] at h
  obtain ⟨coefficient, hfind, rfl⟩ := h
  have hread := List.find?_some hfind
  exact hread

theorem ofDecimal?_shortestDecimal (x : Binary64) :
    ofDecimal? x.negative x.shortestDecimal.1 x.shortestDecimal.2 = some x := by
  simp only [shortestDecimal]
  generalize (List.range _).map _ = cuts
  cases hcut : cuts.findSome? x.cutDecimal? with
  | none => exact ofDecimal?_exactDecimal x
  | some d =>
    obtain ⟨drop, -, hd⟩ := List.exists_of_findSome?_eq_some hcut
    exact of_decide_eq_true (readsBack_of_cutDecimal? hd)

theorem shortestDecimal_ne_zero {x : Binary64} (h : x.significand ≠ 0) : x.shortestDecimal.1 ≠ 0 := by
  intro hzero
  have hread := ofDecimal?_shortestDecimal x
  rw [hzero, ofDecimal?, if_pos rfl] at hread
  exact h (by rw [← Option.some.inj hread]; rfl)

theorem shortestDecimal_of_zero {x : Binary64} (h : x.significand = 0) : x.shortestDecimal = x.exactDecimal := by
  have hcoefficient : x.exactDecimal.1 = 0 := by simp [exactDecimal, h, apply_ite Prod.fst]
  simp [shortestDecimal, hcoefficient]

end Binary64

/-! ## Layouts -/

def pointed (fraction : List Char) : List Char := if fraction.isEmpty then [] else '.' :: fraction

/-- A text that writes the parts of a decimal without its sign. It is no text of an integer: it has a point or
an exponent. -/
structure IsWritten (text whole fraction : List Char) (exponent : Int) : Prop where
  whole_ne : whole ≠ []
  whole_digits : ∀ c ∈ whole, c.isDigit = true
  fraction_digits : ∀ c ∈ fraction, c.isDigit = true
  layout : ∃ tail, text = whole ++ (pointed fraction ++ tail) ∧
    DecimalText.exponent? tail = some exponent ∧ (tail = [] ∨ ∃ rest, tail = 'e' :: rest) ∧
    (fraction ≠ [] ∨ tail ≠ [])

theorem Digits.span_append {cs rest : List Char} (h : ∀ c ∈ cs, c.isDigit = true)
    (hrest : ∀ c, rest.head? = some c → c.isDigit = false) : span (cs ++ rest) = (cs, rest) := by
  have htake : rest.takeWhile Char.isDigit = [] := by
    cases rest with
    | nil => rfl
    | cons c rest => simp [hrest c rfl]
  have hdrop : rest.dropWhile Char.isDigit = rest := by
    cases rest with
    | nil => rfl
    | cons c rest => simp [hrest c rfl]
  rw [span, List.takeWhile_append_of_pos h, List.dropWhile_append_of_pos h, htake, hdrop,
    List.append_nil]

namespace IsWritten

variable {text whole fraction : List Char} {exponent : Int}

theorem sign_eq (h : IsWritten text whole fraction exponent) : Digits.sign text = (false, text) := by
  obtain ⟨tail, rfl, -⟩ := h.layout
  cases hwhole : whole with
  | nil => exact absurd hwhole h.whole_ne
  | cons c whole =>
    exact Digits.sign_of_isDigit (h.whole_digits c (by rw [hwhole]; exact List.mem_cons_self)) _

theorem parse?_eq (h : IsWritten text whole fraction exponent) {cs : List Char} {negative : Bool}
    (hsign : Digits.sign cs = (negative, text)) :
    DecimalText.parse? cs = some ⟨negative, whole, fraction, exponent⟩ := by
  obtain ⟨tail, htext, hexponent, htail, -⟩ := h.layout
  have hhead : ∀ c, tail.head? = some c → c = 'e' := by
    rcases htail with rfl | ⟨rest, rfl⟩ <;> simp [eq_comm]
  have hnonempty : whole.isEmpty = false := by simpa using h.whole_ne
  have hwhole : Digits.span text = (whole, pointed fraction ++ tail) := by
    rw [htext]
    refine Digits.span_append h.whole_digits fun c hc => ?_
    cases fraction with
    | nil =>
      rw [hhead c hc]
      rfl
    | cons d fraction =>
      cases hc
      rfl
  have hfraction : Digits.span (fraction ++ tail) = (fraction, tail) := by
    refine Digits.span_append h.fraction_digits fun c hc => ?_
    rw [hhead c hc]
    rfl
  cases fraction with
  | nil =>
    simp only [pointed, List.isEmpty_nil, if_true, List.nil_append] at hwhole
    rcases htail with rfl | ⟨rest, rfl⟩
    · simp [DecimalText.parse?, hsign, hwhole, hnonempty, hexponent]
    · simp [DecimalText.parse?, hsign, hwhole, hnonempty, hexponent]
  | cons d fraction =>
    simp only [pointed, List.isEmpty_cons, Bool.false_eq_true, if_false, List.cons_append] at hwhole
    simp only [List.cons_append] at hfraction
    simp [DecimalText.parse?, hsign, hwhole, hfraction, hnonempty, hexponent]

/-- Fraction digits come after a point, and what follows them begins with an `e`. -/
theorem point_or_exponent (h : IsWritten text whole fraction exponent) : '.' ∈ text ∨ 'e' ∈ text := by
  obtain ⟨tail, rfl, -, htail, hfraction | hmore⟩ := h.layout
  · left
    simp [pointed, hfraction]
  · right
    obtain ⟨rest, rfl⟩ := htail.resolve_left hmore
    simp

/-- A point or an exponent is no digit, so the text is not that of an integer. -/
theorem int?_eq_none (h : IsWritten text whole fraction exponent) {cs : List Char} {negative : Bool}
    (hsign : Digits.sign cs = (negative, text)) : Digits.int? cs = none := by
  have hother : ∃ c ∈ text, c.isDigit = false := by
    rcases h.point_or_exponent with hpoint | hexponent
    · exact ⟨'.', hpoint, rfl⟩
    · exact ⟨'e', hexponent, rfl⟩
  have hall : text.all Char.isDigit = false := by
    obtain ⟨c, hc, hdigit⟩ := hother
    exact List.all_eq_false.2 ⟨c, hc, by rw [hdigit]; decide⟩
  simp [Digits.int?, hsign, Digits.nat?, hall]

end IsWritten

namespace FloatLayout

/-- Digits without their trailing zeros. -/
theorem digits_eq_kept (digits : List Char) : ∃ zeros, digits =
    (digits.reverse.dropWhile (· == '0')).reverse ++ List.replicate zeros '0' := by
  refine ⟨(digits.reverse.takeWhile (· == '0')).length, ?_⟩
  have hsplit := List.takeWhile_append_dropWhile (p := (· == '0')) (l := digits.reverse)
  have hzeros : digits.reverse.takeWhile (· == '0') =
      List.replicate (digits.reverse.takeWhile (· == '0')).length '0' := by
    refine List.eq_replicate_iff.2 ⟨rfl, fun c hc => ?_⟩
    exact eq_of_beq (List.all_eq_true.1 List.all_takeWhile c hc)
  rw [← List.reverse_replicate, ← hzeros, ← List.reverse_append, hsplit, List.reverse_reverse]

theorem isWritten_pointed {whole fraction : List Char} (hwhole : whole ≠ []) (hfraction : fraction ≠ [])
    (hdigits : ∀ c ∈ whole ++ fraction, c.isDigit = true) : IsWritten (whole ++ '.' :: fraction) whole fraction 0 where
  whole_ne := hwhole
  whole_digits c hc := hdigits c (List.mem_append_left _ hc)
  fraction_digits c hc := hdigits c (List.mem_append_right _ hc)
  layout := ⟨[], by simp [pointed, hfraction], rfl, Or.inl rfl, Or.inl hfraction⟩

/-- Zeros on either side of some digits are digits too. -/
theorem isDigit_of_mem_zeros {digits : List Char} (hdigits : ∀ c ∈ digits, c.isDigit = true) (front back : Nat) :
    ∀ c ∈ List.replicate front '0' ++ digits ++ List.replicate back '0', c.isDigit = true := by
  have hzeros : ∀ n, ∀ c ∈ List.replicate n '0', c.isDigit = true := fun n c hc => by
    rw [(List.mem_replicate.1 hc).2]
    rfl
  intro c hc
  rcases List.mem_append.1 hc with hc | hc
  · rcases List.mem_append.1 hc with hc | hc
    · exact hzeros front c hc
    · exact hdigits c hc
  · exact hzeros back c hc

theorem value_zeros_around (digits : List Char) (front back : Nat) :
    Digits.value (List.replicate front '0' ++ digits ++ List.replicate back '0') = Digits.value digits * 10 ^ back := by
  rw [Digits.value_append, Digits.value_append, Digits.value_zeros, Digits.value_zeros, List.length_replicate,
    Nat.zero_mul, Nat.zero_add, Nat.add_zero]

section Fixed

variable {digits : List Char} (hne : digits ≠ []) (hdigits : ∀ c ∈ digits, c.isDigit = true) {k : Int}

include hne hdigits

/-- A point before all digits. -/
theorem fixed_isWritten_small (hk : k ≤ 0) : ∃ whole fraction, IsWritten (fixed digits k) whole fraction 0 ∧
    (Digits.value (whole ++ fraction) : ℚ) * 10 ^ (0 - (fraction.length : ℤ)) =
      Digits.value digits * 10 ^ (k - digits.length) := by
  have hall : ['0'] ++ (List.replicate (-k).toNat '0' ++ digits) =
      List.replicate ((-k).toNat + 1) '0' ++ digits ++ List.replicate 0 '0' := by simp [List.replicate_succ]
  refine ⟨['0'], List.replicate (-k).toNat '0' ++ digits, ?_, ?_⟩
  · rw [fixed, if_pos hk]
    have hfraction : List.replicate (-k).toNat '0' ++ digits ≠ [] := by simp [hne]
    exact isWritten_pointed (List.cons_ne_nil '0' []) hfraction (hall ▸ isDigit_of_mem_zeros hdigits _ 0)
  · rw [hall, value_zeros_around, pow_zero, mul_one]
    congr 2
    simp
    omega

/-- A point after all digits. -/
theorem fixed_isWritten_large (hk : ¬ k ≤ 0) (hlong : digits.length ≤ k.toNat) :
    ∃ whole fraction, IsWritten (fixed digits k) whole fraction 0 ∧
      (Digits.value (whole ++ fraction) : ℚ) * 10 ^ (0 - (fraction.length : ℤ)) =
        Digits.value digits * 10 ^ (k - digits.length) := by
  have hall : digits ++ List.replicate (k.toNat - digits.length) '0' ++ ['0'] =
      List.replicate 0 '0' ++ digits ++ List.replicate (k.toNat - digits.length + 1) '0' := by
    rw [List.append_assoc, ← List.replicate_succ']
    rfl
  refine ⟨digits ++ List.replicate (k.toNat - digits.length) '0', ['0'], ?_, ?_⟩
  · rw [fixed, if_neg hk, if_pos hlong]
    have hwhole : digits ++ List.replicate (k.toNat - digits.length) '0' ≠ [] := by simp [hne]
    exact isWritten_pointed hwhole (List.cons_ne_nil '0' []) (hall ▸ isDigit_of_mem_zeros hdigits 0 _)
  · rw [hall, value_zeros_around]
    push_cast
    rw [mul_assoc, ← zpow_natCast, ← zpow_add₀ (by norm_num)]
    congr 2
    push_cast
    simp
    omega

/-- A point among the digits. -/
theorem fixed_isWritten_middle (hk : ¬ k ≤ 0) (hshort : ¬ digits.length ≤ k.toNat) :
    ∃ whole fraction, IsWritten (fixed digits k) whole fraction 0 ∧
      (Digits.value (whole ++ fraction) : ℚ) * 10 ^ (0 - (fraction.length : ℤ)) =
        Digits.value digits * 10 ^ (k - digits.length) := by
  refine ⟨digits.take k.toNat, digits.drop k.toNat, ?_, ?_⟩
  · rw [fixed, if_neg hk, if_neg hshort]
    have hwhole : digits.take k.toNat ≠ [] := by
      simp [hne]
      omega
    have hfraction : digits.drop k.toNat ≠ [] := by
      simp
      omega
    exact isWritten_pointed hwhole hfraction (by rwa [List.take_append_drop])
  · rw [List.take_append_drop]
    congr 2
    simp
    omega

/-- Digits with the point at a place write `0.d₁d₂… · 10 ^ k`. -/
theorem fixed_isWritten (k : Int) : ∃ whole fraction, IsWritten (fixed digits k) whole fraction 0 ∧
    (Digits.value (whole ++ fraction) : ℚ) * 10 ^ (0 - (fraction.length : ℤ)) =
      Digits.value digits * 10 ^ (k - digits.length) := by
  by_cases hk : k ≤ 0
  · exact fixed_isWritten_small hne hdigits hk
  by_cases hlong : digits.length ≤ k.toNat
  · exact fixed_isWritten_large hne hdigits hk hlong
  · exact fixed_isWritten_middle hne hdigits hk hlong

end Fixed

theorem scientific_isWritten {digits : List Char} (hne : digits ≠ [])
    (hdigits : ∀ c ∈ digits, c.isDigit = true) (k : Int) :
    ∃ whole fraction exponent, IsWritten (scientific digits k) whole fraction exponent ∧
      (Digits.value (whole ++ fraction) : ℚ) * 10 ^ (exponent - (fraction.length : ℤ)) =
        Digits.value digits * 10 ^ (k - digits.length) := by
  obtain ⟨d, fraction, rfl⟩ := List.exists_cons_of_ne_nil hne
  refine ⟨[d], fraction, k - 1, ⟨by simp, ?_, ?_, ?_⟩, ?_⟩
  · exact fun c hc => hdigits c (by simp_all)
  · exact fun c hc => hdigits c (List.mem_cons_of_mem _ hc)
  · refine ⟨'e' :: (if k - 1 < 0 then '-' else '+') :: Nat.toDigits 10 (k - 1).natAbs, ?_, ?_, ?_, ?_⟩
    · simp [scientific, pointed]
    · by_cases hneg : k - 1 < 0
      · have hvalue : -((k - 1).natAbs : Int) = k - 1 := by omega
        rw [if_pos hneg, DecimalText.exponent?, if_pos (Or.inl rfl), Digits.int?_minus, hvalue]
      · have hvalue : ((k - 1).natAbs : Int) = k - 1 := by omega
        rw [if_neg hneg, DecimalText.exponent?, if_pos (Or.inl rfl), Digits.int?_plus, hvalue]
    · exact Or.inr ⟨_, rfl⟩
    · exact Or.inr (by simp)
  · simp only [List.singleton_append, List.length_cons]
    congr 2
    push_cast
    ring

theorem write_isWritten (layout : FloatLayout) {c : Nat} (hc : c ≠ 0) (e : Int) :
    ∃ whole fraction exponent, IsWritten (layout.write c e) whole fraction exponent ∧
      (Digits.value (whole ++ fraction) : ℚ) * 10 ^ (exponent - (fraction.length : ℤ)) = c * 10 ^ e := by
  obtain ⟨zeros, hsplit⟩ := digits_eq_kept (Nat.toDigits 10 c)
  simp only [write]
  generalize ((Nat.toDigits 10 c).reverse.dropWhile (· == '0')).reverse = kept at hsplit
  have hvalue : c = Digits.value kept * 10 ^ zeros := by
    rw [← Digits.value_toDigits c, hsplit, Digits.value_append, Digits.value_zeros,
      List.length_replicate, Nat.add_zero]
  have hne : kept ≠ [] := fun hnil => by
    rw [hnil] at hvalue
    exact hc (by rw [hvalue]; simp [Digits.value])
  have hdigits : ∀ d ∈ kept, d.isDigit = true := fun d hd =>
    Digits.isDigit_of_mem_toDigits (n := c) (by rw [hsplit]; exact List.mem_append_left _ hd)
  have hlength : (Nat.toDigits 10 c).length = kept.length + zeros := by
    rw [hsplit, List.length_append, List.length_replicate]
  have hscale : (Digits.value kept : ℚ) * 10 ^ ((Nat.toDigits 10 c).length + e - kept.length) =
      c * 10 ^ e := by
    have hexponent : ((Nat.toDigits 10 c).length : ℤ) + e - kept.length = zeros + e := by
      rw [hlength]
      push_cast
      ring
    rw [hexponent, zpow_add₀ (by norm_num), zpow_natCast, ← mul_assoc]
    congr 1
    exact_mod_cast hvalue.symm
  split
  · obtain ⟨whole, fraction, hwritten, hread⟩ := fixed_isWritten hne hdigits (_ + e)
    exact ⟨whole, fraction, 0, hwritten, hread.trans hscale⟩
  · obtain ⟨whole, fraction, exponent, hwritten, hread⟩ := scientific_isWritten hne hdigits (_ + e)
    exact ⟨whole, fraction, exponent, hwritten, hread.trans hscale⟩

end FloatLayout

/-! ## Numbers -/

/-- What a float's text is made of: a sign, and what writes the shortest decimal. -/
theorem Binary64.text_isWritten (x : Binary64) : ∃ text whole fraction exponent,
    Digits.sign x.text.toList = (x.negative, text) ∧ IsWritten text whole fraction exponent ∧
      (Digits.value (whole ++ fraction) : ℚ) * 10 ^ (exponent - (fraction.length : ℤ)) =
        x.shortestDecimal.1 * 10 ^ x.shortestDecimal.2 := by
  have hbody : ∃ text whole fraction exponent, IsWritten text whole fraction exponent ∧
      x.text.toList = (if x.negative then '-' :: text else text) ∧
      (Digits.value (whole ++ fraction) : ℚ) * 10 ^ (exponent - (fraction.length : ℤ)) =
        x.shortestDecimal.1 * 10 ^ x.shortestDecimal.2 := by
    by_cases hzero : x.significand = 0
    · refine ⟨['0', '.', '0'], ['0'], ['0'], 0,
        ⟨by simp, by simp, by simp, [], rfl, rfl, Or.inl rfl, Or.inl (by simp)⟩, ?_, ?_⟩
      · simp [Binary64.text, hzero]
      · have hvalue : Digits.value (['0'] ++ ['0']) = 0 := rfl
        rw [hvalue, shortestDecimal_of_zero hzero, exactDecimal_value, magnitude, hzero, Nat.cast_zero, zero_mul,
          zero_mul]
    · obtain ⟨whole, fraction, exponent, hwritten, hvalue⟩ :=
        FloatLayout.standard.write_isWritten (shortestDecimal_ne_zero hzero) x.shortestDecimal.2
      exact ⟨_, whole, fraction, exponent, hwritten, by simp [Binary64.text, hzero], hvalue⟩
  obtain ⟨text, whole, fraction, exponent, hwritten, htext, hvalue⟩ := hbody
  refine ⟨text, whole, fraction, exponent, ?_, hwritten, hvalue⟩
  cases hnegative : x.negative with
  | false => rw [htext, hnegative]; exact hwritten.sign_eq
  | true => rw [htext, hnegative]; rfl

namespace Number

theorem ofText?_text (n : Number) : ofText? n.text = some n := by
  cases n with
  | integer n inRange =>
    have hinteger : integerOfText? (toString n) = some (integer n inRange) := by
      rw [integerOfText?, Digits.int?_toString]
      exact dif_pos inRange
    rw [text, ofText?, hinteger, Option.some_or]
  | float x =>
    obtain ⟨text, whole, fraction, exponent, hsign, hwritten, hvalue⟩ := x.text_isWritten
    have hread := (Binary64.ofDecimal?_congr x.negative hvalue).trans x.ofDecimal?_shortestDecimal
    have hinteger : integerOfText? x.text = none := by
      simp [integerOfText?, hwritten.int?_eq_none hsign]
    have hfloat : floatOfText? x.text = some (float x) := by
      simp [floatOfText?, hwritten.parse?_eq hsign, DecimalText.toFloat?, hread]
    simp [ofText?, Number.text, hinteger, hfloat]

end Number

theorem Attribute.readNumber_text (n : Number) : readNumber n.text = .ok n := by
  simp [readNumber, Number.ofText?_text]

end KeyedRecords
