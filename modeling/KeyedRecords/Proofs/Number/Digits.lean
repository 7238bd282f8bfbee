import KeyedRecords.Number.Reader
import Mathlib.Algebra.Group.Nat.Defs

/-! Decimal digits are read as they are written. `nat?_toDigits` and `int?_toString` say so for naturals
and integers; `value_append` and `value_zeros` move the point of a decimal text. Digits that are as many compare as
their numbers do, whatever follows them: `append_lt_of_value_lt`. -/

namespace KeyedRecords.Digits

theorem value_eq_ofDigitChars (cs : List Char) : value cs = Nat.ofDigitChars 10 cs 0 := rfl

theorem value_toDigits (n : Nat) : value (Nat.toDigits 10 n) = n := Nat.ofDigitChars_ten_toDigits

theorem value_append (cs ds : List Char) :
    value (cs ++ ds) = value cs * 10 ^ ds.length + value ds := by
  rw [value_eq_ofDigitChars, Nat.ofDigitChars_append, Nat.ofDigitChars_eq_ofDigitChars_zero,
    Nat.mul_comm]
  rfl

theorem value_zeros (n : Nat) : value (List.replicate n '0') = 0 := by
  rw [value_eq_ofDigitChars, Nat.ofDigitChars_replicate_zero, Nat.mul_zero]

theorem isDigit_of_mem_toDigits {n : Nat} {c : Char} (h : c ∈ Nat.toDigits 10 n) :
    c.isDigit = true := Nat.isDigit_of_mem_toDigits (by decide) (by decide) h

theorem nat?_of_digits {cs : List Char} (hne : cs ≠ []) (h : ∀ c ∈ cs, c.isDigit = true) :
    nat? cs = some (value cs) := by
  have hall : cs.all Char.isDigit = true := List.all_eq_true.2 h
  have hempty : cs.isEmpty = false := by simpa using hne
  simp [nat?, hall, hempty]

theorem nat?_eq_some_iff {cs : List Char} {n : Nat} :
    nat? cs = some n ↔ cs ≠ [] ∧ (∀ c ∈ cs, c.isDigit = true) ∧ value cs = n := by
  constructor
  · intro h
    unfold nat? at h
    split at h
    · cases h
    · rename_i hdigits
      rw [Bool.or_eq_true, not_or, Bool.not_eq_true', Bool.not_eq_false, List.isEmpty_iff, List.all_eq_true] at hdigits
      exact ⟨hdigits.1, hdigits.2, Option.some.inj h⟩
  · rintro ⟨hne, hdigits, rfl⟩
    exact nat?_of_digits hne hdigits

theorem nat?_toDigits (n : Nat) : nat? (Nat.toDigits 10 n) = some n := by
  rw [nat?_of_digits Nat.toDigits_ne_nil fun c h => isDigit_of_mem_toDigits h, value_toDigits]

/-- A text that begins with a digit has no sign to take off. -/
theorem sign_of_isDigit {c : Char} (h : c.isDigit = true) (cs : List Char) :
    sign (c :: cs) = (false, c :: cs) := by
  unfold sign
  split
  · rename_i he
    cases he
    exact absurd h (by decide)
  · rename_i he
    cases he
    exact absurd h (by decide)
  · rfl

theorem sign_of_digits {cs : List Char} (hne : cs ≠ []) (h : ∀ c ∈ cs, c.isDigit = true) :
    sign cs = (false, cs) := by
  cases cs with
  | nil => exact absurd rfl hne
  | cons c cs => exact sign_of_isDigit (h c List.mem_cons_self) cs

/-- The sign of an integer text is the only character in it that is no digit. -/
theorem toList_toString (n : Int) :
    (toString n).toList = (if n < 0 then ['-'] else []) ++ Nat.toDigits 10 n.natAbs := by
  cases n with
  | ofNat n =>
    have hpos : ¬ Int.ofNat n < 0 := by simp
    rw [if_neg hpos]
    simp [toString, Int.repr]
  | negSucc n =>
    rw [if_pos (Int.negSucc_lt_zero n)]
    simp only [toString, Int.repr, Nat.repr_eq_ofList_toDigits, String.toList_append]
    simp

theorem int?_minus (n : Nat) : int? ('-' :: Nat.toDigits 10 n) = some (-(n : Int)) := by
  simp [int?, sign, nat?_toDigits]

theorem int?_plus (n : Nat) : int? ('+' :: Nat.toDigits 10 n) = some (n : Int) := by
  simp [int?, sign, nat?_toDigits]

theorem int?_toString (n : Int) : int? (toString n).toList = some n := by
  rw [toList_toString]
  by_cases hneg : n < 0
  · have hvalue : -(n.natAbs : Int) = n := by omega
    rw [if_pos hneg, List.singleton_append, int?_minus, hvalue]
  · have hsign : sign (Nat.toDigits 10 n.natAbs) = (false, Nat.toDigits 10 n.natAbs) :=
      sign_of_digits Nat.toDigits_ne_nil fun c h => isDigit_of_mem_toDigits h
    have hvalue : (n.natAbs : Int) = n := by omega
    rw [if_neg hneg, List.nil_append, int?, hsign]
    simp only [nat?_toDigits]
    simp [hvalue]

/-! ## Order -/

theorem value_cons (c : Char) (cs : List Char) :
    value (c :: cs) = (c.toNat - '0'.toNat) * 10 ^ cs.length + value cs := by
  rw [← List.singleton_append, value_append]
  simp [value]

theorem digit_bounds {c : Char} (h : c.isDigit = true) : '0'.toNat ≤ c.toNat ∧ c.toNat ≤ '9'.toNat := by
  simp only [Char.isDigit, Bool.and_eq_true, decide_eq_true_eq, ge_iff_le, UInt32.le_iff_toNat_le] at h
  exact h

theorem value_lt {cs : List Char} (h : ∀ c ∈ cs, c.isDigit = true) : value cs < 10 ^ cs.length := by
  induction cs with
  | nil => decide
  | cons c cs ih =>
    have hc := digit_bounds (h c List.mem_cons_self)
    have hcs := ih fun d hd => h d (List.mem_cons_of_mem c hd)
    have h9 : '9'.toNat = '0'.toNat + 9 := rfl
    rw [value_cons, List.length_cons, Nat.pow_succ]
    have hdigit : (c.toNat - '0'.toNat) * 10 ^ cs.length ≤ 9 * 10 ^ cs.length := Nat.mul_le_mul_right _ (by omega)
    omega

/-- Of digits that are as many, those of the smaller number come first, whatever follows them. -/
theorem append_lt_of_value_lt {cs ds : List Char} (hcs : ∀ c ∈ cs, c.isDigit = true)
    (hds : ∀ d ∈ ds, d.isDigit = true) (hlength : cs.length = ds.length) (h : value cs < value ds)
    (rest rest' : List Char) : cs ++ rest < ds ++ rest' := by
  induction cs generalizing ds with
  | nil =>
    cases List.length_eq_zero_iff.1 hlength.symm
    exact absurd h (Nat.lt_irrefl _)
  | cons c cs ih =>
    cases ds with
    | nil => cases hlength
    | cons d ds =>
      obtain ⟨hc, hcs⟩ := List.forall_mem_cons.1 hcs
      obtain ⟨hd, hds⟩ := List.forall_mem_cons.1 hds
      have hlength : cs.length = ds.length := Nat.succ.inj hlength
      rw [value_cons, value_cons, hlength] at h
      rw [List.cons_append, List.cons_append, List.cons_lt_cons_iff]
      rcases Nat.lt_trichotomy c.toNat d.toNat with hlt | heq | hgt
      · exact Or.inl hlt
      · rw [heq] at h
        exact Or.inr ⟨Char.toNat_inj.1 heq, ih hcs hds hlength (by omega)⟩
      · -- A greater first digit outweighs all that follow.
        have hbelow := value_lt hds
        have hless : d.toNat - '0'.toNat + 1 ≤ c.toNat - '0'.toNat := by
          have := digit_bounds hd
          omega
        have hunit := Nat.mul_le_mul_right (10 ^ ds.length) hless
        rw [Nat.succ_mul] at hunit
        omega

end KeyedRecords.Digits
