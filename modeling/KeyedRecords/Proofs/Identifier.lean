import KeyedRecords.Identifier
import KeyedRecords.Proofs.Number.Digits

/-! Identifiers sort by the times at which they are made, whatever their unique texts are, as long as the seconds have
as many digits. Main statement: `text_lt_of_instant`. -/

namespace KeyedRecords

/-! ## Six digits -/

theorem isDigit_of_mem_sixDigits {n : Nat} {c : Char} (h : c ∈ sixDigits n) : c.isDigit = true := by
  rcases List.mem_append.1 h with hzero | hdigit
  · rw [List.eq_of_mem_replicate hzero]
    rfl
  · exact Digits.isDigit_of_mem_toDigits hdigit

theorem value_sixDigits (n : Nat) : Digits.value (sixDigits n) = n := by
  rw [sixDigits, Digits.value_append, Digits.value_zeros, Digits.value_toDigits, Nat.zero_mul, Nat.zero_add]

theorem length_sixDigits {n : Nat} (h : n < 1000000) : (sixDigits n).length = 6 := by
  have hlength : (Nat.toDigits 10 n).length ≤ 6 := (Nat.length_toDigits_le_iff (by decide) (by decide)).2 h
  rw [sixDigits, List.length_append, List.length_replicate]
  omega

namespace Identifier

/-! ## Order -/

def instant (id : Identifier) : Nat := 1000000 * id.seconds + id.micros

theorem toList_text (id : Identifier) : id.text.toList =
    Nat.toDigits 10 id.seconds ++ '.' :: (sixDigits id.micros ++ '-' :: id.unique.toList) := by
  simp only [text, String.toList_append, String.toList_ofList, Nat.toString_eq_repr, Nat.toList_repr]
  simp

theorem text_lt_of_instant {earlier later : Identifier} (hinstants : earlier.instant < later.instant)
    (hdigits : (Nat.toDigits 10 earlier.seconds).length = (Nat.toDigits 10 later.seconds).length)
    (hmicros : earlier.micros < 1000000) (hmicros' : later.micros < 1000000) : earlier.text < later.text := by
  show earlier.text.toList < later.text.toList
  rw [toList_text, toList_text]
  rcases Nat.lt_trichotomy earlier.seconds later.seconds with hlt | heq | hgt
  · refine Digits.append_lt_of_value_lt (fun _ => Digits.isDigit_of_mem_toDigits)
      (fun _ => Digits.isDigit_of_mem_toDigits) hdigits ?_ _ _
    rwa [Digits.value_toDigits, Digits.value_toDigits]
  · -- Within one second the microseconds decide, which have six digits in both.
    have hless : earlier.micros < later.micros := by
      simp only [instant, heq] at hinstants
      omega
    rw [heq]
    refine List.append_left_lt (List.cons_lt_cons_iff.2 (Or.inr ⟨rfl, ?_⟩))
    refine Digits.append_lt_of_value_lt (fun _ => isDigit_of_mem_sixDigits) (fun _ => isDigit_of_mem_sixDigits)
      ?_ ?_ _ _
    · rw [length_sixDigits hmicros, length_sixDigits hmicros']
    · rwa [value_sixDigits, value_sixDigits]
  · simp only [instant] at hinstants
    omega

/-- The tenth second sorts before the ninth. -/
example : (Identifier.mk 10 0 "").text < (Identifier.mk 9 0 "").text := by decide

end Identifier

end KeyedRecords
