import KeyedRecords.Text.Timestamp
import Mathlib.Tactic.IntervalCases

/-! The grammar of timestamps: a date of the calendar, a separator, a time of day and an offset, one after the other.
Each part is read off the front of a text if and only if the text begins with it. Main statement: `isValid_iff`. -/

namespace KeyedRecords.Timestamp

def decimal (digits : List Char) : Nat := digits.foldl (fun n c => 10 * n + (c.toNat - '0'.toNat)) 0

/-- Whether a text consists of so many digits. -/
def Digits (count : Nat) (text : List Char) : Prop := text.length = count ∧ ∀ c ∈ text, c.isDigit = true

def monthLengths (year : Nat) : List Nat :=
  [31, if 4 ∣ year ∧ (100 ∣ year → 400 ∣ year) then 29 else 28, 31, 30, 31, 30, 31, 31, 30, 31, 30, 31]

def HasDay (year month day : Nat) : Prop :=
  1 ≤ month ∧ ∃ length, (monthLengths year)[month - 1]? = some length ∧ 1 ≤ day ∧ day ≤ length

def Date (text : List Char) : Prop := ∃ year month day, text = year ++ '-' :: (month ++ '-' :: day) ∧
  Digits 4 year ∧ Digits 2 month ∧ Digits 2 day ∧ HasDay (decimal year) (decimal month) (decimal day)

def Fraction (text : List Char) : Prop :=
  text = [] ∨ ∃ digits, text = '.' :: digits ∧ digits ≠ [] ∧ ∀ c ∈ digits, c.isDigit = true

def TimeOfDay (text : List Char) : Prop :=
  ∃ hour minute second fraction, text = hour ++ ':' :: (minute ++ ':' :: (second ++ fraction)) ∧
    Digits 2 hour ∧ Digits 2 minute ∧ Digits 2 second ∧
    decimal hour < 24 ∧ decimal minute < 60 ∧ decimal second ≤ 60 ∧ Fraction fraction

/-- Whether a text is an offset from UTC. -/
def Offset (text : List Char) : Prop := text = ['Z'] ∨ text = ['z'] ∨
  ∃ sign hour minute, sign ∈ ['+', '-', '\u2212'] ∧ text = sign :: (hour ++ ':' :: minute) ∧
    Digits 2 hour ∧ Digits 2 minute ∧ decimal hour < 24 ∧ decimal minute < 60

/-- Whether a text is a date, a separator, a time of day and an offset. -/
def Written (text : List Char) : Prop := ∃ date separator time offset, text = date ++ separator :: (time ++ offset) ∧
  Date date ∧ separator ∈ ['T', 't', ' '] ∧ TimeOfDay time ∧ Offset offset

/-! ## Part by part -/

theorem digits?_eq_some_iff {count n : Nat} {cs rest : List Char} :
    digits? count cs = some (n, rest) ↔ ∃ front, cs = front ++ rest ∧ Digits count front ∧ decimal front = n := by
  simp only [digits?, decimal, Digits, Option.ite_none_right_eq_some, Option.some.injEq, Prod.mk.injEq,
    List.all_eq_true]
  constructor
  · rintro ⟨hdigits, rfl, rfl⟩
    exact ⟨cs.take count, (List.take_append_drop count cs).symm, hdigits, rfl⟩
  · rintro ⟨front, rfl, ⟨rfl, hdigits⟩, rfl⟩
    simp only [List.take_left', List.drop_left', true_and, and_true]
    exact hdigits

theorem oneOf?_eq_some_iff {allowed cs rest : List Char} :
    oneOf? allowed cs = some rest ↔ ∃ c ∈ allowed, cs = c :: rest := by
  cases cs with
  | nil => simp [oneOf?]
  | cons c cs =>
    simp only [oneOf?, Option.ite_none_right_eq_some, Option.some.injEq, List.cons.injEq]
    constructor
    · rintro ⟨hc, rfl⟩
      exact ⟨c, hc, rfl, rfl⟩
    · rintro ⟨c, hc, rfl, rfl⟩
      exact ⟨hc, rfl⟩

theorem isLeapYear_iff {year : Nat} : isLeapYear year = true ↔ 4 ∣ year ∧ (100 ∣ year → 400 ∣ year) := by
  simp only [isLeapYear, Bool.and_eq_true, Bool.or_eq_true, decide_eq_true_eq]
  omega

theorem daysIn_eq_getElem? {year month : Nat} (hpos : 1 ≤ month) (hle : month ≤ 12) :
    (monthLengths year)[month - 1]? = some (daysIn year month) := by
  simp only [daysIn, isLeapYear_iff]
  interval_cases month <;> rfl

theorem daysIn_eq_zero {year month : Nat} (h : ¬(1 ≤ month ∧ month ≤ 12)) : daysIn year month = 0 := by
  rw [daysIn, if_neg (by omega), if_neg (by simp; omega), if_neg h]

/-- Only the months of the year have days. -/
theorem hasDay_iff {year month day : Nat} : HasDay year month day ↔ 1 ≤ day ∧ day ≤ daysIn year month := by
  by_cases hmonth : 1 ≤ month ∧ month ≤ 12
  · simp [HasDay, daysIn_eq_getElem? hmonth.1 hmonth.2, hmonth.1]
  · rw [daysIn_eq_zero hmonth]
    refine ⟨?_, fun h => absurd h.1 (by omega)⟩
    rintro ⟨hpos, length, hlength, -, -⟩
    have hlt : month - 1 < 12 := (List.getElem?_eq_some_iff.1 hlength).1
    exact absurd ⟨hpos, by omega⟩ hmonth

theorem afterDate?_eq_some_iff {cs rest : List Char} :
    afterDate? cs = some rest ↔ ∃ date, cs = date ++ rest ∧ Date date := by
  simp only [afterDate?, Option.bind_eq_bind, Option.bind_eq_some_iff, Prod.exists, digits?_eq_some_iff,
    oneOf?_eq_some_iff, Option.ite_none_right_eq_some, Option.some.injEq, List.mem_singleton, ← hasDay_iff]
  constructor
  · rintro ⟨_, _, ⟨year, rfl, hyear, rfl⟩, _, ⟨_, rfl, rfl⟩, _, _, ⟨month, rfl, hmonth, rfl⟩, _, ⟨_, rfl, rfl⟩,
      _, _, ⟨day, rfl, hday, rfl⟩, hvalid, rfl⟩
    exact ⟨_, by simp, year, month, day, rfl, hyear, hmonth, hday, hvalid⟩
  · rintro ⟨_, rfl, year, month, day, rfl, hyear, hmonth, hday, hvalid⟩
    simp only [List.append_assoc, List.cons_append]
    exact ⟨_, _, ⟨year, rfl, hyear, rfl⟩, _, ⟨_, rfl, rfl⟩, _, _, ⟨month, rfl, hmonth, rfl⟩, _, ⟨_, rfl, rfl⟩,
      _, _, ⟨day, rfl, hday, rfl⟩, hvalid, rfl⟩

/-- Whether a text begins with neither a digit nor a point. -/
def Apart (text : List Char) : Prop := ∀ c ∈ text.head?, c.isDigit = false ∧ c ≠ '.'

theorem Offset.apart {text : List Char} (h : Offset text) : Apart text := by
  rcases h with rfl | rfl | ⟨sign, hour, minute, hsign, rfl, -⟩
  · rintro _ ⟨⟩
    decide
  · rintro _ ⟨⟩
    decide
  · rintro _ ⟨⟩
    simp only [List.mem_cons, List.not_mem_nil, or_false] at hsign
    rcases hsign with rfl | rfl | rfl <;> decide

/-- Digits are taken up to what stands apart from them. -/
theorem takeWhile_isDigit {digits rest : List Char} (hdigits : ∀ c ∈ digits, c.isDigit = true) (hrest : Apart rest) :
    (digits ++ rest).takeWhile Char.isDigit = digits ∧ (digits ++ rest).dropWhile Char.isDigit = rest := by
  rw [List.takeWhile_append_of_pos hdigits, List.dropWhile_append_of_pos hdigits]
  cases rest with
  | nil => simp
  | cons c rest => simp [(hrest c rfl).1]

/-- A fraction goes on as far as there are digits. -/
theorem afterFraction?_eq_some_iff {cs rest : List Char} (hrest : Apart rest) :
    afterFraction? cs = some rest ↔ ∃ fraction, cs = fraction ++ rest ∧ Fraction fraction := by
  constructor
  · intro h
    unfold afterFraction? at h
    split at h
    · rename_i cs
      split at h
      · cases h
      · rename_i hempty
        cases h
        refine ⟨'.' :: cs.takeWhile Char.isDigit, by simp, Or.inr ⟨_, rfl, ?_, List.all_eq_true.1 List.all_takeWhile⟩⟩
        exact fun he => hempty (List.isEmpty_iff.2 he)
    · cases h
      exact ⟨[], rfl, Or.inl rfl⟩
  · rintro ⟨_, rfl, rfl | ⟨digits, rfl, hempty, hdigits⟩⟩
    · unfold afterFraction?
      split
      · rename_i cs hcs
        rw [List.nil_append] at hcs
        exact absurd rfl (hrest '.' (by rw [hcs]; rfl)).2
      · rfl
    · obtain ⟨htake, hdrop⟩ := takeWhile_isDigit hdigits hrest
      rw [List.cons_append, afterFraction?, htake, hdrop, if_neg fun he => hempty (List.isEmpty_iff.1 he)]

theorem afterTime?_eq_some_iff {cs rest : List Char} (hrest : Apart rest) :
    afterTime? cs = some rest ↔ ∃ time, cs = time ++ rest ∧ TimeOfDay time := by
  simp only [afterTime?, Option.bind_eq_bind, Option.bind_eq_some_iff, Prod.exists, digits?_eq_some_iff,
    oneOf?_eq_some_iff, Option.ite_none_right_eq_some, List.mem_singleton, afterFraction?_eq_some_iff hrest]
  constructor
  · rintro ⟨_, _, ⟨hour, rfl, hhour, rfl⟩, _, ⟨_, rfl, rfl⟩, _, _, ⟨minute, rfl, hminute, rfl⟩, _, ⟨_, rfl, rfl⟩,
      _, _, ⟨second, rfl, hsecond, rfl⟩, ⟨hhours, hminutes, hseconds⟩, fraction, rfl, hfraction⟩
    exact ⟨_, by simp, hour, minute, second, fraction, rfl, hhour, hminute, hsecond, hhours, hminutes, hseconds,
      hfraction⟩
  · rintro ⟨_, rfl, hour, minute, second, fraction, rfl, hhour, hminute, hsecond, hhours, hminutes, hseconds,
      hfraction⟩
    simp only [List.append_assoc, List.cons_append]
    exact ⟨_, _, ⟨hour, rfl, hhour, rfl⟩, _, ⟨_, rfl, rfl⟩, _, _, ⟨minute, rfl, hminute, rfl⟩, _, ⟨_, rfl, rfl⟩,
      _, _, ⟨second, rfl, hsecond, rfl⟩, ⟨hhours, hminutes, hseconds⟩, fraction, rfl, hfraction⟩

theorem afterOffset?_eq_some_iff {cs : List Char} : afterOffset? cs = some [] ↔ Offset cs := by
  cases cs with
  | nil => simp [afterOffset?, Offset]
  | cons sign cs =>
    simp only [afterOffset?, Offset]
    by_cases hzulu : sign = 'Z' ∨ sign = 'z'
    · rw [if_pos hzulu, Option.some.injEq]
      constructor
      · rintro rfl
        exact hzulu.imp (by rintro rfl; rfl) fun h => Or.inl (by rw [h])
      · rintro (h | h | ⟨_, hour, minute, hsign, h, -⟩)
        · exact (List.cons.inj h).2
        · exact (List.cons.inj h).2
        · cases h
          simp only [List.mem_cons, List.not_mem_nil, or_false] at hsign
          rcases hzulu with rfl | rfl <;> simp at hsign
    rw [if_neg hzulu]
    simp only [Option.bind_eq_bind, Option.ite_none_left_eq_some, Decidable.not_not, Option.bind_eq_some_iff,
      Prod.exists, digits?_eq_some_iff, oneOf?_eq_some_iff, Option.ite_none_right_eq_some, List.mem_singleton,
      Option.some.injEq]
    constructor
    · rintro ⟨hsign, _, _, ⟨hour, rfl, hhour, rfl⟩, _, ⟨_, rfl, rfl⟩, _, _, ⟨minute, rfl, hminute, rfl⟩,
        ⟨hhours, hminutes⟩, rfl⟩
      exact Or.inr (Or.inr ⟨sign, hour, minute, hsign, by simp, hhour, hminute, hhours, hminutes⟩)
    · rintro (h | h | ⟨_, hour, minute, hsign, h, hhour, hminute, hhours, hminutes⟩)
      · exact absurd (Or.inl (List.cons.inj h).1) hzulu
      · exact absurd (Or.inr (List.cons.inj h).1) hzulu
      · cases h
        exact ⟨hsign, _, _, ⟨hour, rfl, hhour, rfl⟩, _, ⟨_, rfl, rfl⟩, _, _,
          ⟨minute, (List.append_nil _).symm, hminute, rfl⟩, ⟨hhours, hminutes⟩, rfl⟩

/-- The texts that are accepted are those of the grammar. -/
theorem isValid_iff {s : String} : isValid s = true ↔ Written s.toList := by
  simp only [isValid, decide_eq_true_eq, Option.bind_eq_bind, Option.bind_eq_some_iff, afterDate?_eq_some_iff,
    oneOf?_eq_some_iff, afterOffset?_eq_some_iff, Written]
  constructor
  · rintro ⟨_, ⟨date, htext, hdate⟩, _, ⟨separator, hseparator, rfl⟩, offset, htime, hoffset⟩
    obtain ⟨time, rfl, hparts⟩ := (afterTime?_eq_some_iff hoffset.apart).1 htime
    exact ⟨date, separator, time, offset, htext, hdate, hseparator, hparts, hoffset⟩
  · rintro ⟨date, separator, time, offset, htext, hdate, hseparator, htime, hoffset⟩
    exact ⟨_, ⟨date, htext, hdate⟩, _, ⟨separator, hseparator, rfl⟩, offset,
      (afterTime?_eq_some_iff hoffset.apart).2 ⟨time, rfl, htime⟩, hoffset⟩

end KeyedRecords.Timestamp
