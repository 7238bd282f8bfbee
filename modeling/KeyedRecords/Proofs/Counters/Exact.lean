import KeyedRecords.Proofs.Attribute.Lossless
import KeyedRecords.Counters
import KeyedRecords.Update.Application

/-! Counters are added in two places: while stored counters are merged with more, and by the store, on the texts that
it keeps. Both add in signed words as long as the numbers and their sum fit, and nearest floats otherwise, so an
integer that comes out is the sum itself. Main statement: `counters_exact`. Past the signed words a sum can be off:
`counters_inexact`. -/

namespace KeyedRecords

/-- Whether two integers and their sum all fit a signed word. -/
def AddsSigned (a b : Int) : Prop :=
  Number.isSigned a = true ∧ Number.isSigned b = true ∧ Number.isSigned (a + b) = true

/-- Whether the text of a number has neither a fraction nor an exponent. -/
def PlainText (text : String) : Prop := '.' ∉ text.toList ∧ 'e' ∉ text.toList

namespace Number

theorem plainText_iff {n : Number} : PlainText n.text ↔ n.isFloat = false := by
  rw [PlainText, ← not_or, ← isFloat_iff_mem_text, Bool.not_eq_true]

theorem wordRange_of_isSigned {n : Int} (h : isSigned n = true) : WordRange n := by
  simp only [isSigned, Bool.and_eq_true, decide_eq_true_eq] at h
  unfold WordRange
  omega

theorem signedSum?_eq_some_iff {a b : Int} {ha : WordRange a} {hb : WordRange b} {total : Number} :
    signedSum? (integer a ha) (integer b hb) = some total ↔
      AddsSigned a b ∧ ∃ inRange, total = integer (a + b) inRange := by
  simp only [signedSum?, Bool.and_eq_true, and_assoc]
  split
  · rename_i hsigned
    have inRange := wordRange_of_isSigned hsigned.2.2
    simp [AddsSigned, ofInt?, hsigned, inRange, eq_comm]
  · rename_i hnot
    exact iff_of_false (by simp) fun h => hnot h.1

/-- An integer comes out of an addition only by way of signed words, and then it is the sum. -/
theorem add?_eq_integer_iff {a b n : Int} {ha : WordRange a} {hb : WordRange b} {hn : WordRange n} :
    (integer a ha).add? (integer b hb) = some (integer n hn) ↔ AddsSigned a b ∧ n = a + b := by
  rw [add?, Option.or_eq_some_iff, signedSum?_eq_some_iff]
  constructor
  · rintro (⟨hsigned, _, h⟩ | ⟨-, h⟩)
    · exact ⟨hsigned, integer.inj h⟩
    · obtain ⟨x, -, hfloat⟩ := Option.map_eq_some_iff.1 h
      cases hfloat
  · rintro ⟨hsigned, rfl⟩
    exact Or.inl ⟨hsigned, hn, rfl⟩

end Number

theorem Counters.sum_eq_ok_iff {field : String} {stored added total : Number} :
    sum field stored added = .ok total ↔ stored.add? added = some total := by
  rw [sum]
  cases stored.add? added with
  | none => exact iff_of_false (by rintro ⟨⟩) (by simp)
  | some other =>
    rw [Option.some_inj]
    exact ⟨Except.ok.inj, congrArg Except.ok⟩

/-- The texts of two numbers are added as the numbers are. -/
theorem addTexts_text_eq_ok_iff {a b : Number} {text : String} :
    addTexts a.text b.text = .ok text ↔ ∃ total, a.add? b = some total ∧ total.text = text := by
  simp only [addTexts, Attribute.readNumber_text]
  cases a.add? b <;> simp

/-- Integers are summed exactly, by either way of adding, where they and the sum fit a signed word: the sum is an
integer again, written without fraction and exponent. And whenever either way gives an integer, it is the exact sum. -/
theorem counters_exact (field : String) {a b : Int} (ha : WordRange a) (hb : WordRange b) :
    (AddsSigned a b → PlainText (toString (a + b)) ∧
      (∃ inRange, Counters.sum field (.integer a ha) (.integer b hb) = .ok (.integer (a + b) inRange)) ∧
      addTexts (toString a) (toString b) = .ok (toString (a + b))) ∧
    (∀ n inRange, Counters.sum field (.integer a ha) (.integer b hb) = .ok (.integer n inRange) → n = a + b) ∧
    ∀ text, addTexts (toString a) (toString b) = .ok text → PlainText text → text = toString (a + b) := by
  have htexts : ∀ {text}, addTexts (toString a) (toString b) = .ok text ↔
      ∃ total, (Number.integer a ha).add? (.integer b hb) = some total ∧ total.text = text :=
    addTexts_text_eq_ok_iff (a := .integer a ha) (b := .integer b hb)
  refine ⟨fun hsigned => ?_, fun n inRange hsum => ?_, fun text htext hplain => ?_⟩
  · have inRange := Number.wordRange_of_isSigned hsigned.2.2
    have hadd : (Number.integer a ha).add? (.integer b hb) = some (.integer (a + b) inRange) :=
      Number.add?_eq_integer_iff.2 ⟨hsigned, rfl⟩
    have hplain : PlainText (Number.integer (a + b) inRange).text := Number.plainText_iff.2 rfl
    exact ⟨hplain, ⟨inRange, Counters.sum_eq_ok_iff.2 hadd⟩, htexts.2 ⟨_, hadd, rfl⟩⟩
  · exact (Number.add?_eq_integer_iff.1 (Counters.sum_eq_ok_iff.1 hsum)).2
  · obtain ⟨total, hadd, rfl⟩ := htexts.1 htext
    cases total with
    | integer n inRange => rw [Number.text, (Number.add?_eq_integer_iff.1 hadd).2]
    | float x => cases Number.plainText_iff.1 hplain

/-- The greatest and the least signed word. -/
theorem counters_exact_ends :
    AddsSigned 9223372036854775807 (-9223372036854775808) ∧
      (∃ inRange, Counters.sum "views" (.integer 9223372036854775807 (by decide))
        (.integer (-9223372036854775808) (by decide)) = .ok (.integer (-1) inRange)) ∧
      addTexts "9223372036854775807" "-9223372036854775808" = .ok "-1" := by
  have hsigned : AddsSigned 9223372036854775807 (-9223372036854775808) := by unfold AddsSigned; decide
  exact ⟨hsigned, ((counters_exact "views" (by decide) (by decide)).1 hsigned).2⟩

/-- Past the signed words a float comes out of either way of adding, although the sum fits a word, in the second case
even a signed one. -/
theorem counters_inexact :
    WordRange (9223372036854775807 + 1) ∧ WordRange (9223372036854775808 + -1) ∧
    Counters.sum "views" (.integer 9223372036854775807 (by decide)) (.integer 1 (by decide)) =
      .ok (.float ⟨false, 4503599627370496, 11, by decide⟩) ∧
    addTexts (toString (9223372036854775807 : Int)) (toString (1 : Int)) = .ok "9.223372036854776e+18" ∧
    Counters.sum "views" (.integer 9223372036854775808 (by decide)) (.integer (-1) (by decide)) =
      .ok (.float ⟨false, 4503599627370496, 11, by decide⟩) ∧
    addTexts (toString (9223372036854775808 : Int)) (toString (-1 : Int)) = .ok "9.223372036854776e+18" := by
  have hover : (Number.integer 9223372036854775807 (by decide)).add? (.integer 1 (by decide)) =
      some (.float ⟨false, 4503599627370496, 11, by decide⟩) := by decide +kernel
  have hunsigned : (Number.integer 9223372036854775808 (by decide)).add? (.integer (-1) (by decide)) =
      some (.float ⟨false, 4503599627370496, 11, by decide⟩) := by decide +kernel
  have htext : (Number.float ⟨false, 4503599627370496, 11, by decide⟩).text = "9.223372036854776e+18" := by
    decide +kernel
  exact ⟨by decide, by decide, Counters.sum_eq_ok_iff.2 hover, addTexts_text_eq_ok_iff.2 ⟨_, hover, htext⟩,
    Counters.sum_eq_ok_iff.2 hunsigned, addTexts_text_eq_ok_iff.2 ⟨_, hunsigned, htext⟩⟩

end KeyedRecords
