import KeyedRecords.Proofs.Attribute

/-! Attributes lose nothing of a JSON value. The numbers of a value are kept as texts, in their places. A text tells
the form of its number: that of a float has a point or an exponent, that of an integer has neither. So every text reads
back to the number that was written, and the value with it. Main statement: `Attribute.ofJson_lossless`. -/

namespace KeyedRecords

/-! ## The form of a number -/

theorem Digits.mem_of_sign {cs text : List Char} {negative : Bool} (h : sign cs = (negative, text))
    {c : Char} (hc : c ∈ text) : c ∈ cs := by
  unfold sign at h
  split at h
  all_goals
    cases h
    first | exact hc | exact List.mem_cons_of_mem _ hc

namespace Number

theorem isFloat_iff_mem_text (n : Number) :
    n.isFloat = true ↔ '.' ∈ n.text.toList ∨ 'e' ∈ n.text.toList := by
  cases n with
  | integer n inRange =>
    -- The minus sign is the only character of the text that is no digit.
    have hother : ∀ c, c.isDigit = false → c ≠ '-' → c ∉ (toString n).toList := by
      intro c hdigit hminus hc
      rw [Digits.toList_toString, List.mem_append] at hc
      rcases hc with hc | hc
      · split at hc
        · exact hminus (List.mem_singleton.1 hc)
        · cases hc
      · rw [Digits.isDigit_of_mem_toDigits hc] at hdigit
        cases hdigit
    have hmem : ¬ ('.' ∈ (toString n).toList ∨ 'e' ∈ (toString n).toList) :=
      not_or.2 ⟨hother '.' rfl (by decide), hother 'e' rfl (by decide)⟩
    exact iff_of_false Bool.false_ne_true hmem
  | float x =>
    obtain ⟨text, whole, fraction, exponent, hsign, hwritten, -⟩ := x.text_isWritten
    have hmem : '.' ∈ x.text.toList ∨ 'e' ∈ x.text.toList :=
      hwritten.point_or_exponent.imp (Digits.mem_of_sign hsign) (Digits.mem_of_sign hsign)
    exact iff_of_true rfl hmem

end Number

/-! ## The numbers of a value -/

mutual

def Json.numbers : Json → List Number
  | .number n => [n]
  | .list elements => numbersOfList elements
  | .map entries => numbersOfMap entries
  | .null | .boolean _ | .string _ => []

def Json.numbersOfList : List Json → List Number
  | [] => []
  | value :: rest => value.numbers ++ numbersOfList rest

def Json.numbersOfMap : List (String × Json) → List Number
  | [] => []
  | (_, value) :: rest => value.numbers ++ numbersOfMap rest

end

namespace Attribute

mutual

def numberTexts : Attribute → List String
  | number text => [text]
  | list elements => numberTextsOfList elements
  | map entries => numberTextsOfMap entries
  | null | boolean _ | string _ => []

def numberTextsOfList : List Attribute → List String
  | [] => []
  | value :: rest => value.numberTexts ++ numberTextsOfList rest

def numberTextsOfMap : Item → List String
  | [] => []
  | (_, value) :: rest => value.numberTexts ++ numberTextsOfMap rest

end

mutual

theorem numberTexts_ofJson : (value : Json) → (ofJson value).numberTexts = value.numbers.map Number.text
  | .null | .boolean _ | .string _ | .number _ => rfl
  | .list elements => numberTextsOfList_ofJsonList elements
  | .map entries => numberTextsOfMap_ofJsonMap entries

theorem numberTextsOfList_ofJsonList : (elements : List Json) →
    numberTextsOfList (ofJsonList elements) = (Json.numbersOfList elements).map Number.text
  | [] => rfl
  | value :: rest => by
    rw [ofJsonList, numberTextsOfList, numberTexts_ofJson value, numberTextsOfList_ofJsonList rest,
      ← List.map_append]
    rfl

theorem numberTextsOfMap_ofJsonMap : (entries : List (String × Json)) →
    numberTextsOfMap (ofJsonMap entries) = (Json.numbersOfMap entries).map Number.text
  | [] => rfl
  | (name, value) :: rest => by
    rw [ofJsonMap, numberTextsOfMap, numberTexts_ofJson value, numberTextsOfMap_ofJsonMap rest,
      ← List.map_append]
    rfl

end

/-- Every value comes back from its attribute. The attribute holds the texts of the value's numbers, in their
order; each is read as the number that it was written for, and shows whether that is a float. -/
theorem ofJson_lossless (value : Json) :
    toJson (ofJson value) = .ok value ∧
      (ofJson value).numberTexts = value.numbers.map Number.text ∧
      ∀ n ∈ value.numbers, readNumber n.text = .ok n ∧
        (n.isFloat = true ↔ '.' ∈ n.text.toList ∨ 'e' ∈ n.text.toList) :=
  ⟨toJson_ofJson value, numberTexts_ofJson value,
    fun n _ => ⟨readNumber_text n, n.isFloat_iff_mem_text⟩⟩

end Attribute

end KeyedRecords
