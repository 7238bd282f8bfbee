import KeyedRecords.Proofs.Number.FloatText

/-! A JSON value survives its way into an attribute and back: `toJson_ofJson`. -/

namespace KeyedRecords.Attribute

mutual

theorem toJson_ofJson : (value : Json) → toJson (ofJson value) = .ok value
  | .null => rfl
  | .boolean _ => rfl
  | .string _ => rfl
  | .number n => by
    rw [ofJson, toJson, readNumber_text]
    rfl
  | .list elements => by
    rw [ofJson, toJson, toJsonList_ofJsonList elements]
    rfl
  | .map entries => by
    rw [ofJson, toJson, toJsonMap_ofJsonMap entries]
    rfl

theorem toJsonList_ofJsonList : (elements : List Json) →
    toJsonList (ofJsonList elements) = .ok elements
  | [] => rfl
  | value :: rest => by
    rw [ofJsonList, toJsonList, toJson_ofJson value, toJsonList_ofJsonList rest]
    rfl

theorem toJsonMap_ofJsonMap : (entries : List (String × Json)) →
    toJsonMap (ofJsonMap entries) = .ok entries
  | [] => rfl
  | (name, value) :: rest => by
    rw [ofJsonMap, toJsonMap, toJson_ofJson value, toJsonMap_ofJsonMap rest]
    rfl

end

end KeyedRecords.Attribute
