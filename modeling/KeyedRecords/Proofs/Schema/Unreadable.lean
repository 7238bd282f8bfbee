import KeyedRecords.Records.Basic

/-! What reading stored values can fail with: a field that is missing, a value of the wrong type, or one that cannot
be turned into the form it is needed in. In particular a stored item is never reported as not found. Main
statements: `Schema.decode_unreadable`, `Records.read_unreadable`. -/

namespace KeyedRecords

/-- Whether a failure says that a stored value cannot be read. -/
def RecordError.Unreadable : RecordError → Prop
  | .missingRequiredField _ | .typeMismatch .. | .invalidValue _ => True
  | _ => False

/-- Whether a result can only be a failure to read a stored value. -/
def OnlyUnreadable {α : Type} (result : Result α) : Prop :=
  ∀ failure, result = .error failure → failure.Unreadable

section Results

variable {α β : Type}

theorem onlyUnreadable_pure (a : α) : OnlyUnreadable (pure a : Result α) := by
  intro failure h
  cases h

theorem onlyUnreadable_throw {failure : RecordError} (h : failure.Unreadable) :
    OnlyUnreadable (throw failure : Result α) := by
  intro other hother
  cases hother
  exact h

theorem OnlyUnreadable.bind {x : Result α} (hx : OnlyUnreadable x) {f : α → Result β}
    (hf : ∀ a, OnlyUnreadable (f a)) : OnlyUnreadable (x >>= f) := by
  cases x with
  | ok a => exact hf a
  | error failure =>
    intro other hother
    cases hother
    exact hx failure rfl

theorem onlyUnreadable_mapM {f : α → Result β} {l : List α} (h : ∀ a ∈ l, OnlyUnreadable (f a)) :
    OnlyUnreadable (l.mapM f) := by
  induction l with
  | nil => exact onlyUnreadable_pure []
  | cons first rest ih =>
    rw [List.mapM_cons]
    refine (h first List.mem_cons_self).bind fun _ => ?_
    exact (ih fun a ha => h a (List.mem_cons_of_mem _ ha)).bind fun _ => onlyUnreadable_pure _

end Results

namespace Attribute

theorem readNumber_unreadable (text : String) : OnlyUnreadable (readNumber text) := by
  unfold readNumber
  split
  · exact onlyUnreadable_pure _
  · exact onlyUnreadable_throw trivial

mutual

theorem toJson_unreadable : (value : Attribute) → OnlyUnreadable value.toJson
  | .null | .boolean _ | .string _ => onlyUnreadable_pure _
  | .number text => (readNumber_unreadable text).bind fun _ => onlyUnreadable_pure _
  | .list elements => (toJsonList_unreadable elements).bind fun _ => onlyUnreadable_pure _
  | .map entries => (toJsonMap_unreadable entries).bind fun _ => onlyUnreadable_pure _

theorem toJsonList_unreadable : (elements : List Attribute) → OnlyUnreadable (toJsonList elements)
  | [] => onlyUnreadable_pure _
  | value :: rest =>
    (toJson_unreadable value).bind fun _ => (toJsonList_unreadable rest).bind fun _ => onlyUnreadable_pure _

theorem toJsonMap_unreadable : (entries : Item) → OnlyUnreadable (toJsonMap entries)
  | [] => onlyUnreadable_pure _
  | (_, value) :: rest =>
    (toJson_unreadable value).bind fun _ => (toJsonMap_unreadable rest).bind fun _ => onlyUnreadable_pure _

end

end Attribute

mutual

theorem FieldType.decode_unreadable (path : String) :
    (type : FieldType) → (value : Attribute) → OnlyUnreadable (type.decode path value)
  | .text, value | .timestamp, value | .boolean, value => by
    cases value <;> first | exact onlyUnreadable_pure _ | exact onlyUnreadable_throw trivial
  | .number, value => by
    cases value with
    | number text => exact (Attribute.readNumber_unreadable text).bind fun _ => onlyUnreadable_pure _
    | _ => exact onlyUnreadable_throw trivial
  | .map, value => by
    cases value with
    | map entries => exact (Attribute.toJsonMap_unreadable entries).bind fun _ => onlyUnreadable_pure _
    | _ => exact onlyUnreadable_throw trivial
  | .list element, value => by
    cases value with
    | list values =>
      refine (onlyUnreadable_mapM fun entry _ => ?_).bind fun _ => onlyUnreadable_pure _
      exact FieldType.decode_unreadable (elementPath path entry.2) element entry.1
    | _ => exact onlyUnreadable_throw trivial
  | .object fields, value => by
    cases value with
    | map entries => exact (decodeFields_unreadable path entries fields).bind fun _ => onlyUnreadable_pure _
    | _ => exact onlyUnreadable_throw trivial

theorem decodeFields_unreadable (parent : String) (item : Item) :
    (fields : List (FieldOf FieldType)) → OnlyUnreadable (decodeFields parent item fields)
  | [] => onlyUnreadable_pure _
  | ⟨name, type, presence⟩ :: rest => by
    have hrest := decodeFields_unreadable parent item rest
    have hstored := FieldType.decode_unreadable (fieldPath parent name) type
    simp only [decodeFields]
    split
    · exact hrest.bind fun _ => onlyUnreadable_pure _
    · exact hrest.bind fun _ => onlyUnreadable_pure _
    · exact onlyUnreadable_throw trivial
    · exact onlyUnreadable_throw trivial
    · exact hrest.bind fun _ => onlyUnreadable_pure _
    · exact hrest
    · exact (hstored _).bind fun _ => hrest.bind fun _ => onlyUnreadable_pure _

end

theorem Schema.decode_unreadable (schema : Schema) (item : Item) : OnlyUnreadable (schema.decode item) :=
  (decodeFields_unreadable "" item schema).bind fun _ => onlyUnreadable_pure _

/-- What reading a stored item fails with is never that there is none. -/
theorem Records.read_unreadable {ρ : Type} (records : Records ρ) (item : Item) :
    OnlyUnreadable (records.read item) := by
  simp only [read]
  split
  · exact onlyUnreadable_throw trivial
  · refine (Schema.decode_unreadable _ _).bind fun value => ?_
    cases records.form.ofJson value with
    | ok record => exact onlyUnreadable_pure record
    | error reason => exact onlyUnreadable_throw trivial

end KeyedRecords
