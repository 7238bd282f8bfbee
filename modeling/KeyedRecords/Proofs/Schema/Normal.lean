import KeyedRecords.Schema.Encoding

/-! The normal form of a record: what storing it and reading it back makes of it. Fields that are absent or
null are left out, or have their default where one is declared, at every declared level. What is free in its
contents stays as it is. -/

namespace KeyedRecords

/-! ## Schemas without repeated names -/

mutual

/-- Whether the names of the fields are distinct at every level that a type declares. -/
def FieldType.Distinct : FieldType → Prop
  | .list element => element.Distinct
  | .object fields => DistinctFields fields
  | .text | .number | .boolean | .timestamp | .map => True

/-- Whether the names of some fields are distinct, at this level and below. -/
def DistinctFields : List (FieldOf FieldType) → Prop
  | [] => True
  | ⟨name, type, _⟩ :: rest => (∀ field ∈ rest, field.name ≠ name) ∧ type.Distinct ∧ DistinctFields rest

end

/-- Whether the names of the fields are distinct at every declared level. -/
def Schema.Distinct (schema : Schema) : Prop := DistinctFields schema

/-! ## Normal forms -/

mutual

/-- A value of a declared type with the fields of its objects in normal form. -/
def FieldType.normalise : FieldType → Json → Json
  | .list element, .list values => .list (values.map element.normalise)
  | .object fields, .map entries => .map (Assoc.ofList (normaliseFields entries fields))
  | _, value => value

/-- The declared fields of a record that have a value in it or a default. -/
def normaliseFields (entries : Json.Map) : List (FieldOf FieldType) → Json.Map
  | [] => []
  | ⟨name, type, presence⟩ :: rest =>
    match givenValue? entries name, presence with
    | some value, _ => (name, type.normalise value) :: normaliseFields entries rest
    | none, .default value => (name, type.normalise value) :: normaliseFields entries rest
    | none, .required | none, .optional => normaliseFields entries rest

end

def Schema.normalise (schema : Schema) : Json → Json
  | .map entries => .map (Assoc.ofList (normaliseFields entries schema))
  | value => value

end KeyedRecords
