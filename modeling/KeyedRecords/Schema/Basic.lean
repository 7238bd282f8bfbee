import KeyedRecords.Json

/-! The declared fields of a kind of record: the type of each, and what happens when it is absent. -/

namespace KeyedRecords

/-- What the absence of a field means. -/
inductive Presence where
  | required
  | optional
  | default (value : Json)
  deriving DecidableEq

/-- A declared field, over the types that fields can have. -/
structure FieldOf (τ : Type) where
  name : String
  type : τ
  presence : Presence

/-- The types of fields. `map` is free in its contents, `object` declares them. -/
inductive FieldType where
  | text
  | number
  | boolean
  | timestamp
  | map
  | list (element : FieldType)
  | object (fields : List (FieldOf FieldType))

abbrev Field := FieldOf FieldType

abbrev Schema := List Field

namespace FieldType

def kind : FieldType → Kind
  | text => .string
  | number => .number
  | boolean => .boolean
  | timestamp => .timestamp
  | map | object _ => .map
  | list _ => .list

/-- The value that a defaulted field has when absent; a timestamp has none. -/
def defaultValue? : FieldType → Option Json
  | text => some (.string "")
  | number => some (.number .zero)
  | boolean => some (.boolean false)
  | timestamp => none
  | map | object _ => some (.map [])
  | list _ => some (.list [])

end FieldType

/-- A field that falls back to the default of its type, or is optional if there is none. -/
def FieldOf.defaulted (name : String) (type : FieldType) : Field :=
  ⟨name, type, type.defaultValue?.elim .optional .default⟩

def FieldOf.isRequired (field : Field) : Bool := field.presence = .required

namespace Schema

def field? (schema : Schema) (name : String) : Option Field := schema.find? (·.name = name)

def contains (schema : Schema) (name : String) : Bool := (schema.field? name).isSome

/-- The schema of a record: an optional text `id` precedes the fields unless they declare it. -/
def forRecord (fields : Schema) : Schema :=
  if fields.contains "id" then fields else ⟨"id", .text, .optional⟩ :: fields

end Schema

end KeyedRecords
