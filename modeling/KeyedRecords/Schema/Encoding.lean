import KeyedRecords.Attribute
import KeyedRecords.Schema.Basic
import KeyedRecords.Text.Timestamp

/-! Between the JSON form of a record and the attributes it is stored as, along the declared fields. A null is never
written for a declared field; a full encoding writes the defaults of absent ones. -/

namespace KeyedRecords

def elementPath (parent : String) (index : Nat) : String := s!"{parent}[{index}]"

/-- The value given for a name, unless it is null. -/
def givenValue? (entries : Json.Map) (name : String) : Option Json :=
  (Assoc.find? entries name).filter (!·.isNull)

def Schema.undeclared (schema : Schema) (entries : Json.Map) : List String :=
  (Assoc.keys entries).filter (!schema.contains ·)

mutual

def FieldType.encode (path : String) : FieldType → Json → Result Attribute
  | .text, .string text => pure (.string text)
  | .number, .number value => pure (.number value.text)
  | .boolean, .boolean value => pure (.boolean value)
  | .timestamp, .string text =>
    if Timestamp.isValid text then pure (.string text) else throw (.typeMismatch path .timestamp .string)
  | .map, .map entries => pure (.ofJson (.map entries))
  | .list element, .list values => do
    pure (.list (← values.zipIdx.mapM fun (value, i) => element.encode (elementPath path i) value))
  | .object fields, .map entries =>
    match Schema.undeclared fields entries with
    | [] => do pure (.map (Assoc.ofList (← encodeFields path entries fields)))
    | names => throw (.unknownFields path (names.map (fieldPath path)))
  | expected, value => throw (.typeMismatch path expected.kind value.kind)

/-- The attributes of all declared fields: each given value, or the default of an absent one. -/
def encodeFields (parent : String) (entries : Json.Map) : List (FieldOf FieldType) → Result Item
  | [] => pure []
  | ⟨name, type, presence⟩ :: rest =>
    match givenValue? entries name, presence with
    | some value, _ => do
      let encoded ← type.encode (fieldPath parent name) value
      pure ((name, encoded) :: (← encodeFields parent entries rest))
    | none, .required => throw (.missingRequiredField (fieldPath parent name))
    | none, .optional => encodeFields parent entries rest
    | none, .default value =>
      if value.isNull then encodeFields parent entries rest
      else do
        let encoded ← type.encode (fieldPath parent name) value
        pure ((name, encoded) :: (← encodeFields parent entries rest))

end

/-- The attributes of the given fields alone. -/
def encodeGiven (entries : Json.Map) : Schema → Result Item
  | [] => pure []
  | ⟨name, type, _⟩ :: rest =>
    match givenValue? entries name with
    | some value => do
      let encoded ← type.encode name value
      pure ((name, encoded) :: (← encodeGiven entries rest))
    | none => encodeGiven entries rest

mutual

def FieldType.decode (path : String) : FieldType → Attribute → Result Json
  | .text, .string text => pure (.string text)
  | .timestamp, .string text => pure (.string text)
  | .number, .number text => do pure (.number (← Attribute.readNumber text))
  | .boolean, .boolean value => pure (.boolean value)
  | .map, .map entries => do pure (.map (← Attribute.toJsonMap entries))
  | .list element, .list values => do
    pure (.list (← values.zipIdx.mapM fun (value, i) => element.decode (elementPath path i) value))
  | .object fields, .map entries => do
    pure (.map (Assoc.ofList (← decodeFields path entries fields)))
  | expected, value => throw (.typeMismatch path expected.kind value.kind)

/-- The values of all declared fields; attributes that no field declares are passed over. -/
def decodeFields (parent : String) (item : Item) : List (FieldOf FieldType) → Result Json.Map
  | [] => pure []
  | ⟨name, type, presence⟩ :: rest =>
    match Assoc.find? item name, presence with
    | none, .default value | some .null, .default value => do
      pure ((name, value) :: (← decodeFields parent item rest))
    | none, .required | some .null, .required => throw (.missingRequiredField (fieldPath parent name))
    | some .null, .optional => do pure ((name, .null) :: (← decodeFields parent item rest))
    | none, .optional => decodeFields parent item rest
    | some stored, _ => do
      let value ← type.decode (fieldPath parent name) stored
      pure ((name, value) :: (← decodeFields parent item rest))

end

namespace Schema

def checkDeclared (schema : Schema) (model : String) (entries : Json.Map) : Result Unit :=
  match schema.undeclared entries with
  | [] => pure ()
  | names => throw (.unknownFields model names)

def encode (schema : Schema) (model : String) (record : Json) : Result Item := do
  match record with
  | .map entries =>
    schema.checkDeclared model entries
    pure (Assoc.ofList (← encodeFields "" entries schema))
  | other => throw (.invalidValue (.notAMap model other.kind))

/-- The attributes of some fields of a record: no field is required here, and none is defaulted. -/
def encodePartial (schema : Schema) (model : String) (entries : Json.Map) : Result Item := do
  schema.checkDeclared model entries
  pure (Assoc.ofList (← encodeGiven entries schema))

def decode (schema : Schema) (item : Item) : Result Json := do
  pure (.map (Assoc.ofList (← decodeFields "" item schema)))

end Schema

end KeyedRecords
