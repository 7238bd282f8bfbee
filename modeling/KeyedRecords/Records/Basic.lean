import KeyedRecords.Model
import KeyedRecords.Schema.Encoding
import KeyedRecords.Store.Program

/-! The records of a model, and the commands on a single one. A command resolves the key from its arguments, checks
and encodes the fields, and only then asks the store. -/

namespace KeyedRecords

/-- How records of a type go to JSON and come back, and which identifier one has. -/
structure RecordForm (ρ : Type) where
  toJson : ρ → Json
  /-- The record of a value, or why it is none. -/
  ofJson : Json → Except String ρ
  id? : ρ → Option String
  /-- Why a record has no JSON, where it has none. -/
  refusal? : ρ → Option String := fun _ => none

def RecordForm.write {ρ : Type} (form : RecordForm ρ) (record : ρ) : Except String Json :=
  match form.refusal? record with
  | some reason => .error reason
  | none => .ok (form.toJson record)

structure Records (ρ : Type) where
  model : Model
  form : RecordForm ρ
  /-- Applied to the fields of a record to create, before keys are resolved and fields are checked. -/
  shape : Json.Map → Json.Map := id

namespace Records

variable {ρ : Type}

def read (records : Records ρ) (item : Item) : Result ρ :=
  let model := records.model
  match model.layout.dataOf? item with
  | none => throw (.invalidValue (.noData model.name model.layout.dataName))
  | some data => do
    let value ← model.schema.decode data
    (records.form.ofJson value).mapError fun reason => .invalidValue (.refused reason)

def fieldsOf (records : Records ρ) (record : ρ) : Result Arguments := do
  let json ← (records.form.write record).mapError fun reason => .invalidValue (.refused reason)
  Arguments.ofJson json

def encode (records : Records ρ) (fields : Arguments) : Result (Key × Item) := do
  let model := records.model
  let key ← model.keys.key fields
  let data ← model.schema.encode model.name (.map (Arguments.stored fields))
  pure (key, data)

def get (records : Records ρ) (args : Arguments) : Command ρ := do
  let model := records.model
  let key ← model.keys.key args
  match ← Command.ask (.getItem model.layout key) with
  | some item => records.read item
  | none => throw (.recordNotFound model.name key)

/-- The fields of a record to create, with a new identifier if they have none. -/
def identified (fields : Arguments) : Command Arguments := do
  if Arguments.has fields "id" then pure fields
  else
    let id ← Command.newIdentifier
    pure (Assoc.insert fields "id" (.string id.text))

/-- Stores a new record; fails if its key is taken. -/
def create (records : Records ρ) (fields : Arguments) : Command ρ := do
  let model := records.model
  let fields ← identified fields
  let (key, data) ← records.encode (Assoc.ofList (records.shape fields))
  let time ← Command.now
  let item := model.layout.newItem key data time
  match ← Command.attempt (.putItem model.layout item (some .absent)) with
  | .ok () => records.read item
  | .error (.conditionFailed _) => throw (.duplicateRecord model.name key)
  | .error e => throw (.store e)

def createRecord (records : Records ρ) (record : ρ) : Command ρ := do
  let fields ← records.fieldsOf record
  records.create fields

/-- The fields that an update changes: what is stored of the arguments, but neither the identifier nor
nulls. -/
def changes (args : Arguments) : Json.Map :=
  (Assoc.erase (Arguments.stored args) "id").filter fun (_, value) => !value.isNull

/-- What an update sets: the time, and each encoded field whole. -/
def updateItem (layout : TableLayout) (data : Item) (time : String) : Item :=
  let marked := Assoc.ofList (data.map fun (name, value) => (name ++ replaceMark, value))
  let stamped := [(updatedName, Attribute.string time)]
  if data.isEmpty then stamped else Assoc.insert stamped layout.dataName (.map marked)

/-- Changes the given fields of a stored record; fails if there is none. -/
def update (records : Records ρ) (args : Arguments) : Command ρ := do
  let model := records.model
  let key ← model.keys.key args
  let data ← model.schema.encodePartial model.name (changes args)
  let time ← Command.now
  let update := Update.set (updateItem model.layout data time)
  match ← Command.attempt (.updateItem model.layout key update (some .present)) with
  | .ok item => records.read item
  | .error (.conditionFailed _) => throw (.recordNotFound model.name key)
  | .error e => throw (.store e)

def deleteKey (records : Records ρ) (key : Key) : Command Bool := do
  pure (← Command.ask (.deleteItem records.model.layout key)).isSome

def delete (records : Records ρ) (args : Arguments) : Command Nat := do
  let key ← records.model.keys.key args
  pure (← records.deleteKey key).toNat

/-- Stores a record over what its key holds, or as a new one if it has no identifier; the record as it is
known afterwards. -/
def save (records : Records ρ) (record : ρ) : Command ρ := do
  match records.form.id? record with
  | none => records.createRecord record
  | some _ =>
    let fields ← records.fieldsOf record
    let (key, data) ← records.encode fields
    let time ← Command.now
    let layout := records.model.layout
    let item := Assoc.insert (layout.newItem key data time) updatedName (.string time)
    let _ ← Command.ask (.putItem layout item none)
    pure record

def remove (records : Records ρ) (record : ρ) : Command Bool := do
  let args ← records.fieldsOf record
  pure (decide (0 < (← records.delete args)))

end Records

end KeyedRecords
