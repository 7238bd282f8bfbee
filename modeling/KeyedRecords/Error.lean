import KeyedRecords.Json
import KeyedRecords.Key.Basic
import KeyedRecords.Text.Base64
import KeyedRecords.Text.Quoted
import KeyedRecords.Text.Utf8

/-! Every way in which a command on records can fail, by cause. `message` gives each its wording. -/

namespace KeyedRecords

/-- Failures of the store. In the last four the wording belongs to the transport, not to us. -/
inductive StoreError where
  | conditionFailed (detail : String)
  | tableNotFound (table : String)
  | throttled (detail : String)
  | validation (detail : String)
  | service (detail : String)
  | connection (detail : String)
  /-- A stored attribute has a type that items cannot hold. -/
  | unsupportedAttribute
  /-- The answer is not of the form that the call asks for. -/
  | unreadable
  /-- No answer came back. -/
  | noResponse
  /-- The request could not be sent. -/
  | unsent
  deriving DecidableEq

/-- The wording of a store failure, where it is ours. -/
def StoreError.message? : StoreError → Option String
  | conditionFailed detail => some ("Condition check failed: " ++ detail)
  | tableNotFound table => some ("Table not found: " ++ table)
  | throttled detail => some ("Throughput exceeded: " ++ detail)
  | validation detail => some ("Invalid request: " ++ detail)
  | service detail => some ("Service error: " ++ detail)
  | connection detail => some ("Connection failed: " ++ detail)
  | unsupportedAttribute | unreadable | noResponse | unsent => none

inductive TemplateFault where
  | nestedBrace
  | unclosedBrace
  | emptyField
  | unmatchedBrace
  deriving DecidableEq, Repr

def TemplateFault.message : TemplateFault → String
  | nestedBrace => "nested '\x7b'"
  | unclosedBrace => "unclosed '\x7b'"
  | emptyField => "empty field name"
  | unmatchedBrace => "unmatched '\x7d'"

inductive CursorFault where
  | base64 (fault : Base64.Fault)
  | utf8 (fault : Utf8.Fault)
  | noSeparator
  | malformedLength
  | lengthOutOfRange
  deriving DecidableEq

def CursorFault.message : CursorFault → String
  | base64 fault => fault.message
  | utf8 fault => fault.message
  | noSeparator => "missing key separator"
  | malformedLength => "malformed partition key length"
  | lengthOutOfRange => "partition key length out of range"

inductive ArgumentFault where
  | notAMap (actual : Kind)
  | notInKey (name : String) (actual : Kind)
  | filterNotScalar (filter : String)
  | filterNotPair (filter : String)
  /-- The sort key is fixed by a filter on its attribute and again through key fields. -/
  | sortKeyTwice (keyName : String)
  | noPartitionKey
  | noTable (model : String)
  | noCounter
  deriving DecidableEq

def ArgumentFault.message : ArgumentFault → String
  | notAMap actual => s!"expected a map of arguments, got {actual.name}"
  | notInKey name actual => s!"'{name}' cannot be used in a key: {actual.name} values are not supported"
  | filterNotScalar filter => s!"filter '{filter}' needs a scalar value"
  | filterNotPair filter => s!"filter '{filter}' needs a two-element list"
  | sortKeyTwice keyName => s!"sort key given both as '{keyName}' filter and through key fields"
  | noPartitionKey => "query requires a partition key"
  | noTable model => s!"{model}: no table configured"
  | noCounter => "increment requires at least one counter"

inductive ValueFault where
  | notANumber (text : String)
  | notAMap (model : String) (actual : Kind)
  /-- A stored item lacks the map that holds its record. -/
  | noData (model dataName : String)
  | sumNotFinite (field : String)
  /-- The record type refuses the value. -/
  | refused (reason : String)
  deriving DecidableEq

def ValueFault.message : ValueFault → String
  | notANumber text => s!"Invalid number: {text}"
  | notAMap model actual => s!"{model} must serialize to a map, got {actual.name}"
  | noData model dataName => s!"{model}: stored item has no '{dataName}' map"
  | sumNotFinite field => s!"'{field}' sum is not a finite number"
  | refused reason => reason

inductive RecordError where
  | missingKeyField (model field : String)
  | unsupportedFilter (filter suffix : String)
  | invalidFilterField (field : String)
  | missingRequiredField (field : String)
  | recordNotFound (model : String) (key : Key)
  | duplicateRecord (model : String) (key : Key)
  | unknownFields (model : String) (fields : List String)
  | typeMismatch (field : String) (expected actual : Kind)
  | invalidTemplate (template : String) (fault : TemplateFault)
  | invalidCursor (fault : CursorFault)
  | invalidArguments (fault : ArgumentFault)
  | invalidValue (fault : ValueFault)
  | store (error : StoreError)
  deriving DecidableEq

def RecordError.message? : RecordError → Option String
  | missingKeyField model field => some s!"{model}: missing key field '{field}'"
  | unsupportedFilter filter suffix => some s!"Unsupported filter '{filter}': unknown suffix '__{suffix}'"
  | invalidFilterField field => some s!"Invalid filter field '{field}': not part of the key schema"
  | missingRequiredField field => some s!"Missing required field '{field}'"
  | recordNotFound model key => some s!"{model} not found: {key.display}"
  | duplicateRecord model key => some s!"{model} already exists: {key.display}"
  | unknownFields model fields => some s!"{model}: unexpected field(s) {Text.Quoted.quoteList fields}"
  | typeMismatch field expected actual =>
    some s!"Field '{field}' expected {expected.name}, got {actual.name}"
  | invalidTemplate template fault => some s!"Invalid key template '{template}': {fault.message}"
  | invalidCursor fault => some s!"Invalid cursor: {fault.message}"
  | invalidArguments fault => some s!"Invalid arguments: {fault.message}"
  | invalidValue fault => some s!"Serialization error: {fault.message}"
  | store error => error.message?

/-- The name of a field within its parent, in error messages. -/
def fieldPath (parent name : String) : String := if parent.isEmpty then name else parent ++ "." ++ name

abbrev Result (α : Type) := Except RecordError α

theorem bind_eq_ok {ε α β : Type} {x : Except ε α} {f : α → Except ε β} {b : β} :
    x >>= f = .ok b ↔ ∃ a, x = .ok a ∧ f a = .ok b := by
  cases x with
  | error e => simp [bind, Except.bind]
  | ok a => simp [bind, Except.bind]

theorem bind_eq_error {ε α β : Type} {x : Except ε α} {f : α → Except ε β} {e : ε} :
    x >>= f = .error e ↔ x = .error e ∨ ∃ a, x = .ok a ∧ f a = .error e := by
  cases x with
  | error failure => simp [bind, Except.bind]
  | ok a => simp [bind, Except.bind]

theorem pure_eq_ok {ε α : Type} {a b : α} : (pure a : Except ε α) = .ok b ↔ b = a :=
  ⟨fun h => (Except.ok.inj h).symm, fun h => congrArg _ h.symm⟩

theorem pair_eq_ok {ε α β γ : Type} {x : Except ε α} {y : Except ε β} {f : α → β → γ} {c : γ} :
    (do let a ← x; pure (f a (← y))) = .ok c ↔ ∃ a b, x = .ok a ∧ y = .ok b ∧ c = f a b := by
  cases x <;> cases y <;> simp [bind, Except.bind, pure, Except.pure, eq_comm]

theorem map_eq_error {ε α β : Type} {x : Except ε α} {f : α → β} {e : ε} :
    (do pure (f (← x))) = .error e ↔ x = .error e := by
  cases x <;> simp [bind, Except.bind, pure, Except.pure]

theorem map_eq_ok {ε α β : Type} {x : Except ε α} {f : α → β} {b : β} :
    (do pure (f (← x))) = .ok b ↔ ∃ a, x = .ok a ∧ b = f a := by
  cases x <;> simp [bind, Except.bind, pure, Except.pure, eq_comm]

theorem mapError_eq_ok {ε ε' α : Type} {f : ε → ε'} {x : Except ε α} {a : α} : x.mapError f = .ok a ↔ x = .ok a := by
  cases x with
  | error e => exact iff_of_false nofun nofun
  | ok b => exact ⟨fun h => congrArg _ (Except.ok.inj h), fun h => congrArg _ (Except.ok.inj h)⟩

theorem checked_eq_ok {ε α β : Type} {p : Prop} [Decidable p] {e : ε} {next : α → Except ε β} {result : Except ε β}
    {b : β} :
    (if p then (throw e : Except ε α) >>= next else result) = .ok b ↔ ¬ p ∧ result = .ok b := by
  split
  · rename_i hp
    exact iff_of_false nofun fun h => h.1 hp
  · rename_i hp
    exact ⟨fun h => ⟨hp, h⟩, And.right⟩

end KeyedRecords
