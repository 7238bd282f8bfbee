import KeyedRecords.Error

/-! Named JSON values given to a command: key fields, filters, or the fields of a record. -/

namespace KeyedRecords

/-- The text of a scalar as it stands in a key: nothing for null. A list or a map has none. -/
def Json.segment? : Json → Except Kind (Option String)
  | .null => .ok none
  | .string text => .ok (some text)
  | .number value => .ok (some value.text)
  | .boolean value => .ok (some (if value then "true" else "false"))
  | other => .error other.kind

abbrev Arguments := Json.Map

namespace Arguments

def ofJson : Json → Result Arguments
  | .map entries => .ok entries
  | other => .error (.invalidArguments (.notAMap other.kind))

def has (args : Arguments) (name : String) : Bool :=
  (Assoc.find? args name).any (!·.isNull)

/-- Whether a name is private: seen by key strategies, never stored. -/
def isPrivate (name : String) : Bool := name.toList.head? = some '_'

/-- The arguments that are stored with a record. -/
def stored (args : Arguments) : Json.Map := args.filter fun (name, _) => !isPrivate name

/-- The value of a name as part of a key; nothing when it is absent or null. -/
def segment? (args : Arguments) (name : String) : Result (Option String) :=
  match Assoc.find? args name with
  | none => .ok none
  | some value =>
    match value.segment? with
    | .ok segment => .ok segment
    | .error kind => .error (.invalidArguments (.notInKey name kind))

end Arguments

end KeyedRecords
