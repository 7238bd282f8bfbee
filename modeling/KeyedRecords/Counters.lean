import KeyedRecords.Update.Basic

/-! Adding a map of counters to the ones stored. The result holds what has to be set: sums and new fields, and a
nested map that is new as a whole, under a marked name. -/

namespace KeyedRecords.Counters

def sum (field : String) (stored added : Number) : Result Number :=
  match stored.add? added with
  | some total => pure total
  | none => throw (.invalidValue (.sumNotFinite field))

def newName (name : String) : Json → String
  | .map _ => name ++ replaceMark
  | _ => name

mutual

/-- What has to be set in the place of a stored value: nothing, when an added map brings nothing. -/
def mergeValue (field : String) (stored : Json) : Json → Result (Option Json)
  | .map added =>
    match stored with
    | .map entries => do
      let merged ← mergeEntries field entries added
      pure (if merged.isEmpty then none else some (.map (Assoc.ofList merged)))
    | other => throw (.typeMismatch field other.kind .map)
  | .number added =>
    match stored with
    | .number current => do pure (some (.number (← sum field current added)))
    | other => throw (.typeMismatch field other.kind .number)
  | other => throw (.typeMismatch field stored.kind other.kind)

/-- What has to be set in a stored map, below a field or at the top. -/
def mergeEntries (parent : String) (stored : Json.Map) : List (String × Json) → Result Json.Map
  | [] => pure []
  | (name, value) :: rest =>
    match Assoc.find? stored name with
    | none => do pure ((newName name value, value) :: (← mergeEntries parent stored rest))
    | some current => do
      match ← mergeValue (fieldPath parent name) current value with
      | some merged => do pure ((name, merged) :: (← mergeEntries parent stored rest))
      | none => mergeEntries parent stored rest

end

def nest (path? : Option String) (added : Json.Map) : Json.Map :=
  match path? with
  | some path => [(path, .map added)]
  | none => added

/-- What has to be set in stored counters to add some more. -/
def merge (stored added : Json.Map) (path? : Option String) : Result Json.Map :=
  if stored.isEmpty then pure (nest path? added)
  else do pure (Assoc.ofList (← mergeEntries "" stored (nest path? added)))

/-- The first field, in the order of names, that is neither a number nor a map of counters. -/
def firstOther? (parent : String) : List (String × Json) → Option (String × Json)
  | [] => none
  | (_, .number _) :: rest => firstOther? parent rest
  | (name, .map inner) :: rest => (firstOther? (fieldPath parent name) inner).or (firstOther? parent rest)
  | (name, other) :: _ => some (fieldPath parent name, other)

end KeyedRecords.Counters
