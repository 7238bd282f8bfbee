import KeyedRecords.Number.Reader
import KeyedRecords.Service.Value

/-! What the JSON of a response has to look like. A body is taken only as a whole: one known member of the wrong type
makes all of it unreadable, even where the member itself is of no use, while members that are not known may hold
anything. -/

namespace KeyedRecords

/-- The type of a part of a body. -/
inductive BodyType where
  | string
  | boolean
  /-- An integer between two bounds, which may be written as a float. -/
  | integer (least greatest : Int)
  /-- A float; one that is not finite is written as a string. -/
  | float
  /-- A point in time, in seconds. -/
  | time
  /-- An attribute value. -/
  | value
  | list (element : BodyType)
  /-- An object whose members are all of one type. -/
  | map (entry : BodyType)
  /-- An object with known members, each of which may be absent or null. -/
  | object (members : List (String × BodyType))
  deriving Inhabited

namespace BodyType

def int32 : BodyType := integer (-2147483648) 2147483647

def int64 : BodyType := integer (-9223372036854775808) 9223372036854775807

def item : BodyType := map value

mutual

/-- Whether JSON is of a type. Null is of none: only a known member of an object may be null. -/
def admits : BodyType → Json → Bool
  | string, .string _ => true
  | boolean, .boolean _ => true
  | integer least greatest, .number n => n.isIntegerWithin least greatest
  | float, .number _ => true
  | float, .string text => Number.isNonFiniteText text
  | time, .number _ => true
  | value, json => (ServiceValue.ofJson? json).isSome
  | list element, .list elements => elements.all fun json => admits element json
  | map entry, .map entries => entries.all fun (_, json) => admits entry json
  | object members, .map entries => admitsMembers members entries
  | _, _ => false

/-- Whether the known members of an object are each of their type, absent or null. -/
def admitsMembers : List (String × BodyType) → Json.Map → Bool
  | [], _ => true
  | (name, type) :: rest, entries =>
    ((Assoc.find? entries name).all fun json => json.isNull || admits type json) &&
      admitsMembers rest entries

end

/-- The members of a body, if it is an object and its known members are of their types. -/
def members? (known : List (String × BodyType)) (json : Json) : Option Json.Map :=
  if (object known).admits json then json.asMap? else none

end BodyType

end KeyedRecords
