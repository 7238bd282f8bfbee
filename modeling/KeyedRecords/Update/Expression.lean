import KeyedRecords.Assoc
import KeyedRecords.Update.Basic

/-! An update as text over placeholders: `#n0`, `#n1`, … for the names on its paths, one for each different name, and
`:v0`, `:v1`, … for its values, one for each assignment. -/

namespace KeyedRecords

/-- An update as text, and what its placeholders stand for. -/
structure UpdateExpression where
  text : String
  names : List (String × String)
  values : Item
  deriving DecidableEq

namespace Update

def pathNames (update : Update) : List String := (update.assignments.flatMap (·.path)).eraseDups

/-- A stem and a number; for what is told apart by the number. -/
def placeholder (stem : String) (index : Nat) : String := s!"{stem}{index}"

abbrev namePlaceholder : Nat → String := placeholder "#n"

abbrev valuePlaceholder : Nat → String := placeholder ":v"

def pathExpression (names path : List String) : String :=
  ".".intercalate (path.map fun name => namePlaceholder (names.idxOf name))

def keyword : UpdateAction → String
  | .set => "SET"
  | .add => "ADD"

/-- What stands between a path and its value. -/
def joint : UpdateAction → String
  | .set => " = "
  | .add => " "

def clauses (update : Update) : List String :=
  let names := update.pathNames
  update.assignments.zipIdx.map fun (assignment, i) =>
    pathExpression names assignment.path ++ joint update.action ++ valuePlaceholder i

def expression (update : Update) : UpdateExpression where
  text := keyword update.action ++ " " ++ ", ".intercalate update.clauses
  names := Assoc.ofList (update.pathNames.zipIdx.map fun (name, i) => (namePlaceholder i, name))
  values := Assoc.ofList (update.assignments.zipIdx.map fun (assignment, i) =>
    (valuePlaceholder i, assignment.value))

end Update

end KeyedRecords
