import KeyedRecords.Attribute

/-! An update sets, or adds to, the attributes at some paths of an item. Paths run through nested maps. -/

namespace KeyedRecords

inductive UpdateAction where
  | set
  | add
  deriving DecidableEq, Repr

structure Assignment where
  path : List String
  value : Attribute
  deriving DecidableEq

structure Update where
  action : UpdateAction
  assignments : List Assignment
  deriving DecidableEq

/-- A name ending in the mark `:$` stands for the name before it, with its value to be taken whole. -/
def replaceMark : String := ":$"

/-- The name that a possibly marked name stands for, and whether it was marked. -/
def unmark (name : String) : String × Bool :=
  match name.toList.reverse with
  | '$' :: ':' :: front => (String.ofList front.reverse, true)
  | _ => (name, false)

mutual

/-- The assignments that set a value at a path: a map is entered, unless it is empty or to be taken
whole. -/
def setAt (path : List String) (whole : Bool) : Attribute → List Assignment
  | .map entries => if whole || entries.isEmpty then [⟨path, .map entries⟩] else setEntries path entries
  | value => [⟨path, value⟩]

def setEntries (parent : List String) : Item → List Assignment
  | [] => []
  | (name, value) :: rest =>
    setAt (parent ++ [(unmark name).1]) (unmark name).2 value ++ setEntries parent rest

end

mutual

/-- The assignments that add a value at a path: every map is entered. -/
def addAt (path : List String) : Attribute → List Assignment
  | .map entries => addEntries path entries
  | value => [⟨path, value⟩]

def addEntries (parent : List String) : Item → List Assignment
  | [] => []
  | (name, value) :: rest => addAt (parent ++ [name]) value ++ addEntries parent rest

end

namespace Update

/-- Sets the given attributes; fields beside those given in a nested map stay as they are. -/
def set (item : Item) : Update := ⟨.set, setEntries [] item⟩

/-- Adds every leaf of the given attributes to the number at its path. -/
def add (item : Item) : Update := ⟨.add, addEntries [] item⟩

def isEmpty (update : Update) : Bool := update.assignments.isEmpty

end Update

end KeyedRecords
