import KeyedRecords.Attribute

/-! Which table items are kept in, and under which attribute names an item has its key and its data. -/

namespace KeyedRecords

structure TableLayout where
  table : String
  partitionName : String := "pk"
  sortName : String := "sk"
  dataName : String := "data"
  deriving DecidableEq, Repr, Inhabited

def createdName : String := "created"

def updatedName : String := "updatedAt"

namespace TableLayout

/-- A layout with the usual attribute names, for the table that an environment variable names if it is
set, or else for the given one. -/
def ofEnvironment (setting? : Option String) (table : String) : TableLayout :=
  { table := setting?.getD table }

def keyItem (layout : TableLayout) (key : Key) : Item :=
  Assoc.ofList [(layout.partitionName, .string key.partition), (layout.sortName, .string key.sort)]

/-- The key that an item carries, if both key attributes are strings. -/
def keyOf? (layout : TableLayout) (item : Item) : Option Key := do
  let partition ← (← Assoc.find? item layout.partitionName).asString?
  let sort ← (← Assoc.find? item layout.sortName).asString?
  pure ⟨partition, sort⟩

def dataOf? (layout : TableLayout) (item : Item) : Option Item := do
  (← Assoc.find? item layout.dataName).asMap?

/-- An item as it is first written: its key, its data and the time. -/
def newItem (layout : TableLayout) (key : Key) (data : Item) (created : String) : Item :=
  Assoc.insert (Assoc.insert (layout.keyItem key) layout.dataName (.map data)) createdName (.string created)

end TableLayout

end KeyedRecords
