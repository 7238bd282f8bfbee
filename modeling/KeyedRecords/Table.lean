import KeyedRecords.Counters
import KeyedRecords.Cursor
import KeyedRecords.Store.Program

/-! Commands on raw items under explicit keys, without a model. -/

namespace KeyedRecords

/-- A table whose items are written and read as JSON. -/
structure Table where
  layout : TableLayout
  /-- Applied to the data of every item that is put. -/
  shape : Json.Map → Json.Map := id

structure TablePage where
  items : List Json
  cursor? : Option Cursor

def itemJson (item : Item) : Result Json := do pure (.map (← Attribute.toJsonMap item))

namespace Table

def put (table : Table) (key : Key) (data : Json.Map) : Command Json := do
  let time ← Command.now
  let stored := Attribute.ofJsonMap (Assoc.ofList (table.shape data))
  let item := table.layout.newItem key stored time
  let _ ← Command.ask (.putItem table.layout item none)
  itemJson item

def get (table : Table) (key : Key) : Command (Option Json) := do
  let item? ← Command.ask (.getItem table.layout key)
  (item?.mapM itemJson : Result (Option Json))

/-- Sets the given data fields, entering nested maps, and the time of the update; the item as it is then. -/
def update (table : Table) (key : Key) (data : Json.Map) : Command Json := do
  let time ← Command.now
  let stamped := [(updatedName, Attribute.string time)]
  let item := if data.isEmpty then stamped
    else Assoc.insert stamped table.layout.dataName (.map (Attribute.ofJsonMap data))
  let updated ← Command.ask (.updateItem table.layout key (Update.set item) none)
  itemJson updated

/-- Adds counters to data fields; the item as it is then. -/
def increment (table : Table) (key : Key) (counters : Json.Map) : Command Json := do
  if counters.isEmpty then throw (.invalidArguments .noCounter)
  match Counters.firstOther? "" counters with
  | some (field, value) => throw (.typeMismatch field .number value.kind)
  | none =>
    let item := [(table.layout.dataName, Attribute.map (Attribute.ofJsonMap counters))]
    let updated ← Command.ask (.updateItem table.layout key (Update.add item) none)
    itemJson updated

def query (table : Table) (query : Query) : Command TablePage := do
  let bound ← query.bind table.layout
  let page ← Command.ask (.query bound)
  let items ← (page.items.mapM itemJson : Result (List Json))
  pure ⟨items, (page.lastKey?.bind table.layout.keyOf?).map Cursor.encode⟩

/-- The items that a query selects one by one, at most so many if a count is given. A failure of the store
comes last. -/
def queryAll (table : Table) (query : Query) (count? : Option Nat) : Command (List (Result Json)) := do
  let bound ← query.bind table.layout
  let wantsMore (items : List Item) : Bool := count?.all (items.length < ·)
  if wantsMore [] then
    let (items, failure?) ← Command.readPages bound wantsMore
    let read := items.map itemJson ++ (failure?.map fun e => .error (.store e)).toList
    pure (count?.elim read read.take)
  else pure []

def delete (table : Table) (key : Key) : Command (Option Json) := do
  let item? ← Command.ask (.deleteItem table.layout key)
  (item?.mapM itemJson : Result (Option Json))

/-- The counters of an item that is new, with the time they were first written. -/
def firstCounters (counters : Json.Map) (path? : Option String) (time : String) : Json.Map :=
  Counters.nest path? (Assoc.insert counters "timestamp" (.string time))

/-- The data of an item as JSON; an item without a map of data has none. -/
def dataJson (table : Table) (item : Item) : Result Json.Map :=
  match table.layout.dataOf? item with
  | some data => Attribute.toJsonMap data
  | none => pure []

/-- Adds counters to the data at a key, below a path if one is given; the data as it is then. An item that
is missing is created. The read and the write are two calls. -/
def accumulate (table : Table) (key : Key) (counters : Json.Map) (path? : Option String) : Command Json := do
  match ← Command.ask (.getItem table.layout key) with
  | none =>
    let time ← Command.now
    let data := firstCounters counters path? time
    let _ ← table.put key data
    pure (.map data)
  | some item =>
    let stored ← table.dataJson item
    let merged ← Counters.merge stored counters path?
    let updated ← table.update key merged
    pure ((Assoc.find? (updated.asMap?.getD []) table.layout.dataName).getD (.map []))

end Table

end KeyedRecords
