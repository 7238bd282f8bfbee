import KeyedRecords.Store.Contents
import KeyedRecords.Update.Application

/-! Tables come into being with their first item. Every call is counted, whether it succeeds or not. -/

namespace KeyedRecords

structure CallCounts where
  getItem : Nat := 0
  putItem : Nat := 0
  updateItem : Nat := 0
  query : Nat := 0
  deleteItem : Nat := 0
  deriving DecidableEq, Repr, Inhabited

namespace CallCounts

def total (c : CallCounts) : Nat := c.getItem + c.putItem + c.updateItem + c.query + c.deleteItem

def count (c : CallCounts) : Call.Kind → CallCounts
  | .getItem => { c with getItem := c.getItem + 1 }
  | .putItem => { c with putItem := c.putItem + 1 }
  | .updateItem => { c with updateItem := c.updateItem + 1 }
  | .query => { c with query := c.query + 1 }
  | .deleteItem => { c with deleteItem := c.deleteItem + 1 }

end CallCounts

/-- The tables by name, and the calls made so far. -/
structure Memory where
  tables : List (String × Contents) := []
  calls : CallCounts := {}
  deriving DecidableEq, Inhabited

namespace Memory

/-- The items of a table; one that was never written has none. -/
def contents (memory : Memory) (table : String) : Contents := (Assoc.find? memory.tables table).getD []

def item? (memory : Memory) (layout : TableLayout) (key : Key) : Option Item :=
  Assoc.find? (memory.contents layout.table) key

def store (memory : Memory) (layout : TableLayout) (key : Key) (item : Item) : Memory :=
  let contents := Assoc.insert (memory.contents layout.table) key item
  { memory with tables := Assoc.insert memory.tables layout.table contents }

def remove (memory : Memory) (layout : TableLayout) (key : Key) : Memory :=
  let contents := Assoc.erase (memory.contents layout.table) key
  { memory with tables := Assoc.insert memory.tables layout.table contents }

/-- Fails a write whose precondition does not hold of what is stored under the key. -/
def check (condition? : Option Precondition) (stored? : Option Item) (key : Key) : Except StoreError Unit :=
  match condition?, stored? with
  | some .absent, some _ => .error (.conditionFailed s!"item {key.display} already exists")
  | some .present, none => .error (.conditionFailed s!"item {key.display} does not exist")
  | _, _ => .ok ()

def put (memory : Memory) (layout : TableLayout) (item : Item) (condition? : Option Precondition) :
    Except StoreError Memory :=
  match layout.keyOf? item with
  | none =>
    .error (.validation
      s!"item is missing key attributes '{layout.partitionName}' and '{layout.sortName}'")
  | some key => do
    check condition? (memory.item? layout key) key
    pure (memory.store layout key item)

/-- The item under a key with an update applied, and the memory with it stored. A missing item begins as its
key attributes. -/
def update (memory : Memory) (layout : TableLayout) (key : Key) (update : Update)
    (condition? : Option Precondition) : Except StoreError (Item × Memory) := do
  let stored? := memory.item? layout key
  check condition? stored? key
  let item ← update.apply (stored?.getD (layout.keyItem key))
  pure (item, memory.store layout key item)

/-- The reply to a call, and the memory after it. A call that fails changes no table. -/
def reply (memory : Memory) : (call : Call) → call.Reply × Memory
  | .getItem layout key => (.ok (memory.item? layout key), memory)
  | .putItem layout item condition? =>
    match memory.put layout item condition? with
    | .ok after => (.ok (), after)
    | .error e => (.error e, memory)
  | .updateItem layout key u condition? =>
    match memory.update layout key u condition? with
    | .ok (item, after) => (.ok item, after)
    | .error e => (.error e, memory)
  | .query query => (.ok (query.page (memory.contents query.layout.table)), memory)
  | .deleteItem layout key =>
    match memory.item? layout key with
    | some item => (.ok (some item), memory.remove layout key)
    | none => (.ok none, memory)

/-- The reply to a call, which is counted. -/
def answer (call : Call) (memory : Memory) : call.Reply × Memory :=
  ({ memory with calls := memory.calls.count call.kind }).reply call

end Memory

end KeyedRecords
