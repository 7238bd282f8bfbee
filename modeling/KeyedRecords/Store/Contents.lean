import KeyedRecords.Projection
import KeyedRecords.Store.Call

/-! The items of a table by key, in key order, and the pages that a query finds in them. -/

namespace KeyedRecords

/-- The items of a table, sorted by key. -/
abbrev Contents := List (Key × Item)

/-- An item that a query finds, with the sort key that it is ordered by. -/
structure Match where
  sort : String
  key : Key
  item : Item
  deriving DecidableEq

/-- The order of the items found: by sort key, then by the key in the table. -/
def Match.before (a b : Match) : Bool := a.sort < b.sort || (a.sort = b.sort && !decide (b.key < a.key))

namespace BoundQuery

def textOf? (item : Item) (name : String) : Option String :=
  (Assoc.find? item name).bind Attribute.asString?

/-- What a query makes of an item: a match in its partition whose sort key meets the condition. In an index
an item has to have a sort key. -/
def match? (query : BoundQuery) (key : Key) (item : Item) : Option Match :=
  if textOf? item query.partitionName ≠ some query.partition then none
  else
    match query.sort?, textOf? item query.sortName with
    | some condition, some sort => if condition.accepts sort then some ⟨sort, key, item⟩ else none
    | some _, none => none
    | none, some sort => some ⟨sort, key, item⟩
    | none, none => if query.index?.isSome then none else some ⟨"", key, item⟩

def found (query : BoundQuery) (contents : Contents) : List Match :=
  let all := contents.filterMap fun (key, item) => query.match? key item
  let sorted := all.mergeSort Match.before
  if query.ascending then sorted else sorted.reverse

/-- The matches after the start key: after the item it points at or, where that is gone, after its sort
key. -/
def resume (query : BoundQuery) (found : List Match) : List Match :=
  match query.startKey? with
  | none => found
  | some start =>
    match (query.layout.keyOf? start).filter fun key => found.any (·.key = key) with
    | some key => (found.dropWhile (·.key ≠ key)).drop 1
    | none =>
      match textOf? start query.sortName with
      | none => found
      | some after => found.filter fun m => if query.ascending then after < m.sort else m.sort < after

/-- The key to go on from after a match: its key in the table, and its values of the key attributes of the
query. -/
def continuation (query : BoundQuery) (last : Match) : Item :=
  [query.partitionName, query.sortName].foldl (fun key name =>
    match Assoc.find? last.item name with
    | some value => Assoc.insert key name value
    | none => key) (query.layout.keyItem last.key)

def shown (query : BoundQuery) (item : Item) : Item :=
  if query.projection.isEmpty then item else project item query.projection

def page (query : BoundQuery) (contents : Contents) : Page :=
  let found := query.resume (query.found contents)
  let taken := found.take query.limit
  { items := taken.map fun m => query.shown m.item
    lastKey? := if query.limit < found.length then taken.getLast?.map query.continuation else none }

end BoundQuery

end KeyedRecords
