import KeyedRecords.Layout
import KeyedRecords.Query.Condition
import KeyedRecords.Text.Split

/-! A query reads one partition of a table or an index, page by page. It is put together step by step and then bound
to a table. -/

namespace KeyedRecords

structure Query where
  partition? : Option String := none
  partitionName : String := "pk"
  sort? : Option SortCondition := none
  sortName : String := "sk"
  index? : Option String := none
  limit : Nat := 25
  ascending : Bool := false
  projection : List String := []
  startAfter? : Option Key := none
  deriving DecidableEq, Repr, Inhabited

/-- A query bound to a table: what a store is asked for. -/
structure BoundQuery where
  layout : TableLayout
  index? : Option String
  partitionName : String
  partition : String
  sortName : String
  sort? : Option SortCondition
  limit : Nat
  ascending : Bool
  projection : List String
  /-- The item key after which the page starts. -/
  startKey? : Option Item
  deriving DecidableEq

namespace Query

/-- A page holds at least one item. -/
def withLimit (query : Query) (limit : Nat) : Query := { query with limit := max limit 1 }

/-- The query limited to the given paths besides those it has; none is named twice. -/
def only (query : Query) (paths : List String) : Query :=
  let add (seen : List String) (path : String) := if path ∈ seen then seen else seen ++ [path]
  { query with projection := paths.foldl add query.projection }

/-- The query of a table. It has to say which partition. -/
def bind (query : Query) (layout : TableLayout) : Result BoundQuery :=
  match query.partition? with
  | none => throw (.invalidArguments .noPartitionKey)
  | some partition => pure {
      layout := layout
      partition := partition
      index? := query.index?
      partitionName := query.partitionName
      sortName := query.sortName
      sort? := query.sort?
      limit := query.limit
      ascending := query.ascending
      projection := query.projection
      startKey? := query.startAfter?.map layout.keyItem }

end Query

namespace BoundQuery

def startingAfter (query : BoundQuery) (startKey : Item) : BoundQuery :=
  { query with startKey? := some startKey }

def keyCondition (query : BoundQuery) : String :=
  let own := query.partitionName ++ " = :pk"
  match query.sort? with
  | some condition => own ++ " AND " ++ condition.expression query.sortName
  | none => own

def values (query : BoundQuery) : Item :=
  let sort := (query.sort?.map SortCondition.values).getD []
  Assoc.ofList ((":pk", .string query.partition) :: Assoc.mapValues .string sort)

def projectionExpression? (query : BoundQuery) : Option String :=
  if query.projection.isEmpty then none
  else some (", ".intercalate (query.projection.map fun path =>
    ".".intercalate ((Text.dotted path).map ("#" ++ ·))))

def projectionNames (query : BoundQuery) : List (String × String) :=
  Assoc.ofList ((query.projection.flatMap Text.dotted).map fun name => ("#" ++ name, name))

end BoundQuery

end KeyedRecords
