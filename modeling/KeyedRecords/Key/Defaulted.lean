import KeyedRecords.Key.Strategy

/-! A custom strategy made of templates: arguments that are not given have defaults, and queries may use templates of
their own. -/

namespace KeyedRecords

structure DefaultedKeys where
  model : String
  partition : Template
  sort : Template
  /-- The partition key of a query, if it is not that of the records. -/
  queryPartition? : Option Template
  /-- The exact sort key of a query. -/
  queryExact? : Option Template
  /-- The start of the sort key of a query, where no exact one is set. -/
  queryStart? : Option Template
  defaults : Arguments
  fields : List String

namespace DefaultedKeys

/-- The strategy of some template texts. They are read in the order of the fields; the first that is no
template is the failure. -/
def parse (model partition sort : String) (queryPartition? queryExact? queryStart? : Option String)
    (defaults : Arguments) (fields : List String) : Result DefaultedKeys := do
  let partition ← Template.parse partition
  let sort ← Template.parse sort
  let queryPartition? ← queryPartition?.mapM Template.parse
  let queryExact? ← queryExact?.mapM Template.parse
  let queryStart? ← queryStart?.mapM Template.parse
  pure { model, partition, sort, queryPartition?, queryExact?, queryStart?, defaults, fields }

/-- The arguments with the default of each one that is absent or null. -/
def complete (keys : DefaultedKeys) (args : Arguments) : Arguments :=
  keys.defaults.foldl (fun args (name, value) =>
    if Arguments.has args name then args else Assoc.insert args name value) args

def key (keys : DefaultedKeys) (args : Arguments) : Result Key := do
  let args := keys.complete args
  let partition ← keys.partition.render args keys.model
  let sort ← keys.sort.render args keys.model
  pure ⟨partition, sort⟩

def sortKey (keys : DefaultedKeys) (args : Arguments) : Result (Option SortKey) :=
  match keys.queryExact?, keys.queryStart? with
  | some exact, _ => do pure (some (.exact (← exact.render args keys.model)))
  | none, some start => do pure (some (.startingWith (← start.lead args)))
  | none, none => pure none

/-- The key of a query: its sort key is settled first. -/
def query (keys : DefaultedKeys) (args : Arguments) : Result KeyQuery := do
  let args := keys.complete args
  let sort? ← keys.sortKey args
  let partition ← (keys.queryPartition?.getD keys.partition).render args keys.model
  pure ⟨partition, sort?⟩

def strategy (keys : DefaultedKeys) : KeyStrategy := .custom keys.key keys.query keys.fields

end DefaultedKeys

end KeyedRecords
