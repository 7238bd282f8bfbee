import KeyedRecords.Key.Template

/-! How the key of a record follows from its arguments, and which part of the keys a query can fix with the arguments
it has. -/

namespace KeyedRecords

/-- The keys of a kind of record as functions of the arguments. -/
structure KeyStrategy where
  /-- The key of one record. -/
  key : Arguments → Result Key
  /-- The partition to query, and what is known of the sort key. -/
  query : Arguments → Result KeyQuery
  /-- What is known of the sort key alone, for a partition given otherwise. -/
  sortKey : Arguments → Result (Option SortKey)
  /-- The arguments that the keys are made from. -/
  fields : List String

/-- A strategy by its two functions; the sort key of a query is that of the whole query. -/
def KeyStrategy.custom (key : Arguments → Result Key) (query : Arguments → Result KeyQuery)
    (fields : List String) : KeyStrategy where
  key := key
  query := query
  sortKey args := do pure (← query args).sort?
  fields := fields

structure KeyTemplate where
  model : String
  partition : Template
  sort : Template
  deriving DecidableEq, Repr

namespace KeyTemplate

def parse (model partition sort : String) : Result KeyTemplate := do
  let partition ← Template.parse partition
  let sort ← Template.parse sort
  pure ⟨model, partition, sort⟩

/-- The keys of a kind of record that declares none: all in the partition of its qualified name, sorted by
identifier. -/
def standard (qualified name : String) : KeyTemplate where
  model := name
  partition := .literal qualified
  sort := ⟨name ++ "#\x7bid\x7d", [.literal (name ++ "#"), .field "id"]⟩

def key (keys : KeyTemplate) (args : Arguments) : Result Key := do
  let partition ← keys.partition.render args keys.model
  let sort ← keys.sort.render args keys.model
  pure ⟨partition, sort⟩

/-- The whole sort key when all its fields are given, the text before the first missing one when some are,
and nothing when none is. -/
def sortKey (keys : KeyTemplate) (args : Arguments) : Result (Option SortKey) :=
  let fields := keys.sort.fields
  let given := fields.countP args.has
  if given = fields.length then do pure (some (.exact (← keys.sort.render args keys.model)))
  else if given = 0 then pure none
  else do pure (some (.startingWith (← keys.sort.lead args)))

/-- The partition key, and as much of the sort key as the arguments fix. -/
def query (keys : KeyTemplate) (args : Arguments) : Result KeyQuery := do
  let partition ← keys.partition.render args keys.model
  let sort? ← keys.sortKey args
  pure ⟨partition, sort?⟩

/-- The fields of the partition key, then those of the sort key that are not among them. -/
def fields (keys : KeyTemplate) : List String :=
  keys.sort.fields.foldl (fun seen name => if name ∈ seen then seen else seen ++ [name])
    keys.partition.fields

def strategy (keys : KeyTemplate) : KeyStrategy := ⟨keys.key, keys.query, keys.sortKey, keys.fields⟩

end KeyTemplate

end KeyedRecords
