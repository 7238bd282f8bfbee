import KeyedRecords.Key.Strategy
import KeyedRecords.Query.Basic

/-! Named filters become a query of one partition. A filter names the partition key attribute, the sort key attribute
with an optional comparison after a double underscore, or a field that keys are made from. -/

namespace KeyedRecords

/-- The comparisons that a filter on the sort key may end in. -/
inductive Comparison where
  | startingWith
  | above
  | atLeast
  | below
  | atMost
  | between
  deriving DecidableEq, Repr

def Comparison.ofSuffix? (suffix : String) : Option Comparison :=
  match suffix with
  | "beginswith" => some startingWith
  | "gt" => some above
  | "gte" => some atLeast
  | "lt" => some below
  | "lte" => some atMost
  | "between" => some between
  | _ => none

def filterText (filter : String) (value : Json) : Result String :=
  match value.segment? with
  | .ok (some text) => pure text
  | _ => throw (.invalidArguments (.filterNotScalar filter))

def Comparison.condition (comparison? : Option Comparison) (filter : String) (value : Json) :
    Result SortCondition :=
  match comparison? with
  | none => return .equal (← filterText filter value)
  | some startingWith => return .startingWith (← filterText filter value)
  | some above => return .above (← filterText filter value)
  | some atLeast => return .atLeast (← filterText filter value)
  | some below => return .below (← filterText filter value)
  | some atMost => return .atMost (← filterText filter value)
  | some between =>
    match value with
    | .list [low, high] => do
      let low ← filterText filter low
      let high ← filterText filter high
      pure (.between low high)
    | _ => throw (.invalidArguments (.filterNotPair filter))

/-- A filter's name without its suffix, and the suffix. -/
def splitSuffix (filter : String) : String × Option String :=
  match Text.splitLastUnderscores? filter.toList with
  | some (name, suffix) => (String.ofList name, some (String.ofList suffix))
  | none => (filter, none)

structure KeyFilter where
  partition? : Option String := none
  sort? : Option SortCondition := none
  /-- The fields that the keys are made from. -/
  keyArguments : Arguments := []
  deriving DecidableEq

/-- The attribute names that filters may use and the strategy that makes keys from the others. -/
structure FilterRules where
  partitionName : String
  sortName : String
  keys : KeyStrategy

namespace FilterRules

/-- The filters read so far with one more. Of two conditions on the sort key the later counts. -/
def add (rules : FilterRules) (read : KeyFilter) (filter : String) (value : Json) : Result KeyFilter := do
  let (name, suffix?) := splitSuffix filter
  if name = rules.partitionName then
    match suffix? with
    | some suffix => throw (.unsupportedFilter filter suffix)
    | none => return { read with partition? := some (← filterText filter value) }
  else if name = rules.sortName then
    match suffix?, suffix?.bind Comparison.ofSuffix? with
    | some suffix, none => throw (.unsupportedFilter filter suffix)
    | _, comparison? =>
      return { read with sort? := some (← Comparison.condition comparison? filter value) }
  else if name ∈ rules.keys.fields then
    match suffix? with
    | some suffix => throw (.unsupportedFilter filter suffix)
    | none => return { read with keyArguments := Assoc.insert read.keyArguments name value }
  else
    match suffix?, suffix?.bind Comparison.ofSuffix? with
    | some suffix, none => throw (.unsupportedFilter filter suffix)
    | _, _ => throw (.invalidFilterField name)

/-- What the filters fix, in the order of their names. -/
def parse (rules : FilterRules) (filters : Arguments) : Result KeyFilter :=
  filters.foldlM (fun read (filter, value) => rules.add read filter value) {}

/-- The partition, and the sort key as far as the key fields fix it. A given partition leaves the sort
key alone to be made, if there are fields for it. -/
def resolve (rules : FilterRules) (filter : KeyFilter) : Result KeyQuery :=
  match filter.partition? with
  | some partition =>
    if filter.keyArguments.isEmpty then pure ⟨partition, none⟩
    else return ⟨partition, ← rules.keys.sortKey filter.keyArguments⟩
  | none => rules.keys.query filter.keyArguments

/-- The query that filters ask for. The sort key is fixed by its attribute or by key fields, not both. -/
def toQuery (rules : FilterRules) (filters : Arguments) : Result Query := do
  let filter ← rules.parse filters
  let ⟨partition, sort?⟩ ← rules.resolve filter
  let query : Query := { partition? := some partition, partitionName := rules.partitionName,
                         sortName := rules.sortName }
  match filter.sort?, sort?.map SortCondition.ofSortKey with
  | some _, some _ => throw (.invalidArguments (.sortKeyTwice rules.sortName))
  | some condition, none | none, some condition => return { query with sort? := some condition }
  | none, none => return query

end FilterRules

end KeyedRecords
