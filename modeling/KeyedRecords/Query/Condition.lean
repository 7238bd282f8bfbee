import KeyedRecords.Key.Basic

/-! A condition on the sort keys of a partition, as a test and as the text of an expression. -/

namespace KeyedRecords

inductive SortCondition where
  | equal (value : String)
  | startingWith (text : String)
  | above (value : String)
  | atLeast (value : String)
  | below (value : String)
  | atMost (value : String)
  | between (low high : String)
  deriving DecidableEq, Repr

namespace SortCondition

/-- Whether a sort key meets the condition. Texts are compared by code points. -/
def accepts (condition : SortCondition) (key : String) : Bool :=
  match condition with
  | equal value => key = value
  | startingWith text => text.toList.isPrefixOf key.toList
  | above value => value < key
  | atLeast value => !decide (key < value)
  | below value => key < value
  | atMost value => !decide (value < key)
  | between low high => !decide (key < low) && !decide (high < key)

def expression (condition : SortCondition) (name : String) : String :=
  match condition with
  | equal _ => s!"{name} = :sk"
  | startingWith _ => s!"begins_with({name}, :sk)"
  | above _ => s!"{name} > :sk"
  | atLeast _ => s!"{name} >= :sk"
  | below _ => s!"{name} < :sk"
  | atMost _ => s!"{name} <= :sk"
  | between _ _ => s!"{name} BETWEEN :sk1 AND :sk2"

def values : SortCondition → List (String × String)
  | between low high => [(":sk1", low), (":sk2", high)]
  | equal value | startingWith value | above value | atLeast value | below value | atMost value =>
    [(":sk", value)]

def ofSortKey : SortKey → SortCondition
  | .exact value => equal value
  | .startingWith text => startingWith text

end SortCondition

end KeyedRecords
