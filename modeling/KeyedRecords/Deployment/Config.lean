import KeyedRecords.Service.Response

/-! The table that records are kept in, with the indexes asked for. All keys are strings; an index is keyed on
attributes named after it. -/

namespace KeyedRecords.Deployment

inductive DeploymentError where
  | invalidIndexName (name : String)
  | activationTimeout
  /-- What came back is no answer that can be read; the wording is that of the response. -/
  | refused {response : ServiceResponse}
  deriving DecidableEq

def DeploymentError.message? : DeploymentError → Option String
  | invalidIndexName name => some s!"Invalid index name '{name}': use letters, digits, '_', '-' or '.'"
  | activationTimeout => some "Timeout waiting for table to become active"
  | refused => none

abbrev DeploymentError.ofResponse (response : ServiceResponse) : DeploymentError := @refused response

structure KeyNames where
  partitionName : String
  sortName : String
  deriving DecidableEq, Repr

/-- An index; it holds all attributes. -/
structure IndexConfig where
  name : String
  deriving DecidableEq, Repr

def IndexConfig.keys (index : IndexConfig) : KeyNames := ⟨index.name ++ "pk", index.name ++ "sk"⟩

def isIndexChar (c : Char) : Bool := c.isAlphanum || c = '_' || c = '-' || c = '.'

def isIndexName (name : String) : Bool :=
  3 ≤ name.utf8ByteSize && name.utf8ByteSize ≤ 255 && name.toList.all isIndexChar

structure TableConfig where
  table : String
  indexes : List IndexConfig
  deriving DecidableEq, Repr

namespace TableConfig

def keys (_ : TableConfig) : KeyNames := ⟨"pk", "sk"⟩

/-- The indexes of some names, each once, after the ones given. -/
def addIndexes (indexes : List IndexConfig) : List String → Except DeploymentError (List IndexConfig)
  | [] => pure indexes
  | name :: rest =>
    if indexes.any (·.name = name) then addIndexes indexes rest
    else if isIndexName name then addIndexes (indexes ++ [⟨name⟩]) rest
    else throw (.invalidIndexName name)

def ofNames (table : String) (names : List String) : Except DeploymentError TableConfig := do
  pure ⟨table, ← addIndexes [] names⟩

end TableConfig

end KeyedRecords.Deployment
