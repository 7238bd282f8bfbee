import KeyedRecords.Query.Filter
import KeyedRecords.Schema.Basic

/-! A model describes a kind of record: the table it is kept in, its fields and its keys. -/

namespace KeyedRecords

structure Model where
  name : String
  /-- The name with its module, which names the partition of records without keys of their own. -/
  qualified : String
  layout : TableLayout
  schema : Schema
  keys : KeyStrategy
  /-- What the sort keys of a listing without filters start with. -/
  listingStart? : Option String

def Model.filterRules (model : Model) : FilterRules :=
  ⟨model.layout.partitionName, model.layout.sortName, model.keys⟩

/-- What is said of a model to build it. -/
structure ModelDeclaration where
  name : String
  module : String
  layout? : Option TableLayout := none
  fields : Schema := []
  /-- The texts of a template pair. -/
  templates? : Option (String × String) := none
  /-- A strategy, which counts before templates. -/
  strategy? : Option KeyStrategy := none
  /-- A name to use as the qualified one. -/
  qualified? : Option String := none
  listingStart? : Option String := none

namespace ModelDeclaration

def qualified (declaration : ModelDeclaration) : String :=
  declaration.qualified?.getD (declaration.module ++ "::" ++ declaration.name)

def keys (declaration : ModelDeclaration) : Result KeyStrategy :=
  match declaration.strategy?, declaration.templates? with
  | some strategy, _ => pure strategy
  | none, some (partition, sort) => return (← KeyTemplate.parse declaration.name partition sort).strategy
  | none, none => pure (KeyTemplate.standard declaration.qualified declaration.name).strategy

def build (declaration : ModelDeclaration) : Result Model :=
  match declaration.layout? with
  | none => throw (.invalidArguments (.noTable declaration.name))
  | some layout => do
    let keys ← declaration.keys
    pure {
      name := declaration.name
      qualified := declaration.qualified
      layout := layout
      schema := Schema.forRecord declaration.fields
      keys := keys
      listingStart? := declaration.listingStart? }

end ModelDeclaration

end KeyedRecords
