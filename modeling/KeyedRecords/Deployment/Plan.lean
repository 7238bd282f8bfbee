import KeyedRecords.Deployment.Config
import KeyedRecords.Text.Blank

/-! What has to change to bring a table to its configuration, and the lines that show it to people. -/

namespace KeyedRecords.Deployment

/-- The stage of life that a table or an index is in. -/
inductive Status where
  | active
  | creating
  | updating
  | deleting
  deriving DecidableEq, Repr

/-- The stage that a word of the service stands for. -/
def Status.ofWord (word : String) : Status :=
  match word with
  | "CREATING" => creating
  | "UPDATING" => updating
  | "DELETING" => deleting
  | _ => active

structure IndexState where
  name : String
  status : Status
  deriving DecidableEq, Repr

structure TableState where
  status : Status
  indexes : List IndexState
  deriving DecidableEq, Repr

/-- Whether the table and all its indexes are in service. -/
def TableState.isReady (state : TableState) : Bool :=
  state.status = .active && state.indexes.all (·.status = .active)

inductive DeployPlan where
  | createTable (config : TableConfig)
  | addIndexes (table : String) (indexes : List IndexConfig)
  | noChanges (table : String)
  deriving DecidableEq, Repr

inductive DestroyPlan where
  | deleteTable (table : String)
  | alreadyGone (table : String)
  deriving DecidableEq, Repr

/-- The indexes of a configuration that a table lacks. -/
def missingIndexes (state : TableState) (config : TableConfig) : List IndexConfig :=
  config.indexes.filter fun index => !state.indexes.any (·.name = index.name)

/-- The changes that bring a table to its configuration; indexes beyond it are left alone. -/
def DeployPlan.ofState (state? : Option TableState) (config : TableConfig) : DeployPlan :=
  match state? with
  | none => createTable config
  | some state =>
    match missingIndexes state config with
    | [] => noChanges config.table
    | indexes => addIndexes config.table indexes

def DestroyPlan.ofState (state? : Option TableState) (table : String) : DestroyPlan :=
  if state?.isSome then deleteTable table else alreadyGone table

def IndexConfig.lines (index : IndexConfig) (verb : String) : List String :=
  [s!"  + {verb}GSI: {index.name}",
   s!"    Partition key: {index.keys.partitionName} (S)",
   s!"    Sort key: {index.keys.sortName} (S)"]

def DeployPlan.lines : DeployPlan → List String
  | createTable config =>
    [s!"+ Create table: {config.table}",
     s!"  Partition key: {config.keys.partitionName} (S)",
     s!"  Sort key: {config.keys.sortName} (S)"] ++
    config.indexes.flatMap (·.lines "") ++ ["  Billing: PAY_PER_REQUEST"]
  | addIndexes table indexes => s!"~ Update table: {table}" :: indexes.flatMap (·.lines "Add ")
  | noChanges table => [s!"= Table '{table}' is up to date"]

def DestroyPlan.lines : DestroyPlan → List String
  | deleteTable table => [s!"- Delete table: {table} (ALL DATA WILL BE LOST)"]
  | alreadyGone table => [s!"= Table '{table}' does not exist"]

/-- The colours of terminals for what is added, removed and changed. -/
def green : String := "\x1b[38;2;158;206;106m"

def red : String := "\x1b[38;2;247;118;142m"

def yellow : String := "\x1b[38;2;224;175;104m"

/-- A line in the colour of its first mark. -/
def painted (line : String) : String :=
  let paint (colour : String) := colour ++ line ++ "\x1b[0m"
  match line.toList.dropWhile Text.isBlank with
  | '+' :: _ => paint green
  | '-' :: _ => paint red
  | '~' :: _ => paint yellow
  | _ => line

end KeyedRecords.Deployment
