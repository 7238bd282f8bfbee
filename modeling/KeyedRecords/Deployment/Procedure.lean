import KeyedRecords.Deployment.Plan

/-! A deployment is a procedure that asks the service for one change after another and waits, after each, until the
table is in service again. -/

namespace KeyedRecords.Deployment

inductive ControlCall where
  | describeTable (table : String)
  | createTable (config : TableConfig)
  | addIndex (table : String) (index : IndexConfig)
  | deleteTable (table : String)
  deriving DecidableEq

namespace ControlCall

/-- What a call brings when it succeeds: a description is that of the table, if there is one. -/
abbrev Answer : ControlCall → Type
  | describeTable _ => Option TableState
  | createTable _ | addIndex _ _ | deleteTable _ => Unit

abbrev Reply (call : ControlCall) : Type := Except DeploymentError call.Answer

def table : ControlCall → String
  | describeTable table | addIndex table _ | deleteTable table => table
  | createTable config => config.table

end ControlCall

/-- A sequence of calls, each depending on the replies before it. -/
inductive Procedure (α : Type) : Type where
  | done (result : α)
  | ask (call : ControlCall) (next : call.Reply → Procedure α)

namespace Procedure

def bind {α β : Type} : Procedure α → (α → Procedure β) → Procedure β
  | done result, f => f result
  | ask call next, f => ask call fun reply => (next reply).bind f

instance : Monad Procedure where
  pure := done
  bind := bind

/-- Carries a procedure out against a service that answers from its state. -/
def run {α σ : Type} (answer : (call : ControlCall) → σ → call.Reply × σ) : Procedure α → σ → α × σ
  | done result, state => (result, state)
  | ask call next, state =>
    let (reply, state) := answer call state
    run answer (next reply) state

end Procedure

/-- A procedure that may fail. -/
abbrev Operation (α : Type) : Type := ExceptT DeploymentError Procedure α

/-- Asks the service; its failure fails the operation. -/
def askControl (call : ControlCall) : Operation call.Answer :=
  (Procedure.ask call .done : Procedure call.Reply)

/-- How often a table is looked at before it is given up on. -/
def activationAttempts : Nat := 60

/-- Looks at a table up to so many times until it is in service. -/
def awaitReady (table : String) : Nat → Operation Unit
  | 0 => throw .activationTimeout
  | attempts + 1 => do
    let state? ← askControl (.describeTable table)
    if state?.any TableState.isReady then pure () else awaitReady table attempts

/-- Adds indexes one at a time: the service takes one creation per update. -/
def addIndexes (table : String) : List IndexConfig → Operation Unit
  | [] => pure ()
  | index :: rest => do
    askControl (.addIndex table index)
    awaitReady table activationAttempts
    addIndexes table rest

def DeployPlan.execute : DeployPlan → Operation Unit
  | createTable config => do
    askControl (.createTable config)
    awaitReady config.table activationAttempts
  | .addIndexes table indexes => Deployment.addIndexes table indexes
  | noChanges _ => pure ()

def DestroyPlan.execute : DestroyPlan → Operation Unit
  | deleteTable table => askControl (.deleteTable table)
  | alreadyGone _ => pure ()

/-- Brings a table to its configuration; the table as it was, and what was changed. -/
def deploy (config : TableConfig) : Operation (Option TableState × DeployPlan) := do
  let state? ← askControl (.describeTable config.table)
  let plan := DeployPlan.ofState state? config
  plan.execute
  pure (state?, plan)

/-- Removes a table; the table as it was, and what was changed. -/
def destroy (table : String) : Operation (Option TableState × DestroyPlan) := do
  let state? ← askControl (.describeTable table)
  let plan := DestroyPlan.ofState state? table
  plan.execute
  pure (state?, plan)

end KeyedRecords.Deployment
