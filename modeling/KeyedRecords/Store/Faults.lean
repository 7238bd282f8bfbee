import KeyedRecords.Store.Memory

/-! A store in memory in front of which calls can fail by a script: for each kind of call, what happens to the next
one, the one after it, and so on. -/

namespace KeyedRecords

/-- What happens to a call before it reaches the store. -/
inductive Fault where
  /-- The store answers it. -/
  | pass
  | fail (error : StoreError)
  /-- A deletion is answered as if there were nothing to delete. -/
  | missing
  deriving DecidableEq

structure FaultyMemory where
  memory : Memory := {}
  script : Call.Kind → List Fault := fun _ => []

namespace FaultyMemory

/-- The next fault for a kind of call, and the script after it. -/
def next (state : FaultyMemory) (kind : Call.Kind) : Fault × FaultyMemory :=
  match state.script kind with
  | [] => (.pass, state)
  | fault :: rest => (fault, { state with script := fun k => if k = kind then rest else state.script k })

/-- The answer of the store behind the faults. -/
def pass (call : Call) (state : FaultyMemory) : call.Reply × FaultyMemory :=
  let (reply, memory) := state.memory.answer call
  (reply, { state with memory := memory })

/-- The answer to a call: a fault's, or else the store's. -/
def answer (call : Call) (state : FaultyMemory) : call.Reply × FaultyMemory :=
  let (fault, state) := state.next call.kind
  match fault, call with
  | .fail e, _ => (.error e, state)
  | .missing, .deleteItem _ _ => (.ok none, state)
  | _, call => pass call state

end FaultyMemory

end KeyedRecords
