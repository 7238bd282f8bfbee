import KeyedRecords.Deployment.Exchange

/-! What a deployment sends to a service that answers from a script, and in what order. The log of a plan is a row of
rounds, one for each creation: the creation itself, then looks at the table until it is in service. Main statements:
`DeployPlan.execute_course`, `Awaits` and `Course` for the logs there can be. -/

namespace KeyedRecords.Deployment

/-! ## Calls -/

/-- Whether a call asks for a table or an index to be made. -/
def ControlCall.isCreation : ControlCall → Bool
  | createTable _ | addIndex _ _ => true
  | describeTable _ | deleteTable _ => false

namespace ControlClient

variable {client : ControlClient} {call : ControlCall} {response : ServiceResponse}

theorem readResponse_eq_ok_iff {answer : call.Answer} :
    client.readResponse call response = .ok answer ↔ client.answer? call response = some answer := by
  rw [readResponse]
  cases client.answer? call response <;> simp

/-- A table about which one request can be sent can be looked at. -/
theorem isSome_request?_describe (client : ControlClient) (call : ControlCall) :
    (client.request? (.describeTable call.table)).isSome = (client.request? call).isSome :=
  client.isSome_about? ..

end ControlClient

/-! ## Exchanges -/

/-- A call whose request was sent, with the response to it. -/
structure Exchange where
  call : ControlCall
  response : ServiceResponse

def TableState.InService (state : TableState) : Prop :=
  state.status = .active ∧ ∀ index ∈ state.indexes, index.status = .active

theorem TableState.isReady_iff {state : TableState} : state.isReady = true ↔ state.InService := by
  simp [isReady, InService]

namespace Exchange

def failure? (client : ControlClient) (exchange : Exchange) : Option DeploymentError :=
  match client.readResponse exchange.call exchange.response with
  | .error e => some e
  | .ok _ => none

/-- What a description brought, if one was given: the state of the table, if there is one. -/
def described? (client : ControlClient) : Exchange → Option (Option TableState)
  | ⟨.describeTable table, response⟩ => client.answer? (.describeTable table) response
  | _ => none

/-- A creation that was accepted. -/
def Accepted (client : ControlClient) (exchange : Exchange) : Prop :=
  exchange.call.isCreation = true ∧ exchange.failure? client = none

instance (client : ControlClient) : DecidablePred (Accepted client) := fun _ => inferInstanceAs (Decidable (_ ∧ _))

/-- A description of a table that is in service, with all its indexes. -/
def Ready (client : ControlClient) (exchange : Exchange) : Prop :=
  ∃ state, exchange.described? client = some (some state) ∧ state.InService

/-- A description of a table that is not there, or not all in service. -/
def NotReady (client : ControlClient) (exchange : Exchange) : Prop :=
  ∃ state?, exchange.described? client = some state? ∧ ∀ state, state? = some state → ¬ state.InService

variable {client : ControlClient} {exchange : Exchange}

theorem failure?_eq_some_iff {e : DeploymentError} : exchange.failure? client = some e ↔
    client.answer? exchange.call exchange.response = none ∧ e = .ofResponse exchange.response := by
  rw [failure?, ControlClient.readResponse]
  cases client.answer? exchange.call exchange.response <;> simp [eq_comm]

theorem failure?_eq_none_iff :
    exchange.failure? client = none ↔ (client.answer? exchange.call exchange.response).isSome = true := by
  rw [failure?, ControlClient.readResponse]
  cases client.answer? exchange.call exchange.response <;> simp

end Exchange

/-! ## Scripts -/

/-- Answers a request with the next response of a script, and keeps what was sent. -/
def scripted (client : ControlClient) (script : Nat → ServiceResponse) (call : ControlCall) (log : List Exchange) :
    call.Reply × List Exchange :=
  if (client.request? call).isSome then
    (client.readResponse call (script log.length), log ++ [⟨call, script log.length⟩])
  else (client.readResponse call .unsent, log)

/-- Carries an operation out against a script, after what was sent before; its result, and all that was sent. -/
def Operation.against {α : Type} (operation : Operation α) (client : ControlClient) (script : Nat → ServiceResponse)
    (log : List Exchange) : Except DeploymentError α × List Exchange :=
  Procedure.run (scripted client script) operation.run log

theorem Procedure.run_bind {α β σ : Type} {answer : (call : ControlCall) → σ → call.Reply × σ}
    (p : Procedure α) (f : α → Procedure β) (state : σ) :
    (p.bind f).run answer state = (f (p.run answer state).1).run answer (p.run answer state).2 := by
  induction p generalizing state with
  | done result => rfl
  | ask call next ih => exact ih _ _

namespace Operation

variable {α β : Type} (client : ControlClient) (script : Nat → ServiceResponse) (log : List Exchange)

/-- An operation goes on from what was sent before it, unless that failed. -/
theorem against_bind (operation : Operation α) (f : α → Operation β) :
    (operation >>= f).against client script log =
      match operation.against client script log with
      | (.ok a, log) => (f a).against client script log
      | (.error e, log) => (.error e, log) := by
  refine (Procedure.run_bind operation.run _ log).trans ?_
  show (ExceptT.bindCont f (operation.against client script log).1).run _ (operation.against client script log).2 = _
  obtain ⟨result, after⟩ := operation.against client script log
  cases result <;> rfl

theorem against_bind_pure (operation : Operation Unit) :
    (operation >>= fun _ => pure ()).against client script log = operation.against client script log := by
  rw [against_bind]
  obtain ⟨_ | _, after⟩ := operation.against client script log <;> rfl

theorem against_askControl (call : ControlCall) :
    (askControl call).against client script log = scripted client script call log := rfl

end Operation

/-! ## What there can be in a log -/

/-- The looks at a table that is waited for, of which there are at most so many: it is looked at until it is in service
or a look fails. -/
inductive Awaits (client : ControlClient) (table : String) : Nat → List Exchange → Except DeploymentError Unit → Prop
  | timeout : Awaits client table 0 [] (.error .activationTimeout)
  | ready {attempts : Nat} {look : Exchange} (hcall : look.call = .describeTable table) (hready : look.Ready client) :
      Awaits client table (attempts + 1) [look] (.ok ())
  | failed {attempts : Nat} {look : Exchange} {e : DeploymentError} (hcall : look.call = .describeTable table)
      (hfailed : look.failure? client = some e) : Awaits client table (attempts + 1) [look] (.error e)
  | again {attempts : Nat} {look : Exchange} {looks : List Exchange} {result : Except DeploymentError Unit}
      (hcall : look.call = .describeTable table) (hlook : look.NotReady client)
      (hlooks : Awaits client table attempts looks result) :
      Awaits client table (attempts + 1) (look :: looks) result

/-- The rounds of a deployment, one for each creation: if it is accepted the table is waited for, and only once it is in
service the next round begins. -/
inductive Course (client : ControlClient) (table : String) :
    List ControlCall → List Exchange → Except DeploymentError Unit → Prop
  | done : Course client table [] [] (.ok ())
  /-- There is no request about a table without a name. -/
  | unsent {creation : ControlCall} {creations : List ControlCall} :
      Course client table (creation :: creations) [] (.error (.ofResponse .unsent))
  | rejected {made : Exchange} {creations : List ControlCall} {e : DeploymentError}
      (hmade : made.call.isCreation = true) (hfailed : made.failure? client = some e) :
      Course client table (made.call :: creations) [made] (.error e)
  | stuck {made : Exchange} {creations : List ControlCall} {looks : List Exchange} {e : DeploymentError}
      (hmade : made.Accepted client) (hlooks : Awaits client table activationAttempts looks (.error e)) :
      Course client table (made.call :: creations) (made :: looks) (.error e)
  | next {made : Exchange} {creations : List ControlCall} {looks rest : List Exchange}
      {result : Except DeploymentError Unit} (hmade : made.Accepted client)
      (hlooks : Awaits client table activationAttempts looks (.ok ()))
      (hrest : Course client table creations rest result) :
      Course client table (made.call :: creations) (made :: (looks ++ rest)) result

variable (client : ControlClient) (script : Nat → ServiceResponse)

theorem awaitReady_awaits {table : String} (hsent : (client.request? (.describeTable table)).isSome = true)
    (attempts : Nat) (log : List Exchange) : ∃ looks result, Awaits client table attempts looks result ∧
      (awaitReady table attempts).against client script log = (result, log ++ looks) := by
  induction attempts generalizing log with
  | zero => exact ⟨[], _, .timeout, congrArg _ (List.append_nil log).symm⟩
  | succ attempts ih =>
    let look : Exchange := ⟨.describeTable table, script log.length⟩
    rw [awaitReady, Operation.against_bind, Operation.against_askControl, scripted, if_pos hsent]
    cases hreply : client.readResponse (.describeTable table) (script log.length) with
    | error e =>
      have hfailed : look.failure? client = some e := by simp only [look, Exchange.failure?, hreply]
      exact ⟨[look], _, .failed rfl hfailed, rfl⟩
    | ok state? =>
      have hlook : look.described? client = some state? := ControlClient.readResponse_eq_ok_iff.1 hreply
      dsimp only
      split
      · rename_i hany
        obtain ⟨state, hstate, hready⟩ := (Option.any_eq_true ..).1 hany
        exact ⟨[look], _, .ready rfl ⟨state, hlook.trans (congrArg some hstate), TableState.isReady_iff.1 hready⟩, rfl⟩
      · rename_i hany
        have hnot : look.NotReady client := by
          refine ⟨state?, hlook, fun state hstate hready => hany ?_⟩
          rw [hstate]
          exact TableState.isReady_iff.2 hready
        obtain ⟨looks, result, hlooks, hrun⟩ := ih (log ++ [look])
        exact ⟨look :: looks, result, .again rfl hnot hlooks, hrun.trans (by rw [List.append_assoc]; rfl)⟩

/-- A creation that is waited for begins the course of what comes after it. -/
theorem Course.of_creation (call : ControlCall) (hcreation : call.isCreation = true) {creations : List ControlCall}
    {after : Operation Unit}
    (hafter : ∀ log, ∃ sent result, Course client call.table creations sent result ∧
      after.against client script log = (result, log ++ sent)) (log : List Exchange) :
    ∃ sent result, Course client call.table (call :: creations) sent result ∧
      Operation.against (do let _ ← askControl call; awaitReady call.table activationAttempts; after) client script
        log = (result, log ++ sent) := by
  rw [Operation.against_bind, Operation.against_askControl, scripted]
  by_cases hsent : (client.request? call).isSome = true
  · let made : Exchange := ⟨call, script log.length⟩
    rw [if_pos hsent]
    cases hreply : client.readResponse call (script log.length) with
    | error e =>
      have hfailed : made.failure? client = some e := by simp only [made, Exchange.failure?, hreply]
      exact ⟨[made], _, .rejected hcreation hfailed, rfl⟩
    | ok answer =>
      have hmade : made.Accepted client := ⟨hcreation, by simp only [made, Exchange.failure?, hreply]⟩
      have hlook : (client.request? (.describeTable call.table)).isSome = true :=
        (client.isSome_request?_describe call).trans hsent
      obtain ⟨looks, result, hlooks, hrun⟩ := awaitReady_awaits client script hlook activationAttempts (log ++ [made])
      dsimp only
      rw [Operation.against_bind, hrun]
      cases result with
      | error e => exact ⟨made :: looks, _, .stuck hmade hlooks, by simp [made]⟩
      | ok _ =>
        obtain ⟨rest, result, hrest, hrun⟩ := hafter (log ++ [made] ++ looks)
        exact ⟨made :: (looks ++ rest), result, .next hmade hlooks hrest, hrun.trans (by simp)⟩
  · rw [if_neg hsent]
    exact ⟨[], _, .unsent, congrArg _ (List.append_nil log).symm⟩

/-! ## Plans -/

namespace DeployPlan

def table : DeployPlan → String
  | createTable config => config.table
  | addIndexes table _ | noChanges table => table

/-- What a plan asks for, in order. -/
def creations : DeployPlan → List ControlCall
  | createTable config => [.createTable config]
  | addIndexes table indexes => indexes.map (.addIndex table)
  | noChanges _ => []

end DeployPlan

theorem Course.of_done {table : String} (log : List Exchange) : ∃ sent result, Course client table [] sent result ∧
    (pure () : Operation Unit).against client script log = (result, log ++ sent) :=
  ⟨[], _, .done, congrArg _ (List.append_nil log).symm⟩

theorem addIndexes_course (table : String) (indexes : List IndexConfig) (log : List Exchange) :
    ∃ sent result, Course client table (indexes.map (.addIndex table)) sent result ∧
      (addIndexes table indexes).against client script log = (result, log ++ sent) := by
  induction indexes generalizing log with
  | nil => exact Course.of_done client script log
  | cons index rest ih => exact Course.of_creation client script (.addIndex table index) rfl ih log

theorem createTable_course (config : TableConfig) (log : List Exchange) :
    ∃ sent result, Course client config.table [.createTable config] sent result ∧
      (DeployPlan.createTable config).execute.against client script log = (result, log ++ sent) := by
  have hcourse := Course.of_creation client script (.createTable config) rfl (Course.of_done client script) log
  rw [Operation.against_bind] at hcourse
  simp only [Operation.against_bind_pure] at hcourse
  rw [DeployPlan.execute, Operation.against_bind]
  exact hcourse

/-- What is sent for a plan, and what comes of it, is a course of its creations. -/
theorem DeployPlan.execute_course (plan : DeployPlan) :
    Course client plan.table plan.creations (plan.execute.against client script []).2
      (plan.execute.against client script []).1 := by
  have hrun : ∃ sent result, Course client plan.table plan.creations sent result ∧
      plan.execute.against client script [] = (result, [] ++ sent) := by
    cases plan with
    | createTable config => exact createTable_course client script config []
    | addIndexes table indexes => exact addIndexes_course client script table indexes []
    | noChanges table => exact Course.of_done client script []
  obtain ⟨sent, result, hcourse, hrun⟩ := hrun
  rw [hrun]
  exact hcourse

end KeyedRecords.Deployment
