import KeyedRecords.Proofs.Deployment.Log

/-! What the answers to the calls of a deployment say. A description that can be read tells whether the table is in
service; that there is no table is told by one exception alone; all else fails. Main statement: `Exchange.reading`. -/

namespace KeyedRecords.Deployment

/-! ## Descriptions -/

/-- Whether a status says that something is under way. One that is missing, or is no word that is known, does not. -/
def UnderWay (description : Json.Map) (member : String) : Prop :=
  ∃ word ∈ ["CREATING", "UPDATING", "DELETING"], Assoc.find? description member = some (.string word)

theorem Status.ofWord_eq_active_iff {word : String} :
    ofWord word = active ↔ word ∉ ["CREATING", "UPDATING", "DELETING"] := by
  unfold ofWord
  split <;> simp_all

theorem textAt?_eq_some_iff {description : Json.Map} {member word : String} :
    textAt? description member = some word ↔ Assoc.find? description member = some (.string word) := by
  rw [textAt?]
  cases Assoc.find? description member with
  | none => simp
  | some json => cases json <;> simp [Json.asString?]

theorem statusAt_eq_active_iff {description : Json.Map} {member : String} :
    statusAt description member = .active ↔ ¬ UnderWay description member := by
  simp only [UnderWay, ← textAt?_eq_some_iff, statusAt]
  cases textAt? description member with
  | none => simp
  | some word => simp [Status.ofWord_eq_active_iff]

/-- Whether a description shows a table in service: of neither the table nor an index it says that something is under
way. -/
def ShowsInService (description : Json.Map) : Prop :=
  ¬ UnderWay description "TableStatus" ∧
    ∀ indexes, Assoc.find? description "GlobalSecondaryIndexes" = some (.list indexes) →
      ∀ index, .map index ∈ indexes → ¬ UnderWay index "IndexStatus"

theorem inService_ofDescription_iff {description : Json.Map} :
    (TableState.ofDescription description).InService ↔ ShowsInService description := by
  refine and_congr statusAt_eq_active_iff ?_
  simp only [TableState.ofDescription, List.mem_filterMap, Option.map_eq_some_iff, Json.asMap?_eq_some_iff,
    IndexState.ofDescription]
  cases Assoc.find? description "GlobalSecondaryIndexes" with
  | none => simp
  | some json =>
    cases json with
    | list indexes =>
      simp only [Option.bind_some, Json.asList?, Option.getD_some, Option.some.injEq, Json.list.injEq, forall_eq']
      constructor
      · exact fun h index hindex => statusAt_eq_active_iff.1 (h _ ⟨_, hindex, index, rfl, rfl⟩)
      · rintro h _ ⟨_, hindex, index, rfl, rfl⟩
        exact statusAt_eq_active_iff.2 (h index hindex)
    | _ => simp [Json.asList?]

/-! ## Answers -/

namespace ControlClient

variable {client : ControlClient} {response : ServiceResponse}

theorem answer?_ok_eq_some_iff {call : ControlCall} {body : Json} {answer : call.Answer} :
    client.answer? call (.ok body) = some answer ↔
      ∃ members, body = .map members ∧ client.reads call.bodyMember (.map members) = true ∧
        answer = call.readBody members := by
  rw [answer?]
  split
  · rename_i hreads
    rw [Option.map_eq_some_iff]
    constructor
    · rintro ⟨members, hmap, rfl⟩
      obtain rfl := Json.asMap?_eq_some_iff.1 hmap
      exact ⟨members, rfl, hreads, rfl⟩
    · rintro ⟨members, rfl, -, rfl⟩
      exact ⟨members, rfl, rfl⟩
  · rename_i hreads
    refine iff_of_false nofun ?_
    rintro ⟨members, rfl, hmembers, -⟩
    exact hreads hmembers

/-- A table is described by a body that can be read, or found missing by an exception. -/
theorem answer?_describe_eq_some_iff {table : String} {state? : Option TableState} :
    client.answer? (.describeTable table) response = some state? ↔
      (state? = none ∧ ∃ code message?, response = .exception code message? ∧
        exceptionName code = "ResourceNotFoundException") ∨
      ∃ members, response = .ok (.map members) ∧ client.reads "Table" (.map members) = true ∧
        state? = ((Assoc.find? members "Table").bind Json.asMap?).map TableState.ofDescription := by
  cases response with
  | ok body =>
    refine answer?_ok_eq_some_iff.trans ?_
    simp [ControlCall.bodyMember, ControlCall.readBody]
  | exception code message? =>
    simp only [answer?, ControlCall.readException?]
    split
    · rename_i hname
      simp only [Option.some.injEq, ServiceResponse.exception.injEq, reduceCtorEq, false_and, exists_false,
        or_false]
      exact ⟨fun h => ⟨h.symm, code, message?, ⟨rfl, rfl⟩, hname⟩, fun h => h.1.symm⟩
    · rename_i hname
      refine iff_of_false nofun ?_
      rintro (⟨-, _, _, hsame, hcode⟩ | ⟨_, hsame, -⟩)
      · cases hsame
        exact hname hcode
      · cases hsame
  | timeout | unsent => simp [answer?]

/-- A call is answered by a body that can be read, and a look at a table by the exception that there is none. -/
theorem isSome_answer?_iff {call : ControlCall} : (client.answer? call response).isSome = true ↔
    (∃ members, response = .ok (.map members) ∧ client.reads call.bodyMember (.map members) = true) ∨
      ∃ table code message?, call = .describeTable table ∧ response = .exception code message? ∧
        exceptionName code = "ResourceNotFoundException" := by
  cases response with
  | ok body =>
    simp only [Option.isSome_iff_exists, answer?_ok_eq_some_iff, ServiceResponse.ok.injEq, reduceCtorEq, false_and,
      and_false, exists_false, or_false]
    exact ⟨fun ⟨_, members, hbody, hreads, _⟩ => ⟨members, hbody, hreads⟩,
      fun ⟨members, hbody, hreads⟩ => ⟨_, members, hbody, hreads, rfl⟩⟩
  | exception code message? =>
    simp only [answer?]
    cases call <;> simp [ControlCall.readException?]
  | timeout | unsent => simp [answer?]

end ControlClient

/-! ## Exchanges -/

namespace Exchange

/-- What an exchange tells, by its response. -/
structure Reading (client : ControlClient) (exchange : Exchange) : Prop where
  /-- A creation is accepted by a body that can be read. -/
  accepted : exchange.Accepted client ↔ exchange.call.isCreation = true ∧ ∃ members,
    exchange.response = .ok (.map members) ∧ client.reads "TableDescription" (.map members) = true
  ready : exchange.Ready client ↔ ∃ table members description, exchange.call = .describeTable table ∧
    exchange.response = .ok (.map members) ∧ client.reads "Table" (.map members) = true ∧
      Assoc.find? members "Table" = some (.map description) ∧ ShowsInService description
  /-- A table is missing by one exception, or where the body does not describe it. -/
  notReady : exchange.NotReady client ↔ ∃ table, exchange.call = .describeTable table ∧
    ((∃ code message?, exchange.response = .exception code message? ∧
        exceptionName code = "ResourceNotFoundException") ∨
      ∃ members, exchange.response = .ok (.map members) ∧ client.reads "Table" (.map members) = true ∧
        ∀ description, Assoc.find? members "Table" = some (.map description) → ¬ ShowsInService description)
  /-- All else fails, and the failure is told by the response. -/
  failed : ∀ e, exchange.failure? client = some e ↔ e = .ofResponse exchange.response ∧
    (∀ members, exchange.response = .ok (.map members) →
      client.reads exchange.call.bodyMember (.map members) = false) ∧
    ∀ table code message?, exchange.call = .describeTable table → exchange.response = .exception code message? →
      exceptionName code ≠ "ResourceNotFoundException"

theorem described?_eq_some_iff {client : ControlClient} {exchange : Exchange} {state? : Option TableState} :
    exchange.described? client = some state? ↔ ∃ table, exchange.call = .describeTable table ∧
      ((state? = none ∧ ∃ code message?, exchange.response = .exception code message? ∧
          exceptionName code = "ResourceNotFoundException") ∨
        ∃ members, exchange.response = .ok (.map members) ∧ client.reads "Table" (.map members) = true ∧
          state? = ((Assoc.find? members "Table").bind Json.asMap?).map TableState.ofDescription) := by
  obtain ⟨call, response⟩ := exchange
  cases call with
  | describeTable table => exact ControlClient.answer?_describe_eq_some_iff.trans (by simp)
  | createTable _ | addIndex _ _ | deleteTable _ => simp [described?]

theorem reading (client : ControlClient) (exchange : Exchange) : exchange.Reading client where
  accepted := by
    rw [Accepted, failure?_eq_none_iff, ControlClient.isSome_answer?_iff]
    obtain ⟨call, response⟩ := exchange
    refine and_congr_right fun hcreation => ?_
    cases call with
    | createTable _ | addIndex _ _ => simp [ControlCall.bodyMember]
    | describeTable _ | deleteTable _ => cases hcreation
  ready := by
    simp only [Ready, described?_eq_some_iff]
    constructor
    · rintro ⟨state, ⟨table, hcall, ⟨hnone, -⟩ | ⟨members, hresponse, hreads, hstate⟩⟩, hready⟩
      · cases hnone
      · obtain ⟨description, hdescription, rfl⟩ := Option.map_eq_some_iff.1 hstate.symm
        obtain ⟨json, hjson, hmap⟩ := Option.bind_eq_some_iff.1 hdescription
        refine ⟨table, members, description, hcall, hresponse, hreads, ?_, inService_ofDescription_iff.1 hready⟩
        rw [hjson, Json.asMap?_eq_some_iff.1 hmap]
    · rintro ⟨table, members, description, hcall, hresponse, hreads, hfind, hready⟩
      refine ⟨.ofDescription description, ⟨table, hcall, Or.inr ⟨members, hresponse, hreads, ?_⟩⟩,
        inService_ofDescription_iff.2 hready⟩
      rw [hfind]
      rfl
  notReady := by
    simp only [NotReady, described?_eq_some_iff]
    constructor
    · rintro ⟨state?, ⟨table, hcall, ⟨rfl, hmissing⟩ | ⟨members, hresponse, hreads, rfl⟩⟩, hnot⟩
      · exact ⟨table, hcall, Or.inl hmissing⟩
      · refine ⟨table, hcall, Or.inr ⟨members, hresponse, hreads, fun description hfind hready => ?_⟩⟩
        refine hnot (.ofDescription description) ?_ (inService_ofDescription_iff.2 hready)
        rw [hfind]
        rfl
    · rintro ⟨table, hcall, hmissing | ⟨members, hresponse, hreads, hnot⟩⟩
      · exact ⟨none, ⟨table, hcall, Or.inl ⟨rfl, hmissing⟩⟩, nofun⟩
      · refine ⟨_, ⟨table, hcall, Or.inr ⟨members, hresponse, hreads, rfl⟩⟩, fun state hstate hready => ?_⟩
        obtain ⟨description, hdescription, rfl⟩ := Option.map_eq_some_iff.1 hstate
        obtain ⟨json, hjson, hmap⟩ := Option.bind_eq_some_iff.1 hdescription
        refine hnot description ?_ (inService_ofDescription_iff.1 hready)
        rw [hjson, Json.asMap?_eq_some_iff.1 hmap]
  failed e := by
    rw [failure?_eq_some_iff, and_comm]
    refine and_congr_right fun _ => ?_
    rw [← Option.isSome_eq_false_iff.trans Option.isNone_iff_eq_none, Bool.eq_false_iff, Ne,
      ControlClient.isSome_answer?_iff]
    simp only [not_or, not_exists, not_and, Bool.not_eq_true]

end Exchange

end KeyedRecords.Deployment
