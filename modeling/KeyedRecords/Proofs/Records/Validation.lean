import KeyedRecords.Proofs.Records.Requests
import KeyedRecords.Proofs.Records.Simulation
import KeyedRecords.Proofs.Schema.Unreadable

/-! Requests that are turned down before a store is asked. A failure that says so of the arguments, the filters, the
fields or the cursor of a request ends it with no exchange, and so does any failure to make its keys. Main statement:
`refused_unasked`. -/

namespace KeyedRecords

/-- Whether a failure says that a request cannot be made: that a key lacks a field, that there is no such filter or
field, or that the cursor is none. -/
def RecordError.Refusal : RecordError → Prop
  | .missingKeyField .. | .unsupportedFilter .. | .invalidFilterField _ | .unknownFields .. | .invalidCursor _ => True
  | _ => False

theorem RecordError.Unreadable.not_refusal {failure : RecordError} (h : failure.Unreadable) :
    ¬ failure.Refusal := by
  cases failure <;> simp_all [RecordError.Unreadable, RecordError.Refusal]

namespace Records

variable {ρ : Type}

/-- The fields of a record to create, with an identifier for it if they have none. -/
def identifiedBy (id : Identifier) (fields : Arguments) : Arguments :=
  if Arguments.has fields "id" then fields else Assoc.insert fields "id" (.string id.text)

/-- What a strategy makes of the fields of a record to create. -/
def createdKey (records : Records ρ) (id : Identifier) (fields : Arguments) : Result Key :=
  records.model.keys.key (Assoc.ofList (records.shape (identifiedBy id fields)))

/-- Whether the keys of a request are made, given the identifier for a record to create. -/
def resolve (records : Records ρ) (id : Identifier) : RecordRequest ρ → Result Unit
  | .single (.create fields) => discard (records.createdKey id fields)
  | .single (.get args) | .single (.update args) | .single (.delete args) => discard (records.model.keys.key args)
  | .single (.remove record) => do
    let args ← records.fieldsOf record
    discard (records.model.keys.key args)
  | .single (.save record) => do
    let fields ← records.fieldsOf record
    match records.form.id? record with
    | none => discard (records.createdKey id fields)
    | some _ => discard (records.model.keys.key fields)
  | .createRecord record => do
    let fields ← records.fieldsOf record
    discard (records.createdKey id fields)
  | .collect (.filters filters) _ | .stream (.filters filters) _ _ | .page filters _ _ | .deleteAll filters =>
    discard (records.queryFor filters)
  | .collect (.query query) _ | .stream (.query query) _ _ => discard (query.bind records.model.layout)

/-! ## Refusals come first -/

/-- Whether a result comes before any exchange if it is a refusal. -/
def Unasked {α : Type} (seen : List Exchange) (result : Result α) : Prop :=
  ∀ failure, result = .error failure → failure.Refusal → seen = []

section Unasked

variable {α : Type} {seen : List Exchange}

theorem unasked_nil (result : Result α) : Unasked [] result := fun _ _ _ => rfl

theorem unasked_ok (a : α) : Unasked seen (.ok a) := fun _ h => nomatch h

theorem unasked_error {failure : RecordError} (h : ¬ failure.Refusal) :
    Unasked seen (.error failure : Result α) := by
  intro other hother
  cases hother
  exact fun hrefusal => absurd hrefusal h

theorem unasked_store (e : StoreError) : Unasked seen (.error (.store e) : Result α) := unasked_error id

theorem unasked_of_unreadable {result : Result α} (h : OnlyUnreadable result) : Unasked seen result :=
  fun failure hfailure hrefusal => absurd hrefusal (h failure hfailure).not_refusal

theorem Unasked.map {β : Type} {result : Result α} (h : Unasked seen result) (f : α → β) :
    Unasked seen (result.map f) := by
  cases result with
  | ok a => exact unasked_ok (f a)
  | error e => exact fun failure hfailure => h failure (by cases hfailure; rfl)

end Unasked

section Commands

open Command

variable (records : Records ρ)

theorem create_unasked (fields : Arguments) : (records.create fields).Ensures (fun _ => True) Unasked [] := by
  refine Ensures.bind (Program.Ensures.mono ?_ (identified_ensures fields))
  rintro _ (e | fields) rfl
  · exact unasked_nil _
  · refine ensures_result_bind (fun pair _ => ?_) fun e _ => unasked_nil _
    refine ensures_now_bind fun time => ensures_attempt_bind fun reply _ => ?_
    cases reply with
    | ok _ => exact ensures_result (unasked_of_unreadable (read_unreadable records _))
    | error e => cases e <;> exact unasked_error id

theorem createRecord_unasked (record : ρ) :
    (records.createRecord record).Ensures (fun _ => True) Unasked [] :=
  ensures_result_bind (fun fields _ => create_unasked records fields) fun _ _ => unasked_nil _

theorem get_unasked (args : Arguments) : (records.get args).Ensures (fun _ => True) Unasked [] := by
  refine ensures_result_bind (fun key _ => ?_) fun _ _ => unasked_nil _
  refine ensures_ask_bind (fun item? _ => ?_) fun e _ => unasked_store e
  cases item? with
  | none => exact unasked_error id
  | some item => exact ensures_result (unasked_of_unreadable (read_unreadable records item))

theorem update_unasked (args : Arguments) : (records.update args).Ensures (fun _ => True) Unasked [] := by
  refine ensures_result_bind (fun key _ => ?_) fun _ _ => unasked_nil _
  refine ensures_result_bind (fun written _ => ?_) fun _ _ => unasked_nil _
  refine ensures_now_bind fun time => ensures_attempt_bind fun reply _ => ?_
  cases reply with
  | ok item => exact ensures_result (unasked_of_unreadable (read_unreadable records item))
  | error e => cases e <;> exact unasked_error id

theorem save_unasked (record : ρ) : (records.save record).Ensures (fun _ => True) Unasked [] := by
  simp only [save]
  split
  · exact createRecord_unasked records record
  · refine ensures_result_bind (fun fields _ => ?_) fun _ _ => unasked_nil _
    refine ensures_result_bind (fun pair _ => ?_) fun _ _ => unasked_nil _
    exact ensures_now_bind fun time => ensures_ask_bind (fun _ _ => unasked_ok record) fun e _ => unasked_store e

theorem deleteKey_unasked (key : Key) (seen : List Exchange) :
    (records.deleteKey key).Ensures (fun _ => True) Unasked seen :=
  ensures_ask_bind (fun _ _ => unasked_ok _) fun e _ => unasked_store e

theorem delete_unasked (args : Arguments) : (records.delete args).Ensures (fun _ => True) Unasked [] := by
  refine ensures_result_bind (fun key _ => ?_) fun _ _ => unasked_nil _
  rw [← map_eq_pure_bind]
  exact Ensures.map (Program.Ensures.mono (fun seen result h => h.map _) (deleteKey_unasked records key []))

theorem remove_unasked (record : ρ) : (records.remove record).Ensures (fun _ => True) Unasked [] := by
  refine ensures_result_bind (fun args _ => ?_) fun _ _ => unasked_nil _
  rw [← map_eq_pure_bind]
  exact Ensures.map (Program.Ensures.mono (fun seen result h => h.map _) (delete_unasked records args))

theorem perform_unasked (call : RecordCall ρ) : (records.perform call).Ensures (fun _ => True) Unasked [] := by
  have hmap : ∀ {α : Type} {c : Command α} (f : α → RecordAnswer ρ), c.Ensures (fun _ => True) Unasked [] →
      (f <$> c).Ensures (fun _ => True) Unasked [] :=
    fun f h => Ensures.map (Program.Ensures.mono (fun _ _ hresult => hresult.map f) h)
  cases call with
  | create fields => exact hmap _ (create_unasked records fields)
  | get args => exact hmap _ (get_unasked records args)
  | update args => exact hmap _ (update_unasked records args)
  | save record => exact hmap _ (save_unasked records record)
  | delete args => exact hmap _ (delete_unasked records args)
  | remove record => exact hmap _ (remove_unasked records record)

theorem page_unasked (filters : Arguments) (cursor? : Option Cursor) (limit : Nat) :
    (records.page filters cursor? limit).Ensures (fun _ => True) Unasked [] := by
  refine ensures_result_bind (fun bound _ => ?_) fun _ _ => unasked_nil _
  refine ensures_ask_bind (fun page _ => ?_) fun e _ => unasked_store e
  have hread : OnlyUnreadable (page.items.mapM records.read) :=
    onlyUnreadable_mapM fun item _ => read_unreadable records item
  exact ensures_result_bind (fun read _ => unasked_ok _) fun e he =>
    unasked_error (hread e he).not_refusal

theorem deleteKeys_unasked (keys : List Key) (seen : List Exchange) :
    (records.deleteKeys keys).Ensures (fun _ => True) Unasked seen := by
  induction keys generalizing seen with
  | nil => exact unasked_ok 0
  | cons key rest ih =>
    refine Ensures.bind (Program.Ensures.mono ?_ (deleteKey_unasked records key seen))
    rintro seen (e | deleted) hkey
    · exact fun failure hfailure => hkey failure (by cases hfailure; rfl)
    · refine Ensures.bind (Program.Ensures.mono ?_ (ih seen))
      rintro seen (e | more) hmore
      · exact hmore
      · exact unasked_ok _

theorem deleteAll_unasked (filters : Arguments) :
    (records.deleteAll filters).Ensures (fun _ => True) Unasked [] := by
  refine ensures_result_bind (fun query _ => ?_) fun _ _ => unasked_nil _
  refine ensures_result_bind (fun bound _ => ?_) fun _ _ => unasked_nil _
  refine ensures_readPages_bind fun reads _ _ read => ?_
  obtain ⟨items, failure?⟩ := read
  cases failure? with
  | some e => exact unasked_store e
  | none => exact deleteKeys_unasked records _ _

/-- What a listing makes of items fails only as reading them does. -/
theorem outcomes_unreadable (listing : Listing ρ) (items : List Item) :
    ∀ outcome ∈ listing.outcomes items, OnlyUnreadable outcome := by
  intro outcome houtcome
  obtain ⟨item, -, rfl⟩ := List.mem_map.1 (List.mem_filter.1 houtcome).1
  exact read_unreadable listing.records item

theorem collect_unasked (listing : Listing ρ) (seen : List Exchange) :
    listing.collect.Ensures (fun _ => True) Unasked seen := by
  refine ensures_readPages_bind fun reads _ _ read => ?_
  have hread : OnlyUnreadable ((listing.outcomes read.1).mapM id) :=
    onlyUnreadable_mapM (outcomes_unreadable listing read.1)
  refine ensures_result_bind (fun found _ => ?_) fun e he => unasked_error (hread e he).not_refusal
  cases read.2 with
  | none => exact unasked_ok found
  | some e => exact unasked_store e

/-- A stream of a listing has no refusal in it. -/
theorem stream_unrefused (listing : Listing ρ) (count? : Option Nat) (seen : List Exchange) :
    (listing.stream count?).Ensures (fun _ => True)
      (fun _ result => ∀ failure : RecordError, failure.ReportedBy (result.map .outcomes) → ¬ failure.Refusal)
      seen := by
  simp only [Listing.stream]
  split
  · refine ensures_readPages_bind fun reads _ _ read => ?_
    intro failure hfailure
    have hmem : Except.error failure ∈
        listing.outcomes read.1 ++ (read.2.map fun e => (.error (.store e) : Result ρ)).toList := by
      cases count? with
      | none => exact hfailure
      | some count => exact List.mem_of_mem_take hfailure
    rcases List.mem_append.1 hmem with hmem | hmem
    · exact (outcomes_unreadable listing read.1 _ hmem failure rfl).not_refusal
    · cases hstore : read.2 with
      | none => simp [hstore] at hmem
      | some e =>
        rw [hstore] at hmem
        cases List.mem_singleton.1 hmem
        exact id
  · exact fun _ hfailure => absurd hfailure List.not_mem_nil

theorem handle_unasked (request : RecordRequest ρ) :
    (records.handle request).Ensures (fun _ => True) (fun seen result =>
      ∀ failure : RecordError, failure.ReportedBy result → failure.Refusal → seen = []) [] := by
  have hmap : ∀ {α : Type} {c : Command α} {f : α → RecordResponse ρ} {seen : List Exchange},
      (∀ a (failure : RecordError), ¬ failure.ReportedBy (.ok (f a))) → c.Ensures (fun _ => True) Unasked seen →
        (f <$> c).Ensures (fun _ => True) (fun seen result =>
          ∀ failure : RecordError, failure.ReportedBy result → failure.Refusal → seen = []) seen := by
    intro α c f seen hf h
    refine Ensures.map (Program.Ensures.mono (fun seen result hresult failure hfailure => ?_) h)
    cases result with
    | ok a => exact absurd hfailure (hf a failure)
    | error e => exact hresult failure (congrArg Except.error hfailure)
  cases request with
  | single call => exact hmap (fun _ _ => id) (perform_unasked records call)
  | createRecord record => exact hmap (fun _ _ => id) (createRecord_unasked records record)
  | collect selection keep =>
    exact ensures_result_bind (fun listing _ => hmap (fun _ _ => id) (collect_unasked listing []))
      fun _ _ _ _ _ => rfl
  | stream selection keep count? =>
    refine ensures_result_bind (fun listing _ => ?_) fun _ _ _ _ _ => rfl
    refine Ensures.map (Program.Ensures.mono ?_ (stream_unrefused listing count? []))
    exact fun seen result hresult failure hfailure hrefusal => absurd hrefusal (hresult failure hfailure)
  | page filters cursor? limit => exact hmap (fun _ _ => id) (page_unasked records filters cursor? limit)
  | deleteAll filters => exact hmap (fun _ _ => id) (deleteAll_unasked records filters)

end Commands

/-! ## Keys that are not made -/

section Unresolved

variable {σ : Type} {host : Host σ} {pages : Nat} {records : Records ρ} {state : σ} {failure : RecordError}

/-- Whether a run ended with a failure, after a new identifier at the most. -/
def FailsFirst {α : Type} (host : Host σ) (state : σ) (failure : RecordError) (run : Option (Result α × σ)) : Prop :=
  ∃ after, run = some (.error failure, after) ∧ (after = state ∨ after = (host.identifier state).2)

theorem FailsFirst.map {α β : Type} {c : Command α} (h : FailsFirst host state failure (host.command pages c state))
    (f : α → β) : FailsFirst host state failure (host.command pages (f <$> c) state) := by
  obtain ⟨after, hrun, hafter⟩ := h
  rw [Host.command_map, hrun]
  exact ⟨after, rfl, hafter⟩

theorem failsFirst_result {α β : Type} {result : Result α} (h : result = .error failure) (f : α → Command β) :
    FailsFirst host state failure (host.command pages ((liftM result : Command α) >>= f) state) := by
  rw [h]
  exact ⟨state, rfl, Or.inl rfl⟩

theorem discard_eq_error {α : Type} {result : Result α} (h : discard result = .error failure) :
    result = .error failure := by
  cases result with
  | ok a => cases h
  | error e => exact congrArg Except.error (Except.error.inj h)

theorem create_unresolved {fields : Arguments}
    (h : records.createdKey (host.identifier state).1 fields = .error failure) :
    FailsFirst host state failure (host.command pages (records.create fields) state) := by
  have hencode : ∀ {fields : Arguments}, records.model.keys.key fields = .error failure →
      records.encode fields = .error failure := by
    intro fields hkey
    rw [encode, hkey]
    rfl
  by_cases hid : Arguments.has fields "id" = true
  · rw [createdKey, identifiedBy, if_pos hid] at h
    rw [create, identified, if_pos hid]
    exact failsFirst_result (hencode h) _
  · rw [createdKey, identifiedBy, if_neg hid] at h
    rw [create, identified, if_neg hid]
    refine ⟨(host.identifier state).2, ?_, Or.inr rfl⟩
    show host.command pages ((liftM (records.encode _) : Command _) >>= _) (host.identifier state).2 = _
    rw [hencode h]
    rfl

theorem createRecord_unresolved {record : ρ}
    (h : records.resolve (host.identifier state).1 (.createRecord record) = .error failure) :
    FailsFirst host state failure (host.command pages (records.createRecord record) state) := by
  rcases bind_eq_error.1 h with hfields | ⟨fields, hfields, hkey⟩
  · exact failsFirst_result hfields _
  · rw [createRecord, hfields, Host.command_ok_bind]
    exact create_unresolved (discard_eq_error hkey)

theorem save_unresolved {record : ρ}
    (h : records.resolve (host.identifier state).1 (.single (.save record)) = .error failure) :
    FailsFirst host state failure (host.command pages (records.save record) state) := by
  cases hid : records.form.id? record with
  | none =>
    simp only [resolve, hid] at h
    simp only [save, hid]
    exact createRecord_unresolved h
  | some id =>
    simp only [resolve, hid] at h
    simp only [save, hid]
    rcases bind_eq_error.1 h with hfields | ⟨fields, hfields, hkey⟩
    · exact failsFirst_result hfields _
    · rw [hfields, Host.command_ok_bind, encode, discard_eq_error hkey]
      exact ⟨state, rfl, Or.inl rfl⟩

theorem remove_unresolved {record : ρ}
    (h : records.resolve (host.identifier state).1 (.single (.remove record)) = .error failure) :
    FailsFirst host state failure (host.command pages (records.remove record) state) := by
  rcases bind_eq_error.1 h with hargs | ⟨args, hargs, hkey⟩
  · exact failsFirst_result hargs _
  · rw [remove, hargs, Host.command_ok_bind, delete, discard_eq_error hkey]
    exact ⟨state, rfl, Or.inl rfl⟩

theorem perform_unresolved {call : RecordCall ρ}
    (h : records.resolve (host.identifier state).1 (.single call) = .error failure) :
    FailsFirst host state failure (host.command pages (records.perform call) state) := by
  cases call with
  | create fields => exact (create_unresolved (discard_eq_error h)).map _
  | get args => exact FailsFirst.map (failsFirst_result (discard_eq_error h) _) _
  | update args => exact FailsFirst.map (failsFirst_result (discard_eq_error h) _) _
  | save record => exact (save_unresolved h).map _
  | delete args => exact FailsFirst.map (failsFirst_result (discard_eq_error h) _) _
  | remove record => exact (remove_unresolved h).map _

theorem select_unresolved {id : Identifier} {selection : RecordSelection} {keep : ρ → Bool}
    (h : records.resolve id (.collect selection keep) = .error failure) :
    records.select keep selection = .error failure := by
  cases selection with
  | filters filters =>
    rw [select, list, discard_eq_error h]
    rfl
  | query query =>
    rw [select, listQuery, discard_eq_error h]
    rfl

theorem handle_unresolved {request : RecordRequest ρ}
    (h : records.resolve (host.identifier state).1 request = .error failure) :
    FailsFirst host state failure (host.command pages (records.handle request) state) := by
  cases request with
  | single call => exact (perform_unresolved h).map _
  | createRecord record => exact (createRecord_unresolved h).map _
  | collect selection keep => exact failsFirst_result (select_unresolved h) _
  | stream selection keep count? =>
    have hcollect : records.resolve (host.identifier state).1 (.collect selection keep) = .error failure := by
      cases selection <;> exact h
    exact failsFirst_result (select_unresolved hcollect) _
  | page filters cursor? limit =>
    refine FailsFirst.map (failsFirst_result ?_ _) _
    rw [pageQuery, discard_eq_error h]
    rfl
  | deleteAll filters => exact FailsFirst.map (failsFirst_result (discard_eq_error h) _) _

end Unresolved

/-- On any store, a request that is refused has made no call and changed nothing, and no stream brings a refusal. A
request whose keys are not made ends so too, with what the strategy failed with, whatever failure that is. -/
theorem refused_unasked {σ γ : Type} (records : Records ρ) (host : Host σ) (contents : σ → γ)
    (hnow : ∀ state, contents (host.now state).2 = contents state)
    (hidentifier : ∀ state, contents (host.identifier state).2 = contents state) (pages : Nat)
    (request : RecordRequest ρ) (state : σ) :
    (∀ result after exchanges (failure : RecordError),
      host.recorded.command pages (records.handle request) (state, []) = some (result, after, exchanges) →
        failure.ReportedBy result → failure.Refusal → exchanges = [] ∧ contents after = contents state) ∧
    ∀ failure, records.resolve (host.identifier state).1 request = .error failure →
      ∃ after, host.recorded.command pages (records.handle request) (state, []) = some (.error failure, after, []) ∧
        contents after = contents state := by
  constructor
  · intro result after exchanges failure hrun hreported hrefusal
    have hasks : (records.handle request).Asks fun _ => True := Program.asks_anything _
    have hnone : exchanges = [] := Program.Ensures.run host.answers_anything hasks
      (handle_unasked records request) trivial hrun failure hreported hrefusal
    -- Every answer is kept, so with none of them only the clock and the identifiers have moved the state.
    have hkept : exchanges ≠ [] ∨ contents after = contents state := by
      refine host.recorded.run_preserves pages (P := fun state' => state'.2 ≠ [] ∨
        contents state'.1 = contents state) ?_ ?_ ?_ (Or.inr rfl) hrun
      · exact fun call state' _ => Or.inl (List.append_ne_nil_of_right_ne_nil _ (List.cons_ne_nil _ _))
      · exact fun state' => Or.imp_right (hnow state'.1).trans
      · exact fun state' => Or.imp_right (hidentifier state'.1).trans
    exact ⟨hnone, hkept.resolve_left (not_not_intro hnone)⟩
  · intro failure hresolve
    have hrecorded : records.resolve (host.recorded.identifier (state, [])).1 request = .error failure := hresolve
    have hfails : FailsFirst host.recorded (state, []) failure
        (host.recorded.command pages (records.handle request) (state, [])) := handle_unresolved hrecorded
    obtain ⟨after, hrun, rfl | rfl⟩ := hfails
    · exact ⟨state, hrun, rfl⟩
    · exact ⟨(host.identifier state).2, hrun, hidentifier state⟩

/-- Notes with keys of a strategy that has failures of its own. -/
def lockedNotes : Records Json :=
  { notes with model := { notes.model with
      keys := .custom (fun args => if args.has "id" then .error (.store (.throttled "locked")) else
        .error (.missingKeyField "Note" "id")) (fun _ => .error (.store (.throttled "locked"))) ["id"] } }

theorem refused_unasked_notes :
    (∃ after, Environment.still.host.recorded.command 1
        (notes.handle (.single (.create [("id", .string "1"), ("size", .string "a")]))) (({}, ()), []) =
          some (.error (.unknownFields "Note" ["size"]), after, []) ∧ after.1.tables = []) ∧
      ∃ after, Environment.still.host.recorded.command 1
        (lockedNotes.handle (.single (.remove (.map [("id", .string "1")])))) (({}, ()), []) =
          some (.error (.store (.throttled "locked")), after, []) ∧ after.1.tables = [] := by
  have hrefused := (refused_unasked notes Environment.still.host (fun state => state.1.tables) (fun _ => rfl)
    (fun _ => rfl) 1 (.single (.create [("id", .string "1"), ("size", .string "a")])) ({}, ())).1
  have hlocked := (refused_unasked lockedNotes Environment.still.host (fun state => state.1.tables) (fun _ => rfl)
    (fun _ => rfl) 1 (.single (.remove (.map [("id", .string "1")]))) ({}, ())).2
  exact ⟨⟨_, rfl, (hrefused _ _ _ _ rfl rfl trivial).2⟩, hlocked _ rfl⟩

end Records

end KeyedRecords
