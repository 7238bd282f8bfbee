import KeyedRecords.Proofs.Records.Map
import KeyedRecords.Proofs.Records.Operations
import KeyedRecords.Proofs.Store.History

/-! All requests that can be made of the records of a model, as data, and the commands that serve them. Main statement:
`Records.handle_asks`. -/

namespace KeyedRecords

/-- What a listing selects: the records that filters name, or those of a query. -/
inductive RecordSelection where
  | filters (filters : Arguments)
  | query (query : Query)

inductive RecordRequest (ρ : Type) where
  | single (call : RecordCall ρ)
  | createRecord (record : ρ)
  /-- All records selected, in one list. -/
  | collect (selection : RecordSelection) (keep : ρ → Bool)
  /-- The records selected one by one, at most so many if a count is given. -/
  | stream (selection : RecordSelection) (keep : ρ → Bool) (count? : Option Nat)
  | page (filters : Arguments) (cursor? : Option Cursor) (limit : Nat)
  | deleteAll (filters : Arguments)

inductive RecordResponse (ρ : Type) where
  | answer (answer : RecordAnswer ρ)
  | records (records : List ρ)
  | outcomes (outcomes : List (Result ρ))
  | page (page : RecordPage ρ)

/-- Whether a failure is reported: by a request that failed, or in place of a record of a stream. -/
def RecordError.ReportedBy {ρ : Type} (failure : RecordError) : Result (RecordResponse ρ) → Prop
  | .error e => e = failure
  | .ok (.outcomes outcomes) => .error failure ∈ outcomes
  | .ok _ => False

namespace Records

variable {ρ : Type}

/-- The listing of what is selected. -/
def select (records : Records ρ) (keep : ρ → Bool) : RecordSelection → Result (Listing ρ)
  | .filters filters => records.list filters keep
  | .query query => records.listQuery query keep

/-- The command that serves a request. -/
def handle (records : Records ρ) : RecordRequest ρ → Command (RecordResponse ρ)
  | .single call => .answer <$> records.perform call
  | .createRecord record => (fun record => .answer (.record record)) <$> records.createRecord record
  | .collect selection keep => do
    let listing ← records.select keep selection
    .records <$> listing.collect
  | .stream selection keep count? => do
    let listing ← records.select keep selection
    .outcomes <$> listing.stream count?
  | .page filters cursor? limit => .page <$> records.page filters cursor? limit
  | .deleteAll filters => (fun count => .answer (.count count)) <$> records.deleteAll filters

variable {records : Records ρ}

theorem select_layout {keep : ρ → Bool} {selection : RecordSelection} {listing : Listing ρ}
    (h : records.select keep selection = .ok listing) :
    listing.records = records ∧ listing.query.layout = records.model.layout := by
  have hquery : ∀ {query : Query}, records.listQuery query keep = .ok listing →
      listing.records = records ∧ listing.query.layout = records.model.layout := by
    intro query h
    obtain ⟨bound, hbound, h⟩ := bind_eq_ok.1 h
    cases h
    exact ⟨rfl, Query.bind_layout hbound⟩
  cases selection with
  | query query => exact hquery h
  | filters filters =>
    obtain ⟨query, -, h⟩ := bind_eq_ok.1 h
    exact hquery h

section Asks

open Command

variable {P : Call → Prop} (h : records.GuardedCalls P)

include h

/-- Commands ask calls of a kind if saving does, where they save. -/
theorem perform_asks {call : RecordCall ρ}
    (hsave : ∀ record, call = .save record → Asks P (records.save record)) : Asks P (records.perform call) := by
  cases call with
  | create fields => exact (create_asks h fields).map _
  | get args => exact (get_asks h.toPlainCalls args).map _
  | update args => exact (update_asks h args).map _
  | save record => exact (hsave record rfl).map _
  | delete args => exact (delete_asks h.toPlainCalls args).map _
  | remove record => exact (remove_asks h.toPlainCalls record).map _

theorem handle_asks {request : RecordRequest ρ}
    (hsave : ∀ record, request = .single (.save record) → Asks P (records.save record)) :
    Asks P (records.handle request) := by
  cases request with
  | single call => exact (perform_asks h fun record hcall => hsave record (congrArg _ hcall)).map _
  | createRecord record => exact (createRecord_asks h record).map _
  | collect selection keep =>
    exact asks_result_bind fun listing hlisting => (collect_asks h.toPlainCalls (select_layout hlisting).2).map _
  | stream selection keep count? =>
    exact asks_result_bind fun listing hlisting => (stream_asks h.toPlainCalls (select_layout hlisting).2 count?).map _
  | page filters cursor? limit => exact (page_asks h.toPlainCalls filters cursor? limit).map _
  | deleteAll filters => exact (deleteAll_asks h.toPlainCalls filters).map _

end Asks

/-- An identifier comes from no call. -/
theorem identified_ensures {possible : Exchange → Prop} (fields : Arguments) :
    (identified fields).Ensures possible (fun seen _ => seen = []) [] := by
  simp only [identified]
  split
  · rfl
  · exact fun _ => rfl

end Records

end KeyedRecords
