import KeyedRecords.Proofs.Schema.Partial
import KeyedRecords.Proofs.Store.Run
import KeyedRecords.Records.Basic

/-! Calls on records, and what they do to a plain finite map from keys to records in normal form. This is all
that a caller has to know of a store that nobody else writes to. Main statement: `perform_failed`. -/

namespace KeyedRecords

inductive RecordCall (ρ : Type) where
  | create (fields : Arguments)
  | get (args : Arguments)
  | update (args : Arguments)
  | save (record : ρ)
  | delete (args : Arguments)
  | remove (record : ρ)

inductive RecordAnswer (ρ : Type) where
  | record (record : ρ)
  | count (count : Nat)
  | removed (stored : Bool)
  deriving DecidableEq

namespace Records

variable {ρ σ : Type}

def perform (records : Records ρ) : RecordCall ρ → Command (RecordAnswer ρ)
  | .create fields => .record <$> records.create fields
  | .get args => .record <$> records.get args
  | .update args => .record <$> records.update args
  | .save record => .record <$> records.save record
  | .delete args => .count <$> records.delete args
  | .remove record => .removed <$> records.remove record

/-- Performs calls one after another; those that fail do not stop the rest. -/
def performAll (records : Records ρ) (host : Host σ) (pages : Nat) :
    List (RecordCall ρ) → σ → Option (List (Result (RecordAnswer ρ)) × σ)
  | [], state => some ([], state)
  | call :: rest, state =>
    match host.command pages (records.perform call) state with
    | none => none
    | some (result, state) =>
      (records.performAll host pages rest state).map fun (results, state) => (result :: results, state)

def recordOf (records : Records ρ) (value : Json.Map) : Result ρ :=
  (records.form.ofJson (.map value)).mapError fun reason => .invalidValue (.refused reason)

/-- The key and the normal form of a whole record, if it can be stored. -/
def keyed (records : Records ρ) (fields : Arguments) : Result (Key × Json.Map) := do
  let (key, _) ← records.encode fields
  pure (key, Assoc.ofList (normaliseFields (Arguments.stored fields) records.model.schema))

/-- The key of a record to change and the normal forms of the fields to change in it, if they can be
stored. -/
def keyedChanges (records : Records ρ) (args : Arguments) : Result (Key × Json.Map) := do
  let model := records.model
  let key ← model.keys.key args
  let _ ← model.schema.encodePartial model.name (changes args)
  pure (key, normaliseGiven (changes args) model.schema)

theorem encode_eq_ok {records : Records ρ} {fields : Arguments} {key : Key} {data : Item} :
    records.encode fields = .ok (key, data) ↔ records.model.keys.key fields = .ok key ∧
      records.model.schema.encode records.model.name (.map (Arguments.stored fields)) = .ok data := by
  constructor
  · intro h
    obtain ⟨own, hkey, h⟩ := bind_eq_ok.1 h
    obtain ⟨written, hdata, h⟩ := bind_eq_ok.1 h
    cases h
    exact ⟨hkey, hdata⟩
  · rintro ⟨hkey, hdata⟩
    exact bind_eq_ok.2 ⟨key, hkey, bind_eq_ok.2 ⟨data, hdata, rfl⟩⟩

end Records

/-- Records in normal form by key. -/
abbrev RecordMap := List (Key × Json.Map)

namespace RecordMap

variable {ρ ε : Type} (records : Records ρ) (environment : Environment ε)

/-- The fields of a record to create, with a new identifier if they have none. -/
def identified (fields : Arguments) (e : ε) : Arguments × ε :=
  if Arguments.has fields "id" then (fields, e)
  else
    let (id, e) := environment.identifier e
    (Assoc.insert fields "id" (.string id.text), e)

/-- Binds the key of a record unless it is bound. -/
def create (fields : Arguments) (map : RecordMap) (e : ε) : Result ρ × RecordMap × ε :=
  let (fields, e) := identified environment fields e
  match records.keyed (Assoc.ofList (records.shape fields)) with
  | .error failure => (.error failure, map, e)
  | .ok (key, value) =>
    let e := (environment.now e).2
    if Assoc.contains map key then (.error (.duplicateRecord records.model.name key), map, e)
    else (records.recordOf value, Assoc.insert map key value, e)

def get (args : Arguments) (map : RecordMap) : Result ρ :=
  match records.model.keys.key args with
  | .error failure => .error failure
  | .ok key =>
    match Assoc.find? map key with
    | some value => records.recordOf value
    | none => .error (.recordNotFound records.model.name key)

def update (args : Arguments) (map : RecordMap) (e : ε) : Result ρ × RecordMap × ε :=
  match records.keyedChanges args with
  | .error failure => (.error failure, map, e)
  | .ok (key, changes) =>
    let e := (environment.now e).2
    match Assoc.find? map key with
    | none => (.error (.recordNotFound records.model.name key), map, e)
    | some value =>
      let value := Assoc.overlay value changes
      (records.recordOf value, Assoc.insert map key value, e)

/-- Binds the key of a record, bound or not; without an identifier it is created. -/
def save (record : ρ) (map : RecordMap) (e : ε) : Result ρ × RecordMap × ε :=
  match records.fieldsOf record with
  | .error failure => (.error failure, map, e)
  | .ok fields =>
    if (records.form.id? record).isNone then create records environment fields map e
    else
      match records.keyed fields with
      | .error failure => (.error failure, map, e)
      | .ok (key, value) => (.ok record, Assoc.insert map key value, (environment.now e).2)

def delete (args : Arguments) (map : RecordMap) : Result Nat × RecordMap :=
  match records.model.keys.key args with
  | .error failure => (.error failure, map)
  | .ok key => (.ok (Assoc.contains map key).toNat, Assoc.erase map key)

def remove (record : ρ) (map : RecordMap) : Result Bool × RecordMap :=
  match records.fieldsOf record with
  | .error failure => (.error failure, map)
  | .ok args =>
    let (count, map) := delete records args map
    (count.map fun n => decide (0 < n), map)

/-- What a call brings, and the map and the environment after it. -/
def perform (call : RecordCall ρ) (map : RecordMap) (e : ε) : Result (RecordAnswer ρ) × RecordMap × ε :=
  match call with
  | .create fields =>
    let (result, after) := create records environment fields map e
    (result.map .record, after)
  | .get args => ((get records args map).map .record, map, e)
  | .update args =>
    let (result, after) := update records environment args map e
    (result.map .record, after)
  | .save record =>
    let (result, after) := save records environment record map e
    (result.map .record, after)
  | .delete args =>
    let (result, map) := delete records args map
    (result.map .count, map, e)
  | .remove record =>
    let (result, map) := remove records record map
    (result.map .removed, map, e)

/-- Whether a call answers with the record that it wrote, read again. -/
def ReadsBack : RecordCall ρ → Prop
  | .create _ | .update _ => True
  | .save record => records.form.id? record = none
  | .get _ | .delete _ | .remove _ => False

def performAll : List (RecordCall ρ) → RecordMap → ε → List (Result (RecordAnswer ρ)) × RecordMap × ε
  | [], map, e => ([], map, e)
  | call :: rest, map, e =>
    let (result, map, e) := perform records environment call map e
    let (results, after) := performAll rest map e
    (result :: results, after)

end RecordMap

/-! ## Failures -/

namespace RecordMap

variable {ρ ε : Type} {records : Records ρ} {environment : Environment ε} {map : RecordMap} {e : ε}
  {failure : RecordError}

/-- Whether a failed call wrote a record that its type refuses: the one way to fail after a write. -/
def Refused (records : Records ρ) (failure : RecordError) (map after : RecordMap) : Prop :=
  ∃ key value reason, records.form.ofJson (.map value) = .error reason ∧
    failure = .invalidValue (.refused reason) ∧ after = Assoc.insert map key value

theorem refused_of_recordOf {key : Key} {value : Json.Map} (h : records.recordOf value = .error failure) :
    Refused records failure map (Assoc.insert map key value) := by
  cases hform : records.form.ofJson (.map value) with
  | ok record =>
    simp only [Records.recordOf, hform] at h
    cases h
  | error reason =>
    simp only [Records.recordOf, hform] at h
    cases h
    exact ⟨key, value, reason, hform, rfl, rfl⟩

theorem create_failed {fields : Arguments}
    (h : (create records environment fields map e).1 = .error failure) :
    (create records environment fields map e).2.1 = map ∨
      Refused records failure map (create records environment fields map e).2.1 := by
  simp only [create] at h ⊢
  split at h
  · exact Or.inl rfl
  · split at h
    · rename_i hbound
      simp only [hbound, if_true]
      exact Or.inl trivial
    · rename_i hbound
      simp only [hbound]
      exact Or.inr (refused_of_recordOf h)

theorem update_failed {args : Arguments}
    (h : (update records environment args map e).1 = .error failure) :
    (update records environment args map e).2.1 = map ∨
      Refused records failure map (update records environment args map e).2.1 := by
  simp only [update] at h ⊢
  split at h
  · exact Or.inl rfl
  · split at h
    · exact Or.inl rfl
    · exact Or.inr (refused_of_recordOf h)

theorem save_failed {record : ρ}
    (h : (save records environment record map e).1 = .error failure) :
    (save records environment record map e).2.1 = map ∨ records.form.id? record = none ∧
      Refused records failure map (save records environment record map e).2.1 := by
  simp only [save] at h ⊢
  cases hfields : records.fieldsOf record with
  | error other => exact Or.inl rfl
  | ok fields =>
    simp only [hfields] at h ⊢
    cases hid : records.form.id? record with
    | none =>
      simp only [hid, Option.isNone_none, if_true] at h ⊢
      exact (create_failed h).imp_right fun hrefused => ⟨trivial, hrefused⟩
    | some id =>
      simp only [hid] at h ⊢
      cases hkeyed : records.keyed fields with
      | error other => exact Or.inl rfl
      | ok pair =>
        simp only [hkeyed] at h
        cases h

theorem delete_failed {args : Arguments} (h : (delete records args map).1 = .error failure) :
    (delete records args map).2 = map := by
  simp only [delete] at h ⊢
  split at h
  · rfl
  · cases h

theorem map_eq_error {α β : Type} {f : α → β} {r : Result α} (h : r.map f = .error failure) :
    r = .error failure := by
  cases r with
  | error other => exact congrArg _ (Except.error.inj h)
  | ok a => cases h

/-- A call that fails leaves the map as it is, unless it wrote a record that its type refuses. -/
theorem perform_failed {call : RecordCall ρ}
    (h : (perform records environment call map e).1 = .error failure) :
    (perform records environment call map e).2.1 = map ∨ ReadsBack records call ∧
      Refused records failure map (perform records environment call map e).2.1 := by
  cases call with
  | create fields => exact (create_failed (map_eq_error h)).imp_right fun hrefused => ⟨trivial, hrefused⟩
  | get args => exact Or.inl rfl
  | update args => exact (update_failed (map_eq_error h)).imp_right fun hrefused => ⟨trivial, hrefused⟩
  | save record => exact save_failed (map_eq_error h)
  | delete args => exact Or.inl (delete_failed (map_eq_error h))
  | remove record =>
    have hremove := map_eq_error h
    simp only [perform, remove] at hremove ⊢
    split
    · exact Or.inl rfl
    · rename_i args hargs
      simp only [hargs] at hremove
      exact Or.inl (delete_failed (map_eq_error hremove))

end RecordMap

end KeyedRecords
