import KeyedRecords.Proofs.Records.Map
import KeyedRecords.Proofs.Store.Answer
import KeyedRecords.Proofs.Update.Overlay

/-! Records on a store in memory behave as a plain map. The invariant is `Represents`: the item at each key
carries that key and reads as the record that the map has there. Each call keeps it and answers as the map
does, and so does any run of calls. Main statements: `perform_simulates`, `performAll_simulates`. -/

namespace KeyedRecords

namespace Records

variable {ρ ε : Type} {records : Records ρ}

/-! ## What the store holds -/

/-- Whether an item carries a key and reads as a normal form. -/
structure Holds (records : Records ρ) (key : Key) (item : Item) (value : Json.Map) : Prop where
  key : records.model.layout.keyOf? item = some key
  data : ∃ data, records.model.layout.dataOf? item = some data ∧
    records.model.schema.decode data = .ok (.map value)

/-- Whether the items of a store are the records of a map. -/
def Represents (records : Records ρ) (map : RecordMap) (memory : Memory) : Prop :=
  ∀ key, Option.Rel (records.Holds key) (memory.item? records.model.layout key) (Assoc.find? map key)

theorem read_of_data {item data : Item} {value : Json.Map} (hdata : records.model.layout.dataOf? item = some data)
    (hdecode : records.model.schema.decode data = .ok (.map value)) : records.read item = records.recordOf value := by
  simp only [Records.read, hdata, hdecode]
  rfl

theorem Holds.read {key : Key} {item : Item} {value : Json.Map} (h : records.Holds key item value) :
    records.read item = records.recordOf value := by
  obtain ⟨data, hdata, hdecode⟩ := h.data
  exact read_of_data hdata hdecode

theorem Represents.empty (records : Records ρ) : records.Represents [] {} := fun _ => .none

theorem Represents.lookup {map : RecordMap} {memory : Memory} (h : records.Represents map memory)
    (key : Key) : (memory.item? records.model.layout key = none ∧ Assoc.find? map key = none) ∨
      ∃ item value, memory.item? records.model.layout key = some item ∧
        Assoc.find? map key = some value ∧ records.Holds key item value := by
  have hkey := h key
  generalize memory.item? records.model.layout key = item? at hkey ⊢
  generalize Assoc.find? map key = value? at hkey ⊢
  cases hkey with
  | none => exact Or.inl ⟨rfl, rfl⟩
  | some hholds => exact Or.inr ⟨_, _, rfl, rfl, hholds⟩

theorem Represents.counted {map : RecordMap} {memory : Memory} (h : records.Represents map memory)
    (kind : Call.Kind) : records.Represents map (memory.counted kind) := h

theorem Represents.store {map : RecordMap} {memory : Memory} (h : records.Represents map memory)
    {key : Key} {item : Item} {value : Json.Map} (hholds : records.Holds key item value) :
    records.Represents (Assoc.insert map key value) (memory.store records.model.layout key item) := by
  intro other
  rw [Memory.item?_store, Assoc.find?_insert]
  split
  · rename_i hother
    exact hother ▸ .some hholds
  · exact h other

theorem Represents.remove {map : RecordMap} {memory : Memory} (h : records.Represents map memory)
    (key : Key) : records.Represents (Assoc.erase map key) (memory.remove records.model.layout key) := by
  intro other
  rw [Memory.item?_remove, Assoc.find?_erase]
  split
  · exact .none
  · exact h other

/-- Erasing a key that is not bound changes nothing. -/
theorem Represents.erase {map : RecordMap} {memory : Memory} (h : records.Represents map memory)
    {key : Key} (hkey : memory.item? records.model.layout key = none) :
    records.Represents (Assoc.erase map key) memory := by
  intro other
  rw [Assoc.find?_erase]
  split
  · rename_i hother
    rw [hother, hkey]
    exact .none
  · exact h other

/-! ## What is written -/

section Written

variable (hdistinct : records.model.schema.Distinct) (hnames : records.model.layout.WellNamed)

include hdistinct hnames

theorem keyed_of_encode {fields : Arguments} {key : Key} {data : Item}
    (h : records.encode fields = .ok (key, data)) (time : String) : ∃ value,
      records.keyed fields = .ok (key, value) ∧
        records.Holds key (records.model.layout.newItem key data time) value := by
  refine ⟨_, bind_eq_ok.2 ⟨_, h, rfl⟩, TableLayout.keyOf?_newItem hnames key data time, data,
    TableLayout.dataOf?_newItem hnames key data time, ?_⟩
  obtain ⟨-, hencode⟩ := encode_eq_ok.1 h
  obtain ⟨entries, pairs, hentries, -, hpairs, rfl⟩ := Schema.encode_eq_ok hencode
  cases hentries
  have hround := roundTripFields records.model.schema hdistinct hpairs
  refine bind_eq_ok.2 ⟨_, hround.decode "" _ fun field _ => ?_, rfl⟩
  exact Assoc.find?_ofList (hdistinct.nodup.sublist (encodeFields_keys hpairs)) field.name

omit hdistinct in
theorem Holds.stamped {key : Key} {item : Item} {value : Json.Map} (h : records.Holds key item value)
    (time : String) : records.Holds key (Assoc.insert item updatedName (.string time)) value := by
  refine ⟨?_, ?_⟩
  · rw [TableLayout.keyOf?_stamped hnames]
    exact h.key
  · rw [TableLayout.dataOf?_stamped hnames]
    exact h.data

/-- An update of an item succeeds, and its data then read as the values overlaid. -/
theorem exists_updated (hmark : ¬ replaceMark.toList <:+ records.model.layout.dataName.toList)
    {args : Arguments} {item data written : Item} {value : Json.Map}
    (hdata : records.model.layout.dataOf? item = some data)
    (hdecode : records.model.schema.decode data = .ok (.map value))
    (hwritten : records.model.schema.encodePartial records.model.name (changes args) = .ok written)
    (time : String) : ∃ after updated,
      (Update.set (updateItem records.model.layout written time)).apply item = .ok after ∧
        records.model.layout.keyOf? after = records.model.layout.keyOf? item ∧
        records.model.layout.dataOf? after = some updated ∧
        records.model.schema.decode updated =
          .ok (.map (Assoc.overlay value (normaliseGiven (changes args) records.model.schema))) := by
  have hnodup := (Schema.encodePartial_sorted hwritten).nodup
  obtain ⟨after, updated, happly, hkey, hupdated, -, hfind⟩ :=
    apply_updateItem hnames hmark hnodup time hdata
  exact ⟨after, updated, happly, hkey, hupdated, Schema.decode_overlay hdistinct hdecode hwritten hfind⟩

theorem Holds.updated (hmark : ¬ replaceMark.toList <:+ records.model.layout.dataName.toList)
    {args : Arguments} {key : Key} {item written : Item} {value : Json.Map}
    (h : records.Holds key item value)
    (hwritten : records.model.schema.encodePartial records.model.name (changes args) = .ok written)
    (time : String) : ∃ after,
      (Update.set (updateItem records.model.layout written time)).apply item = .ok after ∧
        records.Holds key after
          (Assoc.overlay value (normaliseGiven (changes args) records.model.schema)) := by
  obtain ⟨data, hdata, hdecode⟩ := h.data
  obtain ⟨after, updated, happly, hkey, hupdated, hoverlaid⟩ :=
    exists_updated hdistinct hnames hmark hdata hdecode hwritten time
  exact ⟨after, happly, hkey.trans h.key, updated, hupdated, hoverlaid⟩

end Written

/-! ## Call by call -/

/-- Whether a run on the store ended as the map says, with a store of the records that the map then has. -/
def Simulates {α : Type} (records : Records ρ) (run : Option (Result α × Memory × ε))
    (expected : Result α × RecordMap × ε) : Prop :=
  ∃ after, run = some (expected.1, after, expected.2.2) ∧ records.Represents expected.2.1 after

theorem Simulates.map {α β : Type} {run : Option (Result α × Memory × ε)}
    {expected : Result α × RecordMap × ε} (h : records.Simulates run expected) (f : α → β) :
    records.Simulates (run.map fun (result, after) => (result.map f, after))
      (expected.1.map f, expected.2) := by
  obtain ⟨after, rfl, hafter⟩ := h
  exact ⟨after, rfl, hafter⟩

section Calls

variable (environment : Environment ε) (pages : Nat) {map : RecordMap} {memory : Memory}
  (h : records.Represents map memory) (e : ε)

theorem command_identified (fields : Arguments) :
    environment.host.command pages (identified fields) (memory, e) =
      some (.ok (RecordMap.identified environment fields e).1,
        (memory, (RecordMap.identified environment fields e).2)) := by
  simp only [identified, RecordMap.identified]
  split <;> rfl

include h

theorem get_simulates (args : Arguments) :
    records.Simulates (environment.host.command pages (records.get args) (memory, e))
      (RecordMap.get records args map, map, e) := by
  simp only [Records.get, RecordMap.get]
  cases records.model.keys.key args with
  | error failure => exact ⟨memory, rfl, h⟩
  | ok key =>
    refine ⟨memory.counted .getItem, ?_, h⟩
    rw [Host.command_ok_bind, Host.command_ask_bind _ _ (environment.answer_getItem e)]
    rcases h.lookup key with ⟨hitem, hvalue⟩ | ⟨item, value, hitem, hvalue, hholds⟩
    · rw [hitem]
      simp only [hvalue]
      rfl
    · rw [hitem]
      simp only [hvalue, ← hholds.read]
      rfl

theorem deleteKey_simulates (key : Key) :
    records.Simulates (environment.host.command pages (records.deleteKey key) (memory, e))
      (.ok (Assoc.contains map key), Assoc.erase map key, e) := by
  simp only [deleteKey, Assoc.contains]
  rcases h.lookup key with ⟨hitem, hvalue⟩ | ⟨item, value, hitem, hvalue, hholds⟩
  · rw [Host.command_ask_bind _ _ (environment.answer_deleteItem_missing e hitem)]
    simp only [hvalue]
    exact ⟨memory.counted .deleteItem, rfl, h.erase hitem⟩
  · rw [Host.command_ask_bind _ _ (environment.answer_deleteItem e hitem)]
    simp only [hvalue]
    exact ⟨_, rfl, (h.counted _).remove key⟩

theorem delete_simulates (args : Arguments) :
    records.Simulates (environment.host.command pages (records.delete args) (memory, e))
      ((RecordMap.delete records args map).1, (RecordMap.delete records args map).2, e) := by
  simp only [Records.delete, RecordMap.delete]
  cases records.model.keys.key args with
  | error failure => exact ⟨memory, rfl, h⟩
  | ok key =>
    rw [Host.command_ok_bind, ← map_eq_pure_bind, Host.command_map]
    exact (deleteKey_simulates environment pages h e key).map _

theorem remove_simulates (record : ρ) :
    records.Simulates (environment.host.command pages (records.remove record) (memory, e))
      ((RecordMap.remove records record map).1, (RecordMap.remove records record map).2, e) := by
  simp only [Records.remove, RecordMap.remove]
  cases records.fieldsOf record with
  | error failure => exact ⟨memory, rfl, h⟩
  | ok args =>
    rw [Host.command_ok_bind, ← map_eq_pure_bind, Host.command_map]
    exact (delete_simulates environment pages h e args).map _

variable (hdistinct : records.model.schema.Distinct) (hnames : records.model.layout.WellNamed)

include hdistinct hnames

theorem create_simulates (fields : Arguments) :
    records.Simulates (environment.host.command pages (records.create fields) (memory, e))
      (RecordMap.create records environment fields map e) := by
  simp only [Records.create, RecordMap.create]
  rw [Host.command_bind_ok _ _ (command_identified environment pages e fields)]
  generalize RecordMap.identified environment fields e = start
  obtain ⟨fields, e⟩ := start
  dsimp only
  cases hencode : records.encode (Assoc.ofList (records.shape fields)) with
  | error failure =>
    have hkeyed : records.keyed (Assoc.ofList (records.shape fields)) = .error failure := by
      simp only [keyed, hencode]
      rfl
    rw [Host.command_error_bind]
    simp only [hkeyed]
    exact ⟨memory, rfl, h⟩
  | ok pair =>
    obtain ⟨key, data⟩ := pair
    obtain ⟨value, hkeyed, hholds⟩ := keyed_of_encode hdistinct hnames hencode (environment.now e).1
    rw [Host.command_ok_bind, environment.command_now_bind, Host.command_attempt_bind]
    simp only [hkeyed, Assoc.contains]
    rcases h.lookup key with ⟨hitem, hvalue⟩ | ⟨item, old, hitem, hvalue, -⟩
    · simp only [hvalue, ← hholds.read]
      refine ⟨_, ?_, (h.counted .putItem).store hholds⟩
      rw [environment.answer_putItem_new _ hholds.key hitem]
      rfl
    · simp only [hvalue]
      refine ⟨memory.counted .putItem, ?_, h⟩
      rw [environment.answer_putItem_taken _ hholds.key hitem]
      rfl

theorem save_simulates (record : ρ) :
    records.Simulates (environment.host.command pages (records.save record) (memory, e))
      (RecordMap.save records environment record map e) := by
  simp only [Records.save, RecordMap.save]
  cases records.form.id? record with
  | none =>
    simp only [createRecord]
    cases records.fieldsOf record with
    | error failure => exact ⟨memory, rfl, h⟩
    | ok fields => exact create_simulates environment pages h e hdistinct hnames fields
  | some id =>
    dsimp only
    cases records.fieldsOf record with
    | error failure => exact ⟨memory, rfl, h⟩
    | ok fields =>
      rw [Host.command_ok_bind]
      cases hencode : records.encode fields with
      | error failure =>
        have hkeyed : records.keyed fields = .error failure := by
          simp only [keyed, hencode]
          rfl
        rw [Host.command_error_bind]
        simp only [hkeyed]
        exact ⟨memory, rfl, h⟩
      | ok pair =>
        obtain ⟨key, data⟩ := pair
        obtain ⟨value, hkeyed, hholds⟩ :=
          keyed_of_encode hdistinct hnames hencode (environment.now e).1
        have hholds := hholds.stamped hnames (environment.now e).1
        have hcheck : Memory.check none (memory.item? records.model.layout key) key = .ok () := rfl
        rw [Host.command_ok_bind, environment.command_now_bind]
        dsimp only
        rw [Host.command_ask_bind _ _ (environment.answer_putItem _ hholds.key hcheck)]
        simp only [hkeyed]
        exact ⟨_, rfl, (h.counted _).store hholds⟩

theorem update_simulates (hmark : ¬ replaceMark.toList <:+ records.model.layout.dataName.toList)
    (args : Arguments) :
    records.Simulates (environment.host.command pages (records.update args) (memory, e))
      (RecordMap.update records environment args map e) := by
  simp only [Records.update, RecordMap.update]
  cases hkey : records.model.keys.key args with
  | error failure =>
    have hchanges : records.keyedChanges args = .error failure := by
      simp only [keyedChanges, hkey]
      rfl
    simp only [hchanges]
    exact ⟨memory, rfl, h⟩
  | ok key =>
    rw [Host.command_ok_bind]
    cases hwritten : records.model.schema.encodePartial records.model.name (changes args) with
    | error failure =>
      have hchanges : records.keyedChanges args = .error failure := by
        simp only [keyedChanges, hkey, hwritten]
        rfl
      simp only [hchanges]
      exact ⟨memory, rfl, h⟩
    | ok written =>
      have hchanges : records.keyedChanges args =
          .ok (key, normaliseGiven (changes args) records.model.schema) := by
        simp only [keyedChanges, hkey, hwritten]
        rfl
      rw [Host.command_ok_bind, environment.command_now_bind, Host.command_attempt_bind]
      simp only [hchanges]
      rcases h.lookup key with ⟨hitem, hvalue⟩ | ⟨item, value, hitem, hvalue, hholds⟩
      · obtain ⟨detail, hanswer⟩ := environment.answer_updateItem_missing (environment.now e).2
          (Update.set (updateItem records.model.layout written (environment.now e).1)) hitem
        rw [hanswer]
        simp only [hvalue]
        exact ⟨memory.counted .updateItem, rfl, h⟩
      · obtain ⟨after, happly, hafter⟩ :=
          hholds.updated hdistinct hnames hmark hwritten (environment.now e).1
        rw [environment.answer_updateItem _ hitem happly]
        simp only [hvalue, ← hafter.read]
        exact ⟨_, rfl, (h.counted _).store hafter⟩

theorem perform_simulates (hmark : ¬ replaceMark.toList <:+ records.model.layout.dataName.toList)
    (call : RecordCall ρ) :
    records.Simulates (environment.host.command pages (records.perform call) (memory, e))
      (RecordMap.perform records environment call map e) := by
  cases call with
  | create fields =>
    rw [perform, Host.command_map]
    exact (create_simulates environment pages h e hdistinct hnames fields).map _
  | get args =>
    rw [perform, Host.command_map]
    exact (get_simulates environment pages h e args).map _
  | update args =>
    rw [perform, Host.command_map]
    exact (update_simulates environment pages h e hdistinct hnames hmark args).map _
  | save record =>
    rw [perform, Host.command_map]
    exact (save_simulates environment pages h e hdistinct hnames record).map _
  | delete args =>
    rw [perform, Host.command_map]
    exact (delete_simulates environment pages h e args).map _
  | remove record =>
    rw [perform, Host.command_map]
    exact (remove_simulates environment pages h e record).map _

/-- A run of calls answers as the map does, from any store that the map stands for. -/
theorem performAll_simulates (hmark : ¬ replaceMark.toList <:+ records.model.layout.dataName.toList)
    (calls : List (RecordCall ρ)) : ∃ after,
    records.performAll environment.host pages calls (memory, e) =
        some ((RecordMap.performAll records environment calls map e).1, after,
          (RecordMap.performAll records environment calls map e).2.2) ∧
      records.Represents (RecordMap.performAll records environment calls map e).2.1 after := by
  induction calls generalizing map memory e with
  | nil => exact ⟨memory, rfl, h⟩
  | cons call rest ih =>
    obtain ⟨next, hrun, hnext⟩ := perform_simulates environment pages h e hdistinct hnames hmark call
    obtain ⟨after, hrest, hafter⟩ := ih hnext (RecordMap.perform records environment call map e).2.2
    refine ⟨after, ?_, hafter⟩
    simp only [performAll, hrun, hrest]
    rfl

end Calls

end Records

namespace Records

variable {ρ ε : Type}

/-- From the empty store every run of calls answers as the map of records does. A call that fails leaves the
map as it is; only where a record that was just written is refused by its type has the write taken place. -/
theorem performAll_empty (records : Records ρ) (hdistinct : records.model.schema.Distinct)
    (hnames : records.model.layout.WellNamed)
    (hmark : ¬ replaceMark.toList <:+ records.model.layout.dataName.toList)
    (environment : Environment ε) (pages : Nat) (calls : List (RecordCall ρ)) (e : ε) :
    (∃ after, records.performAll environment.host pages calls ({}, e) =
        some ((RecordMap.performAll records environment calls [] e).1, after,
          (RecordMap.performAll records environment calls [] e).2.2) ∧
      records.Represents (RecordMap.performAll records environment calls [] e).2.1 after) ∧
    ∀ call map e failure, (RecordMap.perform records environment call map e).1 = .error failure →
      (RecordMap.perform records environment call map e).2.1 = map ∨
        RecordMap.ReadsBack records call ∧
          RecordMap.Refused records failure map (RecordMap.perform records environment call map e).2.1 :=
  ⟨performAll_simulates environment pages (Represents.empty records) e hdistinct hnames hmark calls,
    fun _ _ _ _ h => RecordMap.perform_failed h⟩

/-- Notes whose type refuses a text that is empty. -/
def notes : Records Json where
  model := {
    name := "Note"
    qualified := "app::Note"
    layout := { table := "notes" }
    schema := [⟨"id", .text, .optional⟩, ⟨"tag", .text, .default (.string "-")⟩, ⟨"text", .text, .optional⟩]
    keys := (KeyTemplate.standard "app::Note" "Note").strategy
    listingStart? := none }
  form := {
    toJson := id
    ofJson := fun value =>
      if (value.asMap?.bind fun entries => Assoc.find? entries "text") = some (.string "") then
        .error "empty text"
      else .ok value
    id? := fun value => (value.asMap?.bind fun entries => Assoc.find? entries "id").bind Json.asString? }

/-- A note that is refused stays in the store: it can be deleted. -/
theorem refused_create_stays :
    ∃ after, notes.performAll Environment.still.host 1
        [.create [("id", .string "1"), ("text", .string "")], .delete [("id", .string "1")]] ({}, ()) =
      some ([.error (.invalidValue (.refused "empty text")), .ok (.count 1)], after, ()) :=
  ⟨_, rfl⟩

theorem notes_distinct : notes.model.schema.Distinct := by
  simp [Schema.Distinct, notes, DistinctFields, FieldType.Distinct]

theorem notes_wellNamed : notes.model.layout.WellNamed := by
  constructor <;> decide

theorem performAll_empty_notes :
    ∃ after, notes.performAll Environment.still.host 1
        [.create [("id", .string "1"), ("text", .string "a")], .create [("id", .string "1")],
          .update [("id", .string "1"), ("text", .string "b")], .remove (.map [("id", .string "1")]),
          .get [("id", .string "1")]] ({}, ()) =
      some ([.ok (.record (.map [("id", .string "1"), ("tag", .string "-"), ("text", .string "a")])),
        .error (.duplicateRecord "Note" ⟨"app::Note", "Note#1"⟩),
        .ok (.record (.map [("id", .string "1"), ("tag", .string "-"), ("text", .string "b")])),
        .ok (.removed true), .error (.recordNotFound "Note" ⟨"app::Note", "Note#1"⟩)], after, ()) ∧
      notes.Represents [] after :=
  (performAll_empty notes notes_distinct notes_wellNamed (by decide) Environment.still 1
    [.create [("id", .string "1"), ("text", .string "a")], .create [("id", .string "1")],
      .update [("id", .string "1"), ("text", .string "b")], .remove (.map [("id", .string "1")]),
      .get [("id", .string "1")]] ()).1

end Records

end KeyedRecords
