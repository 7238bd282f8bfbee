import KeyedRecords.Proofs.Records.Simulation
import KeyedRecords.Proofs.Schema.Overriding

/-! Records that are updated bit by bit. Each update leaves what the record with the changes in it would have been
written as, had it been created so. Main statements: `Records.HoldsWritten.update`, `Records.partial_encodings`. -/

namespace KeyedRecords

namespace Records

variable {ρ ε : Type}

/-- The names of what an update changes are names of its arguments. -/
theorem nodup_changes {args : Arguments} (h : (Assoc.keys args).Nodup) : (Assoc.keys (changes args)).Nodup :=
  h.sublist ((List.filter_sublist.trans (List.filter_sublist.trans List.filter_sublist)).map _)

/-- Whether a store holds under a key what a record is written as. -/
def HoldsWritten (records : Records ρ) (memory : Memory) (key : Key) (value : Json.Map) : Prop :=
  ∃ item data, memory.item? records.model.layout key = some item ∧ records.model.layout.dataOf? item = some data ∧
    records.model.schema.encode records.model.name (.map value) = .ok data

/-- Whether some arguments are those of an update of the record at a key that can be written. -/
structure Updates (records : Records ρ) (key : Key) (args : Arguments) : Prop where
  key : records.model.keys.key args = .ok key
  names : (Assoc.keys args).Nodup
  written : ∃ written, records.model.schema.encodePartial records.model.name (changes args) = .ok written

section Updates

variable {records : Records ρ} (hnames : records.model.layout.WellNamed)
  (hmark : ¬ replaceMark.toList <:+ records.model.layout.dataName.toList) (environment : Environment ε) (pages : Nat)
  {memory : Memory} {key : Key} {value : Json.Map} (h : records.HoldsWritten memory key value)

include hnames hmark h

/-- An update leaves what the record with the changes in it is written as. -/
theorem HoldsWritten.update {args : Arguments} (hargs : records.Updates key args) (e : ε) : ∃ result after,
    environment.host.command pages (records.update args) (memory, e) = some (result, after, (environment.now e).2) ∧
      records.HoldsWritten after key (Json.overridden value (changes args)) := by
  obtain ⟨item, data, hitem, hdata, hvalue⟩ := h
  obtain ⟨written, hwritten⟩ := hargs.written
  have hmerged := Schema.encode_overridden (nodup_changes hargs.names) hvalue hwritten
  have hnodup := (Schema.encodePartial_sorted hwritten).nodup
  obtain ⟨after, updated, happly, -, hupdated, hkept, hfind⟩ :=
    apply_updateItem hnames hmark hnodup (environment.now e).1 hdata
  have hsame : updated = Assoc.overlay data written := by
    refine Assoc.eq_of_find?_eq (hkept (Schema.encode_sorted hvalue)) (Schema.encode_sorted hmerged) fun name => ?_
    rw [hfind, Assoc.find?_overlay data hnodup]
  refine ⟨records.read after, (memory.counted .updateItem).store records.model.layout key after, ?_, after, updated, ?_,
    hupdated, hsame ▸ hmerged⟩
  · rw [Records.update, hargs.key, hwritten, Host.command_ok_bind, Host.command_ok_bind,
      environment.command_now_bind, Host.command_attempt_bind, environment.answer_updateItem _ hitem happly]
    rfl
  · exact Memory.item?_store_self _ _ _ _

/-- Updates one after another leave what the record with all the changes in it is written as. -/
theorem HoldsWritten.updates {steps : List Arguments} (hsteps : ∀ args ∈ steps, records.Updates key args) (e : ε) :
    ∃ results after e', records.performAll environment.host pages (steps.map .update) (memory, e) =
        some (results, after, e') ∧
      records.HoldsWritten after key
        (steps.foldl (fun value args => Json.overridden value (changes args)) value) := by
  induction steps generalizing memory value e with
  | nil => exact ⟨[], memory, e, rfl, h⟩
  | cons args rest ih =>
    rw [List.forall_mem_cons] at hsteps
    obtain ⟨result, next, hrun, hnext⟩ := h.update hnames hmark environment pages hsteps.1 e
    obtain ⟨results, after, e', hrest, hafter⟩ := ih hnext hsteps.2 (environment.now e).2
    refine ⟨result.map .record :: results, after, e', ?_, hafter⟩
    rw [List.map_cons, performAll, perform, Host.command_map, hrun]
    simp only [Option.map_some, hrest]

end Updates

/-- What is given of a record is written alike with the rest of it and without. A record with changes in it, which name
each field once, is written as it was, with what the changes are written as in the place of its own. So updates of a
record that is stored, one after another, leave what the record with all the changes in it is written as when it is
created. -/
theorem partial_encodings :
    (∀ (schema : Schema) (model : String) (value : Json.Map) (stored : Item),
      schema.encode model (.map value) = .ok stored →
        schema.encodePartial model value = .ok (stored.filter fun (name, _) => Arguments.has value name)) ∧
    (∀ (schema : Schema) (model : String) (value changes : Json.Map) (stored written : Item),
      (Assoc.keys changes).Nodup → schema.encode model (.map value) = .ok stored →
        schema.encodePartial model changes = .ok written →
          schema.encode model (.map (Json.overridden value changes)) = .ok (Assoc.overlay stored written)) ∧
    ∀ {ρ ε : Type} (records : Records ρ), records.model.layout.WellNamed →
      ¬ replaceMark.toList <:+ records.model.layout.dataName.toList →
      ∀ (environment : Environment ε) (pages : Nat) (memory : Memory) (e : ε) (key : Key) (value : Json.Map)
        (steps : List Arguments), records.HoldsWritten memory key value →
          (∀ args ∈ steps, records.Updates key args) → ∃ results after e',
            records.performAll environment.host pages (steps.map .update) (memory, e) = some (results, after, e') ∧
              records.HoldsWritten after key
                (steps.foldl (fun value args => Json.overridden value (changes args)) value) :=
  ⟨fun _ _ _ _ h => Schema.encodePartial_of_encode h,
    fun _ _ _ _ _ _ hnodup h hwritten => Schema.encode_overridden hnodup h hwritten,
    fun _ hnames hmark environment pages _ e _ _ _ h hsteps => h.updates hnames hmark environment pages hsteps e⟩

def noteKey : Key := ⟨"app::Note", "Note#1"⟩

def noted : Memory := Memory.store {} notes.model.layout noteKey
  (notes.model.layout.newItem noteKey [("id", .string "1"), ("tag", .string "-"), ("text", .string "a")] "then")

/-- The default of the tag is not written for some fields, and a null leaves the tag that was given before. -/
theorem partial_encodings_notes :
    notes.model.schema.encodePartial "Note" [("id", .string "1"), ("text", .string "a")] =
      .ok [("id", .string "1"), ("text", .string "a")] ∧
    notes.model.schema.encode "Note" (.map [("id", .string "1"), ("tag", .string "b"), ("text", .string "a")]) =
      .ok [("id", .string "1"), ("tag", .string "b"), ("text", .string "a")] ∧
    ∃ results after e', notes.performAll Environment.still.host 1
        [.update [("id", .string "1"), ("tag", .string "b")],
          .update [("id", .string "1"), ("tag", .null), ("text", .string "c")]] (noted, ()) =
        some (results, after, e') ∧
      notes.HoldsWritten after noteKey [("id", .string "1"), ("tag", .string "b"), ("text", .string "c")] := by
  have hcreated : notes.model.schema.encode "Note" (.map [("id", .string "1"), ("text", .string "a")]) =
      .ok [("id", .string "1"), ("tag", .string "-"), ("text", .string "a")] := by decide
  have hholds : notes.HoldsWritten noted noteKey [("id", .string "1"), ("text", .string "a")] :=
    ⟨_, [("id", .string "1"), ("tag", .string "-"), ("text", .string "a")], Memory.item?_store_self .., by decide,
      hcreated⟩
  obtain ⟨hgiven, hchanged, hupdated⟩ := @partial_encodings
  refine ⟨hgiven _ _ _ _ hcreated, ?_, ?_⟩
  · exact hchanged _ _ _ [("tag", .string "b")] _ [("tag", .string "b")] (by decide) hcreated (by decide)
  · refine hupdated notes notes_wellNamed (by decide) Environment.still 1 noted () noteKey _
      [[("id", .string "1"), ("tag", .string "b")], [("id", .string "1"), ("tag", .null), ("text", .string "c")]]
      hholds ?_
    rw [List.forall_mem_cons, List.forall_mem_singleton]
    exact ⟨⟨by decide, by decide, _, rfl⟩, ⟨by decide, by decide, _, rfl⟩⟩

end Records

end KeyedRecords
