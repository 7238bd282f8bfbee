import KeyedRecords.Proofs.Key.Template
import KeyedRecords.Proofs.Records.Map

/-! Records whose keys come from templates: the fields of a stored record make the key that it is stored under.
The invariant is `Keyed`, and every call keeps it. An update is the delicate case: it changes the fields of the
key to those of its arguments but never the identifier, so it has to be known that arguments with one key
agree on the fields of the key. Main statement: `RecordMap.perform_keyed`. -/

namespace KeyedRecords

/-! ## Key fields in normal forms -/

namespace Json

theorem isNull_of_segment? {value : Json} {text : String} (h : value.segment? = .ok (some text)) :
    value.isNull = false := by
  cases value <;> simp_all [segment?, isNull]

/-- A scalar is its own normal form. -/
theorem normalise_of_segment? {value : Json} {text : String} (h : value.segment? = .ok (some text))
    (type : FieldType) : type.normalise value = value := by
  cases value with
  | list elements => simp [segment?] at h
  | map entries => simp [segment?] at h
  | _ => cases type <;> rfl

end Json

theorem find?_filter {entries : Json.Map} {p : String × Json → Bool} {name : String} {value : Json}
    (h : Assoc.find? entries name = some value) (hp : p (name, value) = true) :
    Assoc.find? (entries.filter p) name = some value := by
  induction entries with
  | nil => simp at h
  | cons entry entries ih =>
    obtain ⟨key, first⟩ := entry
    by_cases hkey : key = name
    · subst hkey
      have hfirst : first = value := by simpa [Assoc.find?] using h
      subst hfirst
      simp [hp, Assoc.find?]
    · have hrest := ih (by simpa [Assoc.find?, hkey] using h)
      cases hkept : p (key, first) with
      | true => simpa [hkept, Assoc.find?, hkey] using hrest
      | false => simpa [hkept] using hrest

/-- An update changes a field that it is given, unless it is the identifier. -/
theorem find?_changes {args : Arguments} {name text : String} {value : Json}
    (h : Assoc.find? args name = some value) (htext : value.segment? = .ok (some text))
    (hpublic : Arguments.isPrivate name = false) (hid : name ≠ "id") :
    givenValue? (Records.changes args) name = some value := by
  have hstored : Assoc.find? (Arguments.stored args) name = some value :=
    find?_filter h (by simp [hpublic])
  have hnull := Json.isNull_of_segment? htext
  have hchanges : Assoc.find? (Records.changes args) name = some value := by
    refine find?_filter ?_ (by simp [hnull])
    rw [Assoc.find?_erase_of_ne _ hid, hstored]
  simp [givenValue?, hchanges, hnull]

theorem givenValue?_changes_eq_none {args : Arguments} {name : String}
    (h : Assoc.find? (Assoc.erase (Arguments.stored args) "id") name = none) :
    givenValue? (Records.changes args) name = none := by
  have hchanges : Assoc.find? (Records.changes args) name = none := by
    rw [Assoc.find?_eq_none_iff] at h ⊢
    exact fun hmem => h ((List.filter_sublist.map _).subset hmem)
  simp [givenValue?, hchanges]

theorem find?_changes_id (args : Arguments) : givenValue? (Records.changes args) "id" = none :=
  givenValue?_changes_eq_none (Assoc.find?_erase_self _ _)

/-- An update changes no private field. -/
theorem givenValue?_changes_private (args : Arguments) {name : String} (h : Arguments.isPrivate name = true) :
    givenValue? (Records.changes args) name = none := by
  refine givenValue?_changes_eq_none ?_
  rw [Assoc.find?_erase, Arguments.stored, Assoc.find?_filter args fun other => !Arguments.isPrivate other, h]
  simp

theorem find?_normaliseFields {entries : Json.Map} {fields : Schema}
    (hnodup : (fields.map (·.name)).Nodup) {field : Field} (hfield : field ∈ fields) {value : Json}
    (h : givenValue? entries field.name = some value) :
    Assoc.find? (normaliseFields entries fields) field.name = some (field.type.normalise value) := by
  induction fields with
  | nil => exact absurd hfield List.not_mem_nil
  | cons first rest ih =>
    obtain ⟨name, type, presence⟩ := first
    rw [List.map_cons, List.nodup_cons] at hnodup
    rcases List.mem_cons.1 hfield with rfl | hfield
    · simp only [normaliseFields, h]
      simp [Assoc.find?]
    · have hne : name ≠ field.name := fun he =>
        hnodup.1 (List.mem_map.2 ⟨field, hfield, he.symm⟩)
      have hrest := ih hnodup.2 hfield
      simp only [normaliseFields]
      split <;> simp_all [Assoc.find?]

theorem find?_normaliseGiven (entries : Json.Map) {schema : Schema}
    (hnodup : (schema.map (·.name)).Nodup) {field : Field} (hfield : field ∈ schema) :
    Assoc.find? (normaliseGiven entries schema) field.name =
      (givenValue? entries field.name).map field.type.normalise := by
  induction schema with
  | nil => exact absurd hfield List.not_mem_nil
  | cons first rest ih =>
    obtain ⟨name, type, presence⟩ := first
    rw [List.map_cons, List.nodup_cons] at hnodup
    rcases List.mem_cons.1 hfield with rfl | hfield
    · cases hgiven : givenValue? entries name with
      | some value => simp [normaliseGiven, hgiven, Assoc.find?]
      | none =>
        simp only [normaliseGiven, hgiven, Option.map_none]
        exact Assoc.find?_eq_none_iff.2 fun hmem =>
          hnodup.1 ((normaliseGiven_keys entries rest).subset hmem)
    · have hne : name ≠ field.name := fun he =>
        hnodup.1 (List.mem_map.2 ⟨field, hfield, he.symm⟩)
      have hrest := ih hnodup.2 hfield
      cases hgiven : givenValue? entries name with
      | some value => simpa [normaliseGiven, hgiven, Assoc.find?, hne] using hrest
      | none => simpa [normaliseGiven, hgiven] using hrest

/-! ## Records under their keys -/

/-- Whether the keys of a model come from templates over declared fields that are stored. -/
structure Templated (model : Model) (keys : KeyTemplate) : Prop where
  strategy : model.keys = keys.strategy
  declared : ∀ name ∈ keys.fields, name ∈ model.schema.map (·.name)
  stored : ∀ name ∈ keys.fields, Arguments.isPrivate name = false

/-- Whether every record is bound to the key that its fields make, and its key fields hold texts of a
vocabulary. -/
def RecordMap.Keyed (words : Vocabulary) (keys : KeyTemplate) (map : RecordMap) : Prop :=
  ∀ key value, Assoc.find? map key = some value →
    keys.key value = .ok key ∧ words.Admits keys.fields value

/-- The arguments that the key of a new record may be made from, with their own identifier or a new one. -/
def Records.CreatesFrom {ρ ε : Type} (records : Records ρ) (environment : Environment ε)
    (fields args : Arguments) : Prop :=
  ∃ e, args = Assoc.ofList (records.shape (RecordMap.identified environment fields e).1)

/-- The arguments that a call may make the key of a record from to write it. -/
def Records.WritesFrom {ρ ε : Type} (records : Records ρ) (environment : Environment ε) :
    RecordCall ρ → Arguments → Prop
  | .create fields, args => records.CreatesFrom environment fields args
  | .update changes, args => args = changes
  | .save record, args => ∃ fields, records.fieldsOf record = .ok fields ∧
    (args = fields ∨ records.CreatesFrom environment fields args)
  | .get _, _ | .delete _, _ | .remove _, _ => False

/-- A record that has the key fields of some arguments can be bound to their key. -/
theorem RecordMap.Keyed.bind {words : Vocabulary} {keys : KeyTemplate} {map : RecordMap}
    (h : map.Keyed words keys) {args : Arguments} {key : Key} {value : Json.Map}
    (hkey : keys.key args = .ok key) (hwords : words.Admits keys.fields args)
    (hsegments : ∀ name ∈ keys.fields, Arguments.segment? value name = args.segment? name) :
    RecordMap.Keyed words keys (Assoc.insert map key value) := by
  intro other bound hbound
  rw [Assoc.find?_insert] at hbound
  split at hbound
  · rename_i hother
    cases hbound
    refine ⟨hother ▸ (KeyTemplate.key_congr hsegments).trans hkey, fun name hname text htext => ?_⟩
    exact hwords name hname text ((hsegments name hname).symm.trans htext)
  · exact h other bound hbound

theorem RecordMap.Keyed.erase {words : Vocabulary} {keys : KeyTemplate} {map : RecordMap}
    (h : map.Keyed words keys) (key : Key) : RecordMap.Keyed words keys (Assoc.erase map key) := by
  intro other bound hbound
  rw [Assoc.find?_erase] at hbound
  split at hbound
  · cases hbound
  · exact h other bound hbound

section Keyed

variable {ρ ε : Type} {records : Records ρ} {keys : KeyTemplate} {words : Vocabulary}
  (hdistinct : records.model.schema.Distinct) (htemplated : Templated records.model keys)

include hdistinct htemplated

/-- A whole record has the key fields that it was given. -/
theorem keyed_segments {fields : Arguments} {key : Key} {value : Json.Map}
    (h : records.keyed fields = .ok (key, value)) : keys.key fields = .ok key ∧
      ∀ name ∈ keys.fields, Arguments.segment? value name = fields.segment? name := by
  obtain ⟨⟨k, data⟩, hencode, h⟩ := bind_eq_ok.1 h
  cases h
  obtain ⟨hkey, -⟩ := Records.encode_eq_ok.1 hencode
  rw [htemplated.strategy] at hkey
  refine ⟨hkey, fun name hname => ?_⟩
  obtain ⟨text, hsegment⟩ := KeyTemplate.key_given hkey name hname
  obtain ⟨given, hgiven, htext⟩ := Arguments.segment?_eq_some hsegment
  obtain ⟨field, hfield, rfl⟩ := List.mem_map.1 (htemplated.declared name hname)
  have hstored : Assoc.find? (Arguments.stored fields) field.name = some given :=
    find?_filter hgiven (by simp [htemplated.stored _ hname])
  have hvalue : givenValue? (Arguments.stored fields) field.name = some given := by
    simp [givenValue?, hstored, Json.isNull_of_segment? htext]
  refine Arguments.segment?_congr ?_
  rw [Assoc.find?_ofList (hdistinct.nodup.sublist (normaliseFields_keys _ _)),
    find?_normaliseFields hdistinct.nodup hfield hvalue, Json.normalise_of_segment? htext, hgiven]

theorem Keyed.write {map : RecordMap} (h : map.Keyed words keys) {fields : Arguments} {key : Key}
    {value : Json.Map} (hkeyed : records.keyed fields = .ok (key, value))
    (hwords : words.Admits keys.fields fields) :
    RecordMap.Keyed words keys (Assoc.insert map key value) := by
  obtain ⟨hkey, hsegments⟩ := keyed_segments hdistinct htemplated hkeyed
  exact h.bind hkey hwords hsegments

/-- A changed record has the key fields of the arguments if it had them before: all but the identifier were changed to
these. -/
theorem overlaid_segments {args : Arguments} {key : Key} {value : Json.Map} (hkey : keys.key args = .ok key)
    (hagree : ∀ name ∈ keys.fields, Arguments.segment? value name = args.segment? name) :
    ∀ name ∈ keys.fields, Arguments.segment? (Assoc.overlay value
      (normaliseGiven (Records.changes args) records.model.schema)) name = args.segment? name := by
  have hnodup := hdistinct.nodup
  intro name hname
  obtain ⟨text, hsegment⟩ := KeyTemplate.key_given hkey name hname
  obtain ⟨given, hgiven, htext⟩ := Arguments.segment?_eq_some hsegment
  obtain ⟨field, hfield, hfieldName⟩ := List.mem_map.1 (htemplated.declared name hname)
  have hnormal := find?_normaliseGiven (Records.changes args) hnodup hfield
  have hoverlay := Assoc.find?_overlay value
    (hnodup.sublist (normaliseGiven_keys (Records.changes args) records.model.schema)) name
  rw [hfieldName] at hnormal
  by_cases hid : name = "id"
  · rw [hnormal, hid, find?_changes_id, Option.map_none, Option.none_or] at hoverlay
    rw [← hagree name hname, hid]
    exact Arguments.segment?_congr hoverlay
  · rw [hnormal, find?_changes hgiven htext (htemplated.stored name hname) hid, Option.map_some,
      Json.normalise_of_segment? htext, Option.some_or, ← hgiven] at hoverlay
    exact Arguments.segment?_congr hoverlay

theorem Keyed.overlay {map : RecordMap} (h : map.Keyed words keys) (hreadable : keys.Readable words)
    {args : Arguments} {key : Key} {changes value : Json.Map}
    (hchanges : records.keyedChanges args = .ok (key, changes))
    (hwords : words.Admits keys.fields args) (hvalue : Assoc.find? map key = some value) :
    RecordMap.Keyed words keys (Assoc.insert map key (Assoc.overlay value changes)) := by
  obtain ⟨k, hkey, hchanges⟩ := bind_eq_ok.1 hchanges
  obtain ⟨written, -, hchanges⟩ := bind_eq_ok.1 hchanges
  cases hchanges
  rw [htemplated.strategy] at hkey
  obtain ⟨hold, hadmitted⟩ := h key value hvalue
  have hagree := KeyTemplate.key_injective hreadable hwords hadmitted hkey hold
  exact h.bind hkey hwords (overlaid_segments hdistinct htemplated hkey fun name hname => (hagree name hname).symm)

theorem create_keyed (environment : Environment ε) {map : RecordMap} (h : map.Keyed words keys) (e : ε)
    {fields : Arguments}
    (hwords : ∀ args, records.CreatesFrom environment fields args → words.Admits keys.fields args) :
    RecordMap.Keyed words keys (RecordMap.create records environment fields map e).2.1 := by
  simp only [RecordMap.create]
  split
  · exact h
  · rename_i key value hkeyed
    split
    · exact h
    · exact Keyed.write hdistinct htemplated h hkeyed (hwords _ ⟨e, rfl⟩)

/-- Every call keeps the records under the keys that their fields make. -/
theorem RecordMap.perform_keyed (environment : Environment ε) (hreadable : keys.Readable words)
    {map : RecordMap} (h : map.Keyed words keys) (e : ε) {call : RecordCall ρ}
    (hwords : ∀ args, records.WritesFrom environment call args → words.Admits keys.fields args) :
    RecordMap.Keyed words keys (RecordMap.perform records environment call map e).2.1 := by
  cases call with
  | create fields => exact create_keyed hdistinct htemplated environment h e hwords
  | get args => exact h
  | update args =>
    simp only [perform, update]
    split
    · exact h
    · rename_i key changes hchanges
      split
      · exact h
      · rename_i value hvalue
        exact Keyed.overlay hdistinct htemplated h hreadable hchanges (hwords args rfl) hvalue
  | save record =>
    simp only [perform, save]
    split
    · exact h
    · rename_i fields hfields
      split
      · exact create_keyed hdistinct htemplated environment h e fun args hargs =>
          hwords args ⟨fields, hfields, Or.inr hargs⟩
      · split
        · exact h
        · rename_i key value hkeyed
          exact Keyed.write hdistinct htemplated h hkeyed (hwords fields ⟨fields, hfields, Or.inl rfl⟩)
  | delete args =>
    simp only [perform, delete]
    split
    · exact h
    · exact h.erase _
  | remove record =>
    simp only [perform, remove, delete]
    split
    · exact h
    · dsimp only
      split
      · exact h
      · exact h.erase _

end Keyed

end KeyedRecords
