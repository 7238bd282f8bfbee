import KeyedRecords.Arguments
import KeyedRecords.Proofs.Schema.Partial

/-! Records that can be written anew from what was read. Writing is taken apart into what each declared field is
written as, as reading is. A record that was written whole is `Rewritable`, and stays so when some of its fields are
written anew; whatever gives the values of such a record is written and reads as the record. Main statements:
`Schema.rewritable_of_encode`, `Schema.Rewritable.overlay`, `Schema.Rewritable.encode`. -/

namespace KeyedRecords

/-! ## Values that are given -/

theorem givenValue?_eq_some_iff {entries : Json.Map} {name : String} {value : Json} :
    givenValue? entries name = some value ↔ Assoc.find? entries name = some value ∧ value ≠ .null := by
  rw [givenValue?, Option.filter_eq_some_iff]
  exact and_congr_right fun _ => by cases value <;> simp [Json.isNull]

theorem givenValue?_eq_none_iff {entries : Json.Map} {name : String} :
    givenValue? entries name = none ↔ ∀ other, Assoc.find? entries name = some other → other = .null := by
  rw [givenValue?, Option.filter_eq_none_iff]
  exact forall₂_congr fun other _ => by cases other <;> simp [Json.isNull]

theorem Arguments.find?_stored (args : Arguments) (name : String) :
    Assoc.find? (Arguments.stored args) name =
      if Arguments.isPrivate name = true then none else Assoc.find? args name := by
  rw [Arguments.stored, Assoc.find?_filter args fun name => !Arguments.isPrivate name]
  cases Arguments.isPrivate name <;> rfl

theorem givenValue?_stored (entries : Json.Map) (name : String) :
    givenValue? (Arguments.stored entries) name =
      if Arguments.isPrivate name = true then none else givenValue? entries name := by
  simp only [givenValue?, Arguments.find?_stored]
  split <;> rfl

/-- A name stands in a key for its value, which no null is. -/
theorem Arguments.segment?_eq_given (args : Arguments) (name : String) :
    args.segment? name = match givenValue? args name with
      | none => .ok none
      | some value => match value.segment? with
        | .ok segment => .ok segment
        | .error kind => .error (.invalidArguments (.notInKey name kind)) := by
  simp only [Arguments.segment?, givenValue?]
  cases Assoc.find? args name with
  | none => rfl
  | some value => cases value <;> rfl

theorem Arguments.segment?_of_given {args other : Arguments} {name : String}
    (h : givenValue? args name = givenValue? other name) : args.segment? name = other.segment? name := by
  rw [Arguments.segment?_eq_given, Arguments.segment?_eq_given, h]

/-! ## Field by field -/

/-- What a declared field is written as, from the value that is given for it. -/
def encodeField (parent : String) (field : Field) (given? : Option Json) : Result (Option Attribute) :=
  match given?, field.presence with
  | some value, _ => do pure (some (← field.type.encode (fieldPath parent field.name) value))
  | none, .required => throw (.missingRequiredField (fieldPath parent field.name))
  | none, .optional => pure none
  | none, .default value =>
    if value.isNull then pure none
    else do pure (some (← field.type.encode (fieldPath parent field.name) value))

theorem encodeFields_cons (parent : String) (entries : Json.Map) (field : Field) (rest : Schema) :
    encodeFields parent entries (field :: rest) = (do
      let stored? ← encodeField parent field (givenValue? entries field.name)
      let more ← encodeFields parent entries rest
      pure ((stored?.map (field.name, ·)).toList ++ more)) := by
  obtain ⟨name, type, presence⟩ := field
  simp only [encodeFields, encodeField]
  cases givenValue? entries name with
  | some value => simp
  | none =>
    cases presence with
    | required => rfl
    | optional => simp
    | default value => by_cases hnull : value.isNull = true <;> simp [hnull]

theorem encodeFields_cons_eq_ok_iff {parent : String} {entries : Json.Map} {field : Field} {rest : Schema}
    {pairs : Item} : encodeFields parent entries (field :: rest) = .ok pairs ↔ ∃ stored? more,
      encodeField parent field (givenValue? entries field.name) = .ok stored? ∧
      encodeFields parent entries rest = .ok more ∧ pairs = (stored?.map (field.name, ·)).toList ++ more := by
  simp only [encodeFields_cons, bind_eq_ok, pure_eq_ok, exists_and_left]

/-- What a field was written as is a value of its type. -/
theorem encodeField_eq_some {parent : String} {field : Field} {given? : Option Json} {stored : Attribute}
    (h : encodeField parent field given? = .ok (some stored)) :
    ∃ value, field.type.encode (fieldPath parent field.name) value = .ok stored := by
  have hwritten : ∀ value, (do pure (some (← field.type.encode (fieldPath parent field.name) value))) =
      (.ok (some stored) : Result (Option Attribute)) →
      field.type.encode (fieldPath parent field.name) value = .ok stored := by
    intro value h
    obtain ⟨_, hencode, h⟩ := bind_eq_ok.1 h
    cases h
    exact hencode
  unfold encodeField at h
  split at h
  · exact ⟨_, hwritten _ h⟩
  · cases h
  · cases h
  · split at h
    · cases h
    · exact ⟨_, hwritten _ h⟩

/-- A field that was not written is optional, or its default is null. -/
theorem encodeField_eq_none {parent : String} {field : Field} {given? : Option Json}
    (h : encodeField parent field given? = .ok none) :
    field.presence = .optional ∨ field.presence = .default .null := by
  have hwritten : ∀ value, (do pure (some (← field.type.encode (fieldPath parent field.name) value))) ≠
      (.ok none : Result (Option Attribute)) := by
    intro value h
    obtain ⟨_, -, h⟩ := bind_eq_ok.1 h
    cases h
  unfold encodeField at h
  split at h
  · exact absurd h (hwritten _)
  · cases h
  · rename_i hpresence
    exact Or.inl hpresence
  · rename_i value hpresence
    split at h
    · rename_i hnull
      cases value <;> try cases hnull
      exact Or.inr hpresence
    · exact absurd h (hwritten _)

/-- What each field can be written as, all of them can be written as. -/
theorem encodeFields_of_forall {parent : String} {entries : Json.Map} {fields : Schema}
    (hnodup : (fields.map (·.name)).Nodup) {P : Field → Option Attribute → Prop}
    (h : ∀ field ∈ fields, ∃ stored?,
      encodeField parent field (givenValue? entries field.name) = .ok stored? ∧ P field stored?) :
    ∃ pairs, encodeFields parent entries fields = .ok pairs ∧
      ∀ field ∈ fields, P field (Assoc.find? pairs field.name) := by
  induction fields with
  | nil => exact ⟨[], rfl, fun field hfield => absurd hfield List.not_mem_nil⟩
  | cons first rest ih =>
    rw [List.map_cons, List.nodup_cons] at hnodup
    obtain ⟨stored?, hfirst, hwritten⟩ := h first List.mem_cons_self
    obtain ⟨more, hmore, hrest⟩ := ih hnodup.2 fun field hfield => h field (List.mem_cons_of_mem _ hfield)
    have habsent : Assoc.find? more first.name = none :=
      Assoc.find?_eq_none_iff.2 fun hmem => hnodup.1 ((encodeFields_keys hmore).subset hmem)
    refine ⟨_, encodeFields_cons_eq_ok_iff.2 ⟨stored?, more, hfirst, hmore, rfl⟩, fun field hfield => ?_⟩
    rcases List.mem_cons.1 hfield with rfl | hfield
    · cases stored? <;> simpa [Assoc.find?, habsent] using hwritten
    · have hne : first.name ≠ field.name := fun he => hnodup.1 (he ▸ List.mem_map_of_mem hfield)
      cases stored? <;> simpa [Assoc.find?, hne] using hrest field hfield

theorem encodeField_of_encodeFields {parent : String} {entries : Json.Map} {fields : Schema} {pairs : Item}
    (hnodup : (fields.map (·.name)).Nodup) (h : encodeFields parent entries fields = .ok pairs) :
    ∀ field ∈ fields,
      encodeField parent field (givenValue? entries field.name) = .ok (Assoc.find? pairs field.name) := by
  induction fields generalizing pairs with
  | nil => exact fun field hfield => absurd hfield List.not_mem_nil
  | cons first rest ih =>
    rw [List.map_cons, List.nodup_cons] at hnodup
    obtain ⟨stored?, more, hstored, hmore, rfl⟩ := encodeFields_cons_eq_ok_iff.1 h
    have habsent : Assoc.find? more first.name = none :=
      Assoc.find?_eq_none_iff.2 fun hmem => hnodup.1 ((encodeFields_keys hmore).subset hmem)
    intro field hfield
    rcases List.mem_cons.1 hfield with rfl | hfield
    · rw [hstored]
      cases stored? <;> simp [Assoc.find?, habsent]
    · have hne : first.name ≠ field.name := fun he => hnodup.1 (he ▸ List.mem_map_of_mem hfield)
      rw [ih hnodup.2 hmore field hfield]
      cases stored? <;> simp [Assoc.find?, hne]

/-- What a field was written as reads as a value that it is written the same from. -/
theorem encodeField_roundTrip {parent : String} {field : Field} (htype : field.type.Distinct)
    {given? : Option Json} {stored? : Option Attribute} (h : encodeField parent field given? = .ok stored?) :
    ∃ read?, (∀ path, decodeField path field stored? = .ok read?) ∧
      ∀ path, encodeField path field (read?.filter (!·.isNull)) = .ok stored? := by
  obtain ⟨name, type, presence⟩ := field
  have hround : ∀ {value stored path}, type.encode path value = .ok stored → ∃ read?,
      (∀ path, decodeField path ⟨name, type, presence⟩ (some stored) = .ok read?) ∧
        ∀ path, encodeField path ⟨name, type, presence⟩ (read?.filter (!·.isNull)) = .ok (some stored) := by
    intro value stored path hencode
    have hvalue := FieldType.roundTrips type htype hencode
    refine ⟨some (type.normalise value), fun _ => decodeField_of_ne_null hvalue.ne_null (hvalue.decode _), ?_⟩
    intro path
    have hgiven : (some (type.normalise value)).filter (!·.isNull) = some (type.normalise value) := by
      simp [hvalue.normalise_ne_null]
    simp only [hgiven, encodeField, hvalue.encode]
    rfl
  cases given? with
  | some value =>
    obtain ⟨stored, hencode, h⟩ := bind_eq_ok.1 h
    cases h
    exact hround hencode
  | none =>
    cases presence with
    | required => cases h
    | optional =>
      cases h
      exact ⟨none, fun _ => rfl, fun _ => rfl⟩
    | default value =>
      simp only [encodeField] at h
      split at h
      · rename_i hnull
        cases h
        cases value <;> try cases hnull
        exact ⟨some .null, fun _ => rfl, fun _ => rfl⟩
      · obtain ⟨stored, hencode, h⟩ := bind_eq_ok.1 h
        cases h
        exact hround hencode

/-! ## Whole records -/

namespace Schema

/-- Whether a record, given as it reads, is written so that it reads the same; what is private is not given. -/
def Rewritable (schema : Schema) (value : Json.Map) : Prop :=
  ∀ field ∈ schema, ∃ stored?,
    encodeField "" field (givenValue? (Arguments.stored value) field.name) = .ok stored? ∧
      decodeField "" field stored? = .ok (Assoc.find? value field.name)

variable {schema : Schema} (hdistinct : schema.Distinct)

include hdistinct

theorem Distinct.type {field : Field} (hfield : field ∈ schema) : field.type.Distinct := by
  induction schema with
  | nil => exact absurd hfield List.not_mem_nil
  | cons first rest ih =>
    obtain ⟨-, htype, hrest⟩ := hdistinct
    rcases List.mem_cons.1 hfield with rfl | hfield
    · exact htype
    · exact ih hrest hfield

/-- A record that was written whole can be written anew in its normal form. -/
theorem rewritable_of_encode {entries : Json.Map} {pairs : Item}
    (h : encodeFields "" (Arguments.stored entries) schema = .ok pairs) :
    schema.Rewritable (Assoc.ofList (normaliseFields (Arguments.stored entries) schema)) := by
  have hnodup := DistinctFields.nodup hdistinct
  have hread := decodeField_of_decodeFields hnodup
    ((roundTripFields schema hdistinct h).decode "" pairs fun _ _ => rfl)
  intro field hfield
  have hwritten := encodeField_of_encodeFields hnodup h field hfield
  obtain ⟨read?, hdecode, hencode⟩ := encodeField_roundTrip (Distinct.type hdistinct hfield) hwritten
  have hvalue : Assoc.find? (Assoc.ofList (normaliseFields (Arguments.stored entries) schema)) field.name = read? := by
    rw [Assoc.find?_ofList (hnodup.sublist (normaliseFields_keys _ schema))]
    exact Except.ok.inj ((hread field hfield).symm.trans (hdecode ""))
  refine ⟨_, ?_, hvalue ▸ hdecode ""⟩
  rw [givenValue?_stored] at hwritten ⊢
  by_cases hprivate : Arguments.isPrivate field.name = true
  · rw [if_pos hprivate] at hwritten ⊢
    exact hwritten
  · rw [if_neg hprivate, givenValue?, hvalue]
    exact hencode ""

/-- A record stays so when some of its fields, none of them private, are written anew. -/
theorem Rewritable.overlay {value changes : Json.Map} (h : schema.Rewritable value) {model : String} {written : Item}
    (hwritten : schema.encodePartial model changes = .ok written)
    (hpublic : ∀ name, Arguments.isPrivate name = true → givenValue? changes name = none) :
    schema.Rewritable (Assoc.overlay value (normaliseGiven changes schema)) := by
  have hnodup := DistinctFields.nodup hdistinct
  obtain ⟨pairs, hpairs, -⟩ := encodePartial_eq_ok hwritten
  have hoverlay := Assoc.find?_overlay value (hnodup.sublist (normaliseGiven_keys changes schema))
  intro field hfield
  rcases encodeGiven_spec hdistinct hpairs field hfield with
    ⟨-, -, hnormal⟩ | ⟨given, stored, hround, hgiven, -, hnormal⟩
  · have hsame := hoverlay field.name
    rw [hnormal, Option.none_or] at hsame
    obtain ⟨stored?, hencode, hdecode⟩ := h field hfield
    refine ⟨stored?, ?_, hsame ▸ hdecode⟩
    rw [givenValue?_stored, givenValue?] at hencode ⊢
    rwa [hsame]
  · have hnew := hoverlay field.name
    rw [hnormal, Option.some_or] at hnew
    have hprivate : Arguments.isPrivate field.name ≠ true := by
      intro hprivate
      cases (hpublic _ hprivate).symm.trans hgiven
    refine ⟨some stored, ?_, hnew ▸ decodeField_of_ne_null hround.ne_null (hround.decode _)⟩
    have hvalue : (some (field.type.normalise given)).filter (!·.isNull) = some (field.type.normalise given) := by
      simp [hround.normalise_ne_null]
    rw [givenValue?_stored, if_neg hprivate, givenValue?, hnew, hvalue]
    simp only [encodeField, hround.encode]
    rfl

/-- What gives the values of a record that was read, and declares no more, is written and reads as that record. -/
theorem Rewritable.encode {value given : Json.Map} {old : Item} (h : schema.Rewritable value)
    (hold : schema.decode old = .ok (.map value)) (hgiven : ∀ name, givenValue? given name = givenValue? value name)
    (hdeclared : schema.undeclared (Arguments.stored given) = []) (model : String) : ∃ data,
      schema.encode model (.map (Arguments.stored given)) = .ok data ∧ schema.decode data = .ok (.map value) := by
  have hnodup := DistinctFields.nodup hdistinct
  obtain ⟨hsorted, hundeclared, -⟩ := (decode_eq_ok_iff hdistinct).1 hold
  have hstored : ∀ name, givenValue? (Arguments.stored given) name = givenValue? (Arguments.stored value) name := by
    intro name
    rw [givenValue?_stored, givenValue?_stored, hgiven]
  obtain ⟨pairs, hpairs, hread⟩ := encodeFields_of_forall hnodup fun field hfield => hstored field.name ▸ h field hfield
  have hcheck : schema.checkDeclared model (Arguments.stored given) = .ok () := by
    simp only [checkDeclared, hdeclared]
    rfl
  refine ⟨Assoc.ofList pairs, bind_eq_ok.2 ⟨_, hcheck, bind_eq_ok.2 ⟨_, hpairs, rfl⟩⟩, ?_⟩
  refine (decode_eq_ok_iff hdistinct).2 ⟨hsorted, hundeclared, fun field hfield => ?_⟩
  rw [Assoc.find?_ofList (hnodup.sublist (encodeFields_keys hpairs))]
  exact hread field hfield

end Schema

end KeyedRecords
