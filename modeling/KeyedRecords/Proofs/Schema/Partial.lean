import KeyedRecords.Proofs.Schema.RoundTrip

/-! What a stored record reads as once some of its fields were written anew: the old record with the normal
form of each new value in it. Reading is taken apart into what each declared field reads as, which depends on
the attribute under its name alone. Main statement: `Schema.decode_overlay`. -/

namespace KeyedRecords

/-! ## Field by field -/

def decodeField (parent : String) (field : Field) (stored? : Option Attribute) : Result (Option Json) :=
  match stored?, field.presence with
  | none, .default value | some .null, .default value => pure (some value)
  | none, .required | some .null, .required => throw (.missingRequiredField (fieldPath parent field.name))
  | some .null, .optional => pure (some .null)
  | none, .optional => pure none
  | some stored, _ => do pure (some (← field.type.decode (fieldPath parent field.name) stored))

theorem decodeField_of_ne_null {parent : String} {field : Field} {stored : Attribute} {value : Json}
    (hnull : stored ≠ .null) (h : field.type.decode (fieldPath parent field.name) stored = .ok value) :
    decodeField parent field (some stored) = .ok (some value) := by
  cases field.presence <;> cases stored <;> first
    | exact absurd rfl hnull
    | simp only [decodeField, h]; rfl

theorem decodeFields_cons (parent : String) (item : Item) (field : Field) (rest : Schema) :
    decodeFields parent item (field :: rest) = (do
      let value? ← decodeField parent field (Assoc.find? item field.name)
      let more ← decodeFields parent item rest
      pure ((value?.map (field.name, ·)).toList ++ more)) := by
  obtain ⟨name, type, presence⟩ := field
  simp only [decodeFields, decodeField]
  cases Assoc.find? item name with
  | none => cases presence <;> first | rfl | simp
  | some stored => cases stored <;> cases presence <;> first | rfl | simp

section Fields

variable {parent : String} {item : Item} {fields : Schema}

theorem decodeFields_of_decodeField (reading : String → Option Json)
    (h : ∀ field ∈ fields,
      decodeField parent field (Assoc.find? item field.name) = .ok (reading field.name)) :
    decodeFields parent item fields =
      .ok (fields.filterMap fun field => (reading field.name).map (field.name, ·)) := by
  induction fields with
  | nil => rfl
  | cons field rest ih =>
    rw [decodeFields_cons, h field List.mem_cons_self,
      ih fun other hother => h other (List.mem_cons_of_mem _ hother)]
    cases hreading : reading field.name <;> simp [hreading] <;> rfl

theorem decodeFields_keys {pairs : Json.Map} (h : decodeFields parent item fields = .ok pairs) :
    (Assoc.keys pairs).Sublist (fields.map (·.name)) := by
  induction fields generalizing pairs with
  | nil =>
    cases h
    exact List.Sublist.slnil
  | cons field rest ih =>
    rw [decodeFields_cons] at h
    obtain ⟨value?, -, h⟩ := bind_eq_ok.1 h
    obtain ⟨more, hmore, h⟩ := bind_eq_ok.1 h
    cases h
    cases value? with
    | none => exact (ih hmore).cons field.name
    | some value => exact (ih hmore).cons_cons field.name

theorem decodeField_of_decodeFields {pairs : Json.Map} (hnodup : (fields.map (·.name)).Nodup)
    (h : decodeFields parent item fields = .ok pairs) : ∀ field ∈ fields,
      decodeField parent field (Assoc.find? item field.name) = .ok (Assoc.find? pairs field.name) := by
  induction fields generalizing pairs with
  | nil => exact fun field hfield => absurd hfield List.not_mem_nil
  | cons first rest ih =>
    rw [List.map_cons, List.nodup_cons] at hnodup
    rw [decodeFields_cons] at h
    obtain ⟨value?, hvalue, h⟩ := bind_eq_ok.1 h
    obtain ⟨more, hmore, h⟩ := bind_eq_ok.1 h
    cases h
    have habsent : Assoc.find? more first.name = none :=
      Assoc.find?_eq_none_iff.2 fun hmem => hnodup.1 ((decodeFields_keys hmore).subset hmem)
    intro field hfield
    rcases List.mem_cons.1 hfield with rfl | hfield
    · rw [hvalue]
      cases value? <;> simp [Assoc.find?, habsent]
    · have hne : first.name ≠ field.name := fun he =>
        hnodup.1 (he ▸ List.mem_map_of_mem hfield)
      rw [ih hnodup.2 hmore field hfield]
      cases value? <;> simp [Assoc.find?, hne]

end Fields

/-! ## Some fields of a record -/

def normaliseGiven (entries : Json.Map) : Schema → Json.Map
  | [] => []
  | ⟨name, type, _⟩ :: rest =>
    match givenValue? entries name with
    | some value => (name, type.normalise value) :: normaliseGiven entries rest
    | none => normaliseGiven entries rest

theorem normaliseGiven_keys (entries : Json.Map) (schema : Schema) :
    (Assoc.keys (normaliseGiven entries schema)).Sublist (schema.map (·.name)) := by
  induction schema with
  | nil => exact List.Sublist.slnil
  | cons field rest ih =>
    simp only [normaliseGiven]
    split
    · exact ih.cons_cons field.name
    · exact ih.cons field.name

theorem encodeGiven_keys {entries : Json.Map} {schema : Schema} {pairs : Item}
    (h : encodeGiven entries schema = .ok pairs) :
    (Assoc.keys pairs).Sublist (schema.map (·.name)) := by
  induction schema generalizing pairs with
  | nil =>
    cases h
    exact List.Sublist.slnil
  | cons field rest ih =>
    simp only [encodeGiven] at h
    split at h
    · obtain ⟨encoded, -, h⟩ := bind_eq_ok.1 h
      obtain ⟨more, hmore, h⟩ := bind_eq_ok.1 h
      cases h
      exact (ih hmore).cons_cons field.name
    · exact (ih h).cons field.name

/-- A declared field is written if it is given, and then its attribute reads as the normal form. -/
theorem encodeGiven_spec {entries : Json.Map} {schema : Schema} (hdistinct : DistinctFields schema)
    {pairs : Item} (h : encodeGiven entries schema = .ok pairs) : ∀ field ∈ schema,
      (givenValue? entries field.name = none ∧ Assoc.find? pairs field.name = none ∧
        Assoc.find? (normaliseGiven entries schema) field.name = none) ∨
      ∃ value stored, RoundTrips field.type value stored ∧
        givenValue? entries field.name = some value ∧ Assoc.find? pairs field.name = some stored ∧
        Assoc.find? (normaliseGiven entries schema) field.name = some (field.type.normalise value) := by
  induction schema generalizing pairs with
  | nil => exact fun field hfield => absurd hfield List.not_mem_nil
  | cons first rest ih =>
    obtain ⟨name, type, presence⟩ := first
    obtain ⟨hnames, htype, hrest⟩ := hdistinct
    simp only [encodeGiven] at h
    intro field hfield
    split at h
    · rename_i value hgiven
      obtain ⟨encoded, hencoded, h⟩ := bind_eq_ok.1 h
      obtain ⟨more, hmore, h⟩ := bind_eq_ok.1 h
      cases h
      simp only [normaliseGiven, hgiven]
      rcases List.mem_cons.1 hfield with rfl | hfield
      · right
        exact ⟨value, encoded, FieldType.roundTrips type htype hencoded, hgiven, by simp [Assoc.find?],
          by simp [Assoc.find?]⟩
      · have hne := Ne.symm (hnames field hfield)
        simpa [Assoc.find?, hne] using ih hrest hmore field hfield
    · rename_i hgiven
      simp only [normaliseGiven, hgiven]
      rcases List.mem_cons.1 hfield with rfl | hfield
      · left
        exact ⟨hgiven, find?_eq_none_of_names (encodeGiven_keys h) hnames,
          find?_eq_none_of_names (normaliseGiven_keys entries rest) hnames⟩
      · exact ih hrest h field hfield

namespace Schema

theorem encodePartial_eq_ok_iff {schema : Schema} {model : String} {entries : Json.Map} {stored : Item} :
    schema.encodePartial model entries = .ok stored ↔ schema.undeclared entries = [] ∧
      ∃ pairs, encodeGiven entries schema = .ok pairs ∧ stored = Assoc.ofList pairs := by
  simp only [encodePartial, bind_eq_ok, pure_eq_ok, checkDeclared_eq_ok_iff, exists_const]

theorem encodePartial_eq_ok {schema : Schema} {model : String} {entries : Json.Map} {stored : Item}
    (h : schema.encodePartial model entries = .ok stored) :
    ∃ pairs, encodeGiven entries schema = .ok pairs ∧ stored = Assoc.ofList pairs :=
  (encodePartial_eq_ok_iff.1 h).2

theorem encodePartial_sorted {schema : Schema} {model : String} {entries : Json.Map} {stored : Item}
    (h : schema.encodePartial model entries = .ok stored) : Assoc.Sorted stored := by
  obtain ⟨pairs, -, rfl⟩ := encodePartial_eq_ok h
  exact Assoc.sorted_ofList pairs

/-- What attributes read as is a map of declared fields, each read from the attribute under its name. -/
theorem decode_eq_ok_iff {schema : Schema} (hdistinct : schema.Distinct) {item : Item} {value : Json.Map} :
    schema.decode item = .ok (.map value) ↔
      Assoc.Sorted value ∧ (∀ name, name ∉ schema.map (·.name) → Assoc.find? value name = none) ∧
      ∀ field ∈ schema,
        decodeField "" field (Assoc.find? item field.name) = .ok (Assoc.find? value field.name) := by
  have hnodup := DistinctFields.nodup hdistinct
  constructor
  · intro h
    obtain ⟨pairs, hpairs, h⟩ := bind_eq_ok.1 h
    cases h
    have hkeys := decodeFields_keys hpairs
    have hfind := Assoc.find?_ofList (hnodup.sublist hkeys)
    refine ⟨Assoc.sorted_ofList pairs, fun name hname => ?_, fun field hfield => ?_⟩
    · rw [hfind]
      exact Assoc.find?_eq_none_iff.2 fun hmem => hname (hkeys.subset hmem)
    · rw [hfind]
      exact decodeField_of_decodeFields hnodup hpairs field hfield
  · rintro ⟨hsorted, hundeclared, hfields⟩
    have hdecode := decodeFields_of_decodeField (Assoc.find? value) hfields
    refine bind_eq_ok.2 ⟨_, hdecode, congrArg (fun m => Except.ok (Json.map m)) ?_⟩
    have hpairs := decodeField_of_decodeFields hnodup hdecode
    have hkeys := decodeFields_keys hdecode
    refine Assoc.eq_of_find?_eq (Assoc.sorted_ofList _) hsorted fun name => ?_
    rw [Assoc.find?_ofList (hnodup.sublist hkeys)]
    by_cases hname : name ∈ schema.map (·.name)
    · obtain ⟨field, hfield, rfl⟩ := List.mem_map.1 hname
      exact Except.ok.inj ((hpairs field hfield).symm.trans (hfields field hfield))
    · rw [hundeclared name hname]
      exact Assoc.find?_eq_none_iff.2 fun hmem => hname (hkeys.subset hmem)

/-- Attributes that are those of a record except for some fields, written anew, read as the record with the
normal forms of these fields in it. -/
theorem decode_overlay {schema : Schema} (hdistinct : schema.Distinct) {model : String}
    {changes value : Json.Map} {old written item : Item}
    (hold : schema.decode old = .ok (.map value))
    (hwritten : schema.encodePartial model changes = .ok written)
    (hitem : ∀ name, Assoc.find? item name = (Assoc.find? written name).or (Assoc.find? old name)) :
    schema.decode item = .ok (.map (Assoc.overlay value (normaliseGiven changes schema))) := by
  have hnodup := DistinctFields.nodup hdistinct
  obtain ⟨hsorted, hundeclared, hfields⟩ := (decode_eq_ok_iff hdistinct).1 hold
  obtain ⟨pairs, hpairs, rfl⟩ := encodePartial_eq_ok hwritten
  have hgiven := normaliseGiven_keys changes schema
  have hoverlay := Assoc.find?_overlay value (hnodup.sublist hgiven)
  refine (decode_eq_ok_iff hdistinct).2 ⟨Assoc.sorted_overlay hsorted _, fun name hname => ?_,
    fun field hfield => ?_⟩
  · rw [hoverlay, hundeclared name hname, Option.or_none]
    exact Assoc.find?_eq_none_iff.2 fun hmem => hname (hgiven.subset hmem)
  · rw [hoverlay, hitem, Assoc.find?_ofList (hnodup.sublist (encodeGiven_keys hpairs))]
    rcases encodeGiven_spec hdistinct hpairs field hfield with
      ⟨-, hpair, hnormal⟩ | ⟨v, stored, hround, -, hpair, hnormal⟩
    · rw [hpair, hnormal, Option.none_or, Option.none_or]
      exact hfields field hfield
    · rw [hpair, hnormal, Option.some_or, Option.some_or]
      exact decodeField_of_ne_null hround.ne_null (hround.decode _)

end Schema

end KeyedRecords
