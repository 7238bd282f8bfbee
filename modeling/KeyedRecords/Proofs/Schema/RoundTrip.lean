import KeyedRecords.Proofs.Attribute
import KeyedRecords.Proofs.Schema.Normal

/-! Reading back what was written gives the normal form of the record, and the normal form is written the
same. The invariant of the induction over types is `RoundTrips`, that of the induction over declared fields
`FieldsRoundTrip`. Main statements: `roundTripFields`, `Schema.encode_roundTrip`. -/

namespace KeyedRecords

/-! ## Lists, element by element -/

section Elements

variable {α β : Type} {f : α × Nat → Result β} {l : List α} {xs : List β}

theorem forall₂_of_mapM_zipIdx {k : Nat} (h : (l.zipIdx k).mapM f = .ok xs) :
    List.Forall₂ (fun v x => ∃ i, f (v, i) = .ok x) l xs := by
  induction l generalizing k xs with
  | nil =>
    cases h
    exact List.Forall₂.nil
  | cons v l ih =>
    rw [List.zipIdx_cons, List.mapM_cons] at h
    obtain ⟨x, hx, h⟩ := bind_eq_ok.1 h
    obtain ⟨ys, hys, h⟩ := bind_eq_ok.1 h
    cases h
    exact List.Forall₂.cons ⟨k, hx⟩ (ih hys)

theorem mapM_zipIdx_of_forall₂ (h : List.Forall₂ (fun v x => ∀ i, f (v, i) = .ok x) l xs) (k : Nat) :
    (l.zipIdx k).mapM f = .ok xs := by
  induction h generalizing k with
  | nil => rfl
  | cons hx _ ih =>
    rw [List.zipIdx_cons, List.mapM_cons]
    exact bind_eq_ok.2 ⟨_, hx k, bind_eq_ok.2 ⟨_, ih (k + 1), rfl⟩⟩

end Elements

/-! ## Names -/

theorem DistinctFields.nodup {fields : List (FieldOf FieldType)} (h : DistinctFields fields) :
    (fields.map (·.name)).Nodup := by
  induction fields with
  | nil => exact List.nodup_nil
  | cons field rest ih =>
    obtain ⟨hfirst, -, hrest⟩ := h
    refine List.nodup_cons.2 ⟨fun hmem => ?_, ih hrest⟩
    obtain ⟨other, hother, hname⟩ := List.mem_map.1 hmem
    exact hfirst other hother hname

theorem encodeFields_keys {parent : String} {entries : Json.Map} {fields : List (FieldOf FieldType)}
    {stored : Item} (h : encodeFields parent entries fields = .ok stored) :
    (Assoc.keys stored).Sublist (fields.map (·.name)) := by
  induction fields generalizing stored with
  | nil =>
    cases h
    exact List.Sublist.slnil
  | cons field rest ih =>
    obtain ⟨name, type, presence⟩ := field
    simp only [encodeFields] at h
    split at h
    · obtain ⟨encoded, -, h⟩ := bind_eq_ok.1 h
      obtain ⟨more, hmore, h⟩ := bind_eq_ok.1 h
      cases h
      exact (ih hmore).cons_cons name
    · cases h
    · exact (ih h).cons name
    · split at h
      · exact (ih h).cons name
      · obtain ⟨encoded, -, h⟩ := bind_eq_ok.1 h
        obtain ⟨more, hmore, h⟩ := bind_eq_ok.1 h
        cases h
        exact (ih hmore).cons_cons name

theorem normaliseFields_keys (entries : Json.Map) (fields : List (FieldOf FieldType)) :
    (Assoc.keys (normaliseFields entries fields)).Sublist (fields.map (·.name)) := by
  induction fields with
  | nil => exact List.Sublist.slnil
  | cons field rest ih =>
    obtain ⟨name, type, presence⟩ := field
    simp only [normaliseFields]
    split
    · exact ih.cons_cons name
    · exact ih.cons_cons name
    · exact ih.cons name
    · exact ih.cons name

theorem Schema.contains_iff {schema : Schema} {name : String} :
    schema.contains name = true ↔ ∃ field ∈ schema, field.name = name := by
  simp [contains, field?]

theorem Schema.undeclared_eq_nil_iff {schema : Schema} {entries : Json.Map} :
    schema.undeclared entries = [] ↔ ∀ name ∈ Assoc.keys entries, ∃ field ∈ schema, field.name = name := by
  simp only [undeclared, List.filter_eq_nil_iff, ← contains_iff, Bool.not_eq_true', Bool.not_eq_false]

/-- A normal form has declared names only. -/
theorem undeclared_normaliseFields (entries : Json.Map) (fields : List (FieldOf FieldType)) :
    Schema.undeclared fields (Assoc.ofList (normaliseFields entries fields)) = [] := by
  refine Schema.undeclared_eq_nil_iff.2 fun name hname => ?_
  obtain ⟨p, hp, rfl⟩ := List.mem_map.1 hname
  exact List.mem_map.1 ((normaliseFields_keys entries fields).subset (List.mem_map_of_mem (Assoc.mem_ofList hp)))

/-! ## Values -/

theorem FieldType.encode_null (type : FieldType) (path : String) (stored : Attribute) :
    type.encode path .null ≠ .ok stored := by
  cases type <;> simp [FieldType.encode, throw, throwThe, MonadExceptOf.throw]

theorem FieldType.normalise_null (type : FieldType) : type.normalise .null = .null := by
  cases type <;> rfl

/-- What holds of a value and the attribute it is written as. -/
structure RoundTrips (type : FieldType) (value : Json) (stored : Attribute) : Prop where
  ne_null : stored ≠ .null
  decode : ∀ path, type.decode path stored = .ok (type.normalise value)
  encode : ∀ path, type.encode path (type.normalise value) = .ok stored

theorem RoundTrips.normalise_ne_null {type : FieldType} {value : Json} {stored : Attribute}
    (h : RoundTrips type value stored) : (type.normalise value).isNull = false := by
  cases hvalue : type.normalise value with
  | null => exact absurd (hvalue ▸ h.encode "") (type.encode_null "" stored)
  | _ => rfl

/-- What holds of the entries of a record and the attributes they are written as: whatever agrees with these
attributes on the declared names is read as the normal form, and whatever agrees with that is written so. -/
structure FieldsRoundTrip (fields : List (FieldOf FieldType)) (entries : Json.Map) (stored : Item) :
    Prop where
  decode : ∀ path item, (∀ field ∈ fields, Assoc.find? item field.name = Assoc.find? stored field.name) →
    decodeFields path item fields = .ok (normaliseFields entries fields)
  encode : ∀ path given, (∀ field ∈ fields, givenValue? given field.name =
      givenValue? (normaliseFields entries fields) field.name) →
    encodeFields path given fields = .ok stored

theorem decodeFields_cons_stored {path name : String} {item : Item} {type : FieldType}
    {presence : Presence} {rest : List (FieldOf FieldType)} {stored : Attribute} {value : Json}
    {more : Json.Map} (hfind : Assoc.find? item name = some stored) (hnull : stored ≠ .null)
    (hvalue : type.decode (fieldPath path name) stored = .ok value)
    (hmore : decodeFields path item rest = .ok more) :
    decodeFields path item (⟨name, type, presence⟩ :: rest) = .ok ((name, value) :: more) := by
  simp only [decodeFields, hfind]
  split
  · rename_i he
    cases he
  · rename_i he
    cases he
    exact absurd rfl hnull
  · rename_i he
    cases he
  · rename_i he
    cases he
    exact absurd rfl hnull
  · rename_i he
    cases he
    exact absurd rfl hnull
  · rename_i he
    cases he
  · rename_i he _ _ _
    cases he
    exact bind_eq_ok.2 ⟨_, hvalue, bind_eq_ok.2 ⟨_, hmore, rfl⟩⟩

theorem givenValue?_cons_self (name : String) (value : Json) (entries : Json.Map) :
    givenValue? ((name, value) :: entries) name = (some value).filter (!·.isNull) := by
  simp [givenValue?, Assoc.find?]

theorem givenValue?_cons_of_ne {name other : String} (value : Json) (entries : Json.Map)
    (h : other ≠ name) : givenValue? ((name, value) :: entries) other = givenValue? entries other := by
  simp [givenValue?, Assoc.find?, Ne.symm h]

/-- A value that is written, whether it was given or is the default, goes in front of the others. -/
theorem FieldsRoundTrip.cons {name : String} {type : FieldType} {presence : Presence}
    {rest : List (FieldOf FieldType)} {entries : Json.Map} {value : Json} {stored : Attribute}
    {more : Item} (hnames : ∀ field ∈ rest, field.name ≠ name) (hvalue : RoundTrips type value stored)
    (hmore : FieldsRoundTrip rest entries more)
    (hnormal : normaliseFields entries (⟨name, type, presence⟩ :: rest) =
      (name, type.normalise value) :: normaliseFields entries rest) :
    FieldsRoundTrip (⟨name, type, presence⟩ :: rest) entries ((name, stored) :: more) where
  decode path item hitem := by
    have hself := hitem _ List.mem_cons_self
    have hrest : ∀ field ∈ rest, Assoc.find? item field.name = Assoc.find? more field.name := by
      intro field hfield
      rw [hitem field (List.mem_cons_of_mem _ hfield)]
      simp [Assoc.find?, Ne.symm (hnames field hfield)]
    rw [hnormal]
    refine decodeFields_cons_stored ?_ hvalue.ne_null (hvalue.decode _) (hmore.decode path item hrest)
    rw [hself]
    simp [Assoc.find?]
  encode path given hgiven := by
    have hself : givenValue? given name = some (type.normalise value) := by
      rw [hgiven _ List.mem_cons_self, hnormal, givenValue?_cons_self]
      simp [hvalue.normalise_ne_null]
    have hrest : ∀ field ∈ rest,
        givenValue? given field.name = givenValue? (normaliseFields entries rest) field.name := by
      intro field hfield
      rw [hgiven field (List.mem_cons_of_mem _ hfield), hnormal,
        givenValue?_cons_of_ne _ _ (hnames field hfield)]
    simp only [encodeFields, hself]
    exact bind_eq_ok.2 ⟨_, hvalue.encode _, bind_eq_ok.2 ⟨_, hmore.encode path given hrest, rfl⟩⟩

theorem find?_eq_none_of_names {α : Type} {m : List (String × α)} {name : String}
    {rest : List (FieldOf FieldType)} (hkeys : (Assoc.keys m).Sublist (rest.map (·.name)))
    (hnames : ∀ field ∈ rest, field.name ≠ name) : Assoc.find? m name = none := by
  refine Assoc.find?_eq_none_iff.2 fun hmem => ?_
  obtain ⟨field, hfield, hname⟩ := List.mem_map.1 (hkeys.subset hmem)
  exact hnames field hfield hname

/-- A field without a value that has no default leaves no trace. -/
theorem FieldsRoundTrip.absent {name : String} {type : FieldType} {rest : List (FieldOf FieldType)}
    {entries : Json.Map} {stored : Item} (hnames : ∀ field ∈ rest, field.name ≠ name)
    (hkeys : (Assoc.keys stored).Sublist (rest.map (·.name)))
    (habsent : givenValue? entries name = none) (hmore : FieldsRoundTrip rest entries stored) :
    FieldsRoundTrip (⟨name, type, .optional⟩ :: rest) entries stored where
  decode path item hitem := by
    have hself := hitem _ List.mem_cons_self
    rw [find?_eq_none_of_names hkeys hnames] at hself
    simp only [decodeFields, hself, normaliseFields, habsent]
    exact hmore.decode path item fun field hfield => hitem field (List.mem_cons_of_mem _ hfield)
  encode path given hgiven := by
    have hnormal : normaliseFields entries (⟨name, type, .optional⟩ :: rest) =
        normaliseFields entries rest := by
      simp only [normaliseFields, habsent]
    have hself : givenValue? given name = none := by
      rw [hgiven _ List.mem_cons_self, hnormal, givenValue?,
        find?_eq_none_of_names (normaliseFields_keys entries rest) hnames]
      rfl
    simp only [encodeFields, hself]
    exact hmore.encode path given fun field hfield =>
      (hgiven field (List.mem_cons_of_mem _ hfield)).trans (by rw [hnormal])

/-- A default of null is never written, and read where nothing is. -/
theorem FieldsRoundTrip.nullDefault {name : String} {type : FieldType}
    {rest : List (FieldOf FieldType)} {entries : Json.Map} {stored : Item}
    (hnames : ∀ field ∈ rest, field.name ≠ name)
    (hkeys : (Assoc.keys stored).Sublist (rest.map (·.name)))
    (habsent : givenValue? entries name = none) (hmore : FieldsRoundTrip rest entries stored) :
    FieldsRoundTrip (⟨name, type, .default .null⟩ :: rest) entries stored where
  decode path item hitem := by
    have hself := hitem _ List.mem_cons_self
    rw [find?_eq_none_of_names hkeys hnames] at hself
    simp only [decodeFields, hself, normaliseFields, habsent, type.normalise_null]
    exact bind_eq_ok.2 ⟨_, hmore.decode path item fun field hfield =>
      hitem field (List.mem_cons_of_mem _ hfield), rfl⟩
  encode path given hgiven := by
    have hnormal : normaliseFields entries (⟨name, type, .default .null⟩ :: rest) =
        (name, .null) :: normaliseFields entries rest := by
      simp only [normaliseFields, habsent, type.normalise_null]
    have hself : givenValue? given name = none := by
      rw [hgiven _ List.mem_cons_self, hnormal, givenValue?_cons_self]
      rfl
    simp only [encodeFields, hself]
    rw [if_pos (show Json.null.isNull = true from rfl)]
    refine hmore.encode path given fun field hfield => ?_
    rw [hgiven field (List.mem_cons_of_mem _ hfield), hnormal,
      givenValue?_cons_of_ne _ _ (hnames field hfield)]

/-! ## The round trip -/

theorem RoundTrips.timestamp {text : String} (hvalid : Timestamp.isValid text = true) :
    RoundTrips .timestamp (.string text) (.string text) where
  ne_null := nofun
  decode _ := rfl
  encode path := by
    simp only [FieldType.normalise, FieldType.encode, hvalid, if_true]
    rfl

theorem RoundTrips.number (value : Number) : RoundTrips .number (.number value) (.number value.text) where
  ne_null := nofun
  decode path := by
    rw [FieldType.decode, Attribute.readNumber_text]
    rfl
  encode _ := rfl

theorem RoundTrips.map (entries : Json.Map) : RoundTrips .map (.map entries) (.ofJson (.map entries)) where
  ne_null := nofun
  decode path := by
    simp only [Attribute.ofJson, FieldType.decode, Attribute.toJsonMap_ofJsonMap]
    rfl
  encode _ := rfl

theorem RoundTrips.list {element : FieldType} {values : List Json} {stored : List Attribute}
    (h : List.Forall₂ (RoundTrips element) values stored) :
    RoundTrips (.list element) (.list values) (.list stored) where
  ne_null := nofun
  decode path := by
    simp only [FieldType.decode, FieldType.normalise]
    refine bind_eq_ok.2 ⟨_, mapM_zipIdx_of_forall₂ ?_ 0, rfl⟩
    rw [List.forall₂_map_right_iff]
    exact h.flip.imp fun _ _ hx i => hx.decode _
  encode path := by
    simp only [FieldType.encode, FieldType.normalise]
    refine bind_eq_ok.2 ⟨_, mapM_zipIdx_of_forall₂ ?_ 0, rfl⟩
    rw [List.forall₂_map_left_iff]
    exact h.imp fun _ _ hx i => hx.encode _

theorem RoundTrips.object {fields : List (FieldOf FieldType)} {entries : Json.Map} {stored : Item}
    (h : FieldsRoundTrip fields entries stored) (hnodup : (fields.map (·.name)).Nodup)
    (hkeys : (Assoc.keys stored).Sublist (fields.map (·.name))) :
    RoundTrips (.object fields) (.map entries) (.map (Assoc.ofList stored)) where
  ne_null := nofun
  decode path := by
    simp only [FieldType.decode, FieldType.normalise]
    exact bind_eq_ok.2 ⟨_, h.decode path _ fun field _ => Assoc.find?_ofList (hnodup.sublist hkeys) field.name, rfl⟩
  encode path := by
    simp only [FieldType.encode, FieldType.normalise, undeclared_normaliseFields]
    refine bind_eq_ok.2 ⟨_, h.encode path _ fun field _ => ?_, rfl⟩
    rw [givenValue?, Assoc.find?_ofList (hnodup.sublist (normaliseFields_keys _ fields))]
    rfl

mutual

theorem FieldType.roundTrips : (type : FieldType) → type.Distinct → ∀ {path value stored},
    type.encode path value = .ok stored → RoundTrips type value stored
  | .text, _, path, value, stored, h => by
    cases value <;> simp only [FieldType.encode] at h <;> cases h
    exact ⟨nofun, fun _ => rfl, fun _ => rfl⟩
  | .number, _, path, value, stored, h => by
    cases value <;> simp only [FieldType.encode] at h <;> cases h
    exact .number _
  | .boolean, _, path, value, stored, h => by
    cases value <;> simp only [FieldType.encode] at h <;> cases h
    exact ⟨nofun, fun _ => rfl, fun _ => rfl⟩
  | .timestamp, _, path, value, stored, h => by
    cases value <;> simp only [FieldType.encode] at h <;> try cases h
    split at h
    · cases h
      exact .timestamp ‹_›
    · cases h
  | .map, _, path, value, stored, h => by
    cases value <;> simp only [FieldType.encode] at h <;> cases h
    exact .map _
  | .list element, hdistinct, path, value, stored, h => by
    cases value <;> simp only [FieldType.encode] at h <;> try cases h
    obtain ⟨xs, hxs, h⟩ := bind_eq_ok.1 h
    cases h
    exact .list ((forall₂_of_mapM_zipIdx hxs).imp fun v x ⟨i, hx⟩ => FieldType.roundTrips element hdistinct hx)
  | .object fields, hdistinct, path, value, stored, h => by
    cases value <;> simp only [FieldType.encode] at h <;> try cases h
    split at h
    · obtain ⟨xs, hxs, h⟩ := bind_eq_ok.1 h
      cases h
      exact .object (roundTripFields fields hdistinct hxs) (DistinctFields.nodup hdistinct) (encodeFields_keys hxs)
    · cases h

theorem roundTripFields : (fields : List (FieldOf FieldType)) → DistinctFields fields →
    ∀ {path entries stored}, encodeFields path entries fields = .ok stored →
      FieldsRoundTrip fields entries stored
  | [], _, path, entries, stored, h => by
    cases h
    exact ⟨fun _ _ _ => rfl, fun _ _ _ => rfl⟩
  | ⟨name, type, presence⟩ :: rest, hdistinct, path, entries, stored, h => by
    obtain ⟨hnames, htype, hrest⟩ := hdistinct
    simp only [encodeFields] at h
    split at h
    · rename_i value hgiven
      obtain ⟨encoded, hencoded, h⟩ := bind_eq_ok.1 h
      obtain ⟨more, hmore, h⟩ := bind_eq_ok.1 h
      cases h
      exact FieldsRoundTrip.cons hnames (FieldType.roundTrips type htype hencoded)
        (roundTripFields rest hrest hmore) (by simp only [normaliseFields, hgiven])
    · cases h
    · rename_i habsent
      exact FieldsRoundTrip.absent hnames (encodeFields_keys h) habsent (roundTripFields rest hrest h)
    · rename_i value habsent
      split at h
      · rename_i hnull
        cases value <;> try cases hnull
        exact FieldsRoundTrip.nullDefault hnames (encodeFields_keys h) habsent
          (roundTripFields rest hrest h)
      · obtain ⟨encoded, hencoded, h⟩ := bind_eq_ok.1 h
        obtain ⟨more, hmore, h⟩ := bind_eq_ok.1 h
        cases h
        exact FieldsRoundTrip.cons hnames (FieldType.roundTrips type htype hencoded)
          (roundTripFields rest hrest hmore) (by simp only [normaliseFields, habsent])

end

namespace Schema

theorem checkDeclared_eq_ok_iff {schema : Schema} {model : String} {entries : Json.Map} {u : Unit} :
    schema.checkDeclared model entries = .ok u ↔ schema.undeclared entries = [] := by
  unfold checkDeclared
  split
  · exact ⟨fun _ => ‹_›, fun _ => rfl⟩
  · rename_i hsome
    exact ⟨nofun, fun h => absurd h hsome⟩

theorem encode_map_eq_ok_iff {schema : Schema} {model : String} {entries : Json.Map} {stored : Item} :
    schema.encode model (.map entries) = .ok stored ↔ schema.undeclared entries = [] ∧
      ∃ fields, encodeFields "" entries schema = .ok fields ∧ stored = Assoc.ofList fields := by
  simp only [encode, bind_eq_ok, pure_eq_ok, checkDeclared_eq_ok_iff, exists_const]

theorem encode_eq_ok {schema : Schema} {model : String} {value : Json} {stored : Item}
    (h : schema.encode model value = .ok stored) : ∃ entries fields, value = .map entries ∧
      schema.undeclared entries = [] ∧ encodeFields "" entries schema = .ok fields ∧
      stored = Assoc.ofList fields := by
  cases value with
  | map entries =>
    obtain ⟨hdeclared, fields, hfields, hstored⟩ := encode_map_eq_ok_iff.1 h
    exact ⟨entries, fields, rfl, hdeclared, hfields, hstored⟩
  | _ => cases h

theorem encode_sorted {schema : Schema} {model : String} {value : Json} {stored : Item}
    (h : schema.encode model value = .ok stored) : Assoc.Sorted stored := by
  obtain ⟨_, fields, -, -, -, rfl⟩ := encode_eq_ok h
  exact Assoc.sorted_ofList fields

/-- A record that can be written is read back in its normal form, which is written the same. -/
theorem encode_roundTrip (schema : Schema) (hdistinct : schema.Distinct) (model : String) (value : Json)
    (stored : Item) (h : schema.encode model value = .ok stored) :
    schema.decode stored = .ok (schema.normalise value) ∧
      schema.encode model (schema.normalise value) = .ok stored := by
  obtain ⟨entries, fields, rfl, -, hfields, rfl⟩ := encode_eq_ok h
  have hround := roundTripFields schema hdistinct hfields
  have hnodup := DistinctFields.nodup hdistinct
  constructor
  · refine bind_eq_ok.2 ⟨_, hround.decode "" _ fun field _ => ?_, rfl⟩
    exact Assoc.find?_ofList (hnodup.sublist (encodeFields_keys hfields)) field.name
  · have hdeclared : schema.checkDeclared model
        (Assoc.ofList (normaliseFields entries schema)) = .ok () := by
      simp only [checkDeclared, undeclared_normaliseFields]
      rfl
    refine bind_eq_ok.2 ⟨_, hdeclared, bind_eq_ok.2 ⟨_, hround.encode "" _ fun field _ => ?_, rfl⟩⟩
    rw [givenValue?, Assoc.find?_ofList (hnodup.sublist (normaliseFields_keys _ schema))]
    rfl

/-- Objects with defaults inside an object and inside a list, and contents that are free. -/
def nested : Schema :=
  [⟨"name", .text, .required⟩,
   ⟨"home", .object [⟨"city", .text, .default (.string "Bern")⟩, ⟨"zip", .text, .optional⟩],
     .default (.map [])⟩,
   ⟨"visits", .list (.object [⟨"count", .number, .default (.number .zero)⟩]), .optional⟩,
   ⟨"extra", .map, .optional⟩]

theorem nested_distinct : nested.Distinct := by
  simp [Distinct, nested, DistinctFields, FieldType.Distinct]

/-- Defaults are filled in on the second level too, also inside a default, and a null in free contents
stays. -/
theorem encode_roundTrip_nested :
    nested.encode "Person" (.map [("extra", .map [("note", .null)]), ("home", .null),
      ("name", .string "Kay"), ("visits", .list [.map [("count", .null)]])]) =
      .ok [("extra", .map [("note", .null)]), ("home", .map [("city", .string "Bern")]),
        ("name", .string "Kay"), ("visits", .list [.map [("count", .number "0")]])] ∧
    nested.decode [("extra", .map [("note", .null)]), ("home", .map [("city", .string "Bern")]),
        ("name", .string "Kay"), ("visits", .list [.map [("count", .number "0")]])] =
      .ok (.map [("extra", .map [("note", .null)]), ("home", .map [("city", .string "Bern")]),
        ("name", .string "Kay"), ("visits", .list [.map [("count", .number .zero)]])]) := by
  have hencoded : nested.encode "Person" (.map [("extra", .map [("note", .null)]), ("home", .null),
      ("name", .string "Kay"), ("visits", .list [.map [("count", .null)]])]) =
      .ok [("extra", .map [("note", .null)]), ("home", .map [("city", .string "Bern")]),
        ("name", .string "Kay"), ("visits", .list [.map [("count", .number "0")]])] := by decide
  have hnormal : nested.normalise (.map [("extra", .map [("note", .null)]), ("home", .null),
      ("name", .string "Kay"), ("visits", .list [.map [("count", .null)]])]) =
      .map [("extra", .map [("note", .null)]), ("home", .map [("city", .string "Bern")]),
        ("name", .string "Kay"), ("visits", .list [.map [("count", .number .zero)]])] := by decide
  refine ⟨hencoded, ?_⟩
  rw [(encode_roundTrip nested nested_distinct "Person" _ _ hencoded).1, hnormal]

end Schema

end KeyedRecords
