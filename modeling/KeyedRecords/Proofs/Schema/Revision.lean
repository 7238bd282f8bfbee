import KeyedRecords.Proofs.Schema.Rewriting

/-! Records that are read under a revised schema. A revision may add fields, as long as these need not be there,
and leave fields out, at every level that is declared. What was written under the former schema is then read as
it was, with the defaults of the fields added and without those left out. Main statement:
`Schema.decode_revised`. -/

namespace KeyedRecords

/-- Whether a type revises a former one. It is the same but for the fields of the objects in it: some may be gone,
some may be new, under names of their own and not required, and those kept have revised types. -/
inductive FieldType.Revises : FieldType → FieldType → Prop
  | text : Revises .text .text
  | number : Revises .number .number
  | boolean : Revises .boolean .boolean
  | timestamp : Revises .timestamp .timestamp
  | map : Revises .map .map
  | list {element former : FieldType} (h : element.Revises former) : Revises (.list element) (.list former)
  | object {fields formers : List (FieldOf FieldType)}
      (kept : ∀ field ∈ fields, ∀ former ∈ formers, former.name = field.name → field.type.Revises former.type)
      (presence : ∀ field ∈ fields, ∀ former ∈ formers, former.name = field.name →
        field.presence = former.presence)
      (added : ∀ field ∈ fields, (∀ former ∈ formers, former.name ≠ field.name) →
        field.presence ≠ .required) :
    Revises (.object fields) (.object formers)

/-- Whether a schema revises a former one, as the object of a record does. -/
def Schema.Revises (schema former : Schema) : Prop := FieldType.Revises (.object schema) (.object former)

mutual

/-- A value of a former type as one of the type that revises it: in every object, the fields added have their
defaults, if any, and those left out are gone. -/
def FieldType.revise : (type former : FieldType) → Json → Json
  | .list element, .list former, .list values => .list (values.map (element.revise former))
  | .object fields, .object formers, .map entries => .map (Assoc.ofList (reviseFields formers entries fields))
  | _, _, value => value

/-- The entries of an object with its former fields, for each field that it has now. -/
def reviseFields (formers : Schema) (entries : Json.Map) : List (FieldOf FieldType) → Json.Map
  | [] => []
  | ⟨name, type, presence⟩ :: rest =>
    match formers.field? name, presence with
    | some former, _ =>
      match Assoc.find? entries name with
      | some value => (name, type.revise former.type value) :: reviseFields formers entries rest
      | none => reviseFields formers entries rest
    | none, .default value => (name, value) :: reviseFields formers entries rest
    | none, .required | none, .optional => reviseFields formers entries rest

end

/-- A record of a former schema as one of the schema that revises it. -/
def Schema.revise (schema former : Schema) : Json → Json := FieldType.revise (.object schema) (.object former)

/-! ## Field by field -/

/-- What a field holds, from what its object held with the former fields. -/
def reviseField (formers : Schema) (entries : Json.Map) (field : Field) : Option Json :=
  match formers.field? field.name with
  | some former => (Assoc.find? entries field.name).map (field.type.revise former.type)
  | none => match field.presence with
    | .default value => some value
    | .required | .optional => none

theorem reviseFields_cons (formers : Schema) (entries : Json.Map) (field : Field) (rest : Schema) :
    reviseFields formers entries (field :: rest) =
      ((reviseField formers entries field).map (field.name, ·)).toList ++ reviseFields formers entries rest := by
  obtain ⟨name, type, presence⟩ := field
  simp only [reviseFields, reviseField]
  cases formers.field? name with
  | some former => cases Assoc.find? entries name <;> rfl
  | none => cases presence <;> rfl

theorem Schema.field?_eq_some {schema : Schema} {name : String} {field : Field}
    (h : schema.field? name = some field) : field ∈ schema ∧ field.name = name :=
  ⟨List.mem_of_find?_eq_some h, by simpa using List.find?_some h⟩

theorem Schema.field?_eq_none {schema : Schema} {name : String} (h : schema.field? name = none) :
    ∀ field ∈ schema, field.name ≠ name := by
  simpa [Schema.field?] using h

theorem FieldType.revise_null (type former : FieldType) : type.revise former .null = .null := by
  cases type <;> cases former <;> rfl

/-- Whether all that was written as a former type is read under another as the former value is revised. -/
def FieldType.ReadsRevised (type former : FieldType) : Prop :=
  ∀ {path value stored}, former.encode path value = .ok stored →
    ∀ other, type.decode other stored = .ok (type.revise former (former.normalise value))

/-- A field that is kept is read as the former field was, in the revised type. -/
theorem decodeField_kept {field former : Field} (hpresence : field.presence = former.presence)
    (hdistinct : former.type.Distinct) (htype : field.type.ReadsRevised former.type) {parent : String}
    {given? : Option Json} {stored? : Option Attribute}
    (hwritten : encodeField parent former given? = .ok stored?) {path : String} {read? : Option Json}
    (hread : decodeField path former stored? = .ok read?) :
    decodeField path field stored? = .ok (read?.map (field.type.revise former.type)) := by
  cases stored? with
  | some stored =>
    obtain ⟨value, hencode⟩ := encodeField_eq_some hwritten
    have hround := FieldType.roundTrips former.type hdistinct hencode
    cases (decodeField_of_ne_null hround.ne_null (hround.decode _)).symm.trans hread
    exact decodeField_of_ne_null hround.ne_null (htype hencode _)
  | none =>
    rcases encodeField_eq_none hwritten with hoptional | hnull
    · rw [hoptional] at hpresence
      simp only [decodeField, hoptional] at hread
      cases hread
      simp only [decodeField, hpresence]
      rfl
    · rw [hnull] at hpresence
      simp only [decodeField, hnull] at hread
      cases hread
      simp only [decodeField, hpresence, Option.map_some, FieldType.revise_null]
      rfl

/-! ## Objects -/

/-- The fields of an object are read as revised if each one is. -/
theorem decodeFields_of_reviseField {path : String} {item : Item} {formers : Schema} {entries : Json.Map} :
    ∀ {fields : Schema}, (∀ field ∈ fields, decodeField path field (Assoc.find? item field.name) =
        .ok (reviseField formers entries field)) →
      decodeFields path item fields = .ok (reviseFields formers entries fields)
  | [], _ => rfl
  | field :: rest, h => by
    have hrest := decodeFields_of_reviseField fun other hother => h other (List.mem_cons_of_mem _ hother)
    rw [decodeFields_cons, reviseFields_cons, h field List.mem_cons_self, hrest]
    rfl

/-- What was written for the former fields of an object is read for its fields as the former entries are revised. -/
theorem decodeFields_revised {fields formers : Schema} (hdistinct : DistinctFields formers)
    (hrevises : FieldType.Revises (.object fields) (.object formers))
    (htypes : ∀ field ∈ fields, ∀ former ∈ formers, former.name = field.name →
      field.type.ReadsRevised former.type)
    {parent : String} {entries : Json.Map} {stored : Item} (h : encodeFields parent entries formers = .ok stored)
    (path : String) :
    decodeFields path (Assoc.ofList stored) fields =
      .ok (reviseFields formers (Assoc.ofList (normaliseFields entries formers)) fields) := by
  have hnodup := DistinctFields.nodup hdistinct
  have hkeys := encodeFields_keys h
  have hstored := Assoc.find?_ofList (hnodup.sublist hkeys)
  have hnormal := Assoc.find?_ofList (hnodup.sublist (normaliseFields_keys entries formers))
  have hread := decodeField_of_decodeFields hnodup
    ((roundTripFields formers hdistinct h).decode path stored fun _ _ => rfl)
  cases hrevises with
  | object _ hpresence hadded =>
    refine decodeFields_of_reviseField fun field hfield => ?_
    rw [hstored, reviseField]
    cases hformer : formers.field? field.name with
    | some former =>
      obtain ⟨hmem, hname⟩ := Schema.field?_eq_some hformer
      dsimp only
      rw [hnormal, ← hname]
      exact decodeField_kept (hpresence field hfield former hmem hname) (Schema.Distinct.type hdistinct hmem)
        (htypes field hfield former hmem hname) (encodeField_of_encodeFields hnodup h former hmem)
        (hread former hmem)
    | none =>
      have hnew := Schema.field?_eq_none hformer
      rw [find?_eq_none_of_names hkeys hnew]
      have hpresence := hadded field hfield hnew
      cases hkind : field.presence with
      | required => exact absurd hkind hpresence
      | optional =>
        simp only [decodeField, hkind]
        rfl
      | default value =>
        simp only [decodeField, hkind]
        rfl

/-- What was written as a former type is read under its revision as the former value is revised. -/
theorem FieldType.Revises.readsRevised {type former : FieldType} (h : type.Revises former)
    (hdistinct : former.Distinct) : type.ReadsRevised former := by
  induction h with
  | text | number | boolean | timestamp | map =>
    intro path value stored hstored other
    have hdecode := (FieldType.roundTrips _ hdistinct hstored).decode other
    rw [hdecode]
    cases value <;> rfl
  | @list element former h ih =>
    intro path value stored hstored other
    cases value <;> simp only [FieldType.encode] at hstored <;> try cases hstored
    obtain ⟨elements, helements, hstored⟩ := bind_eq_ok.1 hstored
    cases hstored
    have hread := (forall₂_of_mapM_zipIdx helements).imp fun value stored hstored =>
      show ∀ other, element.decode other stored = Except.ok (element.revise former (former.normalise value)) from
        hstored.elim fun _ hvalue => ih hdistinct hvalue
    simp only [FieldType.decode, FieldType.normalise, FieldType.revise]
    refine bind_eq_ok.2 ⟨_, mapM_zipIdx_of_forall₂ ?_ 0, rfl⟩
    rw [List.map_map, List.forall₂_map_right_iff]
    exact hread.flip.imp fun _ _ hvalue i => hvalue _
  | @object fields formers hkept hpresence hadded ih =>
    intro path value stored hstored other
    cases value <;> simp only [FieldType.encode] at hstored <;> try cases hstored
    split at hstored
    · obtain ⟨pairs, hpairs, hstored⟩ := bind_eq_ok.1 hstored
      cases hstored
      have hread := decodeFields_revised hdistinct (.object hkept hpresence hadded)
        (fun field hfield former hformer hname =>
          ih field hfield former hformer hname (Schema.Distinct.type hdistinct hformer)) hpairs other
      simp only [FieldType.decode, hread]
      rfl
    · cases hstored

/-! ## Records -/

namespace Schema

/-- What was written under a former schema is read under its revision: the record that it is read as under the former
schema, with the defaults of the fields added to each object in it, and without the fields left out. -/
theorem decode_revised {schema former : Schema} (hdistinct : former.Distinct) (hrevises : schema.Revises former)
    {model : String} {record : Json} {stored : Item} (h : former.encode model record = .ok stored) :
    ∃ read, former.decode stored = .ok read ∧ schema.decode stored = .ok (schema.revise former read) := by
  obtain ⟨entries, pairs, rfl, -, hpairs, rfl⟩ := encode_eq_ok h
  refine ⟨_, (encode_roundTrip former hdistinct model _ _ h).1, ?_⟩
  cases hrevises with
  | object hkept hpresence hadded =>
    have hread := decodeFields_revised hdistinct (.object hkept hpresence hadded)
      (fun field hfield other hother hname =>
        (hkept field hfield other hother hname).readsRevised (Distinct.type hdistinct hother)) hpairs ""
    exact bind_eq_ok.2 ⟨_, hread, rfl⟩

/-- The schema `nested` with a field more in the object and in those of the list, and without its free contents. -/
def nestedRevised : Schema :=
  [⟨"home", .object [⟨"city", .text, .default (.string "Bern")⟩,
     ⟨"country", .text, .default (.string "Kenya")⟩], .default (.map [])⟩,
   ⟨"name", .text, .required⟩,
   ⟨"phone", .text, .optional⟩,
   ⟨"visits", .list (.object [⟨"count", .number, .default (.number .zero)⟩,
     ⟨"paid", .boolean, .default (.boolean false)⟩]), .optional⟩]

theorem nestedRevised_revises : nestedRevised.Revises nested := by
  have hhome : FieldType.Revises
      (.object [⟨"city", .text, .default (.string "Bern")⟩, ⟨"country", .text, .default (.string "Kenya")⟩])
      (.object [⟨"city", .text, .default (.string "Bern")⟩, ⟨"zip", .text, .optional⟩]) := by
    refine .object ?_ ?_ ?_ <;> simp [FieldType.Revises.text]
  have hvisits : FieldType.Revises
      (.list (.object [⟨"count", .number, .default (.number .zero)⟩,
        ⟨"paid", .boolean, .default (.boolean false)⟩]))
      (.list (.object [⟨"count", .number, .default (.number .zero)⟩])) := by
    refine .list (.object ?_ ?_ ?_) <;> simp [FieldType.Revises.number]
  refine .object ?_ ?_ ?_ <;> simp [nestedRevised, nested, FieldType.Revises.text, hhome, hvisits]

/-- What is added inside an object and inside a list is read with its default, and what is left out is not read. -/
theorem decode_revised_nested :
    nested.encode "Person" (.map [("extra", .map [("note", .null)]), ("home", .map [("zip", .string "8001")]),
      ("name", .string "Kay"), ("visits", .list [.map [("count", .null)]])]) =
      .ok [("extra", .map [("note", .null)]),
        ("home", .map [("city", .string "Bern"), ("zip", .string "8001")]), ("name", .string "Kay"),
        ("visits", .list [.map [("count", .number "0")]])] ∧
    nestedRevised.decode [("extra", .map [("note", .null)]),
        ("home", .map [("city", .string "Bern"), ("zip", .string "8001")]), ("name", .string "Kay"),
        ("visits", .list [.map [("count", .number "0")]])] =
      .ok (.map [("home", .map [("city", .string "Bern"), ("country", .string "Kenya")]), ("name", .string "Kay"),
        ("visits", .list [.map [("count", .number .zero), ("paid", .boolean false)]])]) := by
  have hencoded : nested.encode "Person" (.map [("extra", .map [("note", .null)]),
      ("home", .map [("zip", .string "8001")]), ("name", .string "Kay"),
      ("visits", .list [.map [("count", .null)]])]) =
      .ok [("extra", .map [("note", .null)]),
        ("home", .map [("city", .string "Bern"), ("zip", .string "8001")]), ("name", .string "Kay"),
        ("visits", .list [.map [("count", .number "0")]])] := by decide
  obtain ⟨read, hread, hrevised⟩ := decode_revised nested_distinct nestedRevised_revises hencoded
  rw [(encode_roundTrip nested nested_distinct "Person" _ _ hencoded).1] at hread
  cases hread
  refine ⟨hencoded, hrevised.trans ?_⟩
  decide

end Schema

end KeyedRecords
