import KeyedRecords.Proofs.Schema.Rewriting
import KeyedRecords.Proofs.Text.Timestamp

/-! The values that can be written under a schema. A value conforms to a type if it is of that type in all its parts,
and an object has no names but declared ones, those that are required, and defaults that conform themselves in the
place of what is missing. Exactly such values are written, and what is written has the shape of the type. Both are shown
by induction over types. Main statements: `FieldType.encode_iff`, `FieldType.shapes_of_encode`,
`Schema.encode_accepts`. -/

namespace KeyedRecords

/-- What a type has whenever all types inside it have it, every type has. -/
@[elab_as_elim]
theorem FieldType.induction {P : FieldType → Prop} (text : P .text) (number : P .number) (boolean : P .boolean)
    (timestamp : P .timestamp) (map : P .map) (list : ∀ element, P element → P (.list element))
    (object : ∀ fields : Schema, (∀ field ∈ fields, P field.type) → P (.object fields)) (type : FieldType) : P type :=
  @FieldType.rec P (fun fields => ∀ field ∈ fields, P field.type) (fun field => P field.type)
    text number boolean timestamp map list object nofun
    (fun _ _ hfirst hrest => List.forall_mem_cons.2 ⟨hfirst, hrest⟩) (fun _ _ _ htype => htype) type

/-! ## Conforming values -/

/-- Whether a value conforms to a type. A name that has null counts as one that is missing. -/
inductive FieldType.Conforms : FieldType → Json → Prop
  | text (text : String) : Conforms .text (.string text)
  | number (value : Number) : Conforms .number (.number value)
  | boolean (value : Bool) : Conforms .boolean (.boolean value)
  | timestamp {text : String} (h : Timestamp.Written text.toList) : Conforms .timestamp (.string text)
  | map (entries : Json.Map) : Conforms .map (.map entries)
  | list {element : FieldType} {values : List Json} (h : ∀ value ∈ values, element.Conforms value) :
    Conforms (.list element) (.list values)
  | object {fields : List (FieldOf FieldType)} {entries : Json.Map}
      (declared : ∀ name ∈ Assoc.keys entries, ∃ field ∈ fields, field.name = name)
      (required : ∀ field ∈ fields, field.presence = .required →
        ∃ value, Assoc.find? entries field.name = some value ∧ value ≠ .null)
      (given : ∀ field ∈ fields, ∀ value, Assoc.find? entries field.name = some value → value ≠ .null →
        field.type.Conforms value)
      (defaulted : ∀ field ∈ fields, ∀ value, field.presence = .default value → value ≠ .null →
        (∀ other, Assoc.find? entries field.name = some other → other = .null) → field.type.Conforms value) :
    Conforms (.object fields) (.map entries)

def Schema.Conforms (schema : Schema) (value : Json) : Prop := FieldType.Conforms (.object schema) value

/-- An object conforms by what is given for each of its fields. -/
theorem FieldType.conforms_object_iff {fields : Schema} {entries : Json.Map} :
    (FieldType.object fields).Conforms (.map entries) ↔ fields.undeclared entries = [] ∧ ∀ field ∈ fields,
      (field.presence = .required → givenValue? entries field.name ≠ none) ∧
      (∀ value, givenValue? entries field.name = some value → field.type.Conforms value) ∧
      ∀ value, field.presence = .default value → value ≠ .null → givenValue? entries field.name = none →
        field.type.Conforms value := by
  simp only [Schema.undeclared_eq_nil_iff, Option.ne_none_iff_exists', givenValue?_eq_some_iff, givenValue?_eq_none_iff]
  constructor
  · intro h
    cases h with
    | object declared required given defaulted =>
      exact ⟨declared, fun field hfield => ⟨required field hfield, fun value h => given field hfield value h.1 h.2,
        defaulted field hfield⟩⟩
  · rintro ⟨declared, hfields⟩
    exact .object declared (fun field hfield => (hfields field hfield).1)
      (fun field hfield value hfind hnull => (hfields field hfield).2.1 value ⟨hfind, hnull⟩)
      fun field hfield => (hfields field hfield).2.2

/-! ## Shapes -/

/-- Whether an attribute has the kind of a type, and so have its parts, under declared names. -/
inductive FieldType.Shapes : FieldType → Attribute → Prop
  | text (text : String) : Shapes .text (.string text)
  | number (text : String) : Shapes .number (.number text)
  | boolean (value : Bool) : Shapes .boolean (.boolean value)
  | timestamp (text : String) : Shapes .timestamp (.string text)
  | map (entries : Item) : Shapes .map (.map entries)
  | list {element : FieldType} {elements : List Attribute} (h : ∀ stored ∈ elements, element.Shapes stored) :
    Shapes (.list element) (.list elements)
  | object {fields : List (FieldOf FieldType)} {item : Item}
      (declared : ∀ name ∈ Assoc.keys item, ∃ field ∈ fields, field.name = name)
      (written : ∀ field ∈ fields, ∀ stored, (field.name, stored) ∈ item → field.type.Shapes stored) :
    Shapes (.object fields) (.map item)

/-- Whether an attribute stands in one of a type, at any depth, but for the contents that are free. -/
inductive FieldType.Holds : FieldType → Attribute → Attribute → Prop
  | self (type : FieldType) (stored : Attribute) : Holds type stored stored
  | element {type : FieldType} {elements : List Attribute} {stored inner : Attribute} (hmem : stored ∈ elements)
      (h : Holds type stored inner) : Holds (.list type) (.list elements) inner
  | field {fields : List (FieldOf FieldType)} {item : Item} {field : FieldOf FieldType} {stored inner : Attribute}
      (hfield : field ∈ fields) (hmem : (field.name, stored) ∈ item) (h : Holds field.type stored inner) :
    Holds (.object fields) (.map item) inner

/-- Whether the attributes of a record have the shape of a schema. -/
def Schema.Shapes (schema : Schema) (item : Item) : Prop := FieldType.Shapes (.object schema) (.map item)

theorem FieldType.Shapes.ne_null {type : FieldType} {stored inner : Attribute} (h : type.Shapes stored)
    (hinner : type.Holds stored inner) : inner ≠ .null := by
  induction hinner with
  | self type stored =>
    rintro rfl
    cases h
  | element hmem _ ih =>
    cases h with
    | list h => exact ih (h _ hmem)
  | field hfield hmem _ ih =>
    cases h with
    | object _ hwritten => exact ih (hwritten _ hfield _ hmem)

/-! ## What is written -/

section Written

variable {parent : String} {entries : Json.Map} {fields : Schema}

/-- The fields are written if and only if each of them is. -/
theorem exists_encodeFields_iff : (∃ pairs, encodeFields parent entries fields = .ok pairs) ↔
    ∀ field ∈ fields, ∃ stored?, encodeField parent field (givenValue? entries field.name) = .ok stored? := by
  induction fields with
  | nil => exact ⟨fun _ => nofun, fun _ => ⟨[], rfl⟩⟩
  | cons first rest ih =>
    rw [List.forall_mem_cons, ← ih]
    simp only [encodeFields_cons_eq_ok_iff]
    constructor
    · rintro ⟨pairs, stored?, more, hfirst, hmore, -⟩
      exact ⟨⟨stored?, hfirst⟩, more, hmore⟩
    · rintro ⟨⟨stored?, hfirst⟩, more, hmore⟩
      exact ⟨_, stored?, more, hfirst, hmore, rfl⟩

/-- A field is written if and only if what is given conforms, or the default if nothing is. -/
theorem exists_encodeField_iff {field : Field} {given? : Option Json}
    (htype : ∀ path value, (∃ stored, field.type.encode path value = .ok stored) ↔ field.type.Conforms value) :
    (∃ stored?, encodeField parent field given? = .ok stored?) ↔
      (field.presence = .required → given? ≠ none) ∧ (∀ value, given? = some value → field.type.Conforms value) ∧
      ∀ value, field.presence = .default value → value ≠ .null → given? = none → field.type.Conforms value := by
  have hvalue : ∀ value, (∃ stored?, (do pure (some (← field.type.encode (fieldPath parent field.name) value))) =
      (.ok stored? : Result (Option Attribute))) ↔ field.type.Conforms value := by
    intro value
    simp only [← htype (fieldPath parent field.name), bind_eq_ok, pure_eq_ok]
    constructor
    · rintro ⟨stored?, stored, hstored, -⟩
      exact ⟨stored, hstored⟩
    · rintro ⟨stored, hstored⟩
      exact ⟨_, stored, hstored, rfl⟩
  unfold encodeField
  split
  · rename_i value presence
    rw [hvalue]
    simp
  · rename_i hpresence
    simp [hpresence, throw, throwThe, MonadExceptOf.throw]
  · rename_i hpresence
    simp [hpresence, pure, Except.pure]
  · rename_i value hpresence
    by_cases hnull : value.isNull = true
    · have hnull : value = .null := by cases value <;> first | rfl | cases hnull
      simp [hpresence, hnull, Json.isNull, pure, Except.pure]
    · rw [if_neg hnull, hvalue]
      have hne : value ≠ .null := by
        rintro rfl
        exact hnull rfl
      simp [hpresence, hne]

end Written

/-! ## Every type -/

theorem FieldType.encode_object_eq_ok_iff {fields : Schema} {path : String} {entries : Json.Map} {stored : Attribute} :
    (FieldType.object fields).encode path (.map entries) = .ok stored ↔ fields.undeclared entries = [] ∧
      ∃ pairs, encodeFields path entries fields = .ok pairs ∧ stored = .map (Assoc.ofList pairs) := by
  simp only [FieldType.encode]
  cases fields.undeclared entries with
  | nil =>
    simp only [bind_eq_ok, pure_eq_ok, true_and]
  | cons name names => simp [throw, throwThe, MonadExceptOf.throw]

/-- A list is written if and only if each element is, wherever it stands. -/
theorem exists_mapM_zipIdx_iff {α β : Type} {f : α × Nat → Result β} {P : α → Prop} {l : List α}
    (h : ∀ v ∈ l, ∀ i, (∃ x, f (v, i) = .ok x) ↔ P v) (k : Nat) :
    (∃ xs, (l.zipIdx k).mapM f = .ok xs) ↔ ∀ v ∈ l, P v := by
  induction l generalizing k with
  | nil => exact ⟨fun _ => nofun, fun _ => ⟨[], rfl⟩⟩
  | cons v l ih =>
    rw [List.forall_mem_cons] at h ⊢
    rw [← h.1 k, ← ih h.2 (k + 1)]
    simp only [List.zipIdx_cons, List.mapM_cons, bind_eq_ok]
    constructor
    · rintro ⟨xs, x, hx, more, hmore, -⟩
      exact ⟨⟨x, hx⟩, more, hmore⟩
    · rintro ⟨⟨x, hx⟩, more, hmore⟩
      exact ⟨_, x, hx, more, hmore, rfl⟩

/-- An object is written if and only if its names are declared and each of its fields is written. -/
theorem exists_encode_object_iff {fields : Schema} {path : String} {entries : Json.Map} :
    (∃ stored, (FieldType.object fields).encode path (.map entries) = .ok stored) ↔ fields.undeclared entries = [] ∧
      ∀ field ∈ fields, ∃ stored?, encodeField path field (givenValue? entries field.name) = .ok stored? := by
  simp only [FieldType.encode_object_eq_ok_iff, ← exists_encodeFields_iff]
  constructor
  · rintro ⟨stored, hdeclared, pairs, hpairs, -⟩
    exact ⟨hdeclared, pairs, hpairs⟩
  · rintro ⟨hdeclared, pairs, hpairs⟩
    exact ⟨_, hdeclared, pairs, hpairs, rfl⟩

/-- A value is written if and only if it conforms. -/
theorem FieldType.encode_iff (type : FieldType) : ∀ path value,
    (∃ stored, type.encode path value = .ok stored) ↔ type.Conforms value := by
  induction type using FieldType.induction with
  | text | number | boolean | map =>
    intro path value
    cases value <;> first
      | exact ⟨fun _ => by constructor, fun _ => ⟨_, rfl⟩⟩
      | exact iff_of_false (by rintro ⟨_, h⟩; cases h) (by intro h; cases h)
  | timestamp =>
    intro path value
    cases value with
    | string text =>
      simp only [FieldType.encode]
      by_cases hvalid : Timestamp.isValid text = true
      · rw [if_pos hvalid]
        exact ⟨fun _ => .timestamp (Timestamp.isValid_iff.1 hvalid), fun _ => ⟨_, rfl⟩⟩
      · rw [if_neg hvalid]
        refine iff_of_false (by rintro ⟨_, h⟩; cases h) fun h => ?_
        cases h with
        | timestamp h => exact hvalid (Timestamp.isValid_iff.2 h)
    | _ => exact iff_of_false (by rintro ⟨_, h⟩; cases h) (by intro h; cases h)
  | list element ih =>
    intro path value
    cases value with
    | list values =>
      have helements : (∃ elements,
          values.zipIdx.mapM (fun entry => element.encode (elementPath path entry.2) entry.1) = .ok elements) ↔
            ∀ value ∈ values, element.Conforms value :=
        exists_mapM_zipIdx_iff (fun value _ i => ih (elementPath path i) value) 0
      simp only [FieldType.encode, bind_eq_ok]
      constructor
      · rintro ⟨stored, elements, hstored, -⟩
        exact .list (helements.1 ⟨elements, hstored⟩)
      · intro h
        cases h with
        | list h =>
          obtain ⟨elements, hstored⟩ := helements.2 h
          exact ⟨_, elements, hstored, rfl⟩
    | _ => exact iff_of_false (by rintro ⟨_, h⟩; cases h) (by intro h; cases h)
  | object fields ih =>
    intro path value
    cases value with
    | map entries =>
      rw [exists_encode_object_iff, FieldType.conforms_object_iff]
      exact and_congr_right fun _ => forall₂_congr fun field hfield => exists_encodeField_iff (ih field hfield)
    | _ => exact iff_of_false (by rintro ⟨_, h⟩; cases h) (by intro h; cases h)

/-- What is written for a type has its shape. -/
theorem FieldType.shapes_of_encode (type : FieldType) (hdistinct : type.Distinct) : ∀ {path value stored},
    type.encode path value = .ok stored → type.Shapes stored := by
  induction type using FieldType.induction with
  | text | number | boolean | map =>
    intro path value stored h
    cases value <;> simp only [FieldType.encode] at h <;> cases h
    constructor
  | timestamp =>
    intro path value stored h
    cases value <;> simp only [FieldType.encode] at h <;> try cases h
    split at h <;> cases h
    exact .timestamp _
  | list element ih =>
    intro path value stored h
    cases value <;> simp only [FieldType.encode] at h <;> try cases h
    obtain ⟨elements, helements, h⟩ := bind_eq_ok.1 h
    cases h
    refine .list fun stored hstored => ?_
    obtain ⟨hlength, hget⟩ := List.forall₂_iff_get.1 (forall₂_of_mapM_zipIdx helements)
    obtain ⟨i, rfl⟩ := List.get_of_mem hstored
    obtain ⟨_, hvalue⟩ := hget i (Nat.lt_of_lt_of_eq i.isLt hlength.symm) i.isLt
    exact ih hdistinct hvalue
  | object fields ih =>
    intro path value stored h
    cases value with
    | map entries =>
      obtain ⟨-, pairs, hpairs, rfl⟩ := FieldType.encode_object_eq_ok_iff.1 h
      have hnodup := DistinctFields.nodup hdistinct
      have hkeys := encodeFields_keys hpairs
      refine .object (fun name hname => ?_) fun field hfield stored hstored => ?_
      · obtain ⟨entry, hentry, rfl⟩ := List.mem_map.1 hname
        exact List.mem_map.1 (hkeys.subset (List.mem_map_of_mem (Assoc.mem_ofList hentry)))
      · have hwritten := encodeField_of_encodeFields hnodup hpairs field hfield
        rw [Assoc.find?_of_mem (hnodup.sublist hkeys) (Assoc.mem_ofList hstored)] at hwritten
        obtain ⟨value, hvalue⟩ := encodeField_eq_some hwritten
        exact ih field hfield (Schema.Distinct.type hdistinct hfield) hvalue
    | _ => cases h

/-! ## Records -/

namespace Schema

/-- A record is written as an object of its fields. -/
theorem encode_eq_ok_iff {schema : Schema} {model : String} {value : Json} {stored : Item} :
    schema.encode model value = .ok stored ↔ (FieldType.object schema).encode "" value = .ok (.map stored) := by
  cases value with
  | map entries =>
    simp only [FieldType.encode_object_eq_ok_iff, encode_map_eq_ok_iff, Attribute.map.injEq]
  | _ => exact ⟨nofun, nofun⟩

/-- A value is written if and only if it is a record that conforms to the schema. What is written has the shape of the
schema, and there is no null in it but in free contents. -/
theorem encode_accepts (schema : Schema) (hdistinct : schema.Distinct) (model : String) (value : Json) :
    ((∃ stored, schema.encode model value = .ok stored) ↔ schema.Conforms value) ∧
    ∀ stored, schema.encode model value = .ok stored → schema.Shapes stored ∧
      ∀ inner, (FieldType.object schema).Holds (.map stored) inner → inner ≠ .null := by
  have hshapes : ∀ stored, schema.encode model value = .ok stored → schema.Shapes stored := fun stored h =>
    FieldType.shapes_of_encode (.object schema) hdistinct (encode_eq_ok_iff.1 h)
  refine ⟨?_, fun stored h => ⟨hshapes stored h, fun inner => (hshapes stored h).ne_null⟩⟩
  rw [Conforms, ← FieldType.encode_iff (.object schema) ""]
  simp only [encode_eq_ok_iff]
  constructor
  · rintro ⟨stored, h⟩
    exact ⟨_, h⟩
  · rintro ⟨stored, h⟩
    cases FieldType.shapes_of_encode (.object schema) hdistinct h with
    | object => exact ⟨_, h⟩

/-- A time that is required, and a list with a default that is no value of its type. -/
def visit : Schema := [⟨"at", .timestamp, .required⟩, ⟨"tags", .list .text, .default (.list [.null])⟩]

/-- The default is checked where it is needed, and the day has to be one of the calendar. -/
theorem encode_accepts_visit : visit.Distinct ∧
    visit.Conforms (.map [("at", .string "2024-02-29T12:00:00Z"), ("tags", .list [.string "first"])]) ∧
    ¬visit.Conforms (.map [("at", .string "2023-02-29T12:00:00Z"), ("tags", .list [.string "first"])]) ∧
    ¬visit.Conforms (.map [("at", .string "2024-02-29T12:00:00Z"), ("tags", .null)]) ∧
    visit.Shapes [("at", .string "2024-02-29T12:00:00Z"), ("tags", .list [.string "first"])] := by
  have hdistinct : visit.Distinct := by simp [Distinct, visit, DistinctFields, FieldType.Distinct]
  have haccepts := encode_accepts visit hdistinct "Visit"
  have hencoded : visit.encode "Visit"
      (.map [("at", .string "2024-02-29T12:00:00Z"), ("tags", .list [.string "first"])]) =
      .ok [("at", .string "2024-02-29T12:00:00Z"), ("tags", .list [.string "first"])] := by decide
  refine ⟨hdistinct, (haccepts _).1.1 ⟨_, hencoded⟩, fun h => ?_, fun h => ?_, ((haccepts _).2 _ hencoded).1⟩
  · obtain ⟨stored, hstored⟩ := (haccepts _).1.2 h
    cases hstored
  · obtain ⟨stored, hstored⟩ := (haccepts _).1.2 h
    cases hstored

end Schema

end KeyedRecords
