import KeyedRecords.Proofs.Schema.Rewriting

/-! Some fields of a record beside the whole of it. What is given is written alike, whether the rest is there or not: to
write some fields is to write them all as if none were required or had a default. So a record with other values in the
place of its own is written as before, with the attributes of these values in the place of the former ones. The same
name may be declared more than once. Main statements: `Schema.encodePartial_of_encode`, `Schema.encode_overridden`. -/

namespace KeyedRecords

/-- A map with the values of another, other than null, in the place of its own. -/
def Json.overridden (old changes : Json.Map) : Json.Map :=
  Assoc.overlay old (changes.filter fun (_, value) => !value.isNull)

def Schema.optional (schema : Schema) : Schema := schema.map fun field => { field with presence := .optional }

/-! ## What is given -/

theorem Arguments.has_eq_isSome (args : Arguments) (name : String) :
    args.has name = (givenValue? args name).isSome := by
  rw [Arguments.has, givenValue?]
  cases Assoc.find? args name <;> simp

section Given

variable {old changes : Json.Map} (hnodup : (Assoc.keys changes).Nodup)

include hnodup

theorem find?_overridden (name : String) : Assoc.find? (Json.overridden old changes) name =
    (givenValue? changes name).or (Assoc.find? old name) := by
  have hkept : (Assoc.keys (changes.filter fun (_, value) => !value.isNull)).Nodup :=
    hnodup.sublist (List.filter_sublist.map _)
  rw [Json.overridden, Assoc.find?_overlay old hkept, Assoc.find?_filter_of_nodup hnodup, givenValue?]

theorem givenValue?_overridden (name : String) : givenValue? (Json.overridden old changes) name =
    (givenValue? changes name).or (givenValue? old name) := by
  rw [givenValue?, find?_overridden hnodup]
  cases hchange : givenValue? changes name with
  | none => rfl
  | some value =>
    have hnull := (givenValue?_eq_some_iff.1 hchange).2
    cases value <;> first | rfl | exact absurd rfl hnull

theorem undeclared_overridden {schema : Schema} (hold : schema.undeclared old = [])
    (hchanges : schema.undeclared changes = []) : schema.undeclared (Json.overridden old changes) = [] := by
  rw [Schema.undeclared_eq_nil_iff] at hold hchanges ⊢
  intro name hname
  by_cases hmem : name ∈ Assoc.keys changes
  · exact hchanges name hmem
  · refine hold name (by_contra fun habsent => ?_)
    have hnone : Assoc.find? (Json.overridden old changes) name = none := by
      rw [find?_overridden hnodup, givenValue?, Assoc.find?_eq_none_iff.2 hmem, Assoc.find?_eq_none_iff.2 habsent]
      rfl
    exact Assoc.find?_eq_none_iff.1 hnone hname

end Given

/-! ## Field by field -/

/-- A field that need not be there is written if it is given, and then as before. -/
theorem encodeField_optional (parent : String) (field : Field) (given? : Option Json) :
    encodeField parent { field with presence := .optional } given? =
      if given?.isSome then encodeField parent field given? else .ok none := by
  cases given? with
  | none => rfl
  | some value => rfl

/-- Some fields are written as all are where none has to be there. -/
theorem encodeGiven_eq_encodeFields (entries : Json.Map) (schema : Schema) :
    encodeGiven entries schema = encodeFields "" entries schema.optional := by
  induction schema with
  | nil => rfl
  | cons field rest ih =>
    obtain ⟨name, type, presence⟩ := field
    simp only [Schema.optional] at ih
    simp only [encodeGiven, Schema.optional, List.map_cons, encodeFields, ih, fieldPath]
    cases givenValue? entries name <;> rfl

/-- A field that is given is written, or nothing is. -/
theorem isSome_of_encodeField {parent : String} {field : Field} {value : Json} {stored? : Option Attribute}
    (h : encodeField parent field (some value) = .ok stored?) : stored?.isSome = true := by
  obtain ⟨stored, -, h⟩ := bind_eq_ok.1 h
  cases h
  rfl

theorem filter_pair (p : String → Bool) (name : String) (stored? : Option Attribute) :
    ((stored?.map (name, ·)).toList.filter fun entry => p entry.1) =
      if p name then (stored?.map (name, ·)).toList else [] := by
  cases stored? with
  | none => simp
  | some stored => cases hp : p name <;> simp [hp]

section Fields

variable {parent : String} {entries : Json.Map} {fields : Schema} {pairs : Item}

/-- A field that need not be there comes before the others if it is given. -/
theorem encodeFields_optional_cons_eq_ok_iff {field : Field} :
    encodeFields parent entries (Schema.optional (field :: fields)) = .ok pairs ↔ ∃ stored? more,
      (if Arguments.has entries field.name then encodeField parent field (givenValue? entries field.name)
        else .ok none) = .ok stored? ∧
      encodeFields parent entries fields.optional = .ok more ∧
      pairs = (stored?.map (field.name, ·)).toList ++ more := by
  rw [Arguments.has_eq_isSome, ← encodeField_optional]
  exact encodeFields_cons_eq_ok_iff

/-- Where none has to be there, the names of the fields that are written are those given. -/
theorem keys_encodeFields_optional (h : encodeFields parent entries fields.optional = .ok pairs) :
    Assoc.keys pairs = (fields.map (·.name)).filter (Arguments.has entries) := by
  induction fields generalizing pairs with
  | nil =>
    cases h
    rfl
  | cons field rest ih =>
    obtain ⟨stored?, more, hstored, hmore, rfl⟩ := encodeFields_optional_cons_eq_ok_iff.1 h
    rw [List.map_cons, List.filter_cons, ← ih hmore]
    by_cases hgiven : Arguments.has entries field.name = true
    · rw [if_pos hgiven] at hstored ⊢
      rw [Arguments.has_eq_isSome] at hgiven
      obtain ⟨value, hvalue⟩ := Option.isSome_iff_exists.1 hgiven
      rw [hvalue] at hstored
      obtain ⟨stored, rfl⟩ := Option.isSome_iff_exists.1 (isSome_of_encodeField hstored)
      rfl
    · rw [if_neg hgiven] at hstored ⊢
      cases hstored
      rfl

/-- Of what is written for all fields, what is given is written where none has to be there. -/
theorem encodeFields_optional_of_encodeFields (h : encodeFields parent entries fields = .ok pairs) :
    encodeFields parent entries fields.optional =
      .ok (pairs.filter fun entry => Arguments.has entries entry.1) := by
  induction fields generalizing pairs with
  | nil =>
    cases h
    rfl
  | cons field rest ih =>
    obtain ⟨stored?, more, hstored, hmore, rfl⟩ := encodeFields_cons_eq_ok_iff.1 h
    rw [List.filter_append, filter_pair]
    refine encodeFields_optional_cons_eq_ok_iff.2
      ⟨if Arguments.has entries field.name then stored? else none, _, ?_, ih hmore, ?_⟩
    · rw [hstored]
      split <;> rfl
    · split <;> rfl

/-- If what is given is what changes give, or else what was given before, then the fields are written as the changes are
under the names that these give, and as before under all others. -/
theorem encodeFields_overridden {changes given : Json.Map} {written : Item}
    (h : encodeFields parent entries fields = .ok pairs)
    (hwritten : encodeFields parent changes fields.optional = .ok written)
    (hgiven : ∀ name, givenValue? given name = (givenValue? changes name).or (givenValue? entries name)) :
    ∃ all, encodeFields parent given fields = .ok all ∧
      (all.filter fun entry => Arguments.has changes entry.1) = written ∧
      (all.filter fun entry => !Arguments.has changes entry.1) =
        pairs.filter fun entry => !Arguments.has changes entry.1 := by
  induction fields generalizing pairs written with
  | nil =>
    cases h
    cases hwritten
    exact ⟨[], rfl, rfl, rfl⟩
  | cons field rest ih =>
    obtain ⟨old?, oldMore, hold, holdMore, rfl⟩ := encodeFields_cons_eq_ok_iff.1 h
    obtain ⟨new?, newMore, hnew, hnewMore, rfl⟩ := encodeFields_optional_cons_eq_ok_iff.1 hwritten
    obtain ⟨more, hmore, hchanged, hkept⟩ := ih holdMore hnewMore
    have hfield := hgiven field.name
    by_cases hhas : Arguments.has changes field.name = true
    · rw [if_pos hhas] at hnew
      have hsame : givenValue? given field.name = givenValue? changes field.name := by
        rw [Arguments.has_eq_isSome] at hhas
        obtain ⟨value, hvalue⟩ := Option.isSome_iff_exists.1 hhas
        rw [hfield, hvalue, Option.some_or]
      refine ⟨_, encodeFields_cons_eq_ok_iff.2 ⟨new?, more, hsame ▸ hnew, hmore, rfl⟩, ?_, ?_⟩
      · rw [List.filter_append, filter_pair, if_pos hhas, hchanged]
      · rw [List.filter_append, List.filter_append, hkept, filter_pair (fun name => !Arguments.has changes name),
          filter_pair (fun name => !Arguments.has changes name), hhas]
        rfl
    · rw [if_neg hhas] at hnew
      cases hnew
      have hsame : givenValue? given field.name = givenValue? entries field.name := by
        rw [Arguments.has_eq_isSome, Option.not_isSome_iff_eq_none] at hhas
        rw [hfield, hhas, Option.none_or]
      refine ⟨_, encodeFields_cons_eq_ok_iff.2 ⟨old?, more, hsame ▸ hold, hmore, rfl⟩, ?_, ?_⟩
      · rw [List.filter_append, filter_pair, if_neg hhas, hchanged]
        rfl
      · rw [List.filter_append, List.filter_append, hkept]

end Fields

/-- Pairs that are new under some names, which has all that there was under these, and old under the others are those of
the old map with the new one over it. -/
theorem overlay_ofList_eq {old new all : Item} {p : String → Bool} (hnew : (all.filter fun entry => p entry.1) = new)
    (hold : (all.filter fun entry => !p entry.1) = old.filter fun entry => !p entry.1)
    (hkeys : ∀ name, p name → name ∈ Assoc.keys old → name ∈ Assoc.keys new) :
    Assoc.overlay (Assoc.ofList old) (Assoc.ofList new) = Assoc.ofList all := by
  have hsorted := Assoc.sorted_overlay (Assoc.sorted_ofList old) (Assoc.ofList new)
  refine Assoc.eq_of_find?_eq hsorted (Assoc.sorted_ofList all) fun name => ?_
  have hfind : Assoc.find? (Assoc.ofList new) name = if p name then Assoc.find? (Assoc.ofList all) name else none := by
    rw [← hnew, Assoc.ofList_filter, Assoc.find?_filter]
  rw [Assoc.find?_overlay _ (Assoc.sorted_ofList new).nodup]
  by_cases hp : p name = true
  · rw [if_pos hp] at hfind
    rw [← hfind]
    cases hnone : Assoc.find? (Assoc.ofList new) name with
    | some stored => rfl
    | none =>
      rw [Option.none_or, Assoc.find?_ofList_eq_none_iff]
      exact fun hmem => Assoc.find?_ofList_eq_none_iff.1 hnone (hkeys name hp hmem)
  · rw [if_neg hp] at hfind
    have hsame := congrArg (fun m => Assoc.find? (Assoc.ofList m) name) hold
    simp only [Assoc.ofList_filter _ (fun name => !p name), Assoc.find?_filter _ (fun name => !p name), hp] at hsame
    rw [hfind, Option.none_or]
    exact hsame.symm

/-! ## Records -/

namespace Schema

variable {schema : Schema} {model : String}

/-- Of a record that is written, what is given is written alike without the rest. -/
theorem encodePartial_of_encode {value : Json.Map} {stored : Item} (h : schema.encode model (.map value) = .ok stored) :
    schema.encodePartial model value = .ok (stored.filter fun entry => Arguments.has value entry.1) := by
  obtain ⟨hdeclared, pairs, hpairs, rfl⟩ := encode_map_eq_ok_iff.1 h
  refine encodePartial_eq_ok_iff.2 ⟨hdeclared, _, ?_, (Assoc.ofList_filter pairs (Arguments.has value)).symm⟩
  rw [encodeGiven_eq_encodeFields]
  exact encodeFields_optional_of_encodeFields hpairs

/-- A record with changes in it is written as it was, with what the changes are written as in the place of its own. -/
theorem encode_overridden {value changes : Json.Map} {stored written : Item}
    (hnodup : (Assoc.keys changes).Nodup) (h : schema.encode model (.map value) = .ok stored)
    (hwritten : schema.encodePartial model changes = .ok written) :
    schema.encode model (.map (Json.overridden value changes)) = .ok (Assoc.overlay stored written) := by
  obtain ⟨hdeclared, pairs, hpairs, rfl⟩ := encode_map_eq_ok_iff.1 h
  obtain ⟨hchanges, new, hnew, rfl⟩ := encodePartial_eq_ok_iff.1 hwritten
  rw [encodeGiven_eq_encodeFields] at hnew
  obtain ⟨all, hall, hchanged, hkept⟩ := encodeFields_overridden hpairs hnew (givenValue?_overridden hnodup)
  refine encode_map_eq_ok_iff.2 ⟨undeclared_overridden hnodup hdeclared hchanges, all, hall, ?_⟩
  refine overlay_ofList_eq hchanged hkept fun name hhas hmem => ?_
  rw [keys_encodeFields_optional hnew]
  exact List.mem_filter.2 ⟨(encodeFields_keys hpairs).subset hmem, hhas⟩

end Schema

end KeyedRecords
