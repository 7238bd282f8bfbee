import KeyedRecords.Key.Strategy

/-! Reading the fields of a key back from its text. A template can be read if the text of each field but the
last ends where the next piece of the template begins: nothing the field may hold, followed by that piece,
begins another text it may hold, followed by that piece. Then two sets of arguments with one key agree on its
fields, and so do arguments whose key begins with the lead of others on the fields in that lead. Main
statements: `renderSegments_injective`, `leadSegments_injective`, `KeyTemplate.key_injective`. -/

namespace KeyedRecords

/-! ## Arguments -/

namespace Arguments

theorem segment?_eq_none_iff {args : Arguments} {name : String} :
    args.segment? name = .ok none ↔ args.has name = false := by
  simp only [segment?, has]
  cases Assoc.find? args name with
  | none => simp
  | some value => cases value <;> simp [Json.segment?, Json.isNull]

theorem segment?_eq_some {args : Arguments} {name text : String}
    (h : args.segment? name = .ok (some text)) :
    ∃ value, Assoc.find? args name = some value ∧ value.segment? = .ok (some text) := by
  simp only [segment?] at h
  split at h
  · cases h
  · rename_i value hvalue
    cases hsegment : value.segment? with
    | ok segment =>
      simp only [hsegment, Except.ok.injEq] at h
      exact ⟨value, hvalue, by rw [h] at hsegment; exact hsegment⟩
    | error kind =>
      simp only [hsegment] at h
      cases h

theorem segment?_congr {args other : Arguments} {name : String}
    (h : Assoc.find? args name = Assoc.find? other name) : args.segment? name = other.segment? name := by
  simp only [segment?, h]

theorem find?_of_has {args : Arguments} {name : String} (h : args.has name = true) :
    ∃ value, Assoc.find? args name = some value := by
  simp only [has] at h
  cases hvalue : Assoc.find? args name with
  | none => simp [hvalue] at h
  | some value => exact ⟨value, rfl⟩

/-- Whether a name stands in a list, and is given with all names before it. -/
def Leads (args : Arguments) (name : String) : List String → Prop
  | [] => False
  | first :: rest => args.has first = true ∧ (first = name ∨ args.Leads name rest)

section Leads

variable {args : Arguments} {name : String} {names : List String}

theorem Leads.given (h : args.Leads name names) : name ∈ names ∧ args.has name = true := by
  induction names with
  | nil => exact h.elim
  | cons first rest ih =>
    obtain ⟨hfirst, rfl | hrest⟩ := h
    · exact ⟨List.mem_cons_self, hfirst⟩
    · exact ⟨List.mem_cons_of_mem _ (ih hrest).1, (ih hrest).2⟩

theorem leads_of_all (hname : name ∈ names) (h : ∀ other ∈ names, args.has other = true) :
    args.Leads name names := by
  induction names with
  | nil => exact absurd hname List.not_mem_nil
  | cons first rest ih =>
    refine ⟨h first List.mem_cons_self, ?_⟩
    rcases List.mem_cons.1 hname with rfl | hname
    · exact Or.inl rfl
    · exact Or.inr (ih hname fun other hother => h other (List.mem_cons_of_mem _ hother))

end Leads

end Arguments

/-- The texts that each field of a key may hold. -/
abbrev Vocabulary := String → String → Prop

/-- Whether the fields named hold texts of a vocabulary, so far as they hold any. -/
def Vocabulary.Admits (words : Vocabulary) (names : List String) (args : Arguments) : Prop :=
  ∀ name ∈ names, ∀ text, args.segment? name = .ok (some text) → words name text

/-- Whether some texts, each followed by a piece of text, can be told apart by what they begin. -/
def Delimited (words : String → Prop) (next : List Char) : Prop :=
  ∀ text other, words text → words other → ∀ rest,
    text.toList ++ next <+: other.toList ++ (next ++ rest) → text = other

/-- Texts without the first character of what follows them are told apart. -/
theorem delimited_of_not_mem {words : String → Prop} {c : Char} {next : List Char}
    (h : ∀ text, words text → c ∉ text.toList) : Delimited words (c :: next) := by
  have hlists : ∀ (a b : List Char), c ∉ a → c ∉ b → ∀ rest,
      a ++ c :: next <+: b ++ (c :: next ++ rest) → a = b := by
    intro a
    induction a with
    | nil =>
      intro b _ hb rest hbegins
      cases b with
      | nil => rfl
      | cons d b =>
        have hhead : c = d := (List.cons_prefix_cons.1 hbegins).1
        exact absurd (hhead ▸ List.mem_cons_self) hb
    | cons d a ih =>
      intro b ha hb rest hbegins
      cases b with
      | nil =>
        have hhead : d = c := (List.cons_prefix_cons.1 hbegins).1
        exact absurd (hhead ▸ List.mem_cons_self) ha
      | cons d' b =>
        obtain ⟨rfl, hrest⟩ := List.cons_prefix_cons.1 hbegins
        rw [ih b (fun hc => ha (List.mem_cons_of_mem _ hc)) (fun hc => hb (List.mem_cons_of_mem _ hc))
          rest hrest]
  intro text other htext hother rest hbegins
  exact String.toList_injective (hlists _ _ (h text htext) (h other hother) rest hbegins)

namespace Template

/-! ## Pieces -/

def fieldNames (segments : List Segment) : List String := fields ⟨"", segments⟩

def leadingText : List Segment → List Char
  | .literal text :: _ => text.toList
  | _ => []

/-- Whether the fields can be told from the rest of a text made of these pieces. -/
def Readable (words : Vocabulary) : List Segment → Prop
  | [] => True
  | .literal _ :: rest => Readable words rest
  | .field name :: rest =>
    (fieldNames rest ≠ [] → Delimited (words name) (leadingText rest)) ∧ Readable words rest

section Render

variable {args : Arguments} {model : String} {rest : List Segment} {text : String}

theorem renderSegments_literal {literal : String}
    (h : renderSegments args model (.literal literal :: rest) = .ok text) :
    ∃ more, renderSegments args model rest = .ok more ∧ text = literal ++ more := by
  simp only [renderSegments] at h
  obtain ⟨more, hmore, h⟩ := bind_eq_ok.1 h
  cases h
  exact ⟨more, hmore, rfl⟩

theorem renderSegments_field {name : String}
    (h : renderSegments args model (.field name :: rest) = .ok text) :
    ∃ value more, args.segment? name = .ok (some value) ∧
      renderSegments args model rest = .ok more ∧ text = value ++ more := by
  simp only [renderSegments] at h
  obtain ⟨value?, hvalue, h⟩ := bind_eq_ok.1 h
  cases value? with
  | none => cases h
  | some value =>
    obtain ⟨more, hmore, h⟩ := bind_eq_ok.1 h
    cases h
    exact ⟨value, more, hvalue, hmore, rfl⟩

theorem leadSegments_literal {literal : String}
    (h : leadSegments args (.literal literal :: rest) = .ok text) :
    ∃ more, leadSegments args rest = .ok more ∧ text = literal ++ more := by
  simp only [leadSegments] at h
  obtain ⟨more, hmore, h⟩ := bind_eq_ok.1 h
  cases h
  exact ⟨more, hmore, rfl⟩

theorem leadSegments_field {name : String} (hgiven : args.has name = true)
    (h : leadSegments args (.field name :: rest) = .ok text) :
    ∃ value more, args.segment? name = .ok (some value) ∧ leadSegments args rest = .ok more ∧
      text = value ++ more := by
  simp only [leadSegments] at h
  obtain ⟨value?, hvalue, h⟩ := bind_eq_ok.1 h
  cases value? with
  | none =>
    rw [Arguments.segment?_eq_none_iff.1 hvalue] at hgiven
    cases hgiven
  | some value =>
    obtain ⟨more, hmore, h⟩ := bind_eq_ok.1 h
    cases h
    exact ⟨value, more, hvalue, hmore, rfl⟩

theorem renderSegments_leadingText (h : renderSegments args model rest = .ok text) :
    ∃ more, text.toList = leadingText rest ++ more := by
  cases rest with
  | nil => exact ⟨_, rfl⟩
  | cons segment rest =>
    cases segment with
    | literal literal =>
      obtain ⟨more, -, rfl⟩ := renderSegments_literal h
      exact ⟨more.toList, String.toList_append⟩
    | field name => exact ⟨_, rfl⟩

theorem leadSegments_leadingText (h : leadSegments args rest = .ok text) :
    ∃ more, text.toList = leadingText rest ++ more := by
  cases rest with
  | nil => exact ⟨_, rfl⟩
  | cons segment rest =>
    cases segment with
    | literal literal =>
      obtain ⟨more, -, rfl⟩ := leadSegments_literal h
      exact ⟨more.toList, String.toList_append⟩
    | field name => exact ⟨_, rfl⟩

/-- Every field of a text that could be made has a value. -/
theorem renderSegments_given {segments : List Segment}
    (h : renderSegments args model segments = .ok text) :
    ∀ name ∈ fieldNames segments, ∃ value, args.segment? name = .ok (some value) := by
  induction segments generalizing text with
  | nil => exact fun name hname => absurd hname List.not_mem_nil
  | cons segment rest ih =>
    cases segment with
    | literal literal =>
      obtain ⟨more, hmore, -⟩ := renderSegments_literal h
      exact ih hmore
    | field own =>
      obtain ⟨value, more, hvalue, hmore, -⟩ := renderSegments_field h
      intro name hname
      rcases List.mem_cons.1 hname with rfl | hname
      · exact ⟨value, hvalue⟩
      · exact ih hmore name hname

theorem renderSegments_congr {other : Arguments} {segments : List Segment}
    (h : ∀ name ∈ fieldNames segments, args.segment? name = other.segment? name) :
    renderSegments args model segments = renderSegments other model segments := by
  induction segments with
  | nil => rfl
  | cons segment rest ih =>
    cases segment with
    | literal literal => simp only [renderSegments, ih h]
    | field name =>
      have hrest := ih fun other hother => h other (List.mem_cons_of_mem _ hother)
      simp only [renderSegments, h name List.mem_cons_self, hrest]

/-- The lead does not depend on a field that is not given, or not with all fields before it. -/
theorem leadSegments_congr {other : Arguments} {segments : List Segment} {name : String}
    (hothers : ∀ field ≠ name, Assoc.find? args field = Assoc.find? other field)
    (hgiven : name ∈ fieldNames segments → args.has name = other.has name)
    (hleads : ¬ args.Leads name (fieldNames segments)) :
    leadSegments args segments = leadSegments other segments := by
  induction segments with
  | nil => rfl
  | cons segment rest ih =>
    cases segment with
    | literal literal => simp only [leadSegments, ih hgiven hleads]
    | field own =>
      by_cases hown : own = name
      · subst hown
        have hnone : args.has own = false :=
          Bool.eq_false_iff.2 fun hhas => hleads ⟨hhas, Or.inl rfl⟩
        have hnone' : other.has own = false := (hgiven List.mem_cons_self).symm.trans hnone
        simp only [leadSegments, Arguments.segment?_eq_none_iff.2 hnone,
          Arguments.segment?_eq_none_iff.2 hnone']
        rfl
      · simp only [leadSegments, Arguments.segment?_congr (hothers own hown)]
        cases hvalue : other.segment? own with
        | error failure => rfl
        | ok value? =>
          cases value? with
          | none => rfl
          | some value =>
            have hhas : args.has own = true := by
              cases hnone : args.has own with
              | true => rfl
              | false =>
                have hsegment := Arguments.segment?_eq_none_iff.2 hnone
                rw [Arguments.segment?_congr (hothers own hown), hvalue] at hsegment
                cases hsegment
            have hrest := ih (fun hname => hgiven (List.mem_cons_of_mem _ hname))
              fun hrest => hleads ⟨hhas, Or.inr hrest⟩
            show (do pure (value ++ (← leadSegments args rest)) : Result String) = _
            rw [hrest]
            rfl

end Render

/-! ## Reading -/

section Reading

variable {words : Vocabulary} {args other : Arguments} {model : String}

/-- Arguments that make one text agree on its fields. -/
theorem renderSegments_injective {segments : List Segment} (hreadable : Readable words segments)
    (hargs : words.Admits (fieldNames segments) args) (hother : words.Admits (fieldNames segments) other)
    {text : String} (h : renderSegments args model segments = .ok text)
    (h' : renderSegments other model segments = .ok text) :
    ∀ name ∈ fieldNames segments, args.segment? name = other.segment? name := by
  induction segments generalizing text with
  | nil => exact fun name hname => absurd hname List.not_mem_nil
  | cons segment rest ih =>
    cases segment with
    | literal literal =>
      obtain ⟨more, hmore, rfl⟩ := renderSegments_literal h
      obtain ⟨more', hmore', htext⟩ := renderSegments_literal h'
      rw [← (String.append_right_inj literal).1 htext] at hmore'
      exact ih hreadable hargs hother hmore hmore'
    | field own =>
      obtain ⟨hdelimited, hrest⟩ := hreadable
      obtain ⟨value, more, hvalue, hmore, rfl⟩ := renderSegments_field h
      obtain ⟨value', more', hvalue', hmore', htext⟩ := renderSegments_field h'
      have hsame : value = value' ∧ more = more' := by
        by_cases hlast : fieldNames rest = []
        · have hequal : renderSegments args model rest = renderSegments other model rest :=
            renderSegments_congr fun name hname => absurd hname (by rw [hlast]; exact List.not_mem_nil)
          have hmores : more = more' := Except.ok.inj (hmore.symm.trans (hequal.trans hmore'))
          subst hmores
          exact ⟨(String.append_left_inj more).1 htext, rfl⟩
        · obtain ⟨after, hafter⟩ := renderSegments_leadingText hmore
          obtain ⟨after', hafter'⟩ := renderSegments_leadingText hmore'
          have hlists := congrArg String.toList htext
          rw [String.toList_append, String.toList_append, hafter, hafter', ← List.append_assoc] at hlists
          have hvalues : value = value' := hdelimited hlast value value'
            (hargs own List.mem_cons_self value hvalue) (hother own List.mem_cons_self value' hvalue')
            after' (hlists ▸ List.prefix_append _ _)
          subst hvalues
          exact ⟨rfl, (String.append_right_inj value).1 htext⟩
      obtain ⟨rfl, rfl⟩ := hsame
      intro name hname
      rcases List.mem_cons.1 hname with rfl | hname
      · rw [hvalue, hvalue']
      · exact ih hrest (fun n hn => hargs n (List.mem_cons_of_mem _ hn))
          (fun n hn => hother n (List.mem_cons_of_mem _ hn)) hmore hmore' name hname

/-- If the lead that some arguments make begins the text that others make, the two agree on the fields that
are given without a gap, unless the lead is the whole text. -/
theorem leadSegments_injective {segments : List Segment} (hreadable : Readable words segments)
    (hargs : words.Admits (fieldNames segments) args) (hother : words.Admits (fieldNames segments) other)
    {lead text : String} (h : leadSegments args segments = .ok lead)
    (h' : renderSegments other model segments = .ok text) (hbegins : lead.toList <+: text.toList)
    (hgap : ∃ name ∈ fieldNames segments, args.has name = false) {name : String}
    (hleads : args.Leads name (fieldNames segments)) : args.segment? name = other.segment? name := by
  induction segments generalizing lead text with
  | nil => exact hleads.elim
  | cons segment rest ih =>
    cases segment with
    | literal literal =>
      obtain ⟨more, hmore, rfl⟩ := leadSegments_literal h
      obtain ⟨more', hmore', rfl⟩ := renderSegments_literal h'
      rw [String.toList_append, String.toList_append, List.prefix_append_right_inj] at hbegins
      exact ih hreadable hargs hother hmore hmore' hbegins hgap hleads
    | field own =>
      obtain ⟨hdelimited, hrest⟩ := hreadable
      obtain ⟨hown, hleads⟩ := hleads
      obtain ⟨missing, hmissing, hnone⟩ := hgap
      have hmissing : missing ∈ fieldNames rest := by
        rcases List.mem_cons.1 hmissing with rfl | hmissing
        · rw [hown] at hnone
          cases hnone
        · exact hmissing
      obtain ⟨value, more, hvalue, hmore, rfl⟩ := leadSegments_field hown h
      obtain ⟨value', more', hvalue', hmore', rfl⟩ := renderSegments_field h'
      obtain ⟨behind, hend⟩ := leadSegments_leadingText hmore
      obtain ⟨behind', hend'⟩ := renderSegments_leadingText hmore'
      rw [String.toList_append, String.toList_append] at hbegins
      have hvalues : value = value' := by
        refine hdelimited (List.ne_nil_of_mem hmissing) value value'
          (hargs own List.mem_cons_self value hvalue) (hother own List.mem_cons_self value' hvalue')
          behind' (List.IsPrefix.trans ?_ (hend' ▸ hbegins))
        rw [hend, ← List.append_assoc]
        exact List.prefix_append _ _
      subst hvalues
      rw [List.prefix_append_right_inj] at hbegins
      rcases hleads with rfl | hleads
      · rw [hvalue, hvalue']
      · exact ih hrest (fun n hn => hargs n (List.mem_cons_of_mem _ hn))
          (fun n hn => hother n (List.mem_cons_of_mem _ hn)) hmore hmore' hbegins
          ⟨missing, hmissing, hnone⟩ hleads

end Reading

end Template

/-! ## Keys -/

namespace KeyTemplate

variable {keys : KeyTemplate} {words : Vocabulary} {args other : Arguments} {key : Key}

theorem mem_fields {name : String} :
    name ∈ keys.fields ↔ name ∈ keys.partition.fields ∨ name ∈ keys.sort.fields := by
  have hfold : ∀ (more seen : List String),
      name ∈ more.foldl (fun seen name => if name ∈ seen then seen else seen ++ [name]) seen ↔
        name ∈ seen ∨ name ∈ more := by
    intro more
    induction more with
    | nil => simp
    | cons first more ih =>
      intro seen
      rw [List.foldl_cons, ih]
      split
      · rename_i hmem
        constructor
        · exact Or.imp_right (List.mem_cons_of_mem _)
        · rintro (h | h)
          · exact Or.inl h
          · rcases List.mem_cons.1 h with rfl | h
            · exact Or.inl hmem
            · exact Or.inr h
      · simp [or_assoc]
  exact hfold _ _

/-- Whether both keys of a template pair can be read back. -/
def Readable (words : Vocabulary) (keys : KeyTemplate) : Prop :=
  Template.Readable words keys.partition.segments ∧ Template.Readable words keys.sort.segments

theorem key_eq_ok (h : keys.key args = .ok key) :
    keys.partition.render args keys.model = .ok key.partition ∧
      keys.sort.render args keys.model = .ok key.sort := by
  obtain ⟨partition, hpartition, h⟩ := bind_eq_ok.1 h
  obtain ⟨sort, hsort, h⟩ := bind_eq_ok.1 h
  cases h
  exact ⟨hpartition, hsort⟩

theorem key_given (h : keys.key args = .ok key) :
    ∀ name ∈ keys.fields, ∃ value, args.segment? name = .ok (some value) := by
  obtain ⟨hpartition, hsort⟩ := key_eq_ok h
  intro name hname
  rcases mem_fields.1 hname with hname | hname
  · exact Template.renderSegments_given hpartition name hname
  · exact Template.renderSegments_given hsort name hname

theorem key_congr (h : ∀ name ∈ keys.fields, args.segment? name = other.segment? name) :
    keys.key args = keys.key other := by
  have hpartition : keys.partition.render args keys.model = keys.partition.render other keys.model :=
    Template.renderSegments_congr fun name hname => h name (mem_fields.2 (Or.inl hname))
  have hsort : keys.sort.render args keys.model = keys.sort.render other keys.model :=
    Template.renderSegments_congr fun name hname => h name (mem_fields.2 (Or.inr hname))
  simp only [key, hpartition, hsort]

/-- Arguments that make one key agree on its fields. -/
theorem key_injective (hreadable : keys.Readable words) (hargs : words.Admits keys.fields args)
    (hother : words.Admits keys.fields other) (h : keys.key args = .ok key)
    (h' : keys.key other = .ok key) :
    ∀ name ∈ keys.fields, args.segment? name = other.segment? name := by
  intro name hname
  rcases mem_fields.1 hname with hname | hname
  · exact Template.renderSegments_injective hreadable.1
      (fun n hn => hargs n (mem_fields.2 (Or.inl hn))) (fun n hn => hother n (mem_fields.2 (Or.inl hn)))
      (key_eq_ok h).1 (key_eq_ok h').1 name hname
  · exact Template.renderSegments_injective hreadable.2
      (fun n hn => hargs n (mem_fields.2 (Or.inr hn))) (fun n hn => hother n (mem_fields.2 (Or.inr hn)))
      (key_eq_ok h).2 (key_eq_ok h').2 name hname

end KeyTemplate

end KeyedRecords
