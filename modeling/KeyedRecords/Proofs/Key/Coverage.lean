import KeyedRecords.Proofs.Key.Template
import KeyedRecords.Query.Condition

/-! What a query key looks at. Arguments that give only some fields of a key make a query that leads to every
record whose arguments agree with them: the partition is that of the record, and its sort key meets the
condition of the query. The lead of a template begins every text that agreeing arguments make of it
(`Template.leadSegments_begins`), and a template whose fields are all given has one text only. -/

namespace KeyedRecords

namespace Arguments

/-- Whether other arguments have, for every one of some names that is given here, the same text in keys. -/
def AgreesOn (args : Arguments) (names : List String) (other : Arguments) : Prop :=
  ∀ name ∈ names, args.has name = true → other.segment? name = args.segment? name

variable {args other : Arguments}

theorem has_of_segment? {name text : String} (h : args.segment? name = .ok (some text)) :
    args.has name = true := by
  cases hhas : args.has name with
  | true => rfl
  | false =>
    rw [segment?_eq_none_iff.2 hhas] at h
    cases h

/-- Arguments with the same values agree. -/
theorem agreesOn_of_find? {names : List String}
    (h : ∀ name ∈ names, args.has name = true → Assoc.find? other name = Assoc.find? args name) :
    args.AgreesOn names other :=
  fun name hname hhas => segment?_congr (h name hname hhas)

theorem AgreesOn.mono {names more : List String} (h : args.AgreesOn more other) (hsub : names ⊆ more) :
    args.AgreesOn names other :=
  fun name hname => h name (hsub hname)

end Arguments

namespace Template

variable {args other : Arguments} {model : String} {segments : List Segment} {text lead : String}

/-- A text that could be made is the one that all agreeing arguments make. -/
theorem renderSegments_agrees (hagrees : args.AgreesOn (fieldNames segments) other)
    (h : renderSegments args model segments = .ok text) :
    renderSegments other model segments = .ok text := by
  rw [← h]
  refine renderSegments_congr fun name hname => hagrees name hname ?_
  obtain ⟨value, hvalue⟩ := renderSegments_given h name hname
  exact Arguments.has_of_segment? hvalue

/-- The lead begins every text that agreeing arguments make: the two are the same up to the first field that
is not given, where the lead ends. -/
theorem leadSegments_begins (hagrees : args.AgreesOn (fieldNames segments) other)
    (h : leadSegments args segments = .ok lead) (h' : renderSegments other model segments = .ok text) :
    lead.toList <+: text.toList := by
  induction segments generalizing lead text with
  | nil =>
    cases h
    exact List.nil_prefix
  | cons segment rest ih =>
    cases segment with
    | literal literal =>
      obtain ⟨more, hmore, rfl⟩ := leadSegments_literal h
      obtain ⟨more', hmore', rfl⟩ := renderSegments_literal h'
      rw [String.toList_append, String.toList_append, List.prefix_append_right_inj]
      exact ih hagrees hmore hmore'
    | field name =>
      cases hgiven : args.has name with
      | false =>
        simp only [leadSegments, Arguments.segment?_eq_none_iff.2 hgiven] at h
        cases h
        exact List.nil_prefix
      | true =>
        obtain ⟨value, more, hvalue, hmore, rfl⟩ := leadSegments_field hgiven h
        obtain ⟨value', more', hvalue', hmore', rfl⟩ := renderSegments_field h'
        have hsame : value' = value := by
          rw [hagrees name List.mem_cons_self hgiven, hvalue] at hvalue'
          cases hvalue'
          rfl
        subst hsame
        rw [String.toList_append, String.toList_append, List.prefix_append_right_inj]
        exact ih (fun n hn => hagrees n (List.mem_cons_of_mem _ hn)) hmore hmore'

end Template

namespace KeyTemplate

variable {keys : KeyTemplate} {args other : Arguments} {key : Key} {sort? : Option SortKey}

theorem query_eq_ok {found : KeyQuery} (h : keys.query args = .ok found) :
    keys.partition.render args keys.model = .ok found.partition ∧ keys.sortKey args = .ok found.sort? := by
  obtain ⟨partition, hpartition, h⟩ := bind_eq_ok.1 h
  obtain ⟨sort?, hsort, h⟩ := bind_eq_ok.1 h
  cases h
  exact ⟨hpartition, hsort⟩

/-- What is known of a sort key: the whole text, or one the sort key begins with, or nothing. -/
theorem sortKey_eq_some {sort : SortKey} (h : keys.sortKey args = .ok (some sort)) :
    (∃ text, keys.sort.render args keys.model = .ok text ∧ sort = .exact text) ∨
      ∃ text, keys.sort.lead args = .ok text ∧ sort = .startingWith text := by
  simp only [sortKey] at h
  split at h
  · obtain ⟨text, htext, h⟩ := bind_eq_ok.1 h
    cases h
    exact Or.inl ⟨text, htext, rfl⟩
  · split at h
    · cases h
    · obtain ⟨text, htext, h⟩ := bind_eq_ok.1 h
      cases h
      exact Or.inr ⟨text, htext, rfl⟩

theorem sortKey_accepts (hkey : keys.key other = .ok key) (h : keys.sortKey args = .ok sort?)
    (hagrees : args.AgreesOn keys.sort.fields other) :
    ∀ sort ∈ sort?, (SortCondition.ofSortKey sort).accepts key.sort = true := by
  have hrender : keys.sort.render other keys.model = .ok key.sort := (key_eq_ok hkey).2
  rintro sort rfl
  obtain ⟨text, htext, rfl⟩ | ⟨text, htext, rfl⟩ := sortKey_eq_some h
  · have hsame := (Template.renderSegments_agrees hagrees htext).symm.trans hrender
    cases hsame
    simp [SortCondition.ofSortKey, SortCondition.accepts]
  · have hbegins := Template.leadSegments_begins hagrees htext hrender
    simpa [SortCondition.ofSortKey, SortCondition.accepts] using hbegins

/-- A query key leads to every record whose arguments agree with those of the query on the fields that are
given, and so does what is known of the sort key alone to those that agree on the fields of the sort key. -/
theorem query_covers (hkey : keys.key other = .ok key) :
    (∀ found, keys.query args = .ok found → args.AgreesOn keys.fields other →
      found.partition = key.partition ∧
        ∀ sort ∈ found.sort?, (SortCondition.ofSortKey sort).accepts key.sort = true) ∧
    ∀ sort?, keys.sortKey args = .ok sort? → args.AgreesOn keys.sort.fields other →
      ∀ sort ∈ sort?, (SortCondition.ofSortKey sort).accepts key.sort = true := by
  refine ⟨fun found hfound hagrees => ?_, fun sort? hsort hagrees => sortKey_accepts hkey hsort hagrees⟩
  obtain ⟨hpartition, hsort⟩ := query_eq_ok hfound
  have hpartitions : args.AgreesOn keys.partition.fields other :=
    hagrees.mono fun name hname => mem_fields.2 (Or.inl hname)
  have hsorts : args.AgreesOn keys.sort.fields other :=
    hagrees.mono fun name hname => mem_fields.2 (Or.inr hname)
  have hsame := (Template.renderSegments_agrees hpartitions hpartition).symm.trans (key_eq_ok hkey).1
  exact ⟨Except.ok.inj hsame, sortKey_accepts hkey hsort hsorts⟩

def courseKeys : KeyTemplate where
  model := "Course"
  partition := ⟨"SCHOOL#\x7bschool\x7d", [.literal "SCHOOL#", .field "school"]⟩
  sort := ⟨"\x7bterm\x7d#\x7bcode\x7d\x7bcode\x7d", [.field "term", .literal "#", .field "code", .field "code"]⟩

/-- A query with the school and the term leads to every course of that term. -/
theorem query_covers_course :
    courseKeys.query [("school", .string "x"), ("term", .number .zero)] =
        .ok ⟨"SCHOOL#x", some (.startingWith "0#")⟩ ∧
      courseKeys.key [("code", .boolean true), ("school", .string "x"), ("term", .number .zero)] =
        .ok ⟨"SCHOOL#x", "0#truetrue"⟩ ∧
      (SortCondition.startingWith "0#").accepts "0#truetrue" = true := by
  have hquery : courseKeys.query [("school", .string "x"), ("term", .number .zero)] =
      .ok ⟨"SCHOOL#x", some (.startingWith "0#")⟩ := rfl
  have hkey : courseKeys.key [("code", .boolean true), ("school", .string "x"), ("term", .number .zero)] =
      .ok ⟨"SCHOOL#x", "0#truetrue"⟩ := rfl
  have hagrees : Arguments.AgreesOn [("school", .string "x"), ("term", .number .zero)] courseKeys.fields
      [("code", .boolean true), ("school", .string "x"), ("term", .number .zero)] := by
    refine Arguments.agreesOn_of_find? fun name hname hhas => ?_
    have hnames : name = "school" ∨ name = "term" ∨ name = "code" := by
      simpa [courseKeys, KeyTemplate.fields, Template.fields] using hname
    obtain rfl | rfl | rfl := hnames
    · rfl
    · rfl
    · cases hhas
  exact ⟨hquery, hkey, ((query_covers hkey).1 _ hquery hagrees).2 _ rfl⟩

end KeyTemplate

end KeyedRecords
