import KeyedRecords.Proofs.Key.Grammar
import KeyedRecords.Proofs.Query.FullKey

/-! A query has one condition on the sort key: that of a filter on its attribute, or what the key fields make. Both at
once are refused. The key fields make a sort key if something is given for one of its fields; a sort key without fields
is made as soon as the keys are looked at, and then no filter on its attribute is accepted. Main statement:
`FilterRules.toQuery_outcome`. -/

namespace KeyedRecords

/-! ## Names without a comparison -/

theorem Text.splitLastUnderscores?_eq_some {text before after : List Char}
    (h : splitLastUnderscores? text = some (before, after)) : text = before ++ '_' :: '_' :: after := by
  induction text generalizing before with
  | nil => cases h
  | cons c rest ih =>
    unfold splitLastUnderscores? at h
    split at h
    · rename_i more after' hmore
      cases h
      rw [ih hmore, List.cons_append]
    · split at h
      · split at h
        · rename_i hc
          cases h
          rw [hc, List.nil_append]
        · cases h
      · cases h

theorem splitSuffix_plain {name : String} (h : ¬ ['_', '_'] <:+: name.toList) : splitSuffix name = (name, none) := by
  unfold splitSuffix
  split
  · rename_i before after hsplit
    have hname := Text.splitLastUnderscores?_eq_some hsplit
    exact absurd ⟨before, after, by simp [hname]⟩ h
  · rfl

/-! ## Templates with words or nothing for their fields -/

/-- Whether some names have words so far as they have anything. -/
def Arguments.Scalars (args : Arguments) (names : List String) : Prop :=
  ∀ name ∈ names, args.has name = true → args.HasScalar name

namespace Template

variable {args : Arguments} {segments : List Segment}

theorem leadSegments_of_scalars (h : args.Scalars (fieldNames segments)) :
    ∃ text, leadSegments args segments = .ok text := by
  induction segments with
  | nil => exact ⟨"", rfl⟩
  | cons segment rest ih =>
    cases segment with
    | literal literal =>
      obtain ⟨more, hmore⟩ := ih h
      exact ⟨literal ++ more, by simp only [leadSegments, hmore]; rfl⟩
    | field name =>
      obtain ⟨more, hmore⟩ := ih fun other hother => h other (List.mem_cons_of_mem _ hother)
      cases hname : args.has name with
      | false => exact ⟨"", by simp only [leadSegments, Arguments.segment?_eq_none_iff.2 hname]; rfl⟩
      | true =>
        have hword := (h name List.mem_cons_self hname).segment?
        exact ⟨args.word name ++ more, by simp only [leadSegments, hword, hmore]; rfl⟩

/-- Rendering fails if some field has nothing, for the first such field. -/
theorem renderSegments_of_missing (h : args.Scalars (fieldNames segments)) {missing : String}
    (hmissing : missing ∈ fieldNames segments) (hnone : args.has missing = false) (model : String) :
    ∃ name, renderSegments args model segments = .error (.missingKeyField model name) := by
  have hsome : ((fieldNames segments).find? (!args.has ·)).isSome = true :=
    List.find?_isSome.2 ⟨missing, hmissing, by simp [hnone]⟩
  obtain ⟨name, hname⟩ := Option.isSome_iff_exists.1 hsome
  obtain ⟨hfirst, before, after, hnames, hbefore⟩ := List.find?_eq_some_iff_append.1 hname
  refine ⟨name, renderSegments_missing hnames (fun other hother => h other ?_ ?_) (by simpa using hfirst)⟩
  · exact hnames ▸ List.mem_append_left _ hother
  · simpa using hbefore other hother

end Template

namespace KeyTemplate

variable {keys : KeyTemplate} {args : Arguments}

/-- Something is known of the sort key if it has no fields or something is given for one. -/
theorem sortKey_of_scalars (h : args.Scalars keys.sort.fields) : ∃ sort?, keys.sortKey args = .ok sort? ∧
    (sort?.isSome = true ↔ (∃ name ∈ keys.sort.fields, args.has name = true) ∨ keys.sort.fields = []) := by
  simp only [sortKey]
  split
  · rename_i hall
    have hgiven := List.countP_eq_length.1 hall
    obtain ⟨text, htext⟩ := Template.renderSegments_of_given keys.model fun name hname =>
      ⟨_, (h name hname (hgiven name hname)).segment?⟩
    refine ⟨_, bind_eq_ok.2 ⟨text, htext, rfl⟩, iff_of_true rfl ?_⟩
    cases hfields : keys.sort.fields with
    | nil => exact Or.inr rfl
    | cons name rest =>
      have hname : name ∈ keys.sort.fields := by simp [hfields]
      exact Or.inl ⟨name, List.mem_cons_self, hgiven name hname⟩
  · rename_i hpart
    split
    · rename_i hnone
      refine ⟨none, rfl, iff_of_false Bool.false_ne_true ?_⟩
      rintro (⟨name, hname, hgiven⟩ | hempty)
      · exact List.countP_eq_zero.1 hnone name hname hgiven
      · exact hpart (by simp [hempty])
    · rename_i hsome
      obtain ⟨text, htext⟩ := Template.leadSegments_of_scalars h
      refine ⟨_, bind_eq_ok.2 ⟨text, htext, rfl⟩, iff_of_true rfl (Or.inl ?_)⟩
      exact List.countP_pos_iff.1 (Nat.pos_of_ne_zero hsome)

end KeyTemplate

namespace FilterRules

variable {rules : FilterRules} {filters : Arguments} {filter : KeyFilter}

/-! ## Which filters were given -/

def NamesPartitionIn (rules : FilterRules) (filters : Arguments) : Prop :=
  ∃ entry ∈ filters, splitSuffix entry.1 = (rules.partitionName, none)

/-- A part of what filters fix is fixed if one of the filters that name it is given. -/
theorem isSome_of_parseFrom {α : Type} (part : KeyFilter → Option α) (named : String → Prop)
    (hstep : ∀ name value meaning, rules.meaning name value = .ok meaning → ∀ read,
      ((part (meaning.addTo read)).isSome = true ↔ (part read).isSome = true ∨ named name))
    {read : KeyFilter} (h : rules.parseFrom read filters = .ok filter) :
    (part filter).isSome = true ↔ (part read).isSome = true ∨ ∃ entry ∈ filters, named entry.1 := by
  induction filters generalizing read with
  | nil =>
    cases h
    simp
  | cons entry rest ih =>
    obtain ⟨name, value⟩ := entry
    obtain ⟨meaning, hmeaning, hrest⟩ := parseFrom_cons.1 h
    rw [ih hrest, hstep name value meaning hmeaning read, or_assoc]
    simp

theorem partition_isSome (h : rules.parse filters = .ok filter) :
    filter.partition?.isSome = true ↔ rules.NamesPartitionIn filters := by
  rw [isSome_of_parseFrom KeyFilter.partition? (fun name => splitSuffix name = (rules.partitionName, none)) ?_ h]
  · exact or_iff_right Bool.false_ne_true
  intro name value meaning hmeaning read
  cases meaning with
  | partition text => exact iff_of_true rfl (Or.inr (split_of_partition hmeaning))
  | sort asked | field own given =>
    refine (or_iff_left fun hsplit => ?_).symm
    simp only [FilterRules.meaning, hsplit, if_true] at hmeaning
    obtain ⟨text, -, he⟩ := bind_eq_ok.1 hmeaning
    cases he

theorem sort_isSome (h : rules.parse filters = .ok filter) :
    filter.sort?.isSome = true ↔ rules.NamesSortIn filters := by
  rw [isSome_of_parseFrom KeyFilter.sort? (fun name => ∃ comparison?, rules.NamesSort name comparison?) ?_ h]
  · exact or_iff_right Bool.false_ne_true
  intro name value meaning hmeaning read
  cases meaning with
  | sort asked =>
    obtain ⟨comparison?, hnames, -⟩ := namesSort_of_meaning hmeaning
    exact iff_of_true rfl (Or.inr ⟨comparison?, hnames⟩)
  | partition text | field own given =>
    refine (or_iff_left ?_).symm
    rintro ⟨comparison?, hnames⟩
    rw [meaning_of_namesSort hnames] at hmeaning
    cases hcondition : Comparison.condition comparison? name value <;> simp [hcondition, Except.map] at hmeaning

/-! ## What the key fields make -/

section Template

variable {keys : KeyTemplate} (hkeys : rules.keys = keys.strategy)

include hkeys

theorem resolve_of_missing (hscalars : filter.keyArguments.Scalars keys.partition.fields)
    (hnone : filter.partition? = none) {missing : String} (hmissing : missing ∈ keys.partition.fields)
    (hgiven : filter.keyArguments.has missing = false) :
    ∃ name, rules.resolve filter = .error (.missingKeyField keys.model name) := by
  obtain ⟨name, hrender⟩ := Template.renderSegments_of_missing hscalars hmissing hgiven keys.model
  refine ⟨name, ?_⟩
  simp only [resolve, hnone, hkeys, KeyTemplate.strategy, KeyTemplate.query, Template.render, hrender]
  rfl

theorem resolve_of_given (hscalars : filter.keyArguments.Scalars keys.fields)
    (hgiven : filter.partition? = none → ∀ name ∈ keys.partition.fields, filter.keyArguments.has name = true) :
    ∃ found, rules.resolve filter = .ok found ∧
      (found.sort?.isSome = true ↔ (∃ name ∈ keys.sort.fields, filter.keyArguments.has name = true) ∨
        keys.sort.fields = [] ∧ (filter.partition?.isSome = true → filter.keyArguments ≠ [])) := by
  obtain ⟨sort?, hsort, hsome⟩ := KeyTemplate.sortKey_of_scalars fun name hname =>
    hscalars name (KeyTemplate.mem_fields.2 (Or.inr hname))
  cases hpartition : filter.partition? with
  | none =>
    obtain ⟨partition, hrender⟩ := Template.renderSegments_of_given keys.model fun name hname =>
      ⟨_, (hscalars name (KeyTemplate.mem_fields.2 (Or.inl hname)) (hgiven hpartition name hname)).segment?⟩
    refine ⟨⟨partition, sort?⟩, ?_, by simpa using hsome⟩
    simp only [resolve, hpartition, hkeys]
    exact bind_eq_ok.2 ⟨partition, hrender, bind_eq_ok.2 ⟨sort?, hsort, rfl⟩⟩
  | some partition =>
    by_cases hnil : filter.keyArguments = []
    · refine ⟨⟨partition, none⟩, by simp only [resolve, hpartition, hnil]; rfl, iff_of_false Bool.false_ne_true ?_⟩
      rintro (⟨name, -, hhas⟩ | ⟨-, hne⟩)
      · rw [hnil] at hhas
        cases hhas
      · exact hne rfl hnil
    · refine ⟨⟨partition, sort?⟩, ?_, by simpa [hnil] using hsome⟩
      rw [resolve_eq hkeys (Or.inr hnil), hpartition]
      exact bind_eq_ok.2 ⟨sort?, hsort, rfl⟩

end Template

theorem toQuery_of_conflict {found : KeyQuery} (hparse : rules.parse filters = .ok filter)
    (hresolve : rules.resolve filter = .ok found) (hsort : filter.sort?.isSome = true)
    (hfound : found.sort?.isSome = true) :
    rules.toQuery filters = .error (.invalidArguments (.sortKeyTwice rules.sortName)) := by
  obtain ⟨condition, hcondition⟩ := Option.isSome_iff_exists.1 hsort
  obtain ⟨sort, hsort⟩ := Option.isSome_iff_exists.1 hfound
  simp only [toQuery, hparse, hresolve, bind, Except.bind, hcondition, hsort]
  rfl

/-! ## The outcome -/

/-- Whether the fields of the keys can be told from the key attributes and from comparisons. -/
structure PlainFields (rules : FilterRules) (keys : KeyTemplate) : Prop where
  plain : ∀ name ∈ keys.fields, ¬ ['_', '_'] <:+: name.toList
  partition : rules.partitionName ∉ keys.fields
  sort : rules.sortName ∉ keys.fields

/-- Whether filters leave the partition open: none gives it, and a field that it is made from has nothing. -/
def LacksPartition (rules : FilterRules) (keys : KeyTemplate) (filters : Arguments) : Prop :=
  ¬ rules.NamesPartitionIn filters ∧ ∃ name ∈ keys.partition.fields, filters.has name = false

/-- Whether filters make a sort key: something is given for one of its fields. A sort key without fields is made too,
unless the partition is given and no field of the keys is. -/
def MakesSort (rules : FilterRules) (keys : KeyTemplate) (filters : Arguments) : Prop :=
  (∃ name ∈ keys.sort.fields, filters.has name = true) ∨
    keys.sort.fields = [] ∧ (rules.NamesPartitionIn filters → ∃ name ∈ keys.fields, name ∈ Assoc.keys filters)

section Outcome

variable {keys : KeyTemplate} (hkeys : rules.keys = keys.strategy) (hplain : rules.PlainFields keys)
  (hsorted : Assoc.Sorted filters)

include hkeys hplain

theorem PlainFields.namesField {name : String} (hname : name ∈ keys.fields) : rules.NamesField name where
  plain := splitSuffix_plain (hplain.plain name hname)
  partition he := hplain.partition (he ▸ hname)
  sort he := hplain.sort (he ▸ hname)
  field := by rw [hkeys]; exact hname

include hsorted

theorem find?_keyArguments_of_field (hparse : rules.parse filters = .ok filter) {name : String}
    (hname : name ∈ keys.fields) : Assoc.find? filter.keyArguments name = Assoc.find? filters name := by
  rw [(find?_keyArguments hsorted.nodup hparse name).1 (hplain.namesField hkeys hname)]
  cases Assoc.find? filters name <;> rfl

theorem has_keyArguments (hparse : rules.parse filters = .ok filter) {name : String} (hname : name ∈ keys.fields) :
    filter.keyArguments.has name = filters.has name := by
  simp only [Arguments.has, find?_keyArguments_of_field hkeys hplain hsorted hparse hname]

/-- There are key arguments if a field of the keys is given, be it null. -/
theorem keyArguments_ne_nil_iff (hparse : rules.parse filters = .ok filter) :
    filter.keyArguments ≠ [] ↔ ∃ name ∈ keys.fields, name ∈ Assoc.keys filters := by
  constructor
  · intro hne
    obtain ⟨⟨name, value⟩, rest, hentries⟩ := List.exists_cons_of_ne_nil hne
    have hfind : Assoc.find? filter.keyArguments name = some value := by simp [hentries, Assoc.find?]
    obtain ⟨hnames, hgiven⟩ := find?_of_keyArguments hsorted.nodup hparse hfind
    have hfield : name ∈ keys.fields := by
      have hfield := hnames.field
      rw [hkeys] at hfield
      exact hfield
    exact ⟨name, hfield, List.mem_map_of_mem (Assoc.mem_of_find? hgiven)⟩
  · rintro ⟨name, hname, hgiven⟩ hnil
    have hfind := find?_keyArguments_of_field hkeys hplain hsorted hparse hname
    rw [hnil, Assoc.find?_nil] at hfind
    exact Assoc.find?_eq_none_iff.1 hfind.symm hgiven

theorem makesSort_iff (hparse : rules.parse filters = .ok filter) : rules.MakesSort keys filters ↔
    (∃ name ∈ keys.sort.fields, filter.keyArguments.has name = true) ∨
      keys.sort.fields = [] ∧ (filter.partition?.isSome = true → filter.keyArguments ≠ []) := by
  have hhas : ∀ name ∈ keys.sort.fields, filter.keyArguments.has name = filters.has name := fun name hname =>
    has_keyArguments hkeys hplain hsorted hparse (KeyTemplate.mem_fields.2 (Or.inr hname))
  rw [MakesSort, partition_isSome hparse, keyArguments_ne_nil_iff hkeys hplain hsorted hparse]
  refine or_congr_left (exists_congr fun name => and_congr_right fun hname => ?_)
  rw [hhas name hname]

theorem lacksPartition_iff (hparse : rules.parse filters = .ok filter) : rules.LacksPartition keys filters ↔
    filter.partition? = none ∧ ∃ name ∈ keys.partition.fields, filter.keyArguments.has name = false := by
  have hhas : ∀ name ∈ keys.partition.fields, filter.keyArguments.has name = filters.has name := fun name hname =>
    has_keyArguments hkeys hplain hsorted hparse (KeyTemplate.mem_fields.2 (Or.inl hname))
  rw [LacksPartition, ← partition_isSome hparse, Option.not_isSome_iff_eq_none]
  refine and_congr_right fun _ => exists_congr fun name => and_congr_right fun hname => ?_
  rw [hhas name hname]

/-- Null counts as nothing. -/
theorem scalars_keyArguments (hparse : rules.parse filters = .ok filter)
    (hscalars : ∀ name ∈ keys.fields, ∀ value, Assoc.find? filters name = some value →
      value = .null ∨ value.Scalar) : filter.keyArguments.Scalars keys.fields := by
  intro name hname hhas
  obtain ⟨value, hvalue⟩ := Arguments.find?_of_has hhas
  have hgiven := hvalue
  rw [find?_keyArguments_of_field hkeys hplain hsorted hparse hname] at hgiven
  rcases hscalars name hname value hgiven with rfl | hscalar
  · simp [Arguments.has, hvalue, Json.isNull] at hhas
  · exact ⟨value, hvalue, hscalar⟩

/-- Filters that are read make a query, unless the partition is left open or the sort key is given twice, by its
attribute and by fields. -/
theorem toQuery_outcome (hparse : ∃ filter, rules.parse filters = .ok filter)
    (hscalars : ∀ name ∈ keys.fields, ∀ value, Assoc.find? filters name = some value →
      value = .null ∨ value.Scalar) :
    ((∃ model name, rules.toQuery filters = .error (.missingKeyField model name)) ↔
      rules.LacksPartition keys filters) ∧
    (rules.toQuery filters = .error (.invalidArguments (.sortKeyTwice rules.sortName)) ↔
      ¬ rules.LacksPartition keys filters ∧ rules.NamesSortIn filters ∧ rules.MakesSort keys filters) ∧
    ((∃ query, rules.toQuery filters = .ok query) ↔
      ¬ rules.LacksPartition keys filters ∧ ¬ (rules.NamesSortIn filters ∧ rules.MakesSort keys filters)) := by
  obtain ⟨filter, hparse⟩ := hparse
  have hargs := scalars_keyArguments hkeys hplain hsorted hparse hscalars
  have hopen := lacksPartition_iff hkeys hplain hsorted hparse
  by_cases hlacks : rules.LacksPartition keys filters
  · obtain ⟨hnone, missing, hmissing, hgiven⟩ := hopen.1 hlacks
    have hpartitionArgs : filter.keyArguments.Scalars keys.partition.fields := fun name hname =>
      hargs name (KeyTemplate.mem_fields.2 (Or.inl hname))
    obtain ⟨name, hresolve⟩ := resolve_of_missing hkeys hpartitionArgs hnone hmissing hgiven
    have hquery : rules.toQuery filters = .error (.missingKeyField keys.model name) := by
      simp only [toQuery, hparse, hresolve, bind, Except.bind]
    simp [hquery, hlacks]
  · have hpartition : filter.partition? = none →
        ∀ name ∈ keys.partition.fields, filter.keyArguments.has name = true := by
      intro hnone name hname
      by_contra hgiven
      exact hlacks (hopen.2 ⟨hnone, name, hname, by simpa using hgiven⟩)
    obtain ⟨found, hresolve, hfound⟩ := resolve_of_given hkeys hargs hpartition
    rw [← makesSort_iff hkeys hplain hsorted hparse] at hfound
    by_cases hconflict : rules.NamesSortIn filters ∧ rules.MakesSort keys filters
    · have hquery := toQuery_of_conflict hparse hresolve ((sort_isSome hparse).2 hconflict.1) (hfound.2 hconflict.2)
      simp [hquery, hlacks, hconflict]
    · have hquery : ∃ query, rules.toQuery filters = .ok query := by
        refine ⟨_, toQuery_eq_ok.2 ⟨filter, found, hparse, hresolve, ?_, rfl⟩⟩
        rw [← sort_isSome hparse, ← hfound, not_and_or] at hconflict
        simpa using hconflict
      obtain ⟨query, hquery⟩ := hquery
      simp [hquery, hlacks, hconflict]

end Outcome

/-- Keys of documents: one item in a partition, at a constant sort key. -/
def documentKeys : KeyTemplate where
  model := "Document"
  partition := ⟨"DOC#\x7bid\x7d", [.literal "DOC#", .field "id"]⟩
  sort := .literal "META"

def documentRules : FilterRules := ⟨"pk", "sk", documentKeys.strategy⟩

/-- The sort key of a document is asked for once, by its attribute, and no field is in it. The filters are refused with
the identifier, and accepted with the partition that it makes. -/
theorem toQuery_outcome_document : documentKeys.sort.fields = [] ∧
    documentRules.toQuery [("id", .string "1"), ("sk", .string "META")] =
      .error (.invalidArguments (.sortKeyTwice "sk")) ∧
    ∃ query, documentRules.toQuery [("pk", .string "DOC#1"), ("sk", .string "META")] = .ok query := by
  have hplain : documentRules.PlainFields documentKeys := ⟨by decide, by decide, by decide⟩
  have hsort : documentRules.NamesSort "sk" none := ⟨by decide, by decide⟩
  have hid : ∀ name ∈ documentKeys.fields, name = "id" := by
    simp [documentKeys, KeyTemplate.fields, Template.fields, Template.literal]
  refine ⟨rfl, ?_, ?_⟩
  · have hsorted : Assoc.Sorted [("id", Json.string "1"), ("sk", .string "META")] := by
      unfold Assoc.Sorted
      decide
    obtain ⟨-, hconflict, -⟩ := toQuery_outcome rfl hplain hsorted ⟨_, rfl⟩ fun name hname value hvalue => by
      cases hid name hname
      cases hvalue
      exact Or.inr trivial
    refine hconflict.2 ⟨?_, ⟨_, List.mem_cons_of_mem _ List.mem_cons_self, none, hsort⟩, Or.inr ⟨rfl, ?_⟩⟩
    · rintro ⟨-, name, hname, hgiven⟩
      cases hid name (KeyTemplate.mem_fields.2 (Or.inl hname))
      cases hgiven
    · exact fun _ => ⟨"id", by decide, by decide⟩
  · have hsorted : Assoc.Sorted [("pk", Json.string "DOC#1"), ("sk", .string "META")] := by
      unfold Assoc.Sorted
      decide
    obtain ⟨-, -, hquery⟩ := toQuery_outcome rfl hplain hsorted ⟨_, rfl⟩ fun name hname value hvalue => by
      cases hid name hname
      cases hvalue
    have hpartition : documentRules.NamesPartitionIn [("pk", .string "DOC#1"), ("sk", .string "META")] :=
      ⟨_, List.mem_cons_self, by decide⟩
    refine hquery.2 ⟨fun hlacks => hlacks.1 hpartition, ?_⟩
    rintro ⟨-, ⟨name, hname, -⟩ | ⟨-, hgiven⟩⟩
    · cases hname
    · obtain ⟨name, hname, hmem⟩ := hgiven hpartition
      cases hid name hname
      revert hmem
      decide

end FilterRules

end KeyedRecords
