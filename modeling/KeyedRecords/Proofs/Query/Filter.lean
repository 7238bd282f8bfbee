import KeyedRecords.Proofs.Key.Template
import KeyedRecords.Query.Filter

/-! Which filters on the fields of a key a query enforces. A filter on a field of the partition key counts
unless the partition is given, and one on a field of the sort key if it and all fields before it are given:
such a filter is pinned, and what the query selects has its value. The value of any other filter on a key field
is never looked at. Main statements: `toQuery_pinned`, `toQuery_insert`, `toQuery_erase`. -/

namespace KeyedRecords

/-! ## Filters one by one -/

/-- What a filter fixes. -/
inductive FilterMeaning where
  | partition (text : String)
  | sort (condition : SortCondition)
  | field (name : String) (value : Json)

def FilterMeaning.addTo (read : KeyFilter) : FilterMeaning → KeyFilter
  | partition text => { read with partition? := some text }
  | sort condition => { read with sort? := some condition }
  | field name value => { read with keyArguments := Assoc.insert read.keyArguments name value }

namespace FilterRules

def meaning (rules : FilterRules) (filter : String) (value : Json) : Result FilterMeaning := do
  let (name, suffix?) := splitSuffix filter
  if name = rules.partitionName then
    match suffix? with
    | some suffix => throw (.unsupportedFilter filter suffix)
    | none => return .partition (← filterText filter value)
  else if name = rules.sortName then
    match suffix?, suffix?.bind Comparison.ofSuffix? with
    | some suffix, none => throw (.unsupportedFilter filter suffix)
    | _, comparison? => return .sort (← Comparison.condition comparison? filter value)
  else if name ∈ rules.keys.fields then
    match suffix? with
    | some suffix => throw (.unsupportedFilter filter suffix)
    | none => return .field name value
  else
    match suffix?, suffix?.bind Comparison.ofSuffix? with
    | some suffix, none => throw (.unsupportedFilter filter suffix)
    | _, _ => throw (.invalidFilterField name)

theorem add_eq (rules : FilterRules) (read : KeyFilter) (filter : String) (value : Json) :
    rules.add read filter value = (rules.meaning filter value).map (FilterMeaning.addTo read) := by
  rcases hsplit : splitSuffix filter with ⟨name, suffix?⟩
  simp only [add, meaning, hsplit]
  by_cases hpartition : name = rules.partitionName
  · simp only [if_pos hpartition]
    cases suffix? with
    | some suffix => rfl
    | none => cases filterText filter value <;> rfl
  by_cases hsort : name = rules.sortName
  · simp only [if_neg hpartition, if_pos hsort]
    cases suffix? with
    | none =>
      dsimp only [Option.bind_none]
      cases Comparison.condition none filter value <;> rfl
    | some suffix =>
      simp only [Option.bind_some]
      cases Comparison.ofSuffix? suffix with
      | none => rfl
      | some comparison =>
        dsimp only
        cases Comparison.condition (some comparison) filter value <;> rfl
  by_cases hfield : name ∈ rules.keys.fields
  · simp only [if_neg hpartition, if_neg hsort, if_pos hfield]
    cases suffix? <;> rfl
  · simp only [if_neg hpartition, if_neg hsort, if_neg hfield]
    cases suffix? with
    | none => rfl
    | some suffix =>
      simp only [Option.bind_some]
      cases Comparison.ofSuffix? suffix <;> rfl

/-- Whether a filter names a field of the keys, rather than a key attribute. -/
structure NamesField (rules : FilterRules) (name : String) : Prop where
  plain : splitSuffix name = (name, none)
  partition : name ≠ rules.partitionName
  sort : name ≠ rules.sortName
  field : name ∈ rules.keys.fields

theorem meaning_of_namesField {rules : FilterRules} {name : String} (h : rules.NamesField name)
    (value : Json) : rules.meaning name value = .ok (.field name value) := by
  simp only [meaning, h.plain, h.partition, h.sort, h.field, if_false, if_true]
  rfl

theorem splitSuffix_none {filter name : String} (h : splitSuffix filter = (name, none)) :
    name = filter := by
  simp only [splitSuffix] at h
  split at h
  · simp at h
  · exact (Prod.mk.inj h).1.symm

theorem namesField_of_meaning {rules : FilterRules} {filter name : String} {value field : Json}
    (h : rules.meaning filter value = .ok (.field name field)) :
    name = filter ∧ field = value ∧ rules.NamesField filter := by
  rcases hsplit : splitSuffix filter with ⟨own, suffix?⟩
  simp only [meaning, hsplit] at h
  by_cases hpartition : own = rules.partitionName
  · simp only [if_pos hpartition] at h
    cases suffix? with
    | some suffix => cases h
    | none => cases htext : filterText filter value <;> simp only [htext] at h <;> cases h
  by_cases hsort : own = rules.sortName
  · simp only [if_neg hpartition, if_pos hsort] at h
    split at h
    · cases h
    · obtain ⟨condition, -, hsort⟩ := bind_eq_ok.1 h
      cases hsort
  by_cases hfield : own ∈ rules.keys.fields
  · simp only [if_neg hpartition, if_neg hsort, if_pos hfield] at h
    cases suffix? with
    | some suffix => cases h
    | none =>
      cases h
      have hname := splitSuffix_none hsplit
      subst hname
      exact ⟨rfl, rfl, hsplit, hpartition, hsort, hfield⟩
  · simp only [if_neg hpartition, if_neg hsort, if_neg hfield] at h
    split at h <;> cases h

/-- A filter that fixes the partition names it, without a comparison. -/
theorem split_of_partition {rules : FilterRules} {name text : String} {value : Json}
    (h : rules.meaning name value = .ok (.partition text)) : splitSuffix name = (rules.partitionName, none) := by
  rcases hsplit : splitSuffix name with ⟨own, suffix?⟩
  simp only [meaning, hsplit] at h
  by_cases hpartition : own = rules.partitionName
  · simp only [if_pos hpartition] at h
    cases suffix? with
    | some suffix => cases h
    | none => rw [hpartition]
  · simp only [if_neg hpartition] at h
    split at h
    · split at h
      · cases h
      · obtain ⟨condition, -, h⟩ := bind_eq_ok.1 h
        cases h
    · split at h
      · split at h <;> cases h
      · split at h <;> cases h

/-! ## All filters -/

def parseFrom (rules : FilterRules) (read : KeyFilter) (filters : Arguments) : Result KeyFilter :=
  filters.foldlM (fun read (filter, value) => rules.add read filter value) read

theorem parse_eq (rules : FilterRules) (filters : Arguments) :
    rules.parse filters = rules.parseFrom {} filters := rfl

theorem parseFrom_cons {rules : FilterRules} {read filter : KeyFilter} {name : String} {value : Json}
    {rest : Arguments} : rules.parseFrom read ((name, value) :: rest) = .ok filter ↔
      ∃ meaning, rules.meaning name value = .ok meaning ∧
        rules.parseFrom (meaning.addTo read) rest = .ok filter := by
  simp only [parseFrom, List.foldlM_cons, add_eq]
  cases rules.meaning name value with
  | error failure => simp [Except.map, bind, Except.bind]
  | ok meaning => simp [Except.map, bind, Except.bind]

/-- The key arguments of filters are the filters that name fields of the keys. -/
theorem find?_keyArguments {rules : FilterRules} {filters : Arguments}
    (hnodup : (Assoc.keys filters).Nodup) {read filter : KeyFilter}
    (h : rules.parseFrom read filters = .ok filter) (name : String) :
    (rules.NamesField name → Assoc.find? filter.keyArguments name =
      (Assoc.find? filters name).or (Assoc.find? read.keyArguments name)) ∧
    (¬ rules.NamesField name →
      Assoc.find? filter.keyArguments name = Assoc.find? read.keyArguments name) := by
  induction filters generalizing read with
  | nil =>
    cases h
    exact ⟨fun _ => rfl, fun _ => rfl⟩
  | cons first rest ih =>
    obtain ⟨own, value⟩ := first
    obtain ⟨hfirst, hrest⟩ := List.nodup_cons.1 hnodup
    obtain ⟨meaning, hmeaning, hparse⟩ := parseFrom_cons.1 h
    obtain ⟨hnamed, hother⟩ := ih hrest hparse
    cases meaning with
    | field field given =>
      obtain ⟨rfl, rfl, hfield⟩ := namesField_of_meaning hmeaning
      constructor
      · intro hname
        rw [hnamed hname]
        by_cases hown : name = field
        · subst hown
          simp [Assoc.find?_eq_none_iff.2 hfirst, FilterMeaning.addTo, Assoc.find?]
        · simp [FilterMeaning.addTo, Assoc.find?, Ne.symm hown, Assoc.find?_insert_of_ne _ _ hown]
      · intro hname
        have hown : name ≠ field := fun he => hname (he ▸ hfield)
        rw [hother hname]
        exact Assoc.find?_insert_of_ne _ _ hown
    | partition text | sort condition =>
      refine ⟨fun hname => ?_, hother⟩
      have hown : own ≠ name := fun he => by
        rw [he, meaning_of_namesField hname] at hmeaning
        cases hmeaning
      rw [hnamed hname]
      simp [FilterMeaning.addTo, Assoc.find?, hown]

theorem find?_of_keyArguments {rules : FilterRules} {filters : Arguments}
    (hnodup : (Assoc.keys filters).Nodup) {filter : KeyFilter} (h : rules.parse filters = .ok filter)
    {name : String} {value : Json} (hfind : Assoc.find? filter.keyArguments name = some value) :
    rules.NamesField name ∧ Assoc.find? filters name = some value := by
  obtain ⟨hnamed, hother⟩ := find?_keyArguments hnodup h name
  by_cases hname : rules.NamesField name
  · have hfound := (hnamed hname).symm.trans hfind
    exact ⟨hname, by simpa using hfound⟩
  · cases (hother hname).symm.trans hfind

end FilterRules

/-! ## What the keys fix -/

namespace KeyTemplate

variable {keys : KeyTemplate} {args other : Arguments} {name : String}

/-- What is known of the sort key holds of a sort key only if the two agree on every field that leads. -/
theorem sortKey_leads {words : Vocabulary} (hreadable : Template.Readable words keys.sort.segments)
    (hargs : words.Admits keys.sort.fields args) (hother : words.Admits keys.sort.fields other)
    (hleads : args.Leads name keys.sort.fields) {sort? : Option SortKey}
    (h : keys.sortKey args = .ok sort?) : ∃ sort, sort? = some sort ∧
      ∀ text, keys.sort.render other keys.model = .ok text →
        (SortCondition.ofSortKey sort).accepts text = true → args.segment? name = other.segment? name := by
  obtain ⟨hname, hhas⟩ := hleads.given
  have hpositive : keys.sort.fields.countP args.has ≠ 0 :=
    Nat.ne_of_gt (List.countP_pos_iff.2 ⟨name, hname, hhas⟩)
  simp only [sortKey] at h
  by_cases hall : keys.sort.fields.countP args.has = keys.sort.fields.length
  · rw [if_pos hall] at h
    obtain ⟨whole, hwhole, h⟩ := bind_eq_ok.1 h
    cases h
    refine ⟨_, rfl, fun text htext haccepts => ?_⟩
    have hequal : text = whole := by simpa [SortCondition.ofSortKey, SortCondition.accepts] using haccepts
    subst hequal
    exact Template.renderSegments_injective hreadable hargs hother hwhole htext name hname
  · rw [if_neg hall, if_neg hpositive] at h
    obtain ⟨lead, hlead, h⟩ := bind_eq_ok.1 h
    cases h
    refine ⟨_, rfl, fun text htext haccepts => ?_⟩
    have hbegins : lead.toList <+: text.toList := by
      simpa [SortCondition.ofSortKey, SortCondition.accepts] using haccepts
    have hgap : ∃ missing ∈ keys.sort.fields, args.has missing = false :=
      Decidable.byContradiction fun hnone => hall (List.countP_eq_length.2 fun field hfield =>
        Bool.of_not_eq_false fun hmissing => hnone ⟨field, hfield, hmissing⟩)
    exact Template.leadSegments_injective hreadable hargs hother hlead htext hbegins hgap hleads

/-- What is known of the sort key does not depend on a field that does not lead. -/
theorem sortKey_congr (hothers : ∀ field ≠ name, Assoc.find? args field = Assoc.find? other field)
    (hgiven : name ∈ keys.sort.fields → args.has name = other.has name)
    (hleads : ¬ args.Leads name keys.sort.fields) : keys.sortKey args = keys.sortKey other := by
  have hhas : ∀ field ∈ keys.sort.fields, args.has field = other.has field := by
    intro field hfield
    by_cases hname : field = name
    · exact hname ▸ hgiven (hname ▸ hfield)
    · simp only [Arguments.has, hothers field hname]
  have hcount : keys.sort.fields.countP args.has = keys.sort.fields.countP other.has :=
    List.countP_congr fun field hfield => by rw [hhas field hfield]
  have hlead : keys.sort.lead args = keys.sort.lead other :=
    Template.leadSegments_congr hothers hgiven hleads
  simp only [sortKey, hcount, hlead]
  split
  · -- All fields are given, so the one that does not lead is not a field of the sort key.
    rename_i hall
    have hall := List.countP_eq_length.1 (hcount.trans hall)
    have hname : name ∉ keys.sort.fields := fun hname => hleads (Arguments.leads_of_all hname hall)
    have hrender : keys.sort.render args keys.model = keys.sort.render other keys.model :=
      Template.renderSegments_congr fun field hfield =>
        Arguments.segment?_congr (hothers field fun he => hname (he ▸ hfield))
    rw [hrender]
  · rfl

theorem sortKey_nil (h : keys.sort.fields ≠ []) : keys.sortKey [] = .ok none := by
  have hcount : keys.sort.fields.countP (Arguments.has []) = 0 :=
    List.countP_eq_zero.2 fun name _ => Bool.false_ne_true
  have hlength : (0 : Nat) ≠ keys.sort.fields.length := fun he => h (List.length_eq_zero_iff.1 he.symm)
  simp only [sortKey, hcount, if_neg hlength, if_true]
  rfl

end KeyTemplate

/-! ## Filters that count -/

/-- Whether filters pin a field of the keys. -/
def KeyFilter.Pins (filter : KeyFilter) (keys : KeyTemplate) (name : String) : Prop :=
  (filter.partition? = none ∧ name ∈ keys.partition.fields) ∨
    filter.keyArguments.Leads name keys.sort.fields

/-- Whether filters fix the same but for one field. -/
structure KeyFilter.SameBut (name : String) (a b : KeyFilter) : Prop where
  partition : a.partition? = b.partition?
  sort : a.sort? = b.sort?
  others : ∀ other ≠ name, Assoc.find? a.keyArguments other = Assoc.find? b.keyArguments other

namespace FilterRules

variable {rules : FilterRules} {filters : Arguments} {filter : KeyFilter} {query : Query}

theorem toQuery_eq_ok : rules.toQuery filters = .ok query ↔ ∃ filter found,
    rules.parse filters = .ok filter ∧ rules.resolve filter = .ok found ∧
      (filter.sort? = none ∨ found.sort? = none) ∧
      query = { partition? := some found.partition, partitionName := rules.partitionName,
                sortName := rules.sortName,
                sort? := filter.sort?.or (found.sort?.map SortCondition.ofSortKey) } := by
  constructor
  · intro h
    obtain ⟨filter, hparse, h⟩ := bind_eq_ok.1 h
    obtain ⟨⟨partition, sort?⟩, hresolve, h⟩ := bind_eq_ok.1 h
    refine ⟨filter, ⟨partition, sort?⟩, hparse, hresolve, ?_⟩
    cases hgiven : filter.sort? with
    | none =>
      refine ⟨Or.inl rfl, ?_⟩
      cases sort? <;> (simp only [hgiven] at h; cases h; rfl)
    | some condition =>
      cases sort? with
      | none =>
        simp only [hgiven] at h
        cases h
        exact ⟨Or.inr rfl, rfl⟩
      | some sort =>
        simp only [hgiven] at h
        cases h
  · rintro ⟨filter, ⟨partition, sort?⟩, hparse, hresolve, hsort, rfl⟩
    refine bind_eq_ok.2 ⟨filter, hparse, bind_eq_ok.2 ⟨_, hresolve, ?_⟩⟩
    cases hgiven : filter.sort? with
    | none => cases sort? <;> rfl
    | some condition =>
      cases hsort.resolve_left (by simp [hgiven])
      rfl

section Template

variable {keys : KeyTemplate} (hkeys : rules.keys = keys.strategy)

include hkeys

/-- With or without a partition, the key fields fix the sort key. -/
theorem resolve_eq (hfields : keys.sort.fields ≠ [] ∨ filter.keyArguments ≠ []) :
    rules.resolve filter =
      match filter.partition? with
      | some partition => do pure ⟨partition, ← keys.sortKey filter.keyArguments⟩
      | none => keys.query filter.keyArguments := by
  simp only [resolve, hkeys]
  cases filter.partition? with
  | none => rfl
  | some partition =>
    cases hargs : filter.keyArguments with
    | cons first rest => rfl
    | nil =>
      have hnil := keys.sortKey_nil (hfields.resolve_right fun h => h hargs)
      simp only [hnil]
      rfl

theorem resolve_congr {other : KeyFilter} {name : String} (hsame : KeyFilter.SameBut name filter other)
    (hgiven : name ∈ keys.sort.fields → filter.keyArguments.has name = other.keyArguments.has name)
    (hfields : keys.sort.fields ≠ [] ∨ filter.keyArguments ≠ [] ∧ other.keyArguments ≠ [])
    (hpins : ¬ filter.Pins keys name) : rules.resolve filter = rules.resolve other := by
  have hsort : keys.sortKey filter.keyArguments = keys.sortKey other.keyArguments :=
    KeyTemplate.sortKey_congr hsame.others hgiven fun hleads => hpins (Or.inr hleads)
  rw [resolve_eq hkeys (hfields.imp_right And.left), resolve_eq hkeys (hfields.imp_right And.right),
    ← hsame.partition]
  cases hpartition : filter.partition? with
  | some partition => simp only [hsort]
  | none =>
    have hname : name ∉ keys.partition.fields := fun hname => hpins (Or.inl ⟨hpartition, hname⟩)
    have hrender : keys.partition.render filter.keyArguments keys.model =
        keys.partition.render other.keyArguments keys.model :=
      Template.renderSegments_congr fun field hfield =>
        Arguments.segment?_congr (hsame.others field fun he => hname (he ▸ hfield))
    simp only [KeyTemplate.query, hrender, hsort]

theorem partition_of_resolve {found : KeyQuery} (hnone : filter.partition? = none)
    (h : rules.resolve filter = .ok found) :
    keys.partition.render filter.keyArguments keys.model = .ok found.partition := by
  simp only [resolve, hnone, hkeys] at h
  obtain ⟨partition, hrendered, h⟩ := bind_eq_ok.1 h
  obtain ⟨sort?, -, h⟩ := bind_eq_ok.1 h
  cases h
  exact hrendered

theorem sortKey_of_resolve {found : KeyQuery} (hne : filter.keyArguments ≠ [])
    (h : rules.resolve filter = .ok found) : keys.sortKey filter.keyArguments = .ok found.sort? := by
  rw [resolve_eq hkeys (Or.inr hne)] at h
  split at h
  · obtain ⟨sort?, hsort, h⟩ := bind_eq_ok.1 h
    cases h
    exact hsort
  · obtain ⟨partition, -, h⟩ := bind_eq_ok.1 h
    obtain ⟨sort?, hsort, h⟩ := bind_eq_ok.1 h
    cases h
    exact hsort

/-- A filter that is pinned is given. -/
theorem pinned_given (hparse : rules.parse filters = .ok filter) (hquery : rules.toQuery filters = .ok query)
    {name : String} (hpins : filter.Pins keys name) :
    ∃ given, Assoc.find? filter.keyArguments name = some given := by
  obtain ⟨parsed, found, hparsed, hresolve, -, -⟩ := toQuery_eq_ok.1 hquery
  cases hparse.symm.trans hparsed
  rcases hpins with ⟨hnone, hname⟩ | hleads
  · have hrendered := partition_of_resolve hkeys hnone hresolve
    obtain ⟨text, htext⟩ := Template.renderSegments_given hrendered name hname
    obtain ⟨given, hfind, -⟩ := Arguments.segment?_eq_some htext
    exact ⟨given, hfind⟩
  · exact Arguments.find?_of_has hleads.given.2

/-- A record that the query of some filters selects has the value of each filter that is pinned. -/
theorem toQuery_pinned {words : Vocabulary} (hreadable : keys.Readable words)
    (hsorted : Assoc.Sorted filters) (hfilters : words.Admits keys.fields filters)
    (hparse : rules.parse filters = .ok filter) (hquery : rules.toQuery filters = .ok query)
    {value : Arguments} {key : Key} (hvalue : words.Admits keys.fields value)
    (hkey : keys.key value = .ok key) (hpartition : query.partition? = some key.partition)
    (hsort : ∀ condition, query.sort? = some condition → condition.accepts key.sort = true)
    {name : String} (hpins : filter.Pins keys name) :
    Arguments.segment? value name = filters.segment? name := by
  have hgiven : ∀ field given, Assoc.find? filter.keyArguments field = some given →
      filters.segment? field = filter.keyArguments.segment? field := by
    intro field given hfield
    exact Arguments.segment?_congr
      ((find?_of_keyArguments hsorted.nodup hparse hfield).2.trans hfield.symm)
  have hadmits : words.Admits keys.fields filter.keyArguments := by
    intro field hfield text htext
    obtain ⟨given, hfind, -⟩ := Arguments.segment?_eq_some htext
    exact hfilters field hfield text ((hgiven field given hfind).trans htext)
  obtain ⟨given, hfind⟩ := pinned_given hkeys hparse hquery hpins
  rw [hgiven name given hfind]
  obtain ⟨hrenderPartition, hrenderSort⟩ := KeyTemplate.key_eq_ok hkey
  obtain ⟨parsed, found, hparsed, hresolve, hclash, rfl⟩ := toQuery_eq_ok.1 hquery
  cases hparse.symm.trans hparsed
  have hfound : found.partition = key.partition := Option.some.inj hpartition
  rcases hpins with ⟨hnone, hname⟩ | hleads
  · have hrendered := partition_of_resolve hkeys hnone hresolve
    rw [hfound] at hrendered
    exact Template.renderSegments_injective hreadable.1
      (fun n hn => hvalue n (KeyTemplate.mem_fields.2 (Or.inl hn)))
      (fun n hn => hadmits n (KeyTemplate.mem_fields.2 (Or.inl hn))) hrenderPartition hrendered name hname
  · have hne : filter.keyArguments ≠ [] := by
      intro hnil
      rw [hnil] at hfind
      cases hfind
    have hsortKey := sortKey_of_resolve hkeys hne hresolve
    obtain ⟨sort, hsome, hagree⟩ := KeyTemplate.sortKey_leads hreadable.2
      (fun n hn => hadmits n (KeyTemplate.mem_fields.2 (Or.inr hn)))
      (fun n hn => hvalue n (KeyTemplate.mem_fields.2 (Or.inr hn))) hleads hsortKey
    -- The key fields fix the sort key, so no other condition on it is allowed.
    have hfree : filter.sort? = none := hclash.resolve_right (by simp [hsome])
    have haccepts := hsort (SortCondition.ofSortKey sort) (by simp [hfree, hsome])
    exact (hagree key.sort hrenderSort haccepts).symm

end Template

/-! ## Filters that do not -/

theorem addTo_sameBut {name : String} {a b : KeyFilter} (h : KeyFilter.SameBut name a b)
    (meaning : FilterMeaning) : KeyFilter.SameBut name (meaning.addTo a) (meaning.addTo b) := by
  cases meaning with
  | partition text => exact ⟨rfl, h.sort, h.others⟩
  | sort condition => exact ⟨h.partition, rfl, h.others⟩
  | field field value =>
    refine ⟨h.partition, h.sort, fun other hother => ?_⟩
    simp only [FilterMeaning.addTo, Assoc.find?_insert, h.others other hother]

theorem parseFrom_sameBut {name : String} {a b : KeyFilter} (h : KeyFilter.SameBut name a b)
    (hparse : rules.parseFrom a filters = .ok filter) :
    ∃ other, rules.parseFrom b filters = .ok other ∧ KeyFilter.SameBut name filter other := by
  induction filters generalizing a b with
  | nil =>
    cases hparse
    exact ⟨b, rfl, h⟩
  | cons first rest ih =>
    obtain ⟨meaning, hmeaning, hrest⟩ := parseFrom_cons.1 hparse
    obtain ⟨other, hother, hsame⟩ := ih (addTo_sameBut h meaning) hrest
    exact ⟨other, parseFrom_cons.2 ⟨meaning, hmeaning, hother⟩, hsame⟩

theorem parseFrom_append {read : KeyFilter} {before after : Arguments} :
    rules.parseFrom read (before ++ after) = .ok filter ↔ ∃ middle,
      rules.parseFrom read before = .ok middle ∧ rules.parseFrom middle after = .ok filter := by
  simp only [parseFrom, List.foldlM_append]
  exact bind_eq_ok

section Unpinned

variable {name : String} {value : Json} (hname : rules.NamesField name)

include hname

theorem parseFrom_field {read : KeyFilter} {rest : Arguments} :
    rules.parseFrom read ((name, value) :: rest) =
      rules.parseFrom { read with keyArguments := Assoc.insert read.keyArguments name value } rest := by
  simp only [parseFrom, List.foldlM_cons, add_eq, meaning_of_namesField hname]
  rfl

variable (hsorted : Assoc.Sorted filters) (hvalue : Assoc.find? filters name = some value)
  (hparse : rules.parse filters = .ok filter)

include hsorted hvalue hparse

/-- With another value for one field, filters fix the same but for it. -/
theorem parse_insert (other : Json) : ∃ changed,
    rules.parse (Assoc.insert filters name other) = .ok changed ∧
      KeyFilter.SameBut name filter changed := by
  obtain ⟨before, after, hsplit, hinsert, -⟩ := hsorted.split hvalue
  rw [hsplit, parse_eq] at hparse
  obtain ⟨middle, hbefore, hafter⟩ := parseFrom_append.1 hparse
  rw [parseFrom_field hname] at hafter
  have hsame : KeyFilter.SameBut name
      { middle with keyArguments := Assoc.insert middle.keyArguments name value }
      { middle with keyArguments := Assoc.insert middle.keyArguments name other } :=
    ⟨rfl, rfl, fun field hfield => by
      rw [Assoc.find?_insert_of_ne _ _ hfield, Assoc.find?_insert_of_ne _ _ hfield]⟩
  obtain ⟨changed, hchanged, hsame⟩ := parseFrom_sameBut hsame hafter
  refine ⟨changed, ?_, hsame⟩
  rw [hinsert other, parse_eq]
  exact parseFrom_append.2 ⟨middle, hbefore, by rw [parseFrom_field hname]; exact hchanged⟩

/-- Without the filter on one field, filters fix the same but for it. -/
theorem parse_erase : ∃ changed, rules.parse (Assoc.erase filters name) = .ok changed ∧
    KeyFilter.SameBut name filter changed := by
  obtain ⟨before, after, hsplit, -, herase⟩ := hsorted.split hvalue
  rw [hsplit, parse_eq] at hparse
  obtain ⟨middle, hbefore, hafter⟩ := parseFrom_append.1 hparse
  rw [parseFrom_field hname] at hafter
  have hsame : KeyFilter.SameBut name
      { middle with keyArguments := Assoc.insert middle.keyArguments name value } middle :=
    ⟨rfl, rfl, fun field hfield => Assoc.find?_insert_of_ne _ _ hfield⟩
  obtain ⟨changed, hchanged, hsame⟩ := parseFrom_sameBut hsame hafter
  refine ⟨changed, ?_, hsame⟩
  rw [herase, parse_eq]
  exact parseFrom_append.2 ⟨middle, hbefore, hchanged⟩

variable {keys : KeyTemplate} (hkeys : rules.keys = keys.strategy) (hpins : ¬ filter.Pins keys name)

include hkeys hpins

/-- The value of a filter that is not pinned is never looked at, only whether there is one. -/
theorem toQuery_insert {other : Json}
    (hnull : name ∈ keys.sort.fields → other.isNull = value.isNull) :
    rules.toQuery (Assoc.insert filters name other) = rules.toQuery filters := by
  obtain ⟨changed, hchanged, hsame⟩ := parse_insert hname hsorted hvalue hparse other
  have hfind : Assoc.find? filter.keyArguments name = some value := by
    rw [(find?_keyArguments hsorted.nodup hparse name).1 hname, hvalue]
    rfl
  have hfind' : Assoc.find? changed.keyArguments name = some other := by
    rw [(find?_keyArguments (Assoc.sorted_insert hsorted name other).nodup hchanged name).1 hname,
      Assoc.find?_insert_self]
    rfl
  have hne : ∀ {args : Arguments} {given : Json}, Assoc.find? args name = some given → args ≠ [] := by
    rintro args given hgiven rfl
    cases hgiven
  have hresolve := resolve_congr hkeys hsame
    (fun hfield => by simp only [Arguments.has, hfind, hfind', Option.any_some, hnull hfield])
    (Or.inr ⟨hne hfind, hne hfind'⟩) hpins
  simp only [toQuery, hparse, hchanged]
  show (rules.resolve changed >>= _) = (rules.resolve filter >>= _)
  rw [hresolve, hsame.sort]

/-- Where the sort key has fields, a filter that is not pinned can as well be left out, if it is null or not
on one of these. -/
theorem toQuery_erase (hfields : keys.sort.fields ≠ [])
    (hnull : name ∈ keys.sort.fields → value.isNull = true) :
    rules.toQuery (Assoc.erase filters name) = rules.toQuery filters := by
  obtain ⟨changed, hchanged, hsame⟩ := parse_erase hname hsorted hvalue hparse
  have hfind : Assoc.find? filter.keyArguments name = some value := by
    rw [(find?_keyArguments hsorted.nodup hparse name).1 hname, hvalue]
    rfl
  have hfind' : Assoc.find? changed.keyArguments name = none := by
    rw [(find?_keyArguments (Assoc.sorted_erase hsorted name).nodup hchanged name).1 hname,
      Assoc.find?_erase_self]
    rfl
  have hresolve := resolve_congr hkeys hsame
    (fun hfield => by simp [Arguments.has, hfind, hfind', hnull hfield]) (Or.inl hfields) hpins
  simp only [toQuery, hparse, hchanged]
  show (rules.resolve changed >>= _) = (rules.resolve filter >>= _)
  rw [hresolve, hsame.sort]

end Unpinned

end FilterRules

end KeyedRecords
