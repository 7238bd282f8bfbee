import KeyedRecords.Proofs.Key.Coverage
import KeyedRecords.Proofs.Query.SortFilter

/-! Filters that give all fields of a template pair. They ask for the partition of the key that the fields make, and
for its very sort key, if no name is taken for something else: a key attribute counts before a field of its
name, and a double underscore begins a comparison. Main statement: `FilterRules.toQuery_filled`. -/

namespace KeyedRecords

/-! ## Arguments for all fields -/

namespace Arguments

theorem segment?_cons_self (name : String) (value : Json) (rest : Arguments) {text : String}
    (h : value.segment? = .ok (some text)) :
    Arguments.segment? ((name, value) :: rest) name = .ok (some text) := by
  simp only [segment?, Assoc.find?, if_true, h]

theorem segment?_cons_of_ne {name other : String} (h : name ≠ other) (value : Json) (rest : Arguments) :
    Arguments.segment? ((name, value) :: rest) other = rest.segment? other := by
  simp only [segment?, Assoc.find?, if_neg h]

theorem eq_nil_of_find? {args : Arguments} (h : ∀ name, Assoc.find? args name = none) : args = [] := by
  cases args with
  | nil => rfl
  | cons entry rest =>
    have hnone := h entry.1
    simp [Assoc.find?] at hnone

end Arguments

theorem Template.renderSegments_of_given {args : Arguments} (model : String) {segments : List Segment}
    (h : ∀ name ∈ fieldNames segments, ∃ text, args.segment? name = .ok (some text)) :
    ∃ text, renderSegments args model segments = .ok text := by
  induction segments with
  | nil => exact ⟨"", rfl⟩
  | cons segment rest ih =>
    cases segment with
    | literal literal =>
      obtain ⟨more, hmore⟩ := ih h
      exact ⟨literal ++ more, by simp only [renderSegments, hmore]; rfl⟩
    | field name =>
      obtain ⟨more, hmore⟩ := ih fun other hother => h other (List.mem_cons_of_mem _ hother)
      obtain ⟨text, htext⟩ := h name List.mem_cons_self
      exact ⟨text ++ more, by simp only [renderSegments, htext, hmore]; rfl⟩

/-- A template that is one field renders as its value. -/
theorem Template.render_field {template : Template} {args : Arguments} {model name text : String}
    (hsegments : template.segments = [.field name]) (h : template.render args model = .ok text) :
    args.segment? name = .ok (some text) := by
  rw [render, hsegments] at h
  obtain ⟨value, more, hvalue, hmore, rfl⟩ := renderSegments_field h
  cases hmore
  rw [hvalue, String.append_empty]

namespace KeyTemplate

variable {keys : KeyTemplate} {args other : Arguments} {key : Key}

/-- Whether arguments give every field of the keys a text, and nothing else. -/
structure FilledBy (keys : KeyTemplate) (args : Arguments) : Prop where
  sorted : Assoc.Sorted args
  names : ∀ name, name ∈ Assoc.keys args ↔ name ∈ keys.fields
  scalars : ∀ name value, (name, value) ∈ args → ∃ text, value.segment? = .ok (some text)

theorem FilledBy.segment? (h : keys.FilledBy args) {name : String} (hname : name ∈ keys.fields) :
    ∃ text, args.segment? name = .ok (some text) := by
  obtain ⟨⟨own, value⟩, hentry, rfl⟩ := List.mem_map.1 ((h.names name).2 hname)
  obtain ⟨text, htext⟩ := h.scalars own value hentry
  have hfind := Assoc.find?_of_mem h.sorted.nodup hentry
  exact ⟨text, by simp only [Arguments.segment?, hfind, htext]⟩

/-- Such arguments make a key. -/
theorem FilledBy.exists_key (h : keys.FilledBy args) : ∃ key, keys.key args = .ok key := by
  have hpartitionGiven : ∀ name ∈ Template.fieldNames keys.partition.segments,
      ∃ text, args.segment? name = .ok (some text) := fun name hname => h.segment? (mem_fields.2 (Or.inl hname))
  have hsortGiven : ∀ name ∈ Template.fieldNames keys.sort.segments,
      ∃ text, args.segment? name = .ok (some text) := fun name hname => h.segment? (mem_fields.2 (Or.inr hname))
  obtain ⟨partition, hpartition⟩ := Template.renderSegments_of_given keys.model hpartitionGiven
  obtain ⟨sort, hsort⟩ := Template.renderSegments_of_given keys.model hsortGiven
  exact ⟨⟨partition, sort⟩, bind_eq_ok.2 ⟨partition, hpartition, bind_eq_ok.2 ⟨sort, hsort, rfl⟩⟩⟩

theorem FilledBy.ne_nil (h : keys.FilledBy args) (hfields : keys.fields ≠ []) : args ≠ [] := by
  rintro rfl
  obtain ⟨name, hname⟩ := List.exists_mem_of_ne_nil _ hfields
  exact absurd ((h.names name).2 hname) List.not_mem_nil

/-- Where the arguments have all that the sort key is made from, it is known whole. -/
theorem sortKey_exact {sort : String} (hrender : keys.sort.render args keys.model = .ok sort)
    (hsame : ∀ name ∈ keys.sort.fields, other.segment? name = args.segment? name) :
    keys.sortKey other = .ok (some (.exact sort)) := by
  have hrender' : keys.sort.render other keys.model = .ok sort := by
    rw [← hrender]
    exact Template.renderSegments_congr hsame
  have hall : keys.sort.fields.countP other.has = keys.sort.fields.length :=
    List.countP_eq_length.2 fun name hname => by
      obtain ⟨text, htext⟩ := Template.renderSegments_given hrender' name hname
      exact Arguments.has_of_segment? htext
  simp only [sortKey, hall, if_true, hrender']
  rfl

end KeyTemplate

/-! ## Their filters -/

namespace FilterRules

variable {rules : FilterRules} {keys : KeyTemplate} {args : Arguments} {key : Key}

/-- Whether filters on all fields of the keys can be told from filters on the key attributes. A field with the name of
a key attribute is that key alone; the one of the partition key may be in the sort key too, if there is no other
field. -/
structure Tells (rules : FilterRules) (keys : KeyTemplate) : Prop where
  plain : ∀ name ∈ keys.fields, splitSuffix name = (name, none)
  partition : rules.partitionName ∈ keys.fields →
    keys.partition.segments = [.field rules.partitionName] ∧
      (rules.partitionName ∉ keys.sort.fields ∨ ∀ name ∈ keys.fields, name = rules.partitionName)
  sort : rules.sortName ∈ keys.fields → rules.sortName ≠ rules.partitionName →
    keys.sort.segments = [.field rules.sortName] ∧ rules.sortName ∉ keys.partition.fields

theorem meaning_partition {value : Json} {text : String}
    (hplain : splitSuffix rules.partitionName = (rules.partitionName, none))
    (htext : value.segment? = .ok (some text)) :
    rules.meaning rules.partitionName value = .ok (.partition text) := by
  simp only [meaning, hplain, if_true, filterText_eq_ok.2 htext]
  rfl

theorem meaning_sort {value : Json} {text : String} (hne : rules.sortName ≠ rules.partitionName)
    (hplain : splitSuffix rules.sortName = (rules.sortName, none))
    (htext : value.segment? = .ok (some text)) :
    rules.meaning rules.sortName value = .ok (.sort (.equal text)) := by
  have hnames : rules.NamesSort rules.sortName none := ⟨hplain, hne⟩
  rw [meaning_of_namesSort hnames, Comparison.condition, filterText_eq_ok.2 htext]
  rfl

/-- Whether a filter fixes the key attributes that some arguments name, and has the others as they were read before. -/
structure Fixes (rules : FilterRules) (read : KeyFilter) (args : Arguments) (filter : KeyFilter) : Prop where
  partition : ∀ text, args.segment? rules.partitionName = .ok (some text) → filter.partition? = some text
  noPartition : rules.partitionName ∉ Assoc.keys args → filter.partition? = read.partition?
  sort : rules.sortName ≠ rules.partitionName → ∀ text, args.segment? rules.sortName = .ok (some text) →
    filter.sort? = some (.equal text)
  noSort : rules.sortName = rules.partitionName ∨ rules.sortName ∉ Assoc.keys args → filter.sort? = read.sort?

namespace Fixes

variable {read filter : KeyFilter} {name text : String} {value : Json} {rest : Arguments}

theorem nil (rules : FilterRules) (read : KeyFilter) : rules.Fixes read [] read where
  partition _ h := nomatch h
  noPartition _ := rfl
  sort _ _ h := nomatch h
  noSort _ := rfl

theorem cons_partition (hfirst : rules.partitionName ∉ Assoc.keys rest) (htext : value.segment? = .ok (some text))
    (h : rules.Fixes { read with partition? := some text } rest filter) :
    rules.Fixes read ((rules.partitionName, value) :: rest) filter where
  partition given hgiven := by
    cases (Arguments.segment?_cons_self rules.partitionName value rest htext).symm.trans hgiven
    exact h.noPartition hfirst
  noPartition hnone := absurd List.mem_cons_self hnone
  sort hne given hgiven := by
    rw [Arguments.segment?_cons_of_ne (Ne.symm hne)] at hgiven
    exact h.sort hne given hgiven
  noSort hnone := h.noSort (hnone.imp_right fun hnone hmem => hnone (List.mem_cons_of_mem _ hmem))

theorem cons_sort (hne : rules.sortName ≠ rules.partitionName) (hfirst : rules.sortName ∉ Assoc.keys rest)
    (htext : value.segment? = .ok (some text))
    (h : rules.Fixes { read with sort? := some (.equal text) } rest filter) :
    rules.Fixes read ((rules.sortName, value) :: rest) filter where
  partition given hgiven := by
    rw [Arguments.segment?_cons_of_ne hne] at hgiven
    exact h.partition given hgiven
  noPartition hnone := h.noPartition fun hmem => hnone (List.mem_cons_of_mem _ hmem)
  sort _ given hgiven := by
    cases (Arguments.segment?_cons_self rules.sortName value rest htext).symm.trans hgiven
    exact h.noSort (Or.inr hfirst)
  noSort hnone := absurd List.mem_cons_self (hnone.resolve_left hne)

theorem cons_field (hpartition : name ≠ rules.partitionName) (hsort : name ≠ rules.sortName)
    (h : rules.Fixes { read with keyArguments := Assoc.insert read.keyArguments name value } rest filter) :
    rules.Fixes read ((name, value) :: rest) filter where
  partition given hgiven := by
    rw [Arguments.segment?_cons_of_ne hpartition] at hgiven
    exact h.partition given hgiven
  noPartition hnone := h.noPartition fun hmem => hnone (List.mem_cons_of_mem _ hmem)
  sort hne given hgiven := by
    rw [Arguments.segment?_cons_of_ne hsort] at hgiven
    exact h.sort hne given hgiven
  noSort hnone := h.noSort (hnone.imp_right fun hnone hmem => hnone (List.mem_cons_of_mem _ hmem))

end Fixes

/-- Scalars under plain names of key fields are all read: those with the name of a key attribute fix it. -/
theorem parseFrom_scalars (rules : FilterRules) (hnodup : (Assoc.keys args).Nodup)
    (hfields : ∀ name value, (name, value) ∈ args → splitSuffix name = (name, none) ∧
      name ∈ rules.keys.fields ∧ ∃ text, value.segment? = .ok (some text)) (read : KeyFilter) :
    ∃ filter, rules.parseFrom read args = .ok filter ∧ rules.Fixes read args filter := by
  induction args generalizing read with
  | nil => exact ⟨read, rfl, .nil rules read⟩
  | cons entry rest ih =>
    obtain ⟨name, value⟩ := entry
    obtain ⟨hfirst, hrest⟩ := List.nodup_cons.1 hnodup
    obtain ⟨hplain, hfield, text, htext⟩ := hfields name value List.mem_cons_self
    have hrest := ih hrest fun n v hmem => hfields n v (List.mem_cons_of_mem _ hmem)
    by_cases hpartition : name = rules.partitionName
    · subst hpartition
      obtain ⟨filter, hparse, hfixes⟩ := hrest { read with partition? := some text }
      exact ⟨filter, parseFrom_cons.2 ⟨_, meaning_partition hplain htext, hparse⟩, .cons_partition hfirst htext hfixes⟩
    by_cases hsort : name = rules.sortName
    · subst hsort
      obtain ⟨filter, hparse, hfixes⟩ := hrest { read with sort? := some (.equal text) }
      exact ⟨filter, parseFrom_cons.2 ⟨_, meaning_sort hpartition hplain htext, hparse⟩,
        .cons_sort hpartition hfirst htext hfixes⟩
    · obtain ⟨filter, hparse, hfixes⟩ := hrest { read with keyArguments := Assoc.insert read.keyArguments name value }
      have hnames : rules.NamesField name := ⟨hplain, hpartition, hsort, hfield⟩
      exact ⟨filter, parseFrom_cons.2 ⟨_, meaning_of_namesField hnames value, hparse⟩,
        .cons_field hpartition hsort hfixes⟩

/-- Whether filters that give all fields of the keys are told apart: those with the name of a key attribute fix it,
and the others are key arguments. -/
structure Splits (rules : FilterRules) (keys : KeyTemplate) (args : Arguments) (filter : KeyFilter) : Prop where
  given : ∀ name ∈ keys.fields, name ≠ rules.partitionName → name ≠ rules.sortName →
    filter.keyArguments.segment? name = args.segment? name
  missing : ∀ name, name ∉ keys.fields ∨ name = rules.partitionName ∨ name = rules.sortName →
    Assoc.find? filter.keyArguments name = none
  partition : ∀ text, args.segment? rules.partitionName = .ok (some text) → filter.partition? = some text
  noPartition : rules.partitionName ∉ keys.fields → filter.partition? = none
  sort : rules.sortName ≠ rules.partitionName → ∀ text, args.segment? rules.sortName = .ok (some text) →
    filter.sort? = some (.equal text)
  noSort : rules.sortName = rules.partitionName ∨ rules.sortName ∉ keys.fields → filter.sort? = none

section Filled

variable (hkeys : rules.keys = keys.strategy)

include hkeys

theorem parse_filled (hplain : ∀ name ∈ keys.fields, splitSuffix name = (name, none))
    (hfilled : keys.FilledBy args) : ∃ filter, rules.parse args = .ok filter ∧ rules.Splits keys args filter := by
  have hfields : rules.keys.fields = keys.fields := by rw [hkeys]; rfl
  have hnodup := hfilled.sorted.nodup
  obtain ⟨filter, hparse, hfixes⟩ :=
    parseFrom_scalars rules hnodup (fun name value hentry => by
      have hname := (hfilled.names name).1 (List.mem_map.2 ⟨(name, value), hentry, rfl⟩)
      exact ⟨hplain name hname, hfields ▸ hname, hfilled.scalars name value hentry⟩) {}
  refine ⟨filter, hparse, ?_, ?_, hfixes.partition, ?_, hfixes.sort, ?_⟩
  · intro name hname hne hne'
    have hfind := (find?_keyArguments hnodup hparse name).1 ⟨hplain name hname, hne, hne', hfields ▸ hname⟩
    refine Arguments.segment?_congr (hfind.trans ?_)
    cases Assoc.find? args name <;> rfl
  · intro name hname
    refine (find?_keyArguments hnodup hparse name).2 fun hnames => ?_
    rcases hname with hname | hname | hname
    · exact hname (hfields ▸ hnames.field)
    · exact hnames.partition hname
    · exact hnames.sort hname
  · exact fun h => hfixes.noPartition fun hmem => h ((hfilled.names _).1 hmem)
  · exact fun h => hfixes.noSort (h.imp_right fun h hmem => h ((hfilled.names _).1 hmem))

end Filled

section Resolve

variable {filter : KeyFilter} (hsplits : rules.Splits keys args filter) (hkey : keys.key args = .ok key)

include hsplits hkey

/-- Where the sort key attribute is no field, the key arguments make the sort key. -/
theorem sortKey_of_splits (hpartition : rules.partitionName ∉ keys.sort.fields)
    (hsort : rules.sortName = rules.partitionName ∨ rules.sortName ∉ keys.fields) :
    keys.sortKey filter.keyArguments = .ok (some (.exact key.sort)) := by
  refine KeyTemplate.sortKey_exact (KeyTemplate.key_eq_ok hkey).2 fun name hname => ?_
  have hfield := KeyTemplate.mem_fields.2 (Or.inr hname)
  have hne : name ≠ rules.partitionName := fun he => hpartition (he ▸ hname)
  exact hsplits.given name hfield hne fun he =>
    hsort.elim (fun hsame => hne (he.trans hsame)) fun hmissing => hmissing (he ▸ hfield)

variable (hkeys : rules.keys = keys.strategy) (htells : rules.Tells keys)

include hkeys htells

/-- Where the partition key attribute is a field, it fixes the partition. -/
theorem resolve_of_partition (hpartition : rules.partitionName ∈ keys.fields) : ∃ found,
    rules.resolve filter = .ok found ∧ found.partition = key.partition ∧
      (filter.sort? = none ∨ found.sort? = none) ∧
      (filter.sort?.or (found.sort?.map SortCondition.ofSortKey) = some (.equal key.sort) ∨
        filter.sort?.or (found.sort?.map SortCondition.ofSortKey) = none ∧
          ∀ name ∈ keys.fields, name = rules.partitionName) := by
  obtain ⟨hsegments, halone⟩ := htells.partition hpartition
  have hgiven := hsplits.partition _ (Template.render_field hsegments (KeyTemplate.key_eq_ok hkey).1)
  have hfields : keys.partition.fields = [rules.partitionName] := by simp [Template.fields, hsegments]
  have hresolve : filter.keyArguments = [] → rules.resolve filter = .ok ⟨key.partition, none⟩ := by
    intro hnil
    simp only [resolve, hgiven, hnil]
    rfl
  by_cases hall : ∀ name ∈ keys.fields, name = rules.partitionName
  · have hnoSort := hsplits.noSort (Decidable.or_iff_not_imp_right.2 fun h => hall _ (Decidable.of_not_not h))
    have hnil : filter.keyArguments = [] := Arguments.eq_nil_of_find? fun name =>
      hsplits.missing name (Decidable.or_iff_not_imp_left.2 fun h => Or.inl (hall name (Decidable.of_not_not h)))
    exact ⟨_, hresolve hnil, rfl, Or.inr rfl, Or.inr ⟨by simp [hnoSort], hall⟩⟩
  · have hnoField := halone.resolve_right hall
    by_cases hsortName : rules.sortName = rules.partitionName ∨ rules.sortName ∉ keys.fields
    · have hsortKey := sortKey_of_splits hsplits hkey hnoField hsortName
      have hne : filter.keyArguments ≠ [] := by
        intro hnil
        obtain ⟨name, hname⟩ := Classical.not_forall.1 hall
        obtain ⟨hname, hother⟩ := Classical.not_imp.1 hname
        have hsortField : name ∈ keys.sort.fields := by
          simpa [KeyTemplate.mem_fields, hfields, hother] using hname
        rw [hnil, KeyTemplate.sortKey_nil (List.ne_nil_of_mem hsortField)] at hsortKey
        cases hsortKey
      refine ⟨⟨key.partition, some (.exact key.sort)⟩, ?_, rfl, Or.inl (hsplits.noSort hsortName), Or.inl ?_⟩
      · rw [resolve_eq hkeys (Or.inr hne)]
        simp only [hgiven, hsortKey]
        rfl
      · rw [hsplits.noSort hsortName]
        rfl
    · obtain ⟨hne, hfield⟩ := not_or.1 hsortName
      have hfield := Decidable.of_not_not hfield
      obtain ⟨hsortSegments, -⟩ := htells.sort hfield hne
      have hsort := hsplits.sort hne _ (Template.render_field hsortSegments (KeyTemplate.key_eq_ok hkey).2)
      have hsortFields : keys.sort.fields = [rules.sortName] := by simp [Template.fields, hsortSegments]
      have hnil : filter.keyArguments = [] := Arguments.eq_nil_of_find? fun name => by
        refine hsplits.missing name ?_
        by_cases hname : name ∈ keys.fields
        · exact Or.inr (by simpa [KeyTemplate.mem_fields, hfields, hsortFields] using hname)
        · exact Or.inl hname
      exact ⟨_, hresolve hnil, rfl, Or.inr rfl, Or.inl (by rw [hsort]; rfl)⟩

/-- Where it is not, the key arguments make the partition. -/
theorem resolve_of_noPartition (hpartition : rules.partitionName ∉ keys.fields) : ∃ found,
    rules.resolve filter = .ok found ∧ found.partition = key.partition ∧
      (filter.sort? = none ∨ found.sort? = none) ∧
      filter.sort?.or (found.sort?.map SortCondition.ofSortKey) = some (.equal key.sort) := by
  have hresolve : rules.resolve filter = keys.query filter.keyArguments := by
    simp only [resolve, hsplits.noPartition hpartition, hkeys]
    rfl
  have hne : ∀ name ∈ keys.fields, name ≠ rules.partitionName := fun name hname he => hpartition (he ▸ hname)
  have hquery : ∀ sort?, (rules.sortName ∈ keys.fields → rules.sortName ∉ keys.partition.fields) →
      keys.sortKey filter.keyArguments = .ok sort? →
      rules.resolve filter = .ok ⟨key.partition, sort?⟩ := by
    intro sort? hsortName hsortKey
    have hrender : keys.partition.render filter.keyArguments keys.model = .ok key.partition := by
      rw [← (KeyTemplate.key_eq_ok hkey).1]
      refine Template.renderSegments_congr fun name hname => ?_
      have hfield := KeyTemplate.mem_fields.2 (Or.inl hname)
      exact hsplits.given name hfield (hne name hfield) fun he => hsortName (he ▸ hfield) (he ▸ hname)
    rw [hresolve]
    exact bind_eq_ok.2 ⟨_, hrender, bind_eq_ok.2 ⟨_, hsortKey, rfl⟩⟩
  by_cases hfield : rules.sortName ∈ keys.fields
  · obtain ⟨hsegments, hother⟩ := htells.sort hfield (hne _ hfield)
    have hsort := hsplits.sort (hne _ hfield) _ (Template.render_field hsegments (KeyTemplate.key_eq_ok hkey).2)
    have hsortKey : keys.sortKey filter.keyArguments = .ok none := by
      have hhas : filter.keyArguments.has rules.sortName = false := by
        rw [Arguments.has, hsplits.missing _ (Or.inr (Or.inr rfl))]
        rfl
      simp [KeyTemplate.sortKey, Template.fields, hsegments, hhas]
      rfl
    exact ⟨_, hquery none (fun _ => hother) hsortKey, rfl, Or.inr rfl, by rw [hsort]; rfl⟩
  · have hnoSort := hsplits.noSort (Or.inr hfield)
    have hsortKey := sortKey_of_splits hsplits hkey
      (fun hname => hpartition (KeyTemplate.mem_fields.2 (Or.inr hname))) (Or.inr hfield)
    exact ⟨_, hquery _ (fun h => absurd h hfield) hsortKey, rfl, Or.inl hnoSort, by rw [hnoSort]; rfl⟩

end Resolve

/-- Filters that give all fields of the keys fix the key that these make: its partition, and its sort key unless the
attribute of the partition key is the only field. -/
theorem toQuery_filled (hkeys : rules.keys = keys.strategy) (htells : rules.Tells keys)
    (hfilled : keys.FilledBy args) (hkey : keys.key args = .ok key) : ∃ query,
      rules.toQuery args = .ok query ∧ query.partition? = some key.partition ∧
        (query.sort? = some (.equal key.sort) ∨ query.sort? = none ∧ rules.partitionName ∈ keys.fields ∧
          ∀ name ∈ keys.fields, name = rules.partitionName) := by
  obtain ⟨filter, hparse, hsplits⟩ := parse_filled hkeys htells.plain hfilled
  by_cases hpartition : rules.partitionName ∈ keys.fields
  · obtain ⟨found, hresolve, hfound, hclash, hsort⟩ :=
      resolve_of_partition hsplits hkey hkeys htells hpartition
    exact ⟨_, toQuery_eq_ok.2 ⟨filter, found, hparse, hresolve, hclash, rfl⟩, congrArg some hfound,
      hsort.imp_right fun h => ⟨h.1, hpartition, h.2⟩⟩
  · obtain ⟨found, hresolve, hfound, hclash, hsort⟩ :=
      resolve_of_noPartition hsplits hkey hkeys htells hpartition
    exact ⟨_, toQuery_eq_ok.2 ⟨filter, found, hparse, hresolve, hclash, rfl⟩, congrArg some hfound, Or.inl hsort⟩

end FilterRules

end KeyedRecords
