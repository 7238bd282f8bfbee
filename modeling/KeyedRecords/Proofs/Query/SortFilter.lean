import KeyedRecords.Proofs.Query.Filter

/-! Which filters on the sort key a query enforces. Of several, only the one whose name comes last counts; the
others are read, checked and forgotten. Main statements: `parseFrom_overwritten`, `toQuery_last_sort_filter`. -/

namespace KeyedRecords

/-! ## What a filter on the sort key asks for -/

def Comparison.suffix : Comparison → String
  | startingWith => "beginswith"
  | above => "gt"
  | atLeast => "gte"
  | below => "lt"
  | atMost => "lte"
  | between => "between"

theorem Comparison.ofSuffix?_suffix (comparison : Comparison) :
    ofSuffix? comparison.suffix = some comparison := by
  cases comparison <;> rfl

theorem Comparison.suffix_of_ofSuffix? {suffix : String} {comparison : Comparison}
    (h : ofSuffix? suffix = some comparison) : comparison.suffix = suffix := by
  unfold ofSuffix? at h
  split at h <;> cases h <;> rfl

/-- Whether a sort key is as a filter's comparison and value say: equal to the value where there is no
comparison. -/
def Comparison.Meets (comparison? : Option Comparison) (value : Json) (key : String) : Prop :=
  match comparison? with
  | none => value.segment? = .ok (some key)
  | some startingWith => ∃ text, value.segment? = .ok (some text) ∧ text.toList <+: key.toList
  | some above => ∃ text, value.segment? = .ok (some text) ∧ text < key
  | some atLeast => ∃ text, value.segment? = .ok (some text) ∧ text ≤ key
  | some below => ∃ text, value.segment? = .ok (some text) ∧ key < text
  | some atMost => ∃ text, value.segment? = .ok (some text) ∧ key ≤ text
  | some between => ∃ low high lowest highest, value = .list [low, high] ∧
      low.segment? = .ok (some lowest) ∧ high.segment? = .ok (some highest) ∧ lowest ≤ key ∧ key ≤ highest

theorem filterText_eq_ok {filter : String} {value : Json} {text : String} :
    filterText filter value = .ok text ↔ value.segment? = .ok (some text) := by
  unfold filterText
  split
  · rename_i given hgiven
    rw [hgiven]
    constructor
    · intro h
      cases h
      rfl
    · intro h
      cases h
      rfl
  · rename_i hother
    constructor
    · intro h
      cases h
    · intro h
      exact absurd h (hother text)

theorem not_decide_lt_iff {a b : String} : (!decide (a < b)) = true ↔ b ≤ a := by
  rw [Bool.not_eq_true', decide_eq_false_iff_not, String.not_lt]

/-- The condition of a filter accepts the sort keys that are as the filter says. -/
theorem Comparison.accepts_iff_meets {comparison? : Option Comparison} {filter : String} {value : Json}
    {asked : SortCondition} (h : condition comparison? filter value = .ok asked) (key : String) :
    asked.accepts key = true ↔ Meets comparison? value key := by
  cases comparison? with
  | none =>
    obtain ⟨text, htext, h⟩ := bind_eq_ok.1 h
    cases h
    have htext := filterText_eq_ok.1 htext
    simp [SortCondition.accepts, Meets, htext, eq_comm]
  | some comparison =>
    cases comparison with
    | between =>
      simp only [Comparison.condition] at h
      split at h
      · rename_i low high
        obtain ⟨lowest, hlow, h⟩ := bind_eq_ok.1 h
        obtain ⟨highest, hhigh, h⟩ := bind_eq_ok.1 h
        cases h
        have hlow := filterText_eq_ok.1 hlow
        have hhigh := filterText_eq_ok.1 hhigh
        have haccepts : (SortCondition.between lowest highest).accepts key = true ↔
            lowest ≤ key ∧ key ≤ highest := by
          rw [SortCondition.accepts, Bool.and_eq_true, not_decide_lt_iff, not_decide_lt_iff]
        rw [haccepts]
        constructor
        · intro hkey
          exact ⟨low, high, lowest, highest, rfl, hlow, hhigh, hkey⟩
        · rintro ⟨_, _, lowest', highest', heq, hlow', hhigh', hkey⟩
          cases heq
          cases hlow.symm.trans hlow'
          cases hhigh.symm.trans hhigh'
          exact hkey
      · cases h
    | atLeast | atMost =>
      obtain ⟨text, htext, h⟩ := bind_eq_ok.1 h
      cases h
      have htext := filterText_eq_ok.1 htext
      simp only [SortCondition.accepts, not_decide_lt_iff]
      simp [Meets, htext]
    | startingWith | above | below =>
      obtain ⟨text, htext, h⟩ := bind_eq_ok.1 h
      cases h
      have htext := filterText_eq_ok.1 htext
      simp [SortCondition.accepts, Meets, htext]

namespace FilterRules

variable {rules : FilterRules}

/-- Whether a filter is one on the sort key, with a comparison or none. -/
structure NamesSort (rules : FilterRules) (filter : String) (comparison? : Option Comparison) : Prop where
  split : splitSuffix filter = (rules.sortName, comparison?.map Comparison.suffix)
  partition : rules.sortName ≠ rules.partitionName

theorem meaning_of_namesSort {filter : String} {comparison? : Option Comparison}
    (h : rules.NamesSort filter comparison?) (value : Json) :
    rules.meaning filter value = (Comparison.condition comparison? filter value).map .sort := by
  simp only [meaning, h.split, if_neg h.partition, if_true]
  cases comparison? with
  | none =>
    simp only [Option.map_none, Option.bind_none]
    cases Comparison.condition none filter value <;> rfl
  | some comparison =>
    simp only [Option.map_some, Option.bind_some, Comparison.ofSuffix?_suffix]
    cases Comparison.condition (some comparison) filter value <;> rfl

/-- A filter that fixes a condition on the sort key names it. -/
theorem namesSort_of_meaning {filter : String} {value : Json} {asked : SortCondition}
    (h : rules.meaning filter value = .ok (.sort asked)) : ∃ comparison?,
      rules.NamesSort filter comparison? ∧ Comparison.condition comparison? filter value = .ok asked := by
  rcases hsplit : splitSuffix filter with ⟨own, suffix?⟩
  simp only [meaning, hsplit] at h
  by_cases hpartition : own = rules.partitionName
  · simp only [if_pos hpartition] at h
    cases suffix? with
    | some suffix => cases h
    | none => cases htext : filterText filter value <;> simp only [htext] at h <;> cases h
  by_cases hsort : own = rules.sortName
  · subst hsort
    simp only [if_neg hpartition, if_true] at h
    cases suffix? with
    | none =>
      obtain ⟨condition, hcondition, h⟩ := bind_eq_ok.1 h
      cases h
      exact ⟨none, ⟨hsplit, hpartition⟩, hcondition⟩
    | some suffix =>
      simp only [Option.bind_some] at h
      cases hcomparison : Comparison.ofSuffix? suffix with
      | none =>
        rw [hcomparison] at h
        cases h
      | some comparison =>
        rw [hcomparison] at h
        obtain ⟨condition, hcondition, h⟩ := bind_eq_ok.1 h
        cases h
        refine ⟨some comparison, ⟨?_, hpartition⟩, hcondition⟩
        rw [hsplit, Option.map_some, Comparison.suffix_of_ofSuffix? hcomparison]
  by_cases hfield : own ∈ rules.keys.fields
  · simp only [if_neg hpartition, if_neg hsort, if_pos hfield] at h
    cases suffix? <;> cases h
  · simp only [if_neg hpartition, if_neg hsort, if_neg hfield] at h
    split at h <;> cases h

/-! ## Reading several -/

def NamesSortIn (rules : FilterRules) (filters : Arguments) : Prop :=
  ∃ entry ∈ filters, ∃ comparison?, rules.NamesSort entry.1 comparison?

theorem parseFrom_step (read : KeyFilter) (name : String) (value : Json) (rest : Arguments) :
    rules.parseFrom read ((name, value) :: rest) =
      (rules.meaning name value >>= fun meaning => rules.parseFrom (meaning.addTo read) rest) := by
  simp only [parseFrom, List.foldlM_cons, add_eq]
  cases rules.meaning name value <;> rfl

/-- Without a filter on the sort key its condition stays as it was. -/
theorem sort_of_parseFrom {filters : Arguments} (hnone : ¬ rules.NamesSortIn filters)
    {read filter : KeyFilter} (h : rules.parseFrom read filters = .ok filter) :
    filter.sort? = read.sort? := by
  induction filters generalizing read with
  | nil =>
    cases h
    rfl
  | cons entry rest ih =>
    obtain ⟨name, value⟩ := entry
    obtain ⟨meaning, hmeaning, hrest⟩ := parseFrom_cons.1 h
    have hother : ¬ rules.NamesSortIn rest := by
      rintro ⟨entry, hentry, hnames⟩
      exact hnone ⟨entry, List.mem_cons_of_mem _ hentry, hnames⟩
    have hsort := ih hother hrest
    cases meaning with
    | partition text => exact hsort
    | field name value => exact hsort
    | sort asked =>
      obtain ⟨comparison?, hnames, -⟩ := namesSort_of_meaning hmeaning
      exact absurd ⟨(name, value), List.mem_cons_self, comparison?, hnames⟩ hnone

/-- Whether filters fix the same but for the condition on the sort key. -/
structure SameButSort (a b : KeyFilter) : Prop where
  partition : a.partition? = b.partition?
  keyArguments : a.keyArguments = b.keyArguments

/-- A condition on the sort key read before another one leaves no trace. -/
theorem parseFrom_overwritten {filters : Arguments} (hsome : rules.NamesSortIn filters) {a b : KeyFilter}
    (h : SameButSort a b) : rules.parseFrom a filters = rules.parseFrom b filters := by
  induction filters generalizing a b with
  | nil =>
    obtain ⟨entry, hentry, -⟩ := hsome
    exact absurd hentry List.not_mem_nil
  | cons entry rest ih =>
    obtain ⟨name, value⟩ := entry
    obtain ⟨hpartition, harguments⟩ := h
    rw [parseFrom_step, parseFrom_step]
    cases hmeaning : rules.meaning name value with
    | error failure => rfl
    | ok meaning =>
      show rules.parseFrom (meaning.addTo a) rest = rules.parseFrom (meaning.addTo b) rest
      have hlater : (∀ asked, meaning ≠ .sort asked) → rules.NamesSortIn rest := by
        intro hother
        obtain ⟨found, hfound, comparison?, hnames⟩ := hsome
        rcases List.mem_cons.1 hfound with rfl | hfound
        · rw [meaning_of_namesSort hnames] at hmeaning
          cases hasked : Comparison.condition comparison? name value with
          | error failure =>
            rw [hasked] at hmeaning
            cases hmeaning
          | ok asked =>
            rw [hasked] at hmeaning
            cases hmeaning
            exact absurd rfl (hother asked)
        · exact ⟨found, hfound, comparison?, hnames⟩
      cases meaning with
      | partition text => exact ih (hlater fun _ he => by cases he) ⟨rfl, harguments⟩
      | field field given =>
        refine ih (hlater fun _ he => by cases he) ⟨hpartition, ?_⟩
        simp only [FilterMeaning.addTo, harguments]
      | sort asked => simp only [FilterMeaning.addTo, hpartition, harguments]

/-! ## The query -/

variable {filters : Arguments}

/-- The entry under a name splits a sorted map into what comes before and after it. -/
theorem split_at (hsorted : Assoc.Sorted filters) {name : String} {value : Json}
    (hvalue : Assoc.find? filters name = some value) : ∃ before after,
      filters = before ++ (name, value) :: after ∧ Assoc.erase filters name = before ++ after ∧
      ∀ entry, entry ∈ after ↔ entry ∈ filters ∧ name < entry.1 := by
  obtain ⟨before, after, hsplit, -, herase⟩ := hsorted.split hvalue
  refine ⟨before, after, hsplit, herase, fun entry => ?_⟩
  have hparts := List.pairwise_append.1 (hsplit ▸ hsorted)
  have hlater := (List.pairwise_cons.1 hparts.2.1).1
  constructor
  · intro hentry
    exact ⟨hsplit ▸ List.mem_append_right _ (List.mem_cons_of_mem _ hentry), hlater entry hentry⟩
  · rintro ⟨hentry, hlt⟩
    rw [hsplit] at hentry
    rcases List.mem_append.1 hentry with hentry | hentry
    · have hgt := hparts.2.2 entry hentry (name, value) List.mem_cons_self
      exact absurd (String.lt_trans hlt hgt) (String.lt_irrefl _)
    · rcases List.mem_cons.1 hentry with rfl | hentry
      · exact absurd hlt (String.lt_irrefl _)
      · exact hentry

/-- Whether a filter is the one on the sort key whose name comes last. -/
structure LastSort (rules : FilterRules) (filters : Arguments) (name : String)
    (comparison? : Option Comparison) (value : Json) : Prop where
  names : rules.NamesSort name comparison?
  given : Assoc.find? filters name = some value
  last : ∀ other comparison? value, rules.NamesSort other comparison? →
    Assoc.find? filters other = some value → ¬ name < other

/-- The condition of the last filter on the sort key is the one that all filters fix. -/
theorem sort_of_last (hsorted : Assoc.Sorted filters) {name : String} {comparison? : Option Comparison}
    {value : Json} (hlast : rules.LastSort filters name comparison? value) {filter : KeyFilter}
    (hparse : rules.parse filters = .ok filter) :
    ∃ asked, Comparison.condition comparison? name value = .ok asked ∧ filter.sort? = some asked := by
  obtain ⟨before, after, hsplit, -, hafter⟩ := split_at hsorted hlast.given
  rw [hsplit, parse_eq] at hparse
  obtain ⟨middle, -, hparse⟩ := parseFrom_append.1 hparse
  obtain ⟨meaning, hmeaning, hrest⟩ := parseFrom_cons.1 hparse
  have hnone : ¬ rules.NamesSortIn after := by
    rintro ⟨entry, hentry, comparison?, hnames⟩
    obtain ⟨hmem, hlt⟩ := (hafter entry).1 hentry
    exact hlast.last entry.1 comparison? entry.2 hnames (Assoc.find?_of_mem hsorted.nodup hmem) hlt
  rw [meaning_of_namesSort hlast.names] at hmeaning
  cases hasked : Comparison.condition comparison? name value with
  | error failure =>
    rw [hasked] at hmeaning
    cases hmeaning
  | ok asked =>
    rw [hasked] at hmeaning
    cases hmeaning
    exact ⟨asked, rfl, sort_of_parseFrom hnone hrest⟩

/-- A filter on the sort key, once read, can as well be left out if another follows. -/
theorem parse_erase_sort (hsorted : Assoc.Sorted filters) {name other : String}
    {comparison? otherComparison? : Option Comparison} {value otherValue : Json} {asked : SortCondition}
    (hname : rules.NamesSort name comparison?) (hvalue : Assoc.find? filters name = some value)
    (hother : rules.NamesSort other otherComparison?)
    (hotherValue : Assoc.find? filters other = some otherValue)
    (hasked : Comparison.condition otherComparison? other otherValue = .ok asked) (hlt : other < name) :
    rules.parse (Assoc.erase filters other) = rules.parse filters := by
  obtain ⟨before, after, hsplit, herase, hafter⟩ := split_at hsorted hotherValue
  have hlater : rules.NamesSortIn after :=
    ⟨(name, value), (hafter _).2 ⟨Assoc.mem_of_find? hvalue, hlt⟩, comparison?, hname⟩
  have hmeaning : rules.meaning other otherValue = .ok (.sort asked) := by
    rw [meaning_of_namesSort hother, hasked]
    rfl
  rw [herase, hsplit, parse_eq, parse_eq]
  simp only [parseFrom, List.foldlM_append]
  congr 1
  funext middle
  show rules.parseFrom middle after = rules.parseFrom middle ((other, otherValue) :: after)
  rw [parseFrom_step, hmeaning]
  exact parseFrom_overwritten hlater ⟨rfl, rfl⟩

/-- Whether a sort key is as all the filters on it say. -/
def MeetsAll (rules : FilterRules) (filters : Arguments) (key : String) : Prop :=
  ∀ name comparison? value, rules.NamesSort name comparison? → Assoc.find? filters name = some value →
    Comparison.Meets comparison? value key

end FilterRules

/-- Whether a query lists the items with a sort key. -/
def Query.Accepts (query : Query) (key : String) : Prop :=
  ∀ condition, query.sort? = some condition → condition.accepts key = true

namespace FilterRules

variable {rules : FilterRules} {filters : Arguments}

theorem accepts_iff_meets_last (hsorted : Assoc.Sorted filters) {name : String}
    {comparison? : Option Comparison} {value : Json}
    (hlast : rules.LastSort filters name comparison? value) {query : Query}
    (hquery : rules.toQuery filters = .ok query) (key : String) :
    query.Accepts key ↔ Comparison.Meets comparison? value key := by
  obtain ⟨filter, found, hparse, -, -, rfl⟩ := toQuery_eq_ok.1 hquery
  obtain ⟨asked, hasked, hsort⟩ := sort_of_last hsorted hlast hparse
  rw [← Comparison.accepts_iff_meets hasked]
  simp [Query.Accepts, hsort]

/-- Of the filters on the sort key a query enforces the last in the order of names and no other. So it accepts
what all of them ask for just where the last one implies the rest. Any other could as well be left out, whatever
it asks for, and none of them makes the rest fail. Without such a filter the fields of the keys decide. -/
theorem toQuery_last_sort_filter (hsorted : Assoc.Sorted filters) :
    (∀ query, rules.toQuery filters = .ok query →
      (∀ name comparison? value, rules.LastSort filters name comparison? value →
        (∀ key, query.Accepts key ↔ Comparison.Meets comparison? value key) ∧
        ((∀ key, query.Accepts key ↔ rules.MeetsAll filters key) ↔
          ∀ key, Comparison.Meets comparison? value key → rules.MeetsAll filters key)) ∧
      (¬ rules.NamesSortIn filters → ∃ filter found, rules.parse filters = .ok filter ∧
        rules.resolve filter = .ok found ∧ query.sort? = found.sort?.map SortCondition.ofSortKey)) ∧
    ∀ name comparison? value other otherComparison? otherValue asked,
      rules.NamesSort name comparison? → Assoc.find? filters name = some value →
      rules.NamesSort other otherComparison? → Assoc.find? filters other = some otherValue →
      Comparison.condition otherComparison? other otherValue = .ok asked → other < name →
        rules.toQuery (Assoc.erase filters other) = rules.toQuery filters := by
  refine ⟨fun query hquery => ⟨?_, ?_⟩, ?_⟩
  · intro name comparison? value hlast
    have haccepts := accepts_iff_meets_last hsorted hlast hquery
    refine ⟨haccepts, ?_⟩
    constructor
    · intro hall key hmeets
      exact (hall key).1 ((haccepts key).2 hmeets)
    · intro himplies key
      rw [haccepts key]
      constructor
      · exact himplies key
      · intro hall
        exact hall name comparison? value hlast.names hlast.given
  · intro hnone
    obtain ⟨filter, found, hparse, hresolve, -, rfl⟩ := toQuery_eq_ok.1 hquery
    refine ⟨filter, found, hparse, hresolve, ?_⟩
    have hsort : filter.sort? = none := sort_of_parseFrom hnone hparse
    simp [hsort]
  · intro name comparison? value other otherComparison? otherValue asked hname hvalue hother hotherValue
      hasked hlt
    simp only [toQuery, parse_erase_sort hsorted hname hvalue hother hotherValue hasked hlt]

def eventRules : FilterRules := ⟨"pk", "sk", (KeyTemplate.standard "app::Event" "Event").strategy⟩

def eventRange : Arguments := [("pk", .string "app::Event"), ("sk__gt", .string "Event#2"),
  ("sk__lt", .string "Event#5")]

/-- The lower end of the range is lost: the first event is listed with the rest. -/
theorem toQuery_last_sort_filter_range : ∃ query, eventRules.toQuery eventRange = .ok query ∧
    query.Accepts "Event#1" ∧ ¬ eventRules.MeetsAll eventRange "Event#1" ∧
    eventRules.toQuery [("pk", .string "app::Event"), ("sk__lt", .string "Event#5")] = .ok query := by
  have hsorted : Assoc.Sorted eventRange := by
    unfold Assoc.Sorted
    decide
  have habove : eventRules.NamesSort "sk__gt" (some .above) := ⟨by decide, by decide⟩
  have hbelow : eventRules.NamesSort "sk__lt" (some .below) := ⟨by decide, by decide⟩
  have hlast : eventRules.LastSort eventRange "sk__lt" (some .below) (.string "Event#5") := by
    refine ⟨hbelow, rfl, ?_⟩
    intro other comparison? value _ hgiven
    have hmem := Assoc.mem_of_find? hgiven
    simp only [eventRange, List.mem_cons, Prod.mk.injEq, List.not_mem_nil, or_false] at hmem
    rcases hmem with ⟨rfl, -⟩ | ⟨rfl, -⟩ | ⟨rfl, -⟩ <;> decide
  have hquery : eventRules.toQuery eventRange =
      .ok { partition? := some "app::Event", sort? := some (.below "Event#5") } := rfl
  obtain ⟨hused, hignored⟩ := toQuery_last_sort_filter hsorted
  obtain ⟨haccepts, -⟩ := (hused _ hquery).1 "sk__lt" (some .below) (.string "Event#5") hlast
  refine ⟨_, hquery, (haccepts "Event#1").2 ⟨"Event#5", rfl, by decide⟩, ?_, ?_⟩
  · intro hall
    obtain ⟨text, htext, hlt⟩ := hall "sk__gt" (some .above) (.string "Event#2") habove rfl
    cases htext
    revert hlt
    decide
  · rw [← hquery]
    exact hignored "sk__lt" (some .below) (.string "Event#5") "sk__gt" (some .above) (.string "Event#2")
      (.above "Event#2") hbelow rfl habove rfl rfl (by decide)

end FilterRules

end KeyedRecords
