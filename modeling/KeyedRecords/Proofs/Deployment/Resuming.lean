import KeyedRecords.Proofs.Deployment.Config
import KeyedRecords.Proofs.Deployment.Serial
import KeyedRecords.Proofs.Lists

/-! Deployments resume where they stopped. A plan is made of the indexes that a table lacks. Wherever its execution
stops, the first so many of these were accepted; once they are on the table the next plan is what is left of the first.
Main statement: `DeployPlan.resumes`. -/

namespace KeyedRecords.Deployment

def TableState.indexNames (state : TableState) : List String := state.indexes.map (·.name)

/-! ## Plans by the names on the table -/

theorem missingIndexes_eq (state : TableState) (config : TableConfig) :
    missingIndexes state config = config.indexes.filter (·.name ∉ state.indexNames) := by
  refine List.filter_congr fun index _ => ?_
  rw [Bool.eq_iff_iff]
  simp [TableState.indexNames]

theorem mem_missingIndexes {state : TableState} {config : TableConfig} {index : IndexConfig} :
    index ∈ missingIndexes state config ↔ index ∈ config.indexes ∧ index.name ∉ state.indexNames := by
  rw [missingIndexes_eq]
  simp

/-- Every index of a configuration is on the table or missing. -/
theorem mem_indexNames_or_missing (state : TableState) {config : TableConfig} {name : String}
    (h : name ∈ IndexConfig.names config.indexes) :
    name ∈ state.indexNames ∨ name ∈ IndexConfig.names (missingIndexes state config) := by
  obtain ⟨index, hindex, rfl⟩ := List.mem_map.1 h
  exact or_iff_not_imp_left.2 fun hnot => List.mem_map_of_mem (mem_missingIndexes.2 ⟨hindex, hnot⟩)

def DeployPlan.adding (table : String) : List IndexConfig → DeployPlan
  | [] => noChanges table
  | indexes => addIndexes table indexes

theorem DeployPlan.ofState_some (state : TableState) (config : TableConfig) :
    ofState (some state) config = adding config.table (missingIndexes state config) := by
  rw [ofState]
  cases missingIndexes state config <;> rfl

theorem DeployPlan.adding_of_ne_nil (table : String) {indexes : List IndexConfig} (h : indexes ≠ []) :
    adding table indexes = addIndexes table indexes := by
  cases indexes with
  | nil => exact absurd rfl h
  | cons index rest => rfl

theorem DeployPlan.adding_eq_addIndexes {table other : String} {indexes others : List IndexConfig}
    (h : adding table indexes = addIndexes other others) : table = other ∧ indexes = others := by
  cases indexes with
  | nil => cases h
  | cons index rest => exact ⟨(addIndexes.inj h).1, (addIndexes.inj h).2⟩

theorem DeployPlan.adding_eq_noChanges {table other : String} {indexes : List IndexConfig}
    (h : adding table indexes = noChanges other) : table = other ∧ indexes = [] := by
  cases indexes with
  | nil => exact ⟨noChanges.inj h, rfl⟩
  | cons index rest => cases h

/-- Of indexes with distinct names the first few are told by their names. -/
theorem filter_not_mem_take {indexes : List IndexConfig} (h : (IndexConfig.names indexes).Nodup) (k : Nat) :
    indexes.filter (·.name ∉ IndexConfig.names (indexes.take k)) = indexes.drop k := by
  have hsplit : (IndexConfig.names (indexes.take k) ++ IndexConfig.names (indexes.drop k)).Nodup := by
    rw [IndexConfig.names, IndexConfig.names, ← List.map_append, List.take_append_drop]
    exact h
  have hfirst : (indexes.take k).filter (·.name ∉ IndexConfig.names (indexes.take k)) = [] :=
    List.filter_eq_nil_iff.2 fun index hindex hnot => of_decide_eq_true hnot (List.mem_map_of_mem hindex)
  have hlast : (indexes.drop k).filter (·.name ∉ IndexConfig.names (indexes.take k)) = indexes.drop k :=
    List.filter_eq_self.2 fun index hindex => decide_eq_true fun hmem =>
      (List.nodup_append.1 hsplit).2.2 _ hmem _ (List.mem_map_of_mem hindex) rfl
  calc indexes.filter (·.name ∉ IndexConfig.names (indexes.take k))
      = (indexes.take k ++ indexes.drop k).filter (·.name ∉ IndexConfig.names (indexes.take k)) := by
        rw [List.take_append_drop]
    _ = indexes.drop k := by rw [List.filter_append, hfirst, hlast, List.nil_append]

/-- Whether the indexes on a table are those of some names, in whatever order and of whatever status. -/
def TableState.Holds (state : TableState) (names : List String) : Prop :=
  ∀ name, name ∈ state.indexNames ↔ name ∈ names

/-- With the first few of the missing indexes on a table the others are missing. -/
theorem missingIndexes_later {config : TableConfig} (hdistinct : (IndexConfig.names config.indexes).Nodup)
    {state later : TableState} (k : Nat)
    (hlater : later.Holds (state.indexNames ++ IndexConfig.names ((missingIndexes state config).take k))) :
    missingIndexes later config = (missingIndexes state config).drop k := by
  have hmissing : (IndexConfig.names (missingIndexes state config)).Nodup :=
    hdistinct.sublist (List.filter_sublist.map _)
  rw [← filter_not_mem_take hmissing k]
  generalize IndexConfig.names ((missingIndexes state config).take k) = first at hlater
  rw [missingIndexes_eq, missingIndexes_eq, List.filter_filter]
  refine List.filter_congr fun index _ => ?_
  have hname := hlater index.name
  rw [List.mem_append] at hname
  rw [Bool.eq_iff_iff, decide_eq_true_iff, Bool.and_eq_true, decide_eq_true_iff, decide_eq_true_iff, hname, not_or,
    and_comm]

/-! ## What an execution brings -/

def acceptedCalls (client : ControlClient) (log : List Exchange) : List ControlCall :=
  (log.filter (·.Accepted client)).map (·.call)

theorem acceptedCalls_round {client : ControlClient} {made : Exchange} {looks : List Exchange}
    (hmade : made.Accepted client) (hlooks : ∀ look ∈ looks, look.call.isCreation = false)
    (log : List Exchange) :
    acceptedCalls client (made :: (looks ++ log)) = made.call :: acceptedCalls client log := by
  have hnone : looks.filter (·.Accepted client) = [] := List.filter_eq_nil_iff.2 fun look hlook haccepted => by
    have hcreation := (of_decide_eq_true haccepted).1
    rw [hlooks look hlook] at hcreation
    cases hcreation
  simp [acceptedCalls, hmade, hnone]

namespace Course

variable {client : ControlClient} {table : String} {creations : List ControlCall} {log : List Exchange}
  {result : Except DeploymentError Unit}

/-- Wherever a deployment stops, the first so many of its creations were accepted. -/
theorem accepted (h : Course client table creations log result) : acceptedCalls client log <+: creations := by
  induction h with
  | done => exact List.prefix_rfl
  | unsent => exact List.nil_prefix
  | @rejected made _ _ _ hfailed =>
    have hnot : ¬ made.Accepted client := fun hmade => nomatch hmade.2.symm.trans hfailed
    simp [acceptedCalls, hnot]
  | @stuck _ _ looks _ hmade hawaits =>
    rw [← List.append_nil looks, acceptedCalls_round hmade hawaits.not_isCreation]
    exact List.cons_prefix_cons.2 ⟨rfl, List.nil_prefix⟩
  | next hmade hawaits _ ih =>
    rw [acceptedCalls_round hmade hawaits.not_isCreation]
    exact List.cons_prefix_cons.2 ⟨rfl, ih⟩

/-- A deployment that succeeds had all of them accepted. -/
theorem accepted_all (h : Course client table creations log result) (hresult : result = .ok ()) :
    acceptedCalls client log = creations := by
  induction h with
  | done => rfl
  | unsent | rejected | stuck => cases hresult
  | next hmade hawaits _ ih => rw [acceptedCalls_round hmade hawaits.not_isCreation, ih hresult]

end Course

def ControlCall.created : ControlCall → List String
  | createTable config => IndexConfig.names config.indexes
  | addIndex _ index => [index.name]
  | describeTable _ | deleteTable _ => []

/-- The names of the indexes that a plan creates. -/
theorem DeployPlan.created_creations (state : TableState) (config : TableConfig) :
    (ofState (some state) config).creations.flatMap ControlCall.created =
      IndexConfig.names (missingIndexes state config) := by
  rw [ofState_some]
  cases missingIndexes state config with
  | nil => rfl
  | cons index rest =>
    show ((index :: rest).map _).flatMap ControlCall.created = _
    rw [List.flatMap_map]
    exact List.flatMap_pure_eq_map ..

/-! ## Plans that follow one another -/

/-- What a plan to add indexes to a table promises: it adds what is missing of the names asked for, each index once, and
from wherever its execution stops the next plan goes on. -/
structure Resumable (table : String) (names : List String) (config : TableConfig) (state : TableState)
    (planned : List IndexConfig) : Prop where
  absent : ∀ index ∈ planned, index.name ∉ state.indexNames
  distinct : (IndexConfig.names planned).Nodup
  covers : ∀ name ∈ names, name ∈ state.indexNames ∨ name ∈ IndexConfig.names planned
  /-- An execution gets the first so many of the indexes accepted, whatever the service answers. -/
  stops : ∀ client script, ∃ k ≤ planned.length,
    acceptedCalls client ((DeployPlan.addIndexes table planned).execute.against client script []).2 =
      (planned.take k).map (.addIndex table)
  /-- With the first so many on the table the next plan adds the others. -/
  resumes : ∀ k ≤ planned.length, ∀ later : TableState,
    later.Holds (state.indexNames ++ IndexConfig.names (planned.take k)) →
      DeployPlan.ofState (some later) config =
        if k = planned.length then .noChanges table else .addIndexes table (planned.drop k)

theorem names_config {table : String} {names : List String} {config : TableConfig}
    (h : TableConfig.ofNames table names = .ok config) : IndexConfig.names config.indexes = names.eraseDups := by
  rw [(TableConfig.ofNames_eq_ok_iff.1 h).2, IndexConfig.names_map_mk]

theorem resumable_missingIndexes {table : String} {names : List String} {config : TableConfig}
    (h : TableConfig.ofNames table names = .ok config) (state : TableState) :
    Resumable table names config state (missingIndexes state config) := by
  have hnames := names_config h
  have hdistinct : (IndexConfig.names config.indexes).Nodup := hnames ▸ nodup_eraseDups names
  obtain rfl : config.table = table := congrArg TableConfig.table (TableConfig.ofNames_eq_ok_iff.1 h).2
  constructor
  case absent => exact fun index hindex => (mem_missingIndexes.1 hindex).2
  case distinct => exact hdistinct.sublist (List.filter_sublist.map _)
  case covers =>
    intro name hname
    rw [← List.mem_eraseDups, ← hnames] at hname
    exact mem_indexNames_or_missing state hname
  case stops =>
    intro client script
    have hfirst :=
      ((DeployPlan.addIndexes config.table (missingIndexes state config)).execute_course client script).accepted
    have htake := List.prefix_iff_eq_take.1 hfirst
    rw [DeployPlan.creations, ← List.map_take] at htake
    exact ⟨_, by simpa [DeployPlan.creations] using hfirst.length_le, htake⟩
  case resumes =>
    intro k hk later hlater
    rw [DeployPlan.ofState_some, missingIndexes_later hdistinct k hlater]
    split
    · rename_i hall
      rw [List.drop_eq_nil_of_le (Nat.le_of_eq hall.symm)]
      rfl
    · rename_i hsome
      refine DeployPlan.adding_of_ne_nil _ fun hnone => hsome ?_
      exact Nat.le_antisymm hk (List.drop_eq_nil_iff.1 hnone)

theorem DeployPlan.ofState_eq_noChanges {state : TableState} {config : TableConfig}
    (h : ∀ name ∈ IndexConfig.names config.indexes, name ∈ state.indexNames) :
    ofState (some state) config = noChanges config.table := by
  have hnone : missingIndexes state config = [] := List.eq_nil_iff_forall_not_mem.2 fun index hindex => by
    obtain ⟨hmem, hnot⟩ := mem_missingIndexes.1 hindex
    exact hnot (h index.name (List.mem_map_of_mem hmem))
  rw [ofState_some, hnone]
  rfl

/-- Plans for a table converge, and resume where they were interrupted. A plan to add indexes adds what is missing, and
the next plan adds what it did not; there is nothing to change only where every index asked for is on the table. Once a
table was created, or a plan was carried out and the table has the indexes that were accepted, nothing is left to
change. -/
theorem DeployPlan.resumes {table : String} {names : List String} {config : TableConfig}
    (h : TableConfig.ofNames table names = .ok config) :
    (∀ state other planned, ofState (some state) config = addIndexes other planned →
      other = table ∧ Resumable table names config state planned) ∧
    (∀ state other, ofState (some state) config = noChanges other →
      other = table ∧ ∀ name ∈ names, name ∈ state.indexNames) ∧
    ofState none config = createTable config ∧
    (∀ created : TableState, created.Holds (IndexConfig.names config.indexes) →
      ofState (some created) config = noChanges table) ∧
    ∀ state? client script, ((ofState state? config).execute.against client script []).1 = .ok () →
      ∀ later : TableState, later.Holds (state?.elim [] TableState.indexNames ++
        (acceptedCalls client ((ofState state? config).execute.against client script []).2).flatMap
          ControlCall.created) →
      ofState (some later) config = noChanges table := by
  have htable : config.table = table := congrArg TableConfig.table (TableConfig.ofNames_eq_ok_iff.1 h).2
  refine ⟨fun state other planned hplan => ?_, fun state other hplan => ?_, rfl, fun created hcreated => ?_,
    fun state? client script hresult later hlater => ?_⟩
  · rw [ofState_some] at hplan
    obtain ⟨hother, rfl⟩ := adding_eq_addIndexes hplan
    exact ⟨hother.symm.trans htable, resumable_missingIndexes h state⟩
  · rw [ofState_some] at hplan
    obtain ⟨hother, hnone⟩ := adding_eq_noChanges hplan
    refine ⟨hother.symm.trans htable, fun name hname => ?_⟩
    rw [← List.mem_eraseDups, ← names_config h] at hname
    refine (mem_indexNames_or_missing state hname).resolve_right fun hmissing => ?_
    rw [hnone] at hmissing
    cases hmissing
  · exact htable ▸ ofState_eq_noChanges fun name hname => (hcreated name).2 hname
  · rw [((ofState state? config).execute_course client script).accepted_all hresult] at hlater
    refine htable ▸ ofState_eq_noChanges fun name hname => (hlater name).2 ?_
    cases state? with
    | none => simpa [ofState, creations, ControlCall.created] using hname
    | some state =>
      rw [created_creations, List.mem_append]
      exact mem_indexNames_or_missing state hname

/-- A table of which one index is being made and one was never asked for; two more are missing. -/
def school : TableState := ⟨.updating, [⟨"legacy", .active⟩, ⟨"by_tag", .creating⟩]⟩

def laterSchool : TableState := ⟨.active, [⟨"by_day", .active⟩, ⟨"by_tag", .active⟩, ⟨"legacy", .active⟩]⟩

theorem DeployPlan.resumes_school :
    TableConfig.ofNames "school" ["by_day", "by_tag", "by_day", "by_user"] =
      .ok ⟨"school", [⟨"by_day"⟩, ⟨"by_tag"⟩, ⟨"by_user"⟩]⟩ ∧
    ofState (some school) ⟨"school", [⟨"by_day"⟩, ⟨"by_tag"⟩, ⟨"by_user"⟩]⟩ =
      addIndexes "school" [⟨"by_day"⟩, ⟨"by_user"⟩] ∧
    laterSchool.Holds (school.indexNames ++ ["by_day"]) ∧
    ofState (some laterSchool) ⟨"school", [⟨"by_day"⟩, ⟨"by_tag"⟩, ⟨"by_user"⟩]⟩ =
      addIndexes "school" [⟨"by_user"⟩] := by
  have hconfig : TableConfig.ofNames "school" ["by_day", "by_tag", "by_day", "by_user"] =
      .ok ⟨"school", [⟨"by_day"⟩, ⟨"by_tag"⟩, ⟨"by_user"⟩]⟩ := by rfl
  have hplan : ofState (some school) ⟨"school", [⟨"by_day"⟩, ⟨"by_tag"⟩, ⟨"by_user"⟩]⟩ =
      addIndexes "school" [⟨"by_day"⟩, ⟨"by_user"⟩] := by decide
  have hlater : laterSchool.Holds (school.indexNames ++ ["by_day"]) := by
    intro name
    simp only [laterSchool, school, TableState.indexNames]
    grind
  obtain ⟨-, hresumable⟩ := (resumes hconfig).1 school "school" _ hplan
  exact ⟨hconfig, hplan, hlater, hresumable.resumes 1 (by decide) laterSchool hlater⟩

end KeyedRecords.Deployment
