import KeyedRecords.Proofs.Records.Keyed
import KeyedRecords.Proofs.Records.Simulation
import KeyedRecords.Records.Listing

/-! The stores that calls on records lead to. The invariant is `Filed`: the tables are in order, and the items
are records under the keys that their fields make. Main statements: `deleteKeys_simulates`,
`Reached.filed`. -/

namespace KeyedRecords

/-! ## Deleting keys -/

namespace RecordMap

def deleteKeys : List Key → RecordMap → Nat × RecordMap
  | [], map => (0, map)
  | key :: rest, map =>
    let (more, after) := deleteKeys rest (Assoc.erase map key)
    ((Assoc.contains map key).toNat + more, after)

theorem find?_deleteKeys (unbound : List Key) (map : RecordMap) (key : Key) :
    Assoc.find? (deleteKeys unbound map).2 key = if key ∈ unbound then none else Assoc.find? map key := by
  induction unbound generalizing map with
  | nil => rfl
  | cons first rest ih =>
    simp only [deleteKeys, ih, Assoc.find?_erase, List.mem_cons]
    by_cases hrest : key ∈ rest
    · simp [hrest]
    · simp [hrest]

/-- Of distinct keys that are all bound, each counts. -/
theorem deleteKeys_count {unbound : List Key} {map : RecordMap} (hnodup : unbound.Nodup)
    (hbound : ∀ key ∈ unbound, Assoc.contains map key = true) :
    (deleteKeys unbound map).1 = unbound.length := by
  induction unbound generalizing map with
  | nil => rfl
  | cons first rest ih =>
    obtain ⟨hfirst, hrest⟩ := List.nodup_cons.1 hnodup
    have hmore : (deleteKeys rest (Assoc.erase map first)).1 = rest.length := by
      refine ih hrest fun key hkey => ?_
      have hne : key ≠ first := fun he => hfirst (he ▸ hkey)
      rw [Assoc.contains, Assoc.find?_erase_of_ne _ hne]
      exact hbound key (List.mem_cons_of_mem _ hkey)
    simp only [deleteKeys, hmore, hbound first List.mem_cons_self, List.length_cons, Bool.toNat_true]
    omega

theorem Keyed.deleteKeys {words : Vocabulary} {keys : KeyTemplate} {map : RecordMap}
    (h : map.Keyed words keys) (unbound : List Key) :
    RecordMap.Keyed words keys (deleteKeys unbound map).2 := by
  induction unbound generalizing map with
  | nil => exact h
  | cons first rest ih => exact ih (h.erase first)

end RecordMap

namespace Records

variable {ρ ε : Type} {records : Records ρ}

theorem Represents.congr {map : RecordMap} {memory after : Memory} (h : records.Represents map memory)
    (htables : after.tables = memory.tables) : records.Represents map after := by
  intro key
  rw [Memory.item?_congr htables]
  exact h key

theorem deleteKeys_simulates (environment : Environment ε) (pages : Nat) {map : RecordMap}
    {memory : Memory} (h : records.Represents map memory) (e : ε) (unbound : List Key) :
    records.Simulates (environment.host.command pages (records.deleteKeys unbound) (memory, e))
      (.ok (RecordMap.deleteKeys unbound map).1, (RecordMap.deleteKeys unbound map).2, e) := by
  induction unbound generalizing map memory with
  | nil => exact ⟨memory, rfl, h⟩
  | cons first rest ih =>
    obtain ⟨next, hfirst, hnext⟩ := deleteKey_simulates environment pages h e first
    obtain ⟨after, hrest, hafter⟩ := ih hnext
    refine ⟨after, ?_, hafter⟩
    rw [deleteKeys, Host.command_bind_ok _ _ hfirst, Host.command_bind_ok _ _ hrest]
    rfl

/-! ## Reached stores -/

/-- The stores that records come to by calls on them, so long as the fields of their keys are given texts of a
vocabulary. Reading leaves the tables as they are. -/
inductive Reached (records : Records ρ) (environment : Environment ε) (words : Vocabulary)
    (keys : KeyTemplate) : Memory → Prop
  | empty : Reached records environment words keys {}
  | perform {memory after : Memory} {e e' : ε} {pages : Nat} {call : RecordCall ρ}
      {result : Result (RecordAnswer ρ)} (h : Reached records environment words keys memory)
      (hwords : ∀ args, records.WritesFrom environment call args → words.Admits keys.fields args)
      (hrun : environment.host.command pages (records.perform call) (memory, e) =
        some (result, (after, e'))) : Reached records environment words keys after
  | deleteAll {memory after : Memory} {e e' : ε} {pages : Nat} {filters : Arguments}
      {result : Result Nat} (h : Reached records environment words keys memory)
      (hrun : environment.host.command pages (records.deleteAll filters) (memory, e) =
        some (result, (after, e'))) : Reached records environment words keys after
  | read {memory after : Memory} (h : Reached records environment words keys memory)
      (htables : after.tables = memory.tables) : Reached records environment words keys after

/-- A run of calls leads from one such store to another. -/
theorem Reached.performAll {environment : Environment ε} {words : Vocabulary} {keys : KeyTemplate}
    {memory after : Memory} (h : records.Reached environment words keys memory) {e e' : ε} {pages : Nat}
    {calls : List (RecordCall ρ)} {results : List (Result (RecordAnswer ρ))}
    (hwords : ∀ call ∈ calls, ∀ args, records.WritesFrom environment call args →
      words.Admits keys.fields args)
    (hrun : records.performAll environment.host pages calls (memory, e) =
      some (results, (after, e'))) : records.Reached environment words keys after := by
  induction calls generalizing memory e results with
  | nil =>
    cases hrun
    exact h
  | cons call rest ih =>
    rw [Records.performAll] at hrun
    cases hcall : environment.host.command pages (records.perform call) (memory, e) with
    | none =>
      rw [hcall] at hrun
      cases hrun
    | some step =>
      obtain ⟨result, next, e''⟩ := step
      rw [hcall] at hrun
      obtain ⟨⟨more, last⟩, hrest, heq⟩ := Option.map_eq_some_iff.1 hrun
      cases heq
      exact ih (h.perform (hwords call List.mem_cons_self) hcall)
        (fun other hother => hwords other (List.mem_cons_of_mem _ hother)) hrest

/-- Whether the tables of a store are in order and its items are records under their keys. -/
structure Filed (records : Records ρ) (words : Vocabulary) (keys : KeyTemplate) (memory : Memory) :
    Prop where
  sorted : memory.Sorted
  records : ∃ map, records.Represents map memory ∧ RecordMap.Keyed words keys map

theorem Filed.congr {words : Vocabulary} {keys : KeyTemplate} {memory after : Memory}
    (h : records.Filed words keys memory) (htables : after.tables = memory.tables) :
    records.Filed words keys after := by
  obtain ⟨map, hmap, hkeyed⟩ := h.records
  exact ⟨h.sorted.congr htables, map, hmap.congr htables, hkeyed⟩

/-- Deleting what filters select only unbinds keys. -/
theorem deleteAll_filed (environment : Environment ε) {words : Vocabulary} {keys : KeyTemplate}
    {memory after : Memory} (h : records.Filed words keys memory) {pages : Nat} {filters : Arguments}
    {e e' : ε} {result : Result Nat}
    (hrun : environment.host.command pages (records.deleteAll filters) (memory, e) =
      some (result, (after, e'))) : records.Filed words keys after := by
  have hsorted := environment.command_sorted h.sorted hrun
  simp only [deleteAll] at hrun
  cases hquery : records.queryFor filters with
  | error failure =>
    rw [hquery, Host.command_error_bind] at hrun
    cases hrun
    exact h
  | ok query =>
    rw [hquery, Host.command_ok_bind] at hrun
    cases hbound : query.bind records.model.layout with
    | error failure =>
      rw [hbound, Host.command_error_bind] at hrun
      cases hrun
      exact h
    | ok bound =>
      rw [hbound, Host.command_ok_bind, Host.command_bind] at hrun
      obtain ⟨⟨read, between, between'⟩, hread, hrun⟩ := Option.bind_eq_some_iff.1 hrun
      have hbetween := h.congr (environment.command_readPages_counted hread).1
      cases read with
      | error failure =>
        cases hrun
        exact hbetween
      | ok read =>
        obtain ⟨items, failure?⟩ := read
        cases failure? with
        | some failure =>
          cases hrun
          exact hbetween
        | none =>
          obtain ⟨map, hmap, hkeyed⟩ := hbetween.records
          obtain ⟨last, hdeleted, hlast⟩ := deleteKeys_simulates environment pages hmap between'
            (items.filterMap records.model.layout.keyOf?)
          cases hdeleted.symm.trans hrun
          exact ⟨hsorted, _, hlast, hkeyed.deleteKeys _⟩

section Filed

variable {environment : Environment ε} {words : Vocabulary} {keys : KeyTemplate} {memory : Memory}

theorem Reached.filed (hdistinct : records.model.schema.Distinct)
    (hnames : records.model.layout.WellNamed)
    (hmark : ¬ replaceMark.toList <:+ records.model.layout.dataName.toList)
    (htemplated : Templated records.model keys) (hreadable : keys.Readable words)
    (h : records.Reached environment words keys memory) : records.Filed words keys memory := by
  induction h with
  | empty =>
    refine ⟨Memory.sorted_empty, [], Represents.empty records, fun key value hvalue => ?_⟩
    cases hvalue
  | perform _ hwords hrun ih =>
    rename_i memory after e e' pages call result _
    obtain ⟨map, hmap, hkeyed⟩ := ih.records
    obtain ⟨last, hperformed, hlast⟩ :=
      perform_simulates environment pages hmap e hdistinct hnames hmark call
    cases hperformed.symm.trans hrun
    exact ⟨environment.command_sorted ih.sorted hrun, _, hlast,
      RecordMap.perform_keyed hdistinct htemplated environment hreadable hkeyed e hwords⟩
  | deleteAll _ hrun ih => exact deleteAll_filed environment ih hrun
  | read _ htables ih => exact ih.congr htables

end Filed

end Records

end KeyedRecords
