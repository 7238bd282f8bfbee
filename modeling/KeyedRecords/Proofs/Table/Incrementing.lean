import KeyedRecords.Proofs.Counters.Added
import KeyedRecords.Proofs.Update.Separate

/-! What an increment sends. Counters are refused before the store is asked if there are none, or if there is something
that is neither a number nor a map among them. All others are sent as one addition for each number in them. As maps
without a number in them are not refused, an increment may send no addition at all, and it makes the item under its key
all the same. Main statement: `Table.increment_sends`. -/

namespace KeyedRecords

/-! ## Additions -/

/-- What is added of some counters are their numbers, each at its path. -/
theorem mem_addAt_ofJson {value : Json} (hordered : value.Ordered) (hnumeric : value.Numeric) {path : List String}
    {a : Assignment} : a ∈ addAt path (Attribute.ofJson value) ↔
      ∃ rest n, value.valueAt rest = some (.number n) ∧ a = ⟨path ++ rest, .number n.text⟩ := by
  induction value using Json.tree_induction generalizing path with
  | leaf value hleaf =>
    obtain ⟨n, rfl⟩ := hnumeric.cases.resolve_left fun ⟨entries, he⟩ => hleaf entries he
    show a ∈ [_] ↔ _
    rw [List.mem_singleton]
    constructor
    · rintro rfl
      exact ⟨[], n, Json.valueAt_nil _, by rw [List.append_nil]; rfl⟩
    · rintro ⟨rest, m, hvalue, rfl⟩
      cases rest with
      | nil =>
        cases hvalue
        rw [List.append_nil]
        rfl
      | cons name rest => cases hvalue
  | map entries ih =>
    have hentry : ∀ entry ∈ entries, ∀ path : List String, a ∈ addAt path (Attribute.ofJson entry.2) ↔
        ∃ rest n, entry.2.valueAt rest = some (.number n) ∧ a = ⟨path ++ rest, .number n.text⟩ := by
      intro entry hentry path
      have hvalue := Assoc.find?_of_mem hordered.sorted.nodup hentry
      exact ih entry hentry (hordered.inner hvalue) (hnumeric.inner hvalue)
    show a ∈ addEntries path (Attribute.ofJsonMap entries) ↔ _
    rw [addEntries_ofJsonMap, List.mem_flatMap]
    constructor
    · rintro ⟨⟨name, value⟩, hmem, ha⟩
      obtain ⟨rest, n, hvalue, rfl⟩ := (hentry _ hmem _).1 ha
      refine ⟨name :: rest, n, ?_, by rw [List.append_assoc]; rfl⟩
      rw [Json.valueAt_map, Assoc.find?_of_mem hordered.sorted.nodup hmem]
      exact hvalue
    · rintro ⟨path', n, hvalue, rfl⟩
      cases path' with
      | nil => cases hvalue
      | cons name rest =>
        obtain ⟨value, hfound, hvalue⟩ := Option.bind_eq_some_iff.1 hvalue
        have hmem := Assoc.mem_of_find? hfound
        exact ⟨_, hmem, (hentry _ hmem _).2 ⟨rest, n, hvalue, by rw [List.append_assoc]; rfl⟩⟩

namespace Table

variable {table : Table} {counters : Json.Map} (hordered : (Json.map counters).Ordered)

def addition (table : Table) (counters : Json.Map) : Update :=
  Update.add (Attribute.ofJsonMap [(table.layout.dataName, .map counters)])

include hordered

theorem mem_addition (hnumeric : (Json.map counters).Numeric) {a : Assignment} :
    a ∈ (table.addition counters).assignments ↔ ∃ path n, (Json.map counters).valueAt path = some (.number n) ∧
      a = ⟨table.layout.dataName :: path, .number n.text⟩ := by
  show a ∈ addAt [table.layout.dataName] (Attribute.ofJson (.map counters)) ++ [] ↔ _
  rw [List.append_nil, mem_addAt_ofJson hordered hnumeric]
  rfl

theorem addition_separate : (table.addition counters).Separate :=
  Update.separate_add (Attribute.ordered_ofJson (hordered.single table.layout.dataName))

/-- Counters that are refused are refused before anything is asked of the store. -/
theorem increment_refused (key : Key) (h : counters = [] ∨ ¬ (Json.map counters).Numeric) :
    ∃ failure, table.increment key counters = throw failure := by
  by_cases hne : counters = []
  · exact ⟨.invalidArguments .noCounter, by rw [hne]; rfl⟩
  · have hempty : counters.isEmpty = false := by simpa using hne
    cases hother : Counters.firstOther? "" counters with
    | none => exact absurd ((Counters.firstOther?_eq_none_iff_numeric hordered "").1 hother) (h.resolve_left hne)
    | some other =>
      refine ⟨.typeMismatch other.1 .number other.2.kind, ?_⟩
      rw [increment, hempty, hother]
      rfl

/-- Counters without a number bring no addition. -/
theorem addition_eq_nil_iff (hnumeric : (Json.map counters).Numeric) : (table.addition counters).assignments = [] ↔
    ∀ path n, (Json.map counters).valueAt path ≠ some (.number n) := by
  rw [List.eq_nil_iff_forall_not_mem]
  constructor
  · intro h path n hvalue
    exact h _ ((mem_addition hordered hnumeric).2 ⟨path, n, hvalue, rfl⟩)
  · intro h a ha
    obtain ⟨path, n, hvalue, -⟩ := (mem_addition hordered hnumeric).1 ha
    exact h path n hvalue

/-- An increment that adds nothing stores the item under its key as it is, or a bare one where there is none. -/
theorem command_increment_idle (hne : counters ≠ []) (hnumeric : (Json.map counters).Numeric)
    (hnone : ∀ path n, (Json.map counters).valueAt path ≠ some (.number n)) (key : Key) {ε : Type}
    (environment : Environment ε) (pages : Nat) (memory : Memory) (e : ε) :
    environment.host.command pages (table.increment key counters) (memory, e) =
      some (itemJson ((memory.item? table.layout key).getD (table.layout.keyItem key)),
        (memory.counted .updateItem).store table.layout key
          ((memory.item? table.layout key).getD (table.layout.keyItem key)), e) := by
  have happly : ∀ item, (table.addition counters).apply item = .ok item := by
    intro item
    rw [Update.apply, (addition_eq_nil_iff hordered hnumeric).2 hnone]
    rfl
  have hanswer := environment.answer_updateItem_applied e
    (show Memory.check none (memory.item? table.layout key) key = .ok () by cases memory.item? table.layout key <;> rfl)
    (happly ((memory.item? table.layout key).getD (table.layout.keyItem key)))
  rw [increment_eq table key hne hordered hnumeric]
  exact Host.command_ask_bind _ _ hanswer _

end Table

/-- Whether there is nothing but maps in a value. -/
def Json.Hollow (value : Json) : Prop :=
  ∀ path found, value.valueAt path = some found → ∃ entries, found = .map entries

theorem Json.Hollow.numeric {value : Json} (h : value.Hollow) : value.Numeric :=
  fun path found hfound => Or.inl (h path found hfound)

theorem Json.Hollow.not_number {value : Json} (h : value.Hollow) (path : List String) (n : Number) :
    value.valueAt path ≠ some (.number n) := by
  intro hvalue
  obtain ⟨entries, he⟩ := h path _ hvalue
  cases he

theorem Json.Numeric.hollow {value : Json} (h : value.Numeric)
    (hnone : ∀ path n, value.valueAt path ≠ some (.number n)) : value.Hollow := by
  intro path found hfound
  refine (h path found hfound).resolve_right ?_
  rintro ⟨n, rfl⟩
  exact hnone path n hfound

/-- An increment without counters, or with something that is neither a number nor a map among them, fails before the
store is asked. Any other one asks the store for a single update that adds each number of the counters at its path in
the data, and nothing else. Maps without a number in them are not refused: the update then adds nothing at all, and a
store in memory makes the bare item of the key where there was none. -/
theorem Table.increment_sends (table : Table) (key : Key) {counters : Json.Map}
    (hordered : (Json.map counters).Ordered) :
    (counters = [] ∨ ¬ (Json.map counters).Numeric → ∃ failure, table.increment key counters = throw failure) ∧
    (counters ≠ [] → (Json.map counters).Numeric → ∃ update : Update,
      (table.increment key counters = do
        let updated ← Command.ask (.updateItem table.layout key update none)
        itemJson updated) ∧
      update.action = .add ∧
      (∀ a, a ∈ update.assignments ↔ ∃ path n, (Json.map counters).valueAt path = some (.number n) ∧
        a = ⟨table.layout.dataName :: path, .number n.text⟩) ∧
      (update.assignments.map (·.path)).Nodup ∧
      (update.assignments = [] ↔ (Json.map counters).Hollow)) ∧
    (counters ≠ [] → (Json.map counters).Hollow → ∀ {ε : Type} (environment : Environment ε) (pages : Nat)
      (memory : Memory) (e : ε), ∃ memory',
        environment.host.command pages (table.increment key counters) (memory, e) =
          some (itemJson ((memory.item? table.layout key).getD (table.layout.keyItem key)), memory', e) ∧
        Memory.DiffersAt table.layout key memory
          (some ((memory.item? table.layout key).getD (table.layout.keyItem key))) memory') := by
  refine ⟨increment_refused hordered key, fun hne hnumeric => ?_, fun hne hhollow ε environment pages memory e => ?_⟩
  · refine ⟨table.addition counters, increment_eq table key hne hordered hnumeric, rfl,
      fun a => mem_addition hordered hnumeric, (addition_separate hordered).nodup, ?_⟩
    rw [addition_eq_nil_iff hordered hnumeric]
    exact ⟨hnumeric.hollow, Json.Hollow.not_number⟩
  · exact ⟨_, command_increment_idle hordered hne hhollow.numeric hhollow.not_number key environment pages memory e,
      Memory.differsAt_store ..⟩

/-- Visits from nowhere make a page that nobody has visited. A text among visits is refused. -/
theorem Table.increment_sends_nowhere :
    (∃ memory', Environment.still.host.command 1 (visits.increment homePage [("by", .map [])]) ({}, ()) =
        some (.ok (.map [("pk", .string "site"), ("sk", .string "home")]), memory', ()) ∧
      memory'.item? visits.layout homePage = some (visits.layout.keyItem homePage)) ∧
    ∃ failure, visits.increment homePage [("by", .string "fr")] = throw failure := by
  have hempty : ∀ path found, (Json.map []).valueAt path = some found → found = .map [] := by
    intro path found hfound
    cases path with
    | nil => exact (Option.some.inj hfound).symm
    | cons name rest => cases hfound
  have hordered : (Json.map []).Ordered := by
    intro path entries hentries
    cases hempty path _ hentries
    exact List.Pairwise.nil
  have hhollow : (Json.map [("by", .map [])]).Hollow := by
    intro path found hfound
    cases path with
    | nil => exact ⟨_, (Option.some.inj hfound).symm⟩
    | cons name rest =>
      rw [Json.valueAt_single] at hfound
      split at hfound
      · exact ⟨_, hempty rest found hfound⟩
      · cases hfound
  have htext : (Json.map [("by", .string "fr")]).Ordered :=
    (Json.ordered_of_not_map fun _ he => by cases he).single "by"
  have hother : ¬ (Json.map [("by", .string "fr")]).Numeric := fun hnumeric => by
    rcases hnumeric ["by"] _ rfl with ⟨_, he⟩ | ⟨_, he⟩ <;> cases he
  obtain ⟨-, -, hidle⟩ := increment_sends visits homePage (hordered.single "by")
  obtain ⟨memory', hrun, hdiffers⟩ := hidle (List.cons_ne_nil _ _) hhollow Environment.still 1 {} ()
  exact ⟨⟨memory', hrun, hdiffers.item⟩, (increment_sends visits homePage htext).1 (Or.inr hother)⟩

end KeyedRecords
