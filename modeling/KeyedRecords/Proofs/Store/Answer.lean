import KeyedRecords.Proofs.Store.Run

/-! What a store in memory answers to each call, and what it holds afterwards, in terms of the items at its
keys. All that a call can do is in `Memory.Replies`, and what calls keep is shown from it. Main statement:
`Memory.replies`. -/

namespace KeyedRecords

namespace Memory

/-! ## Items after a change -/

theorem item?_store (memory : Memory) (layout : TableLayout) (key other : Key) (item : Item) :
    (memory.store layout key item).item? layout other =
      if other = key then some item else memory.item? layout other := by
  simp only [item?, contents, store, Assoc.find?_insert_self, Option.getD_some, Assoc.find?_insert]

theorem item?_store_self (memory : Memory) (layout : TableLayout) (key : Key) (item : Item) :
    (memory.store layout key item).item? layout key = some item := by
  rw [item?_store, if_pos rfl]

theorem item?_remove (memory : Memory) (layout : TableLayout) (key other : Key) :
    (memory.remove layout key).item? layout other =
      if other = key then none else memory.item? layout other := by
  simp only [item?, contents, remove, Assoc.find?_insert_self, Option.getD_some, Assoc.find?_erase]

theorem item?_congr {memory after : Memory} (h : after.tables = memory.tables) (layout : TableLayout) (key : Key) :
    after.item? layout key = memory.item? layout key := by
  simp only [item?, contents, h]

section Everywhere

variable {memory : Memory} {layout : TableLayout} {holds : Key → Item → Prop}
  (h : ∀ other stored, memory.item? layout other = some stored → holds other stored)

include h

/-- What holds of all items of a table still does when one more is stored that it holds of. -/
theorem holds_store {key : Key} {item : Item} (hitem : holds key item) :
    ∀ other stored, (memory.store layout key item).item? layout other = some stored → holds other stored := by
  intro other stored hstored
  rw [item?_store] at hstored
  split at hstored
  · rename_i hother
    cases hstored
    exact hother ▸ hitem
  · exact h other stored hstored

theorem holds_remove (key : Key) :
    ∀ other stored, (memory.remove layout key).item? layout other = some stored → holds other stored := by
  intro other stored hstored
  rw [item?_remove] at hstored
  split at hstored
  · cases hstored
  · exact h other stored hstored

end Everywhere

def Sorted (memory : Memory) : Prop := ∀ table, Assoc.Sorted (memory.contents table)

theorem sorted_empty : Memory.Sorted {} := fun _ => List.Pairwise.nil

theorem contents_congr {memory after : Memory} (h : after.tables = memory.tables) (table : String) :
    after.contents table = memory.contents table := by
  rw [contents, contents, h]

theorem Sorted.congr {memory after : Memory} (h : memory.Sorted) (htables : after.tables = memory.tables) :
    after.Sorted := fun table => contents_congr htables table ▸ h table

theorem contents_insert (memory : Memory) (table other : String) (contents : Contents) :
    Memory.contents { memory with tables := Assoc.insert memory.tables table contents } other =
      if other = table then contents else memory.contents other := by
  simp only [Memory.contents, Assoc.find?_insert]
  split <;> rfl

theorem Sorted.store {memory : Memory} (h : memory.Sorted) (layout : TableLayout) (key : Key)
    (item : Item) : (memory.store layout key item).Sorted := by
  intro table
  rw [Memory.store, contents_insert]
  split
  · exact Assoc.sorted_insert (h _) key item
  · exact h table

theorem Sorted.remove {memory : Memory} (h : memory.Sorted) (layout : TableLayout) (key : Key) :
    (memory.remove layout key).Sorted := by
  intro table
  rw [Memory.remove, contents_insert]
  split
  · exact Assoc.sorted_erase (h _) key
  · exact h table

/-! ## Replies -/

/-- The replies of a store to a call, each with what the store then holds. -/
inductive Replies (memory : Memory) : (call : Call) → call.Reply → Memory → Prop
  | found (layout : TableLayout) (key : Key) :
    Replies memory (.getItem layout key) (.ok (memory.item? layout key)) memory
  | queried (query : BoundQuery) :
    Replies memory (.query query) (.ok (query.page (memory.contents query.layout.table))) memory
  | put {layout : TableLayout} {item : Item} {key : Key} {condition? : Option Precondition}
      (hkey : layout.keyOf? item = some key) (hcheck : check condition? (memory.item? layout key) key = .ok ()) :
    Replies memory (.putItem layout item condition?) (.ok ()) (memory.store layout key item)
  | notPut (layout : TableLayout) (item : Item) (condition? : Option Precondition) (e : StoreError) :
    Replies memory (.putItem layout item condition?) (.error e) memory
  | updated {layout : TableLayout} {key : Key} {update : Update} {condition? : Option Precondition} {item : Item}
      (hcheck : check condition? (memory.item? layout key) key = .ok ())
      (happly : update.apply ((memory.item? layout key).getD (layout.keyItem key)) = .ok item) :
    Replies memory (.updateItem layout key update condition?) (.ok item) (memory.store layout key item)
  | notUpdated (layout : TableLayout) (key : Key) (update : Update) (condition? : Option Precondition)
      (e : StoreError) : Replies memory (.updateItem layout key update condition?) (.error e) memory
  | deleted {layout : TableLayout} {key : Key} {item : Item} (hitem : memory.item? layout key = some item) :
    Replies memory (.deleteItem layout key) (.ok (some item)) (memory.remove layout key)
  | missing {layout : TableLayout} {key : Key} (hitem : memory.item? layout key = none) :
    Replies memory (.deleteItem layout key) (.ok none) memory

/-- A store replies to a call in one of these ways. -/
theorem replies (memory : Memory) (call : Call) :
    memory.Replies call (memory.reply call).1 (memory.reply call).2 := by
  cases call with
  | getItem layout key => exact .found layout key
  | query query => exact .queried query
  | putItem layout item condition? =>
    simp only [Memory.reply, Memory.put]
    cases hkey : layout.keyOf? item with
    | none => exact .notPut ..
    | some key =>
      simp only
      cases hcheck : check condition? (memory.item? layout key) key with
      | error e => exact .notPut ..
      | ok _ => exact .put hkey hcheck
  | updateItem layout key update condition? =>
    simp only [Memory.reply, Memory.update]
    cases hcheck : check condition? (memory.item? layout key) key with
    | error e => exact .notUpdated ..
    | ok _ =>
      cases happly : update.apply ((memory.item? layout key).getD (layout.keyItem key)) with
      | error e => exact .notUpdated ..
      | ok item => exact .updated hcheck happly
  | deleteItem layout key =>
    simp only [Memory.reply]
    split
    · exact .deleted ‹_›
    · exact .missing ‹_›

/-- What holds of every way to reply holds of the reply. -/
theorem of_replies {memory : Memory} {call : Call} {P : call.Reply → Memory → Prop}
    (h : ∀ reply after, memory.Replies call reply after → P reply after) :
    P (memory.reply call).1 (memory.reply call).2 := h _ _ (memory.replies call)

theorem check_absent {stored? : Option Item} {key : Key} (h : check (some .absent) stored? key = .ok ()) :
    stored? = none := by
  cases stored? with
  | none => rfl
  | some item => cases h

theorem check_present {stored? : Option Item} {key : Key} (h : check (some .present) stored? key = .ok ()) :
    ∃ item, stored? = some item := by
  cases stored? with
  | none => cases h
  | some item => exact ⟨item, rfl⟩

theorem Sorted.reply {memory : Memory} (h : memory.Sorted) (call : Call) : (memory.reply call).2.Sorted := by
  refine of_replies (P := fun _ after => after.Sorted) fun reply after hreplies => ?_
  cases hreplies with
  | put => exact h.store _ _ _
  | updated => exact h.store _ _ _
  | deleted => exact h.remove _ _
  | _ => exact h

def counted (memory : Memory) (kind : Call.Kind) : Memory :=
  { memory with calls := memory.calls.count kind }

/-- Whether a store differs from one before in what lies under a key of a table, and in nothing else. -/
structure DiffersAt (layout : TableLayout) (key : Key) (memory : Memory) (item? : Option Item) (after : Memory) :
    Prop where
  item : after.item? layout key = item?
  others : ∀ other, other ≠ key → after.item? layout other = memory.item? layout other
  tables : ∀ table, table ≠ layout.table → after.contents table = memory.contents table

section DiffersAt

variable (memory : Memory) (kind : Call.Kind) (layout : TableLayout) (key : Key)

theorem differsAt_remove : DiffersAt layout key memory none ((memory.counted kind).remove layout key) where
  item := (item?_remove _ layout key key).trans (if_pos rfl)
  others other h := (item?_remove _ layout key other).trans (if_neg h)
  tables table h := (contents_insert _ layout.table table _).trans (if_neg h)

theorem differsAt_store (item : Item) :
    DiffersAt layout key memory (some item) ((memory.counted kind).store layout key item) where
  item := item?_store_self _ layout key item
  others other h := (item?_store _ layout key other item).trans (if_neg h)
  tables table h := (contents_insert _ layout.table table _).trans (if_neg h)

end DiffersAt

end Memory

/-! ## Answers -/

namespace Environment

variable {ε : Type} (environment : Environment ε) {memory : Memory} {layout : TableLayout} {key : Key}
  (e : ε)

theorem command_sorted {α : Type} {pages : Nat} {command : Command α} {result : Result α} {after : Memory}
    {e e' : ε} (h : memory.Sorted)
    (hrun : environment.host.command pages command (memory, e) = some (result, (after, e'))) :
    after.Sorted := by
  refine environment.host.run_preserves pages (P := fun state => state.1.Sorted) ?_ ?_ ?_ h hrun
  · intro call state hstate
    have hcounted : Memory.Sorted { state.1 with calls := state.1.calls.count call.kind } := hstate
    exact hcounted.reply call
  · exact fun state hstate => hstate
  · exact fun state hstate => hstate

/-- Reading pages changes nothing but the count of the queries. -/
theorem command_readPages_counted {wantsMore : List Item → Bool} {pages : Nat} {query : BoundQuery}
    {after : Memory} {e e' : ε} {result : Result (List Item × Option StoreError)}
    (h : environment.host.command pages (Command.readPages query wantsMore) (memory, e) =
      some (result, (after, e'))) :
    after.tables = memory.tables ∧ after.calls = { memory.calls with query := after.calls.query } := by
  rw [Host.command_readPages, Option.map_eq_some_iff] at h
  obtain ⟨⟨read, state⟩, hread, heq⟩ := h
  cases heq
  refine environment.host.readPages_preserves (P := fun state => state.1.tables = memory.tables ∧
    state.1.calls = { memory.calls with query := state.1.calls.query }) ?_ ⟨rfl, rfl⟩ hread
  rintro query state ⟨htables, hcalls⟩
  refine ⟨htables, ?_⟩
  show state.1.calls.count .query = { memory.calls with query := state.1.calls.query + 1 }
  rw [hcalls]
  rfl

/-- A command that asks first and succeeds has been answered, in one of the ways that a store replies. -/
theorem command_ask_bind_inv {α : Type} {pages : Nat} {call : Call} {f : call.Answer → Command α} {a : α}
    {after : Memory} {e e' : ε}
    (h : environment.host.command pages (Command.ask call >>= f) (memory, e) = some (.ok a, after, e')) :
    ∃ answer between, (memory.counted call.kind).Replies call (.ok answer) between ∧
      environment.host.command pages (f answer) (between, e) = some (.ok a, after, e') := by
  have hreplies := (memory.counted call.kind).replies call
  rw [Command.ask, bind_assoc, Host.command_attempt_bind] at h
  change (memory.counted call.kind).Replies call (environment.host.answer call (memory, e)).1
    (environment.host.answer call (memory, e)).2.1 at hreplies
  generalize hanswer : environment.host.answer call (memory, e) = answered at h hreplies
  have hsame : answered.2.2 = e := hanswer ▸ rfl
  obtain ⟨failure | answer, between, last⟩ := answered
  · cases h
  · cases hsame
    exact ⟨answer, between, hreplies, h⟩

theorem answer_getItem : environment.host.answer (.getItem layout key) (memory, e) =
    (.ok (memory.item? layout key), (memory.counted .getItem, e)) := rfl

section PutItem

variable {item : Item} (hkey : layout.keyOf? item = some key) {condition? : Option Precondition}

include hkey

theorem answer_putItem (hcheck : Memory.check condition? (memory.item? layout key) key = .ok ()) :
    environment.host.answer (.putItem layout item condition?) (memory, e) =
      (.ok (), ((memory.counted .putItem).store layout key item, e)) := by
  have hput : (memory.counted .putItem).put layout item condition? =
      .ok ((memory.counted .putItem).store layout key item) := by
    simp only [Memory.put, hkey]
    exact bind_eq_ok.2 ⟨(), hcheck, rfl⟩
  simp only [host, Memory.answer, Memory.reply]
  simp only [Memory.counted] at hput ⊢
  simp only [Call.kind, hput]

theorem answer_putItem_refused {failure : StoreError}
    (hcheck : Memory.check condition? (memory.item? layout key) key = .error failure) :
    environment.host.answer (.putItem layout item condition?) (memory, e) =
      (.error failure, (memory.counted .putItem, e)) := by
  have hput : (memory.counted .putItem).put layout item condition? = .error failure := by
    simp only [Memory.put, hkey]
    show (Memory.check condition? (memory.item? layout key) key >>= _) = _
    rw [hcheck]
    rfl
  simp only [host, Memory.answer, Memory.reply]
  simp only [Memory.counted] at hput ⊢
  simp only [Call.kind, hput]

/-- An item that is to be new is put where there is none. -/
theorem answer_putItem_new (hitem : memory.item? layout key = none) :
    environment.host.answer (.putItem layout item (some .absent)) (memory, e) =
      (.ok (), ((memory.counted .putItem).store layout key item, e)) :=
  environment.answer_putItem e hkey (by rw [hitem]; rfl)

theorem answer_putItem_taken {stored : Item} (hitem : memory.item? layout key = some stored) :
    environment.host.answer (.putItem layout item (some .absent)) (memory, e) =
      (.error (.conditionFailed s!"item {key.display} already exists"), (memory.counted .putItem, e)) :=
  environment.answer_putItem_refused e hkey (by rw [hitem]; rfl)

end PutItem

/-- An update is made of the item under its key, or of the key attributes alone where there is none. -/
theorem answer_updateItem_applied {update : Update} {after : Item} {condition? : Option Precondition}
    (hcheck : Memory.check condition? (memory.item? layout key) key = .ok ())
    (happly : update.apply ((memory.item? layout key).getD (layout.keyItem key)) = .ok after) :
    environment.host.answer (.updateItem layout key update condition?) (memory, e) =
      (.ok after, ((memory.counted .updateItem).store layout key after, e)) := by
  have hupdate : (memory.counted .updateItem).update layout key update condition? =
      .ok (after, (memory.counted .updateItem).store layout key after) :=
    bind_eq_ok.2 ⟨(), hcheck, bind_eq_ok.2 ⟨after, happly, rfl⟩⟩
  simp only [host, Memory.answer, Memory.reply]
  simp only [Memory.counted] at hupdate ⊢
  simp only [Call.kind, hupdate]

theorem answer_updateItem_checked {update : Update} {item after : Item} {condition? : Option Precondition}
    (hitem : memory.item? layout key = some item)
    (hcheck : Memory.check condition? (some item) key = .ok ()) (happly : update.apply item = .ok after) :
    environment.host.answer (.updateItem layout key update condition?) (memory, e) =
      (.ok after, ((memory.counted .updateItem).store layout key after, e)) :=
  environment.answer_updateItem_applied e (hitem ▸ hcheck) (by rw [hitem]; exact happly)

theorem answer_updateItem_refused {update : Update} {item : Item} {condition? : Option Precondition}
    {failure : StoreError} (hitem : memory.item? layout key = some item)
    (hcheck : Memory.check condition? (some item) key = .ok ()) (happly : update.apply item = .error failure) :
    environment.host.answer (.updateItem layout key update condition?) (memory, e) =
      (.error failure, (memory.counted .updateItem, e)) := by
  have hupdate : (memory.counted .updateItem).update layout key update condition? = .error failure := by
    have hcounted : (memory.counted .updateItem).item? layout key = some item := hitem
    simp only [Memory.update, hcounted, Option.getD_some]
    show (Memory.check condition? (some item) key >>= _) = _
    rw [hcheck]
    show (update.apply item >>= _) = _
    rw [happly]
    rfl
  simp only [host, Memory.answer, Memory.reply]
  simp only [Memory.counted] at hupdate ⊢
  simp only [Call.kind, hupdate]

theorem answer_updateItem {update : Update} {item after : Item} (hitem : memory.item? layout key = some item)
    (happly : update.apply item = .ok after) :
    environment.host.answer (.updateItem layout key update (some .present)) (memory, e) =
      (.ok after, ((memory.counted .updateItem).store layout key after, e)) :=
  environment.answer_updateItem_checked e hitem rfl happly

theorem answer_updateItem_missing (update : Update) (hitem : memory.item? layout key = none) : ∃ detail,
    environment.host.answer (.updateItem layout key update (some .present)) (memory, e) =
      (.error (.conditionFailed detail), (memory.counted .updateItem, e)) := by
  refine ⟨s!"item {key.display} does not exist", ?_⟩
  have hupdate : (memory.counted .updateItem).update layout key update (some .present) =
      .error (.conditionFailed s!"item {key.display} does not exist") := by
    have hcounted : (memory.counted .updateItem).item? layout key = none := hitem
    simp only [Memory.update, hcounted, Memory.check]
    rfl
  simp only [host, Memory.answer, Memory.reply]
  simp only [Memory.counted] at hupdate ⊢
  simp only [Call.kind, hupdate]

theorem answer_deleteItem {item : Item} (hitem : memory.item? layout key = some item) :
    environment.host.answer (.deleteItem layout key) (memory, e) =
      (.ok (some item), ((memory.counted .deleteItem).remove layout key, e)) := by
  have hcounted : (memory.counted .deleteItem).item? layout key = some item := hitem
  simp only [host, Memory.answer, Memory.reply]
  simp only [Memory.counted] at hcounted ⊢
  simp only [Call.kind, hcounted]

theorem answer_deleteItem_missing (hitem : memory.item? layout key = none) :
    environment.host.answer (.deleteItem layout key) (memory, e) =
      (.ok none, (memory.counted .deleteItem, e)) := by
  have hcounted : (memory.counted .deleteItem).item? layout key = none := hitem
  simp only [host, Memory.answer, Memory.reply]
  simp only [Memory.counted] at hcounted ⊢
  simp only [Call.kind, hcounted]

end Environment

end KeyedRecords
