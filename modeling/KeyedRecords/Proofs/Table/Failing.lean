import KeyedRecords.Proofs.Records.Operations
import KeyedRecords.Proofs.Store.History
import KeyedRecords.Proofs.Update.Readable

/-! Commands on a table that fail. What they write can be read back as JSON, so in a store that tables alone have
written to no command fails once its write has taken effect. Main statement: `failed_unchanged`. -/

namespace KeyedRecords

/-- Whether a call has changed an item: a put or an update that succeeded, or a deletion that found one. -/
def Exchange.Writes : Exchange → Prop
  | ⟨.putItem .., .ok _⟩ | ⟨.updateItem .., .ok _⟩ | ⟨.deleteItem .., .ok (some _)⟩ => True
  | _ => False

/-- Whether the item that a write brings can be read as JSON. -/
def Exchange.Readable : Exchange → Prop
  | ⟨.updateItem .., .ok item⟩ | ⟨.deleteItem .., .ok (some item)⟩ => (Attribute.map item).Readable
  | _ => True

def Call.Readable : Call → Prop
  | .putItem _ item _ => (Attribute.map item).Readable
  | .updateItem _ _ update _ => update.Readable
  | .getItem .. | .query _ | .deleteItem .. => True

/-! ## What stores hold -/

namespace Memory

/-- Whether all items can be read as JSON. -/
def Readable (memory : Memory) : Prop :=
  ∀ table key item, Assoc.find? (memory.contents table) key = some item → (Attribute.map item).Readable

theorem Readable.store {memory : Memory} (h : memory.Readable) (layout : TableLayout) (key : Key) {item : Item}
    (hitem : (Attribute.map item).Readable) : (memory.store layout key item).Readable := by
  intro table other stored hstored
  rw [Memory.store, contents_insert] at hstored
  split at hstored
  · rw [Assoc.find?_insert] at hstored
    split at hstored
    · cases hstored
      exact hitem
    · exact h layout.table other stored hstored
  · exact h table other stored hstored

theorem Readable.remove {memory : Memory} (h : memory.Readable) (layout : TableLayout) (key : Key) :
    (memory.remove layout key).Readable := by
  intro table other stored hstored
  rw [Memory.remove, contents_insert] at hstored
  split at hstored
  · rw [Assoc.find?_erase] at hstored
    split at hstored
    · cases hstored
    · exact h layout.table other stored hstored
  · exact h table other stored hstored

/-- Calls that write what can be read answer so, and keep all items so. -/
theorem Readable.reply {memory : Memory} (h : memory.Readable) {call : Call} (hcall : call.Readable) :
    Exchange.Readable ⟨call, (memory.reply call).1⟩ ∧ (memory.reply call).2.Readable := by
  refine of_replies (P := fun reply after => Exchange.Readable ⟨call, reply⟩ ∧ after.Readable)
    fun reply after hreplies => ?_
  cases hreplies with
  | put => exact ⟨trivial, h.store _ _ hcall⟩
  | @updated layout key _ _ _ _ happly =>
    have hold : (Attribute.map ((memory.item? layout key).getD (layout.keyItem key))).Readable := by
      cases hitem : memory.item? layout key with
      | none => exact readable_keyItem layout key
      | some item => exact h layout.table key item hitem
    have hitem := Update.apply_readable hcall hold happly
    exact ⟨hitem, h.store layout key hitem⟩
  | deleted hitem => exact ⟨h _ _ _ hitem, h.remove _ _⟩
  | _ => exact ⟨trivial, h⟩

/-- A call that writes nothing leaves every table as it is. -/
theorem contents_of_not_writes {memory : Memory} {call : Call}
    (h : ¬ Exchange.Writes ⟨call, (memory.reply call).1⟩) (table : String) :
    (memory.reply call).2.contents table = memory.contents table := by
  revert h
  refine of_replies (P := fun reply after => ¬ Exchange.Writes ⟨call, reply⟩ →
    after.contents table = memory.contents table) fun reply after hreplies h => ?_
  cases hreplies with
  | put | updated | deleted => exact absurd trivial h
  | _ => rfl

end Memory

/-! ## Commands -/

namespace Table

variable (table : Table)

/-- The calls of table commands write what can be read as JSON. -/
theorem calls_readable : table.Calls Call.Readable where
  getItem _ := trivial
  query _ _ := trivial
  deleteItem _ := trivial
  put key data time := table.layout.readable_newItem key data time
  updated _ data time := Update.readable_set (Table.readable_updateItem table.layout data time)
  added _ counters := Update.readable_add (readable_single (readable_ofJsonMap counters))

/-- Whether there was no write if a result is a failure. -/
def Unwritten {α : Type} (seen : List Exchange) (result : Result α) : Prop :=
  ∀ failure, result = .error failure → ∀ x ∈ seen, ¬ x.Writes

section Unwritten

variable {α : Type} {seen : List Exchange}

theorem unwritten_ok (a : α) : Unwritten seen (.ok a) := fun _ h => nomatch h

theorem unwritten_of_none {result : Result α} (h : ∀ x ∈ seen, ¬ x.Writes) : Unwritten seen result :=
  fun _ _ => h

theorem unwritten_nil (result : Result α) : Unwritten [] result :=
  unwritten_of_none fun _ hx => absurd hx List.not_mem_nil

theorem not_writes_snoc (h : ∀ x ∈ seen, ¬ x.Writes) {x : Exchange} (hx : ¬ x.Writes) :
    ∀ y ∈ seen ++ [x], ¬ y.Writes := by
  intro y hy
  rcases List.mem_append.1 hy with hy | hy
  · exact h y hy
  · exact List.mem_singleton.1 hy ▸ hx

theorem unwritten_itemJson {item : Item} (h : (Attribute.map item).Readable) : Unwritten seen (itemJson item) := by
  obtain ⟨json, hjson⟩ := h
  have hitem : itemJson item = .ok json := hjson
  rw [hitem]
  exact unwritten_ok json

theorem unwritten_mapM_itemJson {item? : Option Item}
    (h : (∀ x ∈ seen, ¬ x.Writes) ∨ ∀ item ∈ item?, (Attribute.map item).Readable) :
    Unwritten seen (item?.mapM itemJson : Result (Option Json)) := by
  cases item? with
  | none => exact unwritten_ok none
  | some item =>
    rcases h with h | h
    · exact unwritten_of_none h
    · obtain ⟨json, hjson⟩ := h item rfl
      have hitem : itemJson item = .ok json := hjson
      rw [Option.mapM_some, hitem]
      exact unwritten_ok (some json)

end Unwritten

section Commands

open Command

variable {table} {seen : List Exchange} (hseen : ∀ x ∈ seen, ¬ x.Writes)

include hseen

theorem put_unwritten (key : Key) (data : Json.Map) :
    (table.put key data).Ensures Exchange.Readable Unwritten seen := by
  refine ensures_now_bind fun time => ensures_ask_bind (fun _ _ => ensures_result ?_) fun e _ => ?_
  · exact unwritten_itemJson (table.layout.readable_newItem key _ time)
  · exact unwritten_of_none (not_writes_snoc hseen id)

theorem update_unwritten (key : Key) (data : Json.Map) :
    (table.update key data).Ensures Exchange.Readable Unwritten seen := by
  refine ensures_now_bind fun time => ensures_ask_bind (fun item hitem => ensures_result ?_) fun e _ => ?_
  · exact unwritten_itemJson hitem
  · exact unwritten_of_none (not_writes_snoc hseen id)

theorem get_unwritten (key : Key) : (table.get key).Ensures Exchange.Readable Unwritten seen :=
  ensures_ask_bind
    (fun _ _ => ensures_result (unwritten_mapM_itemJson (Or.inl (not_writes_snoc hseen id))))
    fun _ _ => unwritten_of_none (not_writes_snoc hseen id)

theorem delete_unwritten (key : Key) : (table.delete key).Ensures Exchange.Readable Unwritten seen := by
  refine ensures_ask_bind (fun item? hitem => ensures_result (unwritten_mapM_itemJson (Or.inr ?_))) fun e _ => ?_
  · rintro item rfl
    exact hitem
  · exact unwritten_of_none (not_writes_snoc hseen id)

omit hseen in
theorem increment_unwritten (key : Key) (counters : Json.Map) :
    (table.increment key counters).Ensures Exchange.Readable Unwritten [] := by
  simp only [increment]
  by_cases hempty : List.isEmpty counters = true
  · rw [if_pos hempty]
    exact unwritten_nil _
  · rw [if_neg hempty]
    split
    · exact unwritten_nil _
    · refine ensures_ask_bind (fun item hitem => ensures_result (unwritten_itemJson hitem)) fun e _ => ?_
      exact unwritten_of_none (not_writes_snoc (fun _ hx => absurd hx List.not_mem_nil) id)

omit hseen in
/-- A command that goes on with a value once another one has written fails only as that one does. -/
theorem pure_unwritten {α β : Type} {c : Command α} (h : c.Ensures Exchange.Readable Unwritten seen) (f : α → β) :
    (do let a ← c; pure (f a) : Command β).Ensures Exchange.Readable Unwritten seen := by
  refine Ensures.bind (Program.Ensures.mono ?_ h)
  rintro seen (e | a) hresult
  · exact fun failure hfailure => hresult failure (by cases hfailure; rfl)
  · exact unwritten_ok (f a)

/-- The one write of an accumulation comes last, and what comes of it can be read. -/
theorem accumulate_unwritten (key : Key) (counters : Json.Map) (path? : Option String) :
    (table.accumulate key counters path?).Ensures Exchange.Readable Unwritten seen := by
  refine ensures_ask_bind (fun item? _ => ?_) fun e _ => unwritten_of_none (not_writes_snoc hseen id)
  have hread : ∀ x ∈ seen ++ [⟨.getItem table.layout key, .ok item?⟩], ¬ Exchange.Writes x :=
    not_writes_snoc hseen id
  cases item? with
  | none => exact ensures_now_bind fun time => pure_unwritten (put_unwritten hread key _) _
  | some item =>
    refine ensures_result_bind (fun stored _ => ?_) fun e _ => unwritten_of_none hread
    refine ensures_result_bind (fun merged _ => ?_) fun e _ => unwritten_of_none hread
    exact pure_unwritten (update_unwritten hread key merged) _

theorem query_unwritten (query : Query) : (table.query query).Ensures Exchange.Readable Unwritten seen := by
  refine ensures_result_bind (fun bound _ => ?_) fun e _ => unwritten_of_none hseen
  refine ensures_ask_bind (fun page _ => ?_) fun e _ => unwritten_of_none (not_writes_snoc hseen id)
  exact ensures_result_bind (fun items _ => unwritten_ok _) fun e _ =>
    unwritten_of_none (not_writes_snoc hseen id)

theorem queryAll_unwritten (query : Query) (count? : Option Nat) :
    (table.queryAll query count?).Ensures Exchange.Readable Unwritten seen := by
  refine ensures_result_bind (fun bound _ => ?_) fun e _ => unwritten_of_none hseen
  dsimp only
  split
  · exact ensures_readPages_bind fun reads _ _ read => unwritten_ok _
  · exact unwritten_ok _

end Commands

theorem Offers.unwritten {table : Table} {α : Type} {command : Command α} (h : table.Offers command) :
    command.Ensures Exchange.Readable Unwritten [] := by
  have hnone : ∀ x ∈ ([] : List Exchange), ¬ x.Writes := fun _ hx => absurd hx List.not_mem_nil
  cases h with
  | put key data => exact put_unwritten hnone key data
  | get key => exact get_unwritten hnone key
  | update key data => exact update_unwritten hnone key data
  | increment key counters => exact increment_unwritten key counters
  | accumulate key counters path? => exact accumulate_unwritten hnone key counters path?
  | query query => exact query_unwritten hnone query
  | queryAll query count? => exact queryAll_unwritten hnone query count?
  | delete key => exact delete_unwritten hnone key

/-! ## Stores that tables have written -/

/-- The commands of tables of any layout, shaped in any way. -/
def OfferedByAny {α : Type} (command : Command α) : Prop := ∃ table : Table, table.Offers command

theorem readable_of_reached {memory : Memory} (h : memory.ReachedBy OfferedByAny) : memory.Readable := by
  refine h.invariant (P := Call.Readable) (fun _ _ _ hitem => nomatch hitem) ?_ ?_
  · intro call memory hcall hmemory
    have hcounted : (memory.counted call.kind).Readable := hmemory
    exact (hcounted.reply hcall).2
  · rintro α command ⟨table, hoffers⟩
    exact hoffers.asks table.calls_readable

/-- In a store that table commands alone have written to, a table command that fails leaves every table as it was, and
none of its calls has changed an item. -/
theorem failed_unchanged {memory : Memory} (hreached : memory.ReachedBy OfferedByAny) {table : Table} {α : Type}
    {command : Command α} (hoffers : table.Offers command) {ε : Type} (environment : Environment ε) (pages : Nat)
    {e e' : ε} {failure : RecordError} {after : Memory}
    (hrun : environment.host.command pages command (memory, e) = some (.error failure, after, e')) :
    (∀ name, after.contents name = memory.contents name) ∧ ∃ exchanges,
      environment.host.recorded.command pages command ((memory, e), []) =
        some (.error failure, (after, e'), exchanges) ∧ ∀ x ∈ exchanges, ¬ x.Writes := by
  obtain ⟨exchanges, hrecorded⟩ := environment.host.exists_recorded hrun []
  have hanswers : environment.host.Answers Call.Readable Exchange.Readable fun state => state.1.Readable :=
    environment.answers (fun _ _ h => h) fun call memory hcall hmemory => hmemory.reply hcall
  have hnone : ∀ x ∈ exchanges, ¬ x.Writes := Program.Ensures.run hanswers (hoffers.asks table.calls_readable)
    hoffers.unwritten (readable_of_reached hreached) hrecorded failure rfl
  refine ⟨?_, exchanges, hrecorded, hnone⟩
  have hkept : (∃ x ∈ exchanges, x.Writes) ∨ ∀ name, after.contents name = memory.contents name := by
    refine environment.host.recorded.run_preserves pages (P := fun state => (∃ x ∈ state.2, x.Writes) ∨
      ∀ name, state.1.1.contents name = memory.contents name) ?_ ?_ ?_ (Or.inr fun _ => rfl) hrecorded
    · rintro call state (⟨x, hx, hwrites⟩ | hsame)
      · exact Or.inl ⟨x, List.mem_append_left _ hx, hwrites⟩
      · by_cases hwrites : Exchange.Writes ⟨call, (environment.host.answer call state.1).1⟩
        · exact Or.inl ⟨_, List.mem_append_right _ (List.mem_singleton_self _), hwrites⟩
        · exact Or.inr fun name => (Memory.contents_of_not_writes hwrites name).trans (hsame name)
    · exact fun _ h => h
    · exact fun _ h => h
  exact hkept.resolve_left fun ⟨x, hx, hwrites⟩ => hnone x hx hwrites

def sales : Table where
  layout := { table := "sales" }

def salesClient : Program Unit :=
  (sales.put ⟨"SITE#s1", "SALES"⟩ [("site", .string "s1")]).run.bind fun _ => .done ()

def sold : Memory := (Environment.still.host.interleave [0, 0] [salesClient] ({}, ())).2.1

theorem sold_reached : sold.ReachedBy OfferedByAny := by
  refine ⟨Unit, Environment.still, (), _, _, fun client hclient => ?_, rfl⟩
  cases List.mem_singleton.1 hclient
  exact .next ⟨sales, .put _ _⟩ fun _ => .done

/-- Setting an amount and a part of the name of the site fails with the second, and the amount is not stored. -/
theorem failed_unchanged_sales : ∃ after,
    Environment.still.host.command 1 (sales.update ⟨"SITE#s1", "SALES"⟩
      [("amount", .string "2"), ("site", .map [("name", .string "s2")])]) (sold, ()) =
        some (.error (.store (.validation "The document path 'data.site.name' is invalid for update")), after, ()) ∧
    (sold.item? sales.layout ⟨"SITE#s1", "SALES"⟩).isSome ∧
    ∀ name, after.contents name = sold.contents name := by
  have hrun : Environment.still.host.command 1 (sales.update ⟨"SITE#s1", "SALES"⟩
      [("amount", .string "2"), ("site", .map [("name", .string "s2")])]) (sold, ()) =
        some (.error (.store (.validation "The document path 'data.site.name' is invalid for update")),
          sold.counted .updateItem, ()) := rfl
  have hunchanged := failed_unchanged sold_reached (.update _ _) Environment.still 1 hrun
  exact ⟨_, hrun, rfl, hunchanged.1⟩

end Table

end KeyedRecords
