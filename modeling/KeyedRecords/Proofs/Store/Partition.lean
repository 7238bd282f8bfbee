import KeyedRecords.Proofs.Query.Found
import KeyedRecords.Proofs.Store.Answer
import KeyedRecords.Proofs.Update.Texts
import Mathlib.Data.List.Basic

/-! One partition of a table beside the rest. Calls that stay within the partition are answered alike by stores that are
alike in it, and pages are cut of its items alone, whatever lies around them. Calls that stay outside leave it as it is.
Main statements: `Memory.Alike.page`, `Memory.Alike.within`, `Memory.Alike.outside`. -/

namespace KeyedRecords

open BoundQuery (textOf?)

/-! ## Pages of one partition -/

namespace BoundQuery

/-- Whether a query reads a partition of a table by its key attributes, whole items of it. -/
structure Reads (query : BoundQuery) (layout : TableLayout) (partition : String) : Prop where
  table : query.layout = layout
  name : query.partitionName = layout.partitionName
  partition : query.partition = partition
  whole : query.projection = []

/-- Where a query starts does not change what it reads. -/
theorem Reads.startAt {query : BoundQuery} {layout : TableLayout} {partition : String}
    (h : query.Reads layout partition) (startKey? : Option Item) :
    { query with startKey? := startKey? }.Reads layout partition :=
  ⟨h.table, h.name, h.partition, h.whole⟩

theorem mem_of_mem_resume {query : BoundQuery} {found : List Match} {m : Match} (h : m ∈ query.resume found) :
    m ∈ found := by
  simp only [resume] at h
  split at h
  · exact h
  · split at h
    · exact (List.dropWhile_sublist _).subset (List.mem_of_mem_drop h)
    · split at h
      · exact h
      · exact (List.mem_filter.1 h).1

/-- The items on a page are of the partition that is queried. -/
theorem textOf?_of_mem_page {query : BoundQuery} (hwhole : query.projection = []) {contents : Contents} {item : Item}
    (h : item ∈ (query.page contents).items) : textOf? item query.partitionName = some query.partition := by
  obtain ⟨m, hm, rfl⟩ := List.mem_map.1 h
  obtain ⟨-, hselects, -⟩ := mem_found.1 (mem_of_mem_resume (List.mem_of_mem_take hm))
  rw [shown, hwhole]
  exact hselects.1

/-- The matches of a query are among the entries whose items may be in the partition. -/
theorem filterMap_match? {query : BoundQuery} {p : Key → Bool} {entries : Contents}
    (hall : ∀ entry ∈ entries, textOf? entry.2 query.partitionName = some query.partition → p entry.1) :
    (entries.filterMap fun (key, item) => query.match? key item) =
      (entries.filter fun entry => p entry.1).filterMap fun (key, item) => query.match? key item := by
  rw [List.filterMap_filter]
  refine List.filterMap_congr fun entry hentry => ?_
  obtain ⟨key, item⟩ := entry
  by_cases hp : p key
  · exact (if_pos hp).symm
  · have hno : query.match? key item = none := if_pos fun htext => hp (hall (key, item) hentry htext)
    exact hno.trans (if_neg hp).symm

/-- A page depends on nothing but the entries of a table whose items may be in the partition. -/
theorem page_congr {query : BoundQuery} {contents other : Contents} {p : Key → Bool}
    (hall : ∀ entry ∈ contents ++ other, textOf? entry.2 query.partitionName = some query.partition → p entry.1)
    (hsame : (contents.filter fun entry => p entry.1) = other.filter fun entry => p entry.1) :
    query.page contents = query.page other := by
  obtain ⟨hcontents, hother⟩ := List.forall_mem_append.1 hall
  have hfound : query.found contents = query.found other := by
    rw [found, found, filterMap_match? hcontents, hsame, ← filterMap_match? hother]
  rw [page, page, hfound]

end BoundQuery

/-! ## Stores that are alike in a partition -/

namespace Memory

theorem item?_of_table {own layout : TableLayout} (h : own.table = layout.table) (memory : Memory) (key : Key) :
    memory.item? own key = memory.item? layout key := by rw [item?, item?, h]

theorem store_of_table {own layout : TableLayout} (h : own.table = layout.table) (memory : Memory) (key : Key)
    (item : Item) : memory.store own key item = memory.store layout key item := by rw [store, store, h]

theorem remove_of_table {own layout : TableLayout} (h : own.table = layout.table) (memory : Memory) (key : Key) :
    memory.remove own key = memory.remove layout key := by rw [remove, remove, h]

/-- Whether the items of a table that have themselves in a partition lie under keys of it. -/
structure Encloses (memory : Memory) (layout : TableLayout) (partition : String) : Prop where
  sorted : memory.Sorted
  inside : ∀ key item, memory.item? layout key = some item →
    textOf? item layout.partitionName = some partition → key.partition = partition

/-- Whether two stores have the same items under the keys of a partition, and enclose those of the partition there. -/
structure Alike (layout : TableLayout) (partition : String) (memory other : Memory) : Prop where
  first : memory.Encloses layout partition
  second : other.Encloses layout partition
  same : ∀ key, key.partition = partition → memory.item? layout key = other.item? layout key

variable {layout : TableLayout} {partition : String} {memory other : Memory}

theorem Encloses.congr (h : memory.Encloses layout partition) {after : Memory}
    (htables : after.tables = memory.tables) : after.Encloses layout partition where
  sorted := h.sorted.congr htables
  inside key item hitem := h.inside key item ((item?_congr htables layout key).symm.trans hitem)

theorem Encloses.store (h : memory.Encloses layout partition) {key : Key} {item : Item}
    (hitem : textOf? item layout.partitionName = some partition → key.partition = partition) :
    (memory.store layout key item).Encloses layout partition :=
  ⟨h.sorted.store layout key item, holds_store h.inside hitem⟩

theorem Encloses.remove (h : memory.Encloses layout partition) (key : Key) :
    (memory.remove layout key).Encloses layout partition :=
  ⟨h.sorted.remove layout key, holds_remove h.inside key⟩

theorem alike_empty (layout : TableLayout) (partition : String) : Alike layout partition {} {} :=
  have hempty : Memory.Encloses {} layout partition := ⟨sorted_empty, fun _ _ h => nomatch h⟩
  ⟨hempty, hempty, fun _ _ => rfl⟩

theorem Alike.symm (h : Alike layout partition memory other) : Alike layout partition other memory :=
  ⟨h.second, h.first, fun key hkey => (h.same key hkey).symm⟩

theorem Alike.congr (h : Alike layout partition memory other) {after : Memory}
    (htables : after.tables = memory.tables) : Alike layout partition after other :=
  ⟨h.first.congr htables, h.second, fun key hkey => (item?_congr htables layout key).trans (h.same key hkey)⟩

theorem Alike.counted (h : Alike layout partition memory other) (kind : Call.Kind) :
    Alike layout partition (memory.counted kind) other := h.congr rfl

/-- Of stores that are alike in a partition, a query of it finds the same pages. -/
theorem Alike.page (h : Alike layout partition memory other) {query : BoundQuery}
    (hreads : query.Reads layout partition) :
    query.page (memory.contents query.layout.table) = query.page (other.contents query.layout.table) := by
  rw [hreads.table]
  refine BoundQuery.page_congr (p := fun key => decide (key.partition = partition)) ?_ ?_
  · intro entry hentry htext
    rw [hreads.name, hreads.partition] at htext
    refine decide_eq_true ?_
    rcases List.mem_append.1 hentry with hentry | hentry
    · exact h.first.inside _ _ (Assoc.find?_of_mem (h.first.sorted _).nodup hentry) htext
    · exact h.second.inside _ _ (Assoc.find?_of_mem (h.second.sorted _).nodup hentry) htext
  · exact Assoc.filter_eq_of_find?_eq (h.first.sorted _) (h.second.sorted _) fun key hkey =>
      h.same key (of_decide_eq_true hkey)

/-! ## Changes within and outside -/

section Changes

variable (h : Alike layout partition memory other) {key : Key}

include h

theorem Alike.store (hkey : key.partition = partition) (item : Item) :
    Alike layout partition (memory.store layout key item) (other.store layout key item) where
  first := h.first.store fun _ => hkey
  second := h.second.store fun _ => hkey
  same own hown := by rw [item?_store, item?_store, h.same own hown]

theorem Alike.remove (key : Key) : Alike layout partition (memory.remove layout key) (other.remove layout key) where
  first := h.first.remove key
  second := h.second.remove key
  same own hown := by rw [item?_remove, item?_remove, h.same own hown]

theorem Alike.store_outside (hkey : key.partition ≠ partition) {item : Item}
    (hitem : textOf? item layout.partitionName ≠ some partition) :
    Alike layout partition (memory.store layout key item) other where
  first := h.first.store fun htext => absurd htext hitem
  second := h.second
  same own hown := by
    have hne : own ≠ key := fun he => hkey (he ▸ hown)
    rw [item?_store, if_neg hne, h.same own hown]

theorem Alike.remove_outside (hkey : key.partition ≠ partition) :
    Alike layout partition (memory.remove layout key) other where
  first := h.first.remove key
  second := h.second
  same own hown := by
    have hne : own ≠ key := fun he => hkey (he ▸ hown)
    rw [item?_remove, if_neg hne, h.same own hown]

end Changes

end Memory

/-! ## Calls -/

namespace Call

/-- Whether a call stays within a partition of a table. -/
def Within (layout : TableLayout) (partition : String) : Call → Prop
  | .getItem own key | .updateItem own key _ _ | .deleteItem own key => own = layout ∧ key.partition = partition
  | .putItem own item _ => own = layout ∧ ∀ key, layout.keyOf? item = some key → key.partition = partition
  | .query own => own.Reads layout partition

/-- Whether a call changes nothing within a partition of a table, and moves nothing into it. -/
def Outside (layout : TableLayout) (partition : String) : Call → Prop
  | .getItem .. | .query _ => True
  | .putItem own item _ => own.table = layout.table ∧ (∀ key, own.keyOf? item = some key → key.partition ≠ partition) ∧
      textOf? item layout.partitionName ≠ some partition
  | .updateItem own key update condition? => own.table = layout.table ∧ key.partition ≠ partition ∧
      condition? = some .present ∧ update.action = .set ∧
      ∀ value ∈ update.lastSet? layout.partitionName, value.asString? = none
  | .deleteItem own key => own.table = layout.table ∧ key.partition ≠ partition

end Call

namespace Memory

variable {layout : TableLayout} {partition : String} {memory other : Memory}

/-- A call that stays within a partition is answered alike by stores that are alike in it, and leaves them alike. -/
theorem Alike.within (h : Alike layout partition memory other) {call : Call} (hcall : call.Within layout partition) :
    (memory.reply call).1 = (other.reply call).1 ∧
      Alike layout partition (memory.reply call).2 (other.reply call).2 := by
  cases call with
  | getItem own key =>
    obtain ⟨rfl, hkey⟩ := hcall
    exact ⟨congrArg Except.ok (h.same key hkey), h⟩
  | query query => exact ⟨congrArg Except.ok (h.page hcall), h⟩
  | putItem own item condition? =>
    obtain ⟨rfl, hown⟩ := hcall
    simp only [reply, put]
    cases hkey : own.keyOf? item with
    | none => exact ⟨rfl, h⟩
    | some key =>
      simp only [h.same key (hown key hkey)]
      cases check condition? (other.item? own key) key with
      | error e => exact ⟨rfl, h⟩
      | ok _ => exact ⟨rfl, h.store (hown key hkey) item⟩
  | updateItem own key update condition? =>
    obtain ⟨rfl, hkey⟩ := hcall
    simp only [reply, Memory.update, h.same key hkey]
    cases check condition? (other.item? own key) key with
    | error e => exact ⟨rfl, h⟩
    | ok _ =>
      cases update.apply ((other.item? own key).getD (own.keyItem key)) with
      | error e => exact ⟨rfl, h⟩
      | ok item => exact ⟨rfl, h.store hkey item⟩
  | deleteItem own key =>
    obtain ⟨rfl, hkey⟩ := hcall
    simp only [reply, h.same key hkey]
    cases other.item? own key with
    | none => exact ⟨rfl, h⟩
    | some item => exact ⟨rfl, h.remove key⟩

/-- A call that stays outside of a partition leaves it as it is. -/
theorem Alike.outside (h : Alike layout partition memory other) {call : Call} (hcall : call.Outside layout partition) :
    Alike layout partition (memory.reply call).2 other := by
  refine of_replies (P := fun _ after => Alike layout partition after other) fun reply after hreplies => ?_
  cases hreplies with
  | put hkey _ =>
    obtain ⟨htable, hown, hitem⟩ := hcall
    rw [store_of_table htable]
    exact h.store_outside (hown _ hkey) hitem
  | @updated own key update condition? after hcheck happly =>
    obtain ⟨htable, hkey, rfl, hset, hlast⟩ := hcall
    obtain ⟨item, hitem⟩ := check_present hcheck
    rw [hitem, Option.getD_some] at happly
    rw [store_of_table htable]
    refine h.store_outside hkey fun htext => ?_
    rw [Update.textOf?_set hset happly] at htext
    cases hvalue : update.lastSet? layout.partitionName with
    | some value =>
      rw [hvalue, Option.elim_some, hlast value hvalue] at htext
      cases htext
    | none =>
      rw [hvalue] at htext
      exact hkey (h.first.inside key item ((item?_of_table htable memory key).symm.trans hitem) htext)
  | deleted hitem =>
    obtain ⟨htable, hkey⟩ := hcall
    rw [remove_of_table htable]
    exact h.remove_outside hkey
  | _ => exact h

end Memory

end KeyedRecords
