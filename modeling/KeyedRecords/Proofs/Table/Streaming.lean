import KeyedRecords.Proofs.Cursor
import KeyedRecords.Proofs.Query.Paging
import KeyedRecords.Proofs.Records.Operations

/-! Reading the items of a query page by page, each page after the cursor of the one before, or all in a stream. A
cursor holds the key of an item and nothing else, so both ask a store for the same pages if it goes on from such keys.
Main statements: `pageThrough_reads`, `pageThrough_streams`. -/

namespace KeyedRecords

/-! ## Stores -/

namespace Host

variable {σ α : Type} (host : Host σ)

def advances : Nat → Program α → σ → Program α × σ
  | 0, p, state => (p, state)
  | n + 1, p, state => advances n (host.advance p state).1 (host.advance p state).2

theorem advances_done (n : Nat) (result : α) (state : σ) :
    host.advances n (.done result) state = (.done result, state) := by
  induction n with
  | zero => rfl
  | succ n ih => exact ih

/-- A host that keeps something of each call it was asked, in their order. -/
def logged (keep : Call → Call) : Host (σ × List Call) where
  answer call state := ((host.answer call state.1).1, (host.answer call state.1).2, state.2 ++ [keep call])
  now state := ((host.now state.1).1, (host.now state.1).2, state.2)
  identifier state := ((host.identifier state.1).1, (host.identifier state.1).2, state.2)

end Host

/-- A call but for what its start holds beside the key of an item. -/
def Call.bare (call : Call) : Call :=
  match call with
  | .query bound =>
    .query { bound with startKey? := bound.startKey?.map fun start =>
      (bound.layout.keyOf? start).elim start bound.layout.keyItem }
  | call => call

/-- Whether the items of a page can be written as JSON, and it goes on, if it does, from the key attributes of an item
and no others. -/
structure Page.Resumable (layout : TableLayout) (page : Page) : Prop where
  readable : ∀ item ∈ page.items, ∃ value, itemJson item = .ok value
  next : ∀ start ∈ page.lastKey?, ∃ key, layout.keyOf? start = some key ∧ layout.keyItem key = start ∧
    key.partition.utf8ByteSize < UInt64.size

/-- Whether a store, in the states that it comes to, answers a query with such pages wherever it starts. -/
structure Host.Resumes {σ : Type} (host : Host σ) (query : BoundQuery) (I : σ → Prop) : Prop where
  page : ∀ start? state page, I state →
    (host.answer (.query { query with startKey? := start? }) state).1 = .ok page → page.Resumable query.layout
  keeps : ∀ start? state, I state → I (host.answer (.query { query with startKey? := start? }) state).2

/-- Whether a store answers a query with pages whose items can be written as JSON, and goes on after them by the keys in
their ends, whatever else these hold. -/
structure Host.ResumesByKey {σ : Type} (host : Host σ) (query : BoundQuery) (I : σ → Prop) : Prop where
  keeps : ∀ start? state, I state → I (host.answer (.query { query with startKey? := start? }) state).2
  readable : ∀ start? state page, I state →
    (host.answer (.query { query with startKey? := start? }) state).1 = .ok page →
      ∀ item ∈ page.items, ∃ value, itemJson item = .ok value
  next : ∀ start? state page, I state →
    (host.answer (.query { query with startKey? := start? }) state).1 = .ok page → ∀ start ∈ page.lastKey?, ∃ key,
      query.layout.keyOf? start = some key ∧ key.partition.utf8ByteSize < UInt64.size ∧
        ∀ state, I state → host.answer (.query (query.startingAfter (query.layout.keyItem key))) state =
          host.answer (.query (query.startingAfter start)) state

namespace Host

variable {σ : Type} {host : Host σ} {query : BoundQuery} {I : σ → Prop}

theorem Resumes.byKey (h : host.Resumes query I) : host.ResumesByKey query I where
  keeps := h.keeps
  readable start? state page hstate hpage := (h.page start? state page hstate hpage).readable
  next start? state page hstate hpage start hstart := by
    obtain ⟨key, hkey, hitem, hsize⟩ := (h.page start? state page hstate hpage).next start hstart
    exact ⟨key, hkey, hsize, fun _ _ => by rw [hitem]⟩

theorem Resumes.logged (h : host.Resumes query I) (keep : Call → Call) :
    (host.logged keep).Resumes query fun state => I state.1 where
  page start? state := h.page start? state.1
  keeps start? state := h.keeps start? state.1

/-- What is kept of a call has to be alike for two starts with one key. -/
theorem ResumesByKey.logged (h : host.ResumesByKey query I)
    (hnames : query.layout.partitionName ≠ query.layout.sortName) :
    (host.logged Call.bare).ResumesByKey query fun state => I state.1 where
  keeps start? state := h.keeps start? state.1
  readable start? state := h.readable start? state.1
  next start? state page hstate hpage start hstart := by
    obtain ⟨key, hkey, hsize, halike⟩ := h.next start? state.1 page hstate hpage start hstart
    have hbare : Call.bare (.query (query.startingAfter (query.layout.keyItem key))) =
        Call.bare (.query (query.startingAfter start)) := by
      simp [Call.bare, BoundQuery.startingAfter, hkey, TableLayout.keyOf?_keyItem hnames]
    refine ⟨key, hkey, hsize, fun state hstate => ?_⟩
    simp only [Host.logged, halike state.1 hstate, hbare]

end Host

theorem mapM_itemJson {items : List Item} (h : ∀ item ∈ items, ∃ value, itemJson item = .ok value) :
    ∃ values : List Json, (items.mapM itemJson : Result (List Json)) = .ok values ∧
      items.map itemJson = values.map .ok := by
  induction items with
  | nil => exact ⟨[], rfl, rfl⟩
  | cons first rest ih =>
    obtain ⟨⟨value, hvalue⟩, hrest⟩ := List.forall_mem_cons.1 h
    obtain ⟨values, hvalues, hmap⟩ := ih hrest
    refine ⟨value :: values, ?_, ?_⟩
    · rw [List.mapM_cons, hvalue, hvalues]
      rfl
    · rw [List.map_cons, hvalue, hmap, List.map_cons]

namespace Table

/-! ## Clients -/

/-- The query of the page after one that was read, if this ends with a cursor. -/
def nextQuery? (query : Query) : Result TablePage → Option Query
  | .error _ => none
  | .ok page => do
    let key ← (← page.cursor?).decode.toOption
    pure { query with startAfter? := some key }

/-- Reads at most so many pages of a query, each after the cursor of the one before. Each page or its failure, and the
query to go on with. -/
def pageThrough (table : Table) : Nat → Query → Program (List (Result TablePage) × Option Query)
  | 0, query => .done ([], some query)
  | n + 1, query => (table.query query).run.bind fun result =>
    match nextQuery? query result with
    | none => .done ([result], none)
    | some next => (table.pageThrough n next).bind fun (results, next?) => .done (result :: results, next?)

/-- What is read of some pages, item by item. -/
def outcomes (results : List (Result TablePage)) : List (Result Json) :=
  results.flatMap fun
    | .ok page => page.items.map .ok
    | .error failure => [.error failure]

/-- The items that a program has seen of the query that it is reading. -/
def seen? {α : Type} : Program α → Option (List Item)
  | .readPages _ seen _ _ => some seen
  | _ => none

/-- A stream of all items, from where some have been seen. -/
def streamFrom (query : BoundQuery) (seen : List Item) : Program (Result (List (Result Json))) :=
  .readPages query seen (fun _ => true) fun items failure? =>
    .done (.ok (items.map itemJson ++ (failure?.map fun e => .error (.store e)).toList))

theorem queryAll_run {table : Table} {query : Query} {bound : BoundQuery}
    (hbind : query.bind table.layout = .ok bound) : (table.queryAll query none).run = streamFrom bound [] := by
  rw [queryAll, hbind]
  rfl

theorem queryAll_run_error {table : Table} {query : Query} {failure : RecordError}
    (hbind : query.bind table.layout = .error failure) :
    (table.queryAll query none).run = .done (.error failure) := by
  rw [queryAll, hbind]
  rfl

section Stream

variable {σ : Type} {host : Host σ} {query : BoundQuery} {seen : List Item} {state after : σ}

theorem advance_streamFrom_error {e : StoreError} (hanswer : host.answer (.query query) state = (.error e, after)) :
    host.advance (streamFrom query seen) state =
      (.done (.ok (seen.map itemJson ++ [.error (.store e)])), after) := by
  simp only [Host.advance, streamFrom, Program.step, hanswer]
  rfl

theorem advance_streamFrom_last {page : Page} (hanswer : host.answer (.query query) state = (.ok page, after))
    (hlast : page.lastKey? = none) : host.advance (streamFrom query seen) state =
      (.done (.ok ((seen ++ page.items).map itemJson)), after) := by
  simp only [Host.advance, streamFrom, Program.step, hanswer, Program.afterPage, hlast]
  simp

theorem advance_streamFrom_next {page : Page} {start : Item}
    (hanswer : host.answer (.query query) state = (.ok page, after)) (hlast : page.lastKey? = some start) :
    host.advance (streamFrom query seen) state =
      (streamFrom (query.startingAfter start) (seen ++ page.items), after) := by
  simp only [Host.advance, streamFrom, Program.step, hanswer, Program.afterPage, hlast, if_true]

end Stream

/-! ## Page by page -/

section Reads

variable {σ : Type} {host : Host σ} (pages : Nat) {table : Table} {query : Query} {bound : BoundQuery} {state : σ}

section Page

variable {after last : σ} (hbind : query.bind table.layout = .ok bound)

include hbind

theorem command_query_error {e : StoreError} (hanswer : host.answer (.query bound) state = (.error e, after)) :
    host.command pages (table.query query) state = some (.error (.store e), after) := by
  rw [Table.query, hbind, Host.command_ok_bind]
  show host.command pages (Command.attempt (.query bound) >>= _ >>= _) state = _
  rw [bind_assoc, Host.command_attempt_bind, hanswer]
  rfl

theorem command_query_page {page : Page} {values : List Json}
    (hanswer : host.answer (.query bound) state = (.ok page, after))
    (hvalues : (page.items.mapM itemJson : Result (List Json)) = .ok values) :
    host.command pages (table.query query) state =
      some (.ok ⟨values, (page.lastKey?.bind table.layout.keyOf?).map Cursor.encode⟩, after) := by
  rw [Table.query, hbind, Host.command_ok_bind, Host.command_ask_bind _ _ hanswer, hvalues]
  rfl

end Page

section Step

variable {pages} {after last : σ} {result : Result TablePage}
  (hrun : host.command pages (table.query query) state = some (result, after))

include hrun

theorem run_pageThrough_last (hnext : nextQuery? query result = none) (n : Nat) :
    host.run pages (table.pageThrough (n + 1) query) state = some (([result], none), after) := by
  have hpage : host.run pages (table.query query).run state = some (result, after) := hrun
  simp only [pageThrough, Host.run_bind, hpage, Option.bind_some, hnext]
  rfl

theorem run_pageThrough_next {next : Query} (hnext : nextQuery? query result = some next) {n : Nat}
    {results : List (Result TablePage)} {next? : Option Query}
    (hrest : host.run pages (table.pageThrough n next) after = some ((results, next?), last)) :
    host.run pages (table.pageThrough (n + 1) query) state = some ((result :: results, next?), last) := by
  have hpage : host.run pages (table.query query).run state = some (result, after) := hrun
  simp only [pageThrough, Host.run_bind, hpage, Option.bind_some, hnext, hrest]
  rfl

end Step

theorem bind_startAfter {layout : TableLayout} (hbind : query.bind layout = .ok bound) (key : Key) :
    Query.bind { query with startAfter? := some key } layout = .ok (bound.startingAfter (layout.keyItem key)) := by
  unfold Query.bind at hbind ⊢
  split at hbind
  · cases hbind
  · rename_i partition hpartition
    cases hbind
    simp only [hpartition]
    rfl

/-- Whether so many pages and as many steps of a stream come to the same state and bring the same items, also where the
store failed, and come to an end together. -/
def Abreast (host : Host σ) (pages : Nat) (table : Table) (query : Query)
    (stream : Program (Result (List (Result Json)))) (seen : List Item) (n : Nat) (state : σ) : Prop :=
  ∃ results next? last,
    host.run pages (table.pageThrough n query) state = some ((results, next?), last) ∧
    (host.advances n stream state).2 = last ∧
    (next? = none → (host.advances n stream state).1 = .done (.ok (seen.map itemJson ++ outcomes results))) ∧
    ∀ next, next? = some next → ∃ items, seen? (host.advances n stream state).1 = some items ∧
      items.map itemJson = seen.map itemJson ++ outcomes results

section Abreast

variable {streamed : BoundQuery} {seen : List Item} {n : Nat} {after : σ}

theorem Abreast.zero : Abreast host pages table query (streamFrom streamed seen) seen 0 state := by
  refine ⟨[], some query, state, rfl, rfl, nofun, fun _ _ => ⟨seen, rfl, ?_⟩⟩
  simp [outcomes]

/-- Where both are answered by a failure, both end with it. -/
theorem Abreast.failed (hbind : query.bind table.layout = .ok bound) {e : StoreError}
    (hpage : host.answer (.query bound) state = (.error e, after))
    (hstream : host.answer (.query streamed) state = (.error e, after)) :
    Abreast host pages table query (streamFrom streamed seen) seen (n + 1) state := by
  refine ⟨_, _, _, run_pageThrough_last (command_query_error pages hbind hpage) rfl n, ?_, fun _ => ?_, nofun⟩
  · rw [Host.advances, advance_streamFrom_error hstream, Host.advances_done]
  · rw [Host.advances, advance_streamFrom_error hstream, Host.advances_done]
    rfl

/-- Where both are answered by a last page, both end with its items. -/
theorem Abreast.ended (hbind : query.bind table.layout = .ok bound) {page : Page}
    (hpage : host.answer (.query bound) state = (.ok page, after))
    (hstream : host.answer (.query streamed) state = (.ok page, after)) (hlast : page.lastKey? = none)
    (hreadable : ∀ item ∈ page.items, ∃ value, itemJson item = .ok value) :
    Abreast host pages table query (streamFrom streamed seen) seen (n + 1) state := by
  obtain ⟨values, hvalues, hmap⟩ := mapM_itemJson hreadable
  have hrun := command_query_page pages hbind hpage hvalues
  rw [hlast] at hrun
  refine ⟨_, _, _, run_pageThrough_last hrun rfl n, ?_, fun _ => ?_, nofun⟩
  · rw [Host.advances, advance_streamFrom_last hstream hlast, Host.advances_done]
  · rw [Host.advances, advance_streamFrom_last hstream hlast, Host.advances_done]
    simp [outcomes, hmap]

/-- Where both are answered by a page with more to come, they go on abreast if they do so after it. -/
theorem Abreast.next (hbind : query.bind table.layout = .ok bound) {page : Page} {start : Item} {key : Key}
    (hpage : host.answer (.query bound) state = (.ok page, after))
    (hstream : host.answer (.query streamed) state = (.ok page, after)) (hlast : page.lastKey? = some start)
    (hreadable : ∀ item ∈ page.items, ∃ value, itemJson item = .ok value)
    (hkey : table.layout.keyOf? start = some key) (hsize : key.partition.utf8ByteSize < UInt64.size)
    (hrest : Abreast host pages table { query with startAfter? := some key }
      (streamFrom (streamed.startingAfter start) (seen ++ page.items)) (seen ++ page.items) n after) :
    Abreast host pages table query (streamFrom streamed seen) seen (n + 1) state := by
  obtain ⟨values, hvalues, hmap⟩ := mapM_itemJson hreadable
  obtain ⟨results, next?, last, hrest, hstate, hdone, hseen⟩ := hrest
  have hrun := command_query_page pages hbind hpage hvalues
  have hnext : nextQuery? query (.ok ⟨values, (page.lastKey?.bind table.layout.keyOf?).map Cursor.encode⟩) =
      some { query with startAfter? := some key } := by
    simp only [nextQuery?, hlast, Option.bind_some, hkey, Option.map_some, Option.bind_eq_bind,
      Cursor.decode_encode hsize]
    rfl
  have hread : (seen ++ page.items).map itemJson ++ outcomes results =
      seen.map itemJson ++ outcomes
        (.ok ⟨values, (page.lastKey?.bind table.layout.keyOf?).map Cursor.encode⟩ :: results) := by
    simp [outcomes, hmap]
  rw [hread] at hdone hseen
  refine ⟨_, _, _, run_pageThrough_next hrun hnext hrest, ?_⟩
  rw [Host.advances, advance_streamFrom_next hstream hlast]
  exact ⟨hstate, hdone, hseen⟩

end Abreast

/-- Where a store goes on by the keys in the ends of its pages, pages and stream go on abreast. -/
theorem pageThrough_reads {I : σ → Prop} (hresumes : host.ResumesByKey bound I) {own? start? : Option Item}
    (hbind : query.bind table.layout = .ok { bound with startKey? := own? })
    (halike : ∀ state, I state → host.answer (.query { bound with startKey? := own? }) state =
      host.answer (.query { bound with startKey? := start? }) state) (seen : List Item) (n : Nat) (hstate : I state) :
    Abreast host pages table query (streamFrom { bound with startKey? := start? } seen) seen n state := by
  induction n generalizing query own? start? seen state with
  | zero => exact .zero pages
  | succ n ih =>
    have hafter := hresumes.keeps own? state hstate
    have hreadable := hresumes.readable own? state
    have hnext := hresumes.next own? state
    rcases hpage : host.answer (.query { bound with startKey? := own? }) state with ⟨reply, after⟩
    have hstream := (halike state hstate).symm.trans hpage
    rw [hpage] at hafter hreadable hnext
    cases reply with
    | error e => exact .failed pages hbind hpage hstream
    | ok page =>
      cases hlast : page.lastKey? with
      | none => exact .ended pages hbind hpage hstream hlast (hreadable page hstate rfl)
      | some start =>
        -- The pages go on from the key alone, the stream from all that the store gave: the store answers both alike.
        obtain ⟨key, hkey, hsize, halike⟩ := hnext page hstate rfl start hlast
        have hlayout : bound.layout = table.layout :=
          (Query.bind_layout hbind : BoundQuery.layout { bound with startKey? := own? } = _)
        rw [hlayout] at hkey halike
        exact .next pages hbind hpage hstream hlast (hreadable page hstate rfl) hkey hsize
          (ih (bind_startAfter hbind key) halike _ hafter)

end Reads

/-- So many pages by cursor and as many steps of the stream ask a store for the same calls. They bring the same items,
also where the store failed, and come to an end together. A store that goes on from attributes of an index too is asked
for the same but for these, as long as it goes on by the key beside them. A query without a partition fails in both
before any call. -/
theorem pageThrough_streams {σ : Type} (host : Host σ) (table : Table) (query : Query) {I : σ → Prop} (state : σ)
    (hstate : I state) (pages n : Nat) :
    (∀ failure, query.bind table.layout = .error failure →
      table.pageThrough (n + 1) query = .done ([.error failure], none) ∧
        (table.queryAll query none).run = .done (.error failure)) ∧
    ∀ bound, query.bind table.layout = .ok bound →
      (host.Resumes bound I →
        Abreast (host.logged id) pages table query (table.queryAll query none).run [] n (state, [])) ∧
      (host.ResumesByKey bound I → table.layout.partitionName ≠ table.layout.sortName →
        Abreast (host.logged Call.bare) pages table query (table.queryAll query none).run [] n (state, [])) := by
  constructor
  · intro failure hbind
    refine ⟨?_, queryAll_run_error hbind⟩
    simp only [pageThrough, Table.query, hbind]
    rfl
  · intro bound hbind
    rw [queryAll_run hbind]
    refine ⟨fun hresumes => ?_, fun hresumes hnames => ?_⟩
    · exact pageThrough_reads pages (hresumes.logged id).byKey hbind (fun _ _ => rfl) [] n hstate
    · rw [← Query.bind_layout hbind] at hnames
      exact pageThrough_reads pages (hresumes.logged hnames) hbind (fun _ _ => rfl) [] n hstate

/-! ## The store in memory -/

end Table

namespace BoundQuery

/-- A query by the key attributes of the table goes on from these alone. -/
theorem continuation_eq_keyItem {query : BoundQuery} (hnames : query.layout.partitionName ≠ query.layout.sortName)
    (hown : query.partitionName = query.layout.partitionName ∧ query.sortName = query.layout.sortName) {last : Match}
    (hkey : query.layout.keyOf? last.item = some last.key) :
    query.continuation last = query.layout.keyItem last.key := by
  obtain ⟨hpartition, hsort⟩ := TableLayout.keyOf?_eq_some_iff.1 hkey
  obtain ⟨hown', hsort'⟩ := TableLayout.keyOf?_eq_some_iff.1 (TableLayout.keyOf?_keyItem hnames last.key)
  have hsorted : Assoc.Sorted (query.layout.keyItem last.key) := Assoc.sorted_ofList _
  simp only [continuation, hown.1, hown.2, List.foldl_cons, List.foldl_nil, hpartition, hsort,
    Assoc.insert_of_find? hsorted hown', Assoc.insert_of_find? hsorted hsort']

section Memory

variable {query : BoundQuery} {ε : Type} (environment : Environment ε) {memory : Memory}
  (hnames : query.layout.partitionName ≠ query.layout.sortName) (hsorted : memory.Sorted)
  (hkeyed : query.layout.Keyed (memory.contents query.layout.table))
  (hreadable : ∀ key item, (key, item) ∈ memory.contents query.layout.table →
    key.partition.utf8ByteSize < UInt64.size ∧ ∃ value, itemJson (query.shown item) = .ok value)

include hsorted hreadable in
theorem readable_page (start? : Option Item) : ∀ item ∈ (BoundQuery.page { query with startKey? := start? }
    (memory.contents query.layout.table)).items, ∃ value, itemJson item = .ok value := by
  intro item hitem
  obtain ⟨m, hm, rfl⟩ := List.mem_map.1 hitem
  exact (hreadable m.key m.item (mem_found.1 (mem_found_of_mem_take (hsorted _) hm)).1).2

include hnames hsorted hkeyed hreadable

/-- The store in memory goes on by the keys of items, in an index too: while it is not written to, the item that a page
ended with is still there. -/
theorem resumesByKey_memory :
    environment.host.ResumesByKey query fun state => state.1.tables = memory.tables where
  keeps start? state h := h
  readable start? state page h hpage := by
    have hcontents := Memory.contents_congr h query.layout.table
    obtain rfl := Except.ok.inj hpage
    exact hcontents ▸ readable_page hsorted hreadable start?
  next start? state page h hpage start hstart := by
    have hcontents {state : Memory × ε} (h : state.1.tables = memory.tables) :=
      Memory.contents_congr h query.layout.table
    obtain rfl := Except.ok.inj hpage
    obtain ⟨last, hfound, -, rfl⟩ := exists_continuation (hcontents h ▸ hsorted _) hstart
    have hlast := (mem_found.1 (hcontents h ▸ hfound)).1
    have hkey : query.layout.keyOf? (query.continuation last) = some last.key :=
      keyOf?_continuation hnames (hkeyed _ _ hlast)
    refine ⟨last.key, hkey, (hreadable _ _ hlast).1, fun later hlater => ?_⟩
    have hpages := page_startingAfter_congr (hcontents hlater ▸ hcontents h ▸ hfound)
      (TableLayout.keyOf?_keyItem hnames last.key) hkey
    exact Prod.ext (congrArg Except.ok hpages) rfl

/-- A query by the key attributes of the table is answered with pages that end with these alone. -/
theorem resumes_memory (hown : query.partitionName = query.layout.partitionName ∧
    query.sortName = query.layout.sortName) :
    environment.host.Resumes query fun state => state.1.tables = memory.tables where
  keeps start? state h := h
  page start? state page h hpage := by
    have hcontents := Memory.contents_congr h query.layout.table
    obtain rfl := Except.ok.inj hpage
    refine ⟨hcontents ▸ readable_page hsorted hreadable start?, fun start hstart => ?_⟩
    obtain ⟨last, hfound, -, rfl⟩ := exists_continuation (hcontents ▸ hsorted _) hstart
    have hlast := (mem_found.1 (hcontents ▸ hfound)).1
    have hcontinuation : query.continuation last = query.layout.keyItem last.key :=
      continuation_eq_keyItem hnames hown (hkeyed _ _ hlast)
    exact ⟨last.key, hcontinuation ▸ TableLayout.keyOf?_keyItem hnames last.key, hcontinuation.symm,
      (hreadable _ _ hlast).1⟩

end Memory

end BoundQuery

namespace Table

def noteTable : Table where
  layout := { table := "notes" }

def noteQuery : Query := { partition? := some "n", limit := 1 }

def ownerQuery : Query :=
  { partition? := some "x", partitionName := "owner", sortName := "due", index? := some "byOwner", limit := 1 }

def noteStore : Memory := { tables := [("notes", BoundQuery.notes)] }

theorem noteStore_sorted : noteStore.Sorted := by
  intro table
  by_cases htable : "notes" = table
  · subst htable
    exact BoundQuery.notes_sorted
  · simp [noteStore, Memory.contents, Assoc.find?, htable, Assoc.Sorted]

theorem notes_readable (key : Key) (item : Item) (hmem : (key, item) ∈ BoundQuery.notes) :
    key.partition.utf8ByteSize < UInt64.size ∧ ∃ value, itemJson item = .ok value := by
  simp only [BoundQuery.notes, List.mem_cons, Prod.mk.injEq, List.not_mem_nil, or_false] at hmem
  rcases hmem with ⟨rfl, rfl⟩ | ⟨rfl, rfl⟩ | ⟨rfl, rfl⟩ <;> exact ⟨by decide, _, rfl⟩

/-- Two pages of the notes and two steps of their stream, by their keys and by due date. -/
theorem pageThrough_streams_notes :
    Abreast (Environment.still.host.logged id) 0 noteTable noteQuery (noteTable.queryAll noteQuery none).run [] 2
      ((noteStore, ()), []) ∧
    Abreast (Environment.still.host.logged Call.bare) 0 noteTable ownerQuery
      (noteTable.queryAll ownerQuery none).run [] 2 ((noteStore, ()), []) := by
  let unwritten (state : Memory × Unit) : Prop := state.1.tables = noteStore.tables
  have hkeys := (pageThrough_streams (I := unwritten) Environment.still.host noteTable noteQuery (noteStore, ()) rfl
    0 2).2 _ rfl
  have hdates := (pageThrough_streams (I := unwritten) Environment.still.host noteTable ownerQuery (noteStore, ()) rfl
    0 2).2 _ rfl
  constructor
  · exact hkeys.1 (BoundQuery.resumes_memory Environment.still (by decide) noteStore_sorted BoundQuery.notes_keyed
      notes_readable ⟨rfl, rfl⟩)
  · exact hdates.2 (BoundQuery.resumesByKey_memory Environment.still (by decide) noteStore_sorted
      BoundQuery.notes_keyed notes_readable) (by decide)

/-! Where pages are not so, the two ways part. A page with an item that cannot be written as JSON is lost with the
cursor to go on from, though a stream passes over the item. Attributes of an index that a store goes on from are not in
the cursor, though a stream hands them back. -/

/-- A store that answers queries with some pages in turn. -/
def scripted : Host (List Page) where
  answer
    | .query _, page :: pages => (.ok page, pages)
    | .query _, [] => (.ok ⟨[], none⟩, [])
    | _, pages => (.error .noResponse, pages)
  now pages := ("", pages)
  identifier pages := (⟨0, 0, "0"⟩, pages)

def notesOf (index? : Option String) (partitionName partition sortName : String) : BoundQuery where
  layout := noteTable.layout
  index? := index?
  partitionName := partitionName
  partition := partition
  sortName := sortName
  sort? := none
  limit := 1
  ascending := false
  projection := []
  startKey? := none

/-- Two notes, each on a page of its own; the size of the first is too large for a number of JSON. -/
def unreadablePages : List Page :=
  [⟨[[("pk", .string "n"), ("size", .number "1e400"), ("sk", .string "a")]],
      some (noteTable.layout.keyItem ⟨"n", "a"⟩)⟩,
    ⟨[[("pk", .string "n"), ("sk", .string "b")]], none⟩]

def ownerKey : Item := [("due", .string "1"), ("owner", .string "x"), ("pk", .string "n"), ("sk", .string "a")]

def ownerPages : List Page := [⟨[ownerKey], some ownerKey⟩, ⟨[], none⟩]

theorem pageThrough_strays :
    (scripted.logged id).run 0 (noteTable.pageThrough 2 noteQuery) (unreadablePages, []) =
      some (([.error (.invalidValue (.notANumber "1e400"))], none),
        (unreadablePages.drop 1, [.query (notesOf none "pk" "n" "sk")])) ∧
    (scripted.logged id).advances 2 (noteTable.queryAll noteQuery none).run (unreadablePages, []) =
      (.done (.ok [.error (.invalidValue (.notANumber "1e400")),
          .ok (.map [("pk", .string "n"), ("sk", .string "b")])]),
        ([], [.query (notesOf none "pk" "n" "sk"),
          .query ((notesOf none "pk" "n" "sk").startingAfter (noteTable.layout.keyItem ⟨"n", "a"⟩))])) ∧
    (∃ results next?, (scripted.logged id).run 0 (noteTable.pageThrough 2 ownerQuery) (ownerPages, []) =
      some ((results, next?), ([], [.query (notesOf (some "byOwner") "owner" "x" "due"),
        .query ((notesOf (some "byOwner") "owner" "x" "due").startingAfter
          (noteTable.layout.keyItem ⟨"n", "a"⟩))]))) ∧
    ((scripted.logged id).advances 2 (noteTable.queryAll ownerQuery none).run (ownerPages, [])).2 =
      ([], [.query (notesOf (some "byOwner") "owner" "x" "due"),
        .query ((notesOf (some "byOwner") "owner" "x" "due").startingAfter ownerKey)]) ∧
    noteTable.layout.keyItem ⟨"n", "a"⟩ ≠ ownerKey := by
  have hnext : ∀ values, nextQuery? ownerQuery (.ok ⟨values, some (Cursor.encode ⟨"n", "a"⟩)⟩) =
      some { ownerQuery with startAfter? := some ⟨"n", "a"⟩ } := by
    intro values
    have hdecode : (Cursor.encode ⟨"n", "a"⟩).decode = .ok ⟨"n", "a"⟩ := Cursor.decode_encode (by decide)
    simp only [nextQuery?, Option.bind_eq_bind, Option.bind_some, hdecode]
    rfl
  have hfirst : (scripted.logged id).command 0 (noteTable.query ownerQuery) (ownerPages, []) =
      some (.ok ⟨[_], some (Cursor.encode ⟨"n", "a"⟩)⟩, _) := rfl
  have hpages := run_pageThrough_next hfirst (hnext _) (run_pageThrough_last rfl rfl 0)
  exact ⟨rfl, rfl, ⟨_, _, hpages⟩, rfl, by decide⟩

end Table

end KeyedRecords
