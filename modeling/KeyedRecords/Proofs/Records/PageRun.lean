import KeyedRecords.Proofs.Cursor
import KeyedRecords.Proofs.Lists
import KeyedRecords.Proofs.Records.Listing
import KeyedRecords.Proofs.Records.Owned

/-! Pages of a partition while other clients write to it. A page goes on below the sort key in its cursor whether or
not the record there is still stored, so the pages of a run show each sort key once, in descending order, and leave
out no record that is there whenever a page is read. Main statements: `command_page`, `pageThrough_shows`,
`pageThrough_stable`. -/

namespace KeyedRecords

namespace Records

variable {ρ ε : Type} (records : Records ρ)

/-- Whether some filters select the record under a key. -/
def Matches (filters : Arguments) (key : Key) : Prop :=
  ∃ query, records.queryFor filters = .ok query ∧ query.partition? = some key.partition ∧
    ∀ condition ∈ query.sort?, condition.accepts key.sort = true

/-- Whether a key comes after the one that a page starts after, if there is one. -/
def After (start? : Option Key) (key : Key) : Prop := ∀ start ∈ start?, key.sort < start.sort

def pageOf (partition : String) (sort? : Option SortCondition) (start? : Option Key) (limit : Nat) :
    BoundQuery :=
  { records.partitionQuery partition sort? with
    limit := max limit 1, startKey? := start?.map records.model.layout.keyItem }

/-- Whether a page shows these items of a store: records that the filters select, after the key that it starts after,
in descending order, and all that there are or all down to the key that the next page starts after. -/
structure Shows (filters : Arguments) (memory : Memory) (start? next? : Option Key) (entries : Contents) :
    Prop where
  stored : ∀ entry ∈ entries, memory.item? records.model.layout entry.1 = some entry.2 ∧
    ∃ value, records.Holds entry.1 entry.2 value
  matching : ∀ entry ∈ entries, records.Matches filters entry.1 ∧ After start? entry.1
  descending : entries.Pairwise fun a b => b.1.sort < a.1.sort
  next : ∀ key ∈ next?, (Assoc.keys entries).getLast? = some key
  complete : ∀ key item, memory.item? records.model.layout key = some item → records.Matches filters key →
    After start? key → key ∈ Assoc.keys entries ∨ ∃ last ∈ next?, key.sort < last.sort

variable {records}

/-! ## The query of a page -/

theorem queryFor_partition {filters : Arguments} {query : Query} (h : records.queryFor filters = .ok query) :
    ∃ partition, query.partition? = some partition ∧
      query.bind records.model.layout = .ok (records.partitionQuery partition query.sort?) := by
  obtain ⟨-, partition, sort?, -, hbind, -, -⟩ := queryFor_bind h
  cases hpartition : query.partition? with
  | none =>
    rw [Query.bind, hpartition] at hbind
    cases hbind
  | some own =>
    have hbound := hbind
    rw [Query.bind, hpartition] at hbound
    have hfields := Except.ok.inj hbound
    have hown : own = partition := congrArg BoundQuery.partition hfields
    have hsort : query.sort? = sort? := congrArg BoundQuery.sort? hfields
    exact ⟨own, rfl, by rw [hown, hsort]; exact hbind⟩

theorem pageQuery_eq {filters : Arguments} {query : Query} (hquery : records.queryFor filters = .ok query)
    {partition : String} (hpartition : query.partition? = some partition) {start? : Option Key}
    (hsize : ∀ start ∈ start?, start.partition.utf8ByteSize < UInt64.size) (limit : Nat) :
    records.pageQuery filters (start?.map Cursor.encode) limit =
      .ok (records.pageOf partition query.sort? start? limit) := by
  obtain ⟨own, hown, hbind⟩ := queryFor_partition hquery
  cases hpartition.symm.trans hown
  rw [Query.bind, hpartition] at hbind
  have hfields := Except.ok.inj hbind
  have hpage : ∀ startAfter? : Option Key,
      Query.bind { query.withLimit limit with startAfter? := startAfter? } records.model.layout =
        .ok (records.pageOf partition query.sort? startAfter? limit) := by
    intro startAfter?
    rw [pageOf, ← hfields, Query.bind]
    simp only [Query.withLimit, hpartition]
    rfl
  cases start? with
  | none =>
    have hstart : query.startAfter? = none := Option.map_eq_none_iff.1 (congrArg BoundQuery.startKey? hfields)
    have hnone := hpage none
    rw [show ({ query.withLimit limit with startAfter? := none } : Query) = query.withLimit limit by
      rw [← hstart]; rfl] at hnone
    rw [pageQuery, hquery]
    exact hnone
  | some start =>
    rw [pageQuery, hquery, Option.map_some]
    show ((Cursor.encode start).decode >>= fun key =>
      Query.bind { query.withLimit limit with startAfter? := some key } records.model.layout) = _
    rw [Cursor.decode_encode (hsize start rfl)]
    exact hpage (some start)

/-! ## What a page finds -/

section Found

variable {partition : String} {memory : Memory} (howns : records.Owns partition memory)
  (sort? : Option SortCondition) {start? : Option Key} (limit : Nat)

include howns

/-- Every match of a page is a record of the partition, ordered by its own sort key. -/
theorem of_mem_found {m : Match} (hm : m ∈ (records.pageOf partition sort? start? limit).found
      (memory.contents records.model.layout.table)) :
    memory.item? records.model.layout m.key = some m.item ∧
      records.model.layout.keyOf? m.item = some m.key ∧ m.key.partition = partition ∧ m.sort = m.key.sort ∧
      (∀ condition ∈ sort?, condition.accepts m.key.sort = true) ∧
      ∃ value, records.Holds m.key m.item value := by
  obtain ⟨hmem, hselects, hsort⟩ := BoundQuery.mem_found.1 hm
  have hitem : memory.item? records.model.layout m.key = some m.item :=
    Assoc.find?_of_mem (howns.sorted _).nodup hmem
  obtain ⟨value, hholds⟩ := howns.holds m.key m.item hitem (Or.inr hselects.1)
  obtain ⟨hpartition, haccepted⟩ := (selects_iff hholds.key).1 hselects
  refine ⟨hitem, hholds.key, hpartition, ?_, haccepted, value, hholds⟩
  exact hsort.trans (BoundQuery.sortText_of_key rfl hholds.key)

/-- Every record of the partition whose sort key is accepted is found. -/
theorem mem_found_of_item (start? : Option Key) (limit : Nat) {key : Key} {item : Item}
    (hitem : memory.item? records.model.layout key = some item) (hpartition : key.partition = partition)
    (haccepted : ∀ condition ∈ sort?, condition.accepts key.sort = true) :
    ∃ m ∈ (records.pageOf partition sort? start? limit).found (memory.contents records.model.layout.table),
      m.key = key ∧ m.item = item := by
  obtain ⟨value, hholds⟩ := howns.holds key item hitem (Or.inl hpartition)
  refine ⟨⟨(records.pageOf partition sort? start? limit).sortText item, key, item⟩,
    BoundQuery.mem_found.2 ⟨Assoc.mem_of_find? hitem, ?_, rfl⟩, rfl, rfl⟩
  exact (selects_iff hholds.key).2 ⟨hpartition, haccepted⟩

theorem follows_iff {a b : Match} (ha : a ∈ (records.pageOf partition sort? start? limit).found
      (memory.contents records.model.layout.table))
    (hb : b ∈ (records.pageOf partition sort? start? limit).found
      (memory.contents records.model.layout.table)) :
    (records.pageOf partition sort? start? limit).Follows a b ↔ b.key.sort < a.key.sort := by
  obtain ⟨-, -, hpartition, hsort, -⟩ := of_mem_found howns sort? limit ha
  obtain ⟨-, -, hpartition', hsort', -⟩ := of_mem_found howns sort? limit hb
  show b.Precedes a ↔ _
  rw [Match.Precedes, hsort, hsort']
  refine ⟨fun h => ?_, Or.inl⟩
  rcases h with hlt | ⟨-, hlt⟩
  · exact hlt
  · rcases Key.lt_iff.1 hlt with hlt | ⟨-, hlt⟩
    · rw [hpartition, hpartition'] at hlt
      exact absurd hlt (String.lt_irrefl _)
    · exact hlt

/-- A page goes on below the sort key that it starts after, be there still a record or not. -/
theorem mem_resume_iff (hnames : records.model.layout.WellNamed) {m : Match}
    (hm : m ∈ (records.pageOf partition sort? start? limit).found
      (memory.contents records.model.layout.table)) :
    m ∈ (records.pageOf partition sort? start? limit).resume
        ((records.pageOf partition sort? start? limit).found (memory.contents records.model.layout.table)) ↔
      After start? m.key := by
  obtain ⟨-, -, -, hsort, -⟩ := of_mem_found howns sort? limit hm
  rw [(BoundQuery.resume_spec _ (howns.sorted _)).2 m hm]
  cases start? with
  | none =>
    constructor
    · intro _ start hnone
      cases hnone
    · intro _ start hnone
      cases hnone
  | some start =>
    have hkey := TableLayout.keyOf?_keyItem hnames.keys start
    have htext : BoundQuery.textOf? (records.model.layout.keyItem start) records.model.layout.sortName =
        some start.sort := by
      rw [BoundQuery.textOf?, (TableLayout.keyOf?_eq_some_iff.1 hkey).2]
      rfl
    constructor
    · intro hpast other hother
      cases hother
      obtain ⟨hthere, hgone⟩ := hpast _ rfl
      by_cases hfound : ∃ first ∈ (records.pageOf partition sort? (some start) limit).found
          (memory.contents records.model.layout.table), first.key = start
      · obtain ⟨first, hfirst, rfl⟩ := hfound
        exact (follows_iff howns sort? limit hfirst hm).1 (hthere first hfirst hkey)
      · push Not at hfound
        rw [← hsort]
        exact hgone (fun first hfirst he => hfound first hfirst (Option.some.inj (he.symm.trans hkey))) _ htext
    · intro hafter item hitem
      cases hitem
      have hlt := hafter start rfl
      constructor
      · intro first hfirst he
        cases Option.some.inj (hkey.symm.trans he)
        exact (follows_iff howns sort? limit hfirst hm).2 hlt
      · intro _ text ht
        cases htext.symm.trans ht
        rw [← hsort] at hlt
        exact hlt

/-- What is left for a page comes in descending order of the sort keys. -/
theorem resume_descending : ((records.pageOf partition sort? start? limit).resume
      ((records.pageOf partition sort? start? limit).found
        (memory.contents records.model.layout.table))).Pairwise fun a b => b.key.sort < a.key.sort := by
  have hsuffix := (BoundQuery.resume_spec (records.pageOf partition sort? start? limit)
    (howns.sorted records.model.layout.table)).1
  refine ((BoundQuery.found_pairwise _ (howns.sorted _)).sublist hsuffix.sublist).imp_of_mem ?_
  intro a b ha hb hfollows
  exact (follows_iff howns sort? limit (hsuffix.subset ha) (hsuffix.subset hb)).1 hfollows

end Found

/-! ## A page -/

/-- The key that the next page starts after is the last one taken, and bounds what is left over; where nothing is
left over there is none. -/
theorem next_of_taken {page : BoundQuery} (hnames : page.layout.partitionName ≠ page.layout.sortName)
    (hlimit : 1 ≤ page.limit) {rest : List Match} (hkeys : ∀ m ∈ rest, page.layout.keyOf? m.item = some m.key)
    (hdescending : rest.Pairwise fun a b => b.key.sort < a.key.sort) : ∃ next?,
      (if page.limit < rest.length then (rest.take page.limit).getLast?.map page.continuation
        else none).bind page.layout.keyOf? = next? ∧
      (∀ key ∈ next?, ((rest.take page.limit).map (·.key)).getLast? = some key) ∧
      ∀ m ∈ rest, m.key ∈ (rest.take page.limit).map (·.key) ∨ ∃ last ∈ next?, m.key.sort < last.sort := by
  by_cases hmore : page.limit < rest.length
  · obtain ⟨front, last, htake, hsplit⟩ := exists_take_concat hlimit hmore
    have hmem : last ∈ rest := hsplit ▸ List.mem_append_right _ List.mem_cons_self
    refine ⟨some last.key, ?_, ?_, ?_⟩
    · rw [if_pos hmore, htake, List.getLast?_concat]
      exact BoundQuery.keyOf?_continuation hnames (hkeys last hmem)
    · intro key hkey
      cases hkey
      rw [htake, List.map_append, List.map_singleton, List.getLast?_concat]
    · intro m hm
      rw [hsplit, List.mem_append, List.mem_cons] at hm
      rcases hm with hm | rfl | hm
      · exact Or.inl (List.mem_map_of_mem (htake ▸ List.mem_append_left _ hm))
      · exact Or.inl (List.mem_map_of_mem (htake ▸ List.mem_append_right _ (List.mem_singleton.2 rfl)))
      · have hparts := (List.pairwise_append.1 (hsplit ▸ hdescending)).2.1
        exact Or.inr ⟨last.key, rfl, (List.pairwise_cons.1 hparts).1 m hm⟩
  · refine ⟨none, ?_, fun key hkey => by (cases hkey), fun m hm => Or.inl (List.mem_map_of_mem ?_)⟩
    · rw [if_neg hmore]
      rfl
    · rw [List.take_of_length_le (Nat.not_lt.1 hmore)]
      exact hm

section Page

variable (hnames : records.model.layout.WellNamed) {partition : String} {memory : Memory}
  (howns : records.Owns partition memory) {filters : Arguments} {query : Query}
  (hquery : records.queryFor filters = .ok query) (hpartition : query.partition? = some partition)

include hnames howns hquery hpartition

/-- What a store answers to the query of a page. -/
theorem page_shows (start? : Option Key) (limit : Nat) : ∃ entries next?,
    ((records.pageOf partition query.sort? start? limit).page
      (memory.contents records.model.layout.table)).items = entries.map (·.2) ∧
    ((records.pageOf partition query.sort? start? limit).page
      (memory.contents records.model.layout.table)).lastKey?.bind records.model.layout.keyOf? = next? ∧
    records.Shows filters memory start? next? entries := by
  let page := records.pageOf partition query.sort? start? limit
  let rest := page.resume (page.found (memory.contents records.model.layout.table))
  have hrest : ∀ m ∈ rest, m ∈ page.found (memory.contents records.model.layout.table) :=
    fun m hm => (BoundQuery.resume_spec page (howns.sorted _)).1.subset hm
  have hdescending : rest.Pairwise fun a b => b.key.sort < a.key.sort := resume_descending howns query.sort? limit
  obtain ⟨next?, hnext, hlast, hbounded⟩ := next_of_taken (show _ from hnames.keys)
    (show 1 ≤ page.limit from Nat.le_max_right limit 1)
    (fun m hm => (of_mem_found howns query.sort? limit (hrest m hm)).2.1) hdescending
  have hkeys : Assoc.keys ((rest.take page.limit).map fun m => (m.key, m.item)) =
      (rest.take page.limit).map (·.key) := by
    rw [Assoc.keys, List.map_map]
    rfl
  have htaken : ∀ entry ∈ (rest.take page.limit).map fun m => (m.key, m.item), ∃ m ∈ rest,
      (m.key, m.item) = entry := by
    intro entry hentry
    obtain ⟨m, hm, rfl⟩ := List.mem_map.1 hentry
    exact ⟨m, List.mem_of_mem_take hm, rfl⟩
  refine ⟨(rest.take page.limit).map fun m => (m.key, m.item), next?, ?_, hnext, ?_, ?_, ?_, hkeys ▸ hlast, ?_⟩
  · rw [List.map_map]
    rfl
  · intro entry hentry
    obtain ⟨m, hm, rfl⟩ := htaken entry hentry
    obtain ⟨hitem, -, -, -, -, hholds⟩ := of_mem_found howns query.sort? limit (hrest m hm)
    exact ⟨hitem, hholds⟩
  · intro entry hentry
    obtain ⟨m, hm, rfl⟩ := htaken entry hentry
    obtain ⟨-, -, hin, -, haccepted, -⟩ := of_mem_found howns query.sort? limit (hrest m hm)
    exact ⟨⟨query, hquery, hpartition.trans (congrArg some hin.symm), haccepted⟩,
      (mem_resume_iff howns query.sort? limit hnames (hrest m hm)).1 hm⟩
  · exact List.pairwise_map.2 (hdescending.sublist (List.take_sublist _ _))
  · rintro key item hitem ⟨other, hother, hkey, haccepted⟩ hafter
    cases hquery.symm.trans hother
    obtain ⟨m, hm, rfl, -⟩ := mem_found_of_item howns query.sort? start? limit hitem
      (Option.some.inj (hkey.symm.trans hpartition)) haccepted
    rw [hkeys]
    exact hbounded m ((mem_resume_iff howns query.sort? limit hnames hm).2 hafter)

/-- A page shows what is stored, and its cursor points at where the next page starts. -/
theorem command_page (environment : Environment ε) (pages : Nat) (e : ε) {start? : Option Key}
    (hsize : ∀ start ∈ start?, start.partition.utf8ByteSize < UInt64.size) (limit : Nat) : ∃ entries next?,
    environment.host.command pages (records.page filters (start?.map Cursor.encode) limit) (memory, e) =
      some ((((entries.map (·.2)).mapM records.read : Result (List ρ)).map fun shown =>
        ⟨shown, next?.map Cursor.encode⟩), (memory.counted .query, e)) ∧
    records.Shows filters memory start? next? entries := by
  obtain ⟨entries, next?, hitems, hnext, hshows⟩ := page_shows hnames howns hquery hpartition start? limit
  refine ⟨entries, next?, ?_, hshows⟩
  have hanswer : environment.host.answer (.query (records.pageOf partition query.sort? start? limit)) (memory, e) =
      (.ok ((records.pageOf partition query.sort? start? limit).page
        (memory.contents records.model.layout.table)), (memory.counted .query, e)) := rfl
  rw [page, pageQuery_eq hquery hpartition hsize, Host.command_ok_bind, Host.command_ask_bind _ _ hanswer, hitems]
  cases ((entries.map (·.2)).mapM records.read : Result (List ρ)) with
  | error failure => rfl
  | ok shown =>
    rw [Host.command_ok_bind, hnext]
    rfl

end Page

/-! ## Page after page -/

structure PageRead (ρ : Type) where
  memory : Memory
  result : Result (RecordPage ρ)

/-- The cursor to go on from, if the page was read and is not the last. -/
def PageRead.cursor? (read : PageRead ρ) : Option Cursor :=
  match read.result with
  | .ok page => page.cursor?
  | .error _ => none

/-- Reads pages, each after the cursor of the one before, until a page has none. For each page there is a limit, and a
schedule of the steps that other clients take after it. -/
def pageThrough (records : Records ρ) (environment : Environment ε) (pages : Nat) (filters : Arguments) :
    List (Nat × List Nat) → Option Cursor → List (Program Unit) → Memory × ε → Option (List (PageRead ρ))
  | [], _, _, _ => some []
  | (limit, turns) :: rounds, cursor?, clients, state => do
    let (result, after) ← environment.host.command pages (records.page filters cursor? limit) state
    let read : PageRead ρ := ⟨state.1, result⟩
    match read.cursor? with
    | none => some [read]
    | some cursor =>
      let (clients, after) := environment.host.interleave turns clients after
      let reads ← records.pageThrough environment pages filters rounds (some cursor) clients after
      some (read :: reads)

section Unfold

variable {environment : Environment ε} {pages : Nat} {filters : Arguments} {limit : Nat} {turns : List Nat}
  {rounds : List (Nat × List Nat)} {cursor? : Option Cursor} {clients : List (Program Unit)}
  {state after : Memory × ε} {result : Result (RecordPage ρ)}
  (hrun : environment.host.command pages (records.page filters cursor? limit) state = some (result, after))

include hrun

theorem pageThrough_last (hcursor : PageRead.cursor? ⟨state.1, result⟩ = none) :
    records.pageThrough environment pages filters ((limit, turns) :: rounds) cursor? clients state =
      some [⟨state.1, result⟩] := by
  rw [pageThrough, hrun]
  simp only [Option.bind_eq_bind, Option.bind_some, hcursor]

theorem pageThrough_next {cursor : Cursor} (hcursor : PageRead.cursor? ⟨state.1, result⟩ = some cursor) :
    records.pageThrough environment pages filters ((limit, turns) :: rounds) cursor? clients state =
      (records.pageThrough environment pages filters rounds (some cursor)
        (environment.host.interleave turns clients after).1
        (environment.host.interleave turns clients after).2).map fun reads =>
          ⟨state.1, result⟩ :: reads := by
  rw [pageThrough, hrun]
  simp only [Option.bind_eq_bind, Option.bind_some, hcursor, Option.map_eq_bind]
  rfl

end Unfold

/-- Whether a page has the records of some items that were stored and that the filters select; it fails only if one
of these is refused. -/
structure Presents (records : Records ρ) (filters : Arguments) (read : PageRead ρ) (entries : Contents) :
    Prop where
  stored : ∀ entry ∈ entries, read.memory.item? records.model.layout entry.1 = some entry.2 ∧
    ∃ value, records.Holds entry.1 entry.2 value
  matching : ∀ entry ∈ entries, records.Matches filters entry.1
  result : read.result.map RecordPage.records = (entries.map (·.2)).mapM records.read

/-- The keys of a page come after the one that the next page starts after, or are this one. -/
theorem Shows.before_next {filters : Arguments} {memory : Memory} {start? next? : Option Key} {entries : Contents}
    (h : records.Shows filters memory start? next? entries) {next : Key} (hnext : next ∈ next?) {sort : String}
    (hlt : sort < next.sort) : ∀ entry ∈ entries, sort < entry.1.sort := by
  obtain ⟨front, hfront⟩ := List.getLast?_eq_some_iff.1 (h.next next hnext)
  have hdescending : (Assoc.keys entries).Pairwise fun a b => b.sort < a.sort := List.pairwise_map.2 h.descending
  intro entry hentry
  have hmem : entry.1 ∈ Assoc.keys entries := List.mem_map_of_mem hentry
  rw [hfront] at hdescending hmem
  rcases List.mem_append.1 hmem with hmem | hmem
  · exact String.lt_trans hlt
      ((List.pairwise_append.1 hdescending).2.2 _ hmem next (List.mem_singleton.2 rfl))
  · rw [List.mem_singleton.1 hmem]
    exact hlt

/-- Whether pages that were read from a key on show these items: each its own, all in descending order, and none
missing that was stored at every page, if the last page was read and has no cursor. -/
structure RunShows (records : Records ρ) (filters : Arguments) (start? : Option Key) (reads : List (PageRead ρ))
    (shown : List Contents) : Prop where
  presents : List.Forall₂ (records.Presents filters) reads shown
  after : ∀ entry ∈ shown.flatten, After start? entry.1
  descending : shown.flatten.Pairwise fun a b => b.1.sort < a.1.sort
  complete : ∀ last page, reads.getLast? = some last → last.result = .ok page → page.cursor? = none →
    ∀ key, records.Matches filters key → After start? key →
      (∀ read ∈ reads, (read.memory.item? records.model.layout key).isSome) → key ∈ Assoc.keys shown.flatten

theorem RunShows.nil (filters : Arguments) (start? : Option Key) : records.RunShows filters start? [] [] where
  presents := .nil
  after _ h := absurd h List.not_mem_nil
  descending := .nil
  complete _ _ hlast := by cases hlast

section Pages

variable {filters : Arguments} {memory : Memory} {start? next? : Option Key} {entries : Contents}
  {result : Result (RecordPage ρ)}

theorem Shows.presents (h : records.Shows filters memory start? next? entries)
    (hresult : result.map RecordPage.records = (entries.map (·.2)).mapM records.read) :
    records.Presents filters ⟨memory, result⟩ entries :=
  ⟨h.stored, fun entry hentry => (h.matching entry hentry).1, hresult⟩

/-- A run may end with any page; if this has no cursor, nothing is left. -/
theorem RunShows.last (h : records.Shows filters memory start? next? entries)
    (hresult : result.map RecordPage.records = (entries.map (·.2)).mapM records.read)
    (hlast : ∀ page, result = .ok page → page.cursor? = none → next? = none) :
    records.RunShows filters start? [⟨memory, result⟩] [entries] := by
  have hflat : [entries].flatten = entries := List.append_nil entries
  refine ⟨.cons (h.presents hresult) .nil, ?_, ?_, ?_⟩
  · rw [hflat]
    exact fun entry hentry => (h.matching entry hentry).2
  · rw [hflat]
    exact h.descending
  · intro last page hread hpage hcursor key hmatches hafter hthere
    cases hread
    rw [hflat]
    obtain ⟨item, hitem⟩ := Option.isSome_iff_exists.1 (hthere _ List.mem_cons_self)
    rcases h.complete key item hitem hmatches hafter with hkey | ⟨next, hnext, -⟩
    · exact hkey
    · rw [hlast page hpage hcursor] at hnext
      cases hnext

/-- A run goes on after a page with a run from where its cursor points. -/
theorem RunShows.cons {next : Key} (h : records.Shows filters memory start? (some next) entries)
    (hresult : result.map RecordPage.records = (entries.map (·.2)).mapM records.read)
    (hcursor : ∀ page, result = .ok page → page.cursor? ≠ none) {reads : List (PageRead ρ)}
    {shown : List Contents} (hrest : records.RunShows filters (some next) reads shown) :
    records.RunShows filters start? (⟨memory, result⟩ :: reads) (entries :: shown) := by
  have hbelow : ∀ entry ∈ entries, ∀ other ∈ shown.flatten, other.1.sort < entry.1.sort :=
    fun entry hentry other hother => h.before_next rfl (hrest.after other hother next rfl) entry hentry
  have hnext : After start? next := by
    have hmem : next ∈ Assoc.keys entries := List.mem_of_getLast? (h.next next rfl)
    obtain ⟨entry, hentry, rfl⟩ := List.mem_map.1 hmem
    exact (h.matching entry hentry).2
  refine ⟨.cons (h.presents hresult) hrest.presents, ?_, ?_, ?_⟩
  · intro entry hentry
    rcases List.mem_append.1 hentry with hentry | hentry
    · exact (h.matching entry hentry).2
    · exact fun start hstart => String.lt_trans (hrest.after entry hentry next rfl) (hnext start hstart)
  · exact List.pairwise_append.2 ⟨h.descending, hrest.descending, hbelow⟩
  · intro last page hlast hpage hnone key hmatches hafter hthere
    have hkeys : Assoc.keys (entries :: shown).flatten = Assoc.keys entries ++ Assoc.keys shown.flatten :=
      List.map_append
    rw [hkeys, List.mem_append]
    obtain ⟨item, hitem⟩ := Option.isSome_iff_exists.1 (hthere _ List.mem_cons_self)
    rcases h.complete key item hitem hmatches hafter with hkey | ⟨_, ⟨⟩, hlt⟩
    · exact Or.inl hkey
    · cases reads with
      | nil =>
        cases hlast
        exact absurd hnone (hcursor page hpage)
      | cons read reads =>
        rw [List.getLast?_cons_cons] at hlast
        refine Or.inr (hrest.complete last page hlast hpage hnone key hmatches ?_ fun other hother =>
          hthere other (List.mem_cons_of_mem _ hother))
        intro start hstart
        cases hstart
        exact hlt

end Pages

theorem Shows.next_partition {filters : Arguments} {memory : Memory} {start? next? : Option Key}
    {entries : Contents} (h : records.Shows filters memory start? next? entries) {query : Query}
    (hquery : records.queryFor filters = .ok query) {partition : String}
    (hpartition : query.partition? = some partition) : ∀ next ∈ next?, next.partition = partition := by
  intro next hnext
  obtain ⟨entry, hentry, rfl⟩ := List.mem_map.1 (List.mem_of_getLast? (h.next next hnext))
  obtain ⟨⟨other, hother, hkey, -⟩, -⟩ := h.matching entry hentry
  cases hquery.symm.trans hother
  exact Option.some.inj (hkey.symm.trans hpartition)

section Run

variable (hnames : records.model.layout.WellNamed) {filters : Arguments} {query : Query}
  (hquery : records.queryFor filters = .ok query) {partition : String}
  (hpartition : query.partition? = some partition) (hsize : partition.utf8ByteSize < UInt64.size)
  (environment : Environment ε) (pages : Nat)

include hnames hquery hpartition hsize

/-- Pages from a key on show what comes after it, whatever the limits and whatever other clients do in between. -/
theorem pageThrough_shows (rounds : List (Nat × List Nat)) {start? : Option Key}
    (hstart : ∀ start ∈ start?, start.partition = partition) {clients : List (Program Unit)}
    (hclients : ∀ p ∈ clients, p.Asks (records.Keeps partition)) {memory : Memory}
    (howns : records.Owns partition memory) (e : ε) : ∃ reads shown,
      records.pageThrough environment pages filters rounds (start?.map Cursor.encode) clients (memory, e) =
        some reads ∧
      records.RunShows filters start? reads shown ∧
      (reads.length < rounds.length → ∃ last, reads.getLast? = some last ∧ last.cursor? = none) := by
  induction rounds generalizing start? clients memory e with
  | nil => exact ⟨[], [], rfl, .nil filters start?, fun h => absurd h (Nat.lt_irrefl 0)⟩
  | cons round rounds ih =>
    obtain ⟨limit, turns⟩ := round
    obtain ⟨entries, next?, hrun, hshows⟩ := command_page hnames howns hquery hpartition environment pages e
      (fun start hmem => by rw [hstart start hmem]; exact hsize) limit
    cases hread : ((entries.map (·.2)).mapM records.read : Result (List ρ)) with
    | error failure =>
      rw [hread] at hrun
      refine ⟨_, [entries], pageThrough_last hrun rfl, .last hshows hread.symm fun page hpage => ?_,
        fun _ => ⟨_, rfl, rfl⟩⟩
      cases hpage
    | ok found =>
      rw [hread] at hrun
      cases next? with
      | none =>
        exact ⟨_, [entries], pageThrough_last hrun rfl, .last hshows hread.symm fun _ _ _ => rfl,
          fun _ => ⟨_, rfl, rfl⟩⟩
      | some next =>
        obtain ⟨hturns, hkept⟩ := Owns.interleave environment turns hclients
          (show records.Owns partition (memory.counted .query) from howns.congr rfl) e
        obtain ⟨reads, shown, hreads, hshown, hend⟩ :=
          ih (hshows.next_partition hquery hpartition) hturns hkept _
        have hresult : (Except.ok ⟨found, some (Cursor.encode next)⟩ : Result (RecordPage ρ)).map
            RecordPage.records = (entries.map (·.2)).mapM records.read := hread.symm
        refine ⟨⟨memory, .ok ⟨found, some (Cursor.encode next)⟩⟩ :: reads, entries :: shown, ?_,
          .cons hshows hresult (fun page hpage hnone => ?_) hshown, fun hless => ?_⟩
        · rw [pageThrough_next hrun rfl]
          exact Option.map_eq_some_iff.2 ⟨reads, hreads, rfl⟩
        · cases hpage
          cases hnone
        · obtain ⟨last, hlast, hnone⟩ := hend (Nat.lt_of_succ_lt_succ hless)
          refine ⟨last, ?_, hnone⟩
          cases reads with
          | nil => cases hlast
          | cons first rest => rw [List.getLast?_cons_cons, hlast]

end Run

/-- Paging by cursors is stable while other clients write to a partition that holds only records. Whatever the limits,
whatever calls the other clients make on records of whatever shape, and whenever they take their steps, each page has
records that were stored and selected when it was read; all of them together come in descending order of their sort
keys, so none comes twice; and when a page has no cursor any more, each selected record that was there at every page
has come exactly once. A text as long as the partition key is assumed to fit a 64-bit word, as every text in memory
does. -/
theorem pageThrough_stable (hdistinct : records.model.schema.Distinct)
    (hnames : records.model.layout.WellNamed)
    (hmark : ¬ replaceMark.toList <:+ records.model.layout.dataName.toList) {filters : Arguments}
    {query : Query} (hquery : records.queryFor filters = .ok query) {partition : String}
    (hpartition : query.partition? = some partition) (hsize : partition.utf8ByteSize < UInt64.size)
    {memory : Memory} (howns : records.Owns partition memory) (environment : Environment ε) (pages : Nat)
    {clients : List (Program Unit)} (hclients : ∀ client ∈ clients, records.model.CalledBy client)
    (rounds : List (Nat × List Nat)) (e : ε) : ∃ reads shown,
      records.pageThrough environment pages filters rounds none clients (memory, e) = some reads ∧
      (reads.length < rounds.length → ∃ last, reads.getLast? = some last ∧ last.cursor? = none) ∧
      List.Forall₂ (records.Presents filters) reads shown ∧
      (shown.flatten.Pairwise fun a b => b.1.sort < a.1.sort) ∧
      (Assoc.keys shown.flatten).Nodup ∧
      ∀ last page, reads.getLast? = some last → last.result = .ok page → page.cursor? = none →
        ∀ key, records.Matches filters key →
          (∀ read ∈ reads, (read.memory.item? records.model.layout key).isSome) →
          (Assoc.keys shown.flatten).count key = 1 := by
  have hkept : ∀ client ∈ clients, client.Asks (records.Keeps partition) := fun client hclient =>
    keeps_calledBy hdistinct hnames hmark (hclients client hclient)
  have hnone : ∀ start ∈ (none : Option Key), start.partition = partition := fun start hstart => by cases hstart
  obtain ⟨reads, shown, hreads, hshown, hend⟩ :=
    pageThrough_shows hnames hquery hpartition hsize environment pages rounds hnone hkept howns e
  have hnodup : (Assoc.keys shown.flatten).Nodup := by
    refine List.pairwise_map.2 (hshown.descending.imp fun {a b} hlt he => ?_)
    rw [he] at hlt
    exact String.lt_irrefl _ hlt
  refine ⟨reads, shown, hreads, hend, hshown.presents, hshown.descending, hnodup, ?_⟩
  intro last page hlast hpage hcursor key hmatches hthere
  have hmem := hshown.complete last page hlast hpage hcursor key hmatches (fun start hstart => by cases hstart)
    hthere
  exact List.count_eq_one_of_mem hnodup hmem

/-- Visits to one site alone: whatever site a new record names, it gets this one. -/
def localVisits : Records Json := { visits with shape := fun fields => Assoc.insert fields "site" (.string "s1") }

def deleter : Program Unit :=
  (visits.perform (.delete [("date", .string "d1"), ("id", .string "2"), ("site", .string "s1")])).run.bind fun _ =>
    .done ()

/-- A client that makes a visit without naming its site, and deletes all visits if that fails. -/
def creator : Program Unit :=
  (localVisits.perform (.create [("date", .string "d2")])).run.bind fun
    | .ok _ => .done ()
    | .error _ => (localVisits.deleteAll siteFilters).run.bind fun _ => .done ()

theorem deleter_creator_calledBy : ∀ client ∈ [deleter, creator], visits.model.CalledBy client := by
  have hdeleter : visits.model.CalledBy deleter := .single rfl _ fun _ => .done ()
  have hlocal : localVisits.model = visits.model := rfl
  have hcreator : visits.model.CalledBy creator := by
    refine .single hlocal _ fun result => ?_
    cases result with
    | ok answer => exact .done ()
    | error failure => exact .deleteAll hlocal _ fun _ => .done ()
  exact List.forall_mem_cons.2 ⟨hdeleter, List.forall_mem_singleton.2 hcreator⟩

/-- The visits of a site are paged one by one. Where the first cursor points, the visit is deleted before the next
page is read, and a new visit comes after that from a client with a shape of its own. -/
theorem pageThrough_stable_visits : ∃ memory results reads shown,
    visits.performAll Environment.still.host 1 visitCalls ({}, ()) = some (results, memory, ()) ∧
    visits.pageThrough Environment.still 1 siteFilters [(1, [0]), (1, [1, 1, 1]), (1, [])] none [deleter, creator]
      (memory, ()) = some reads ∧
    List.Forall₂ (visits.Presents siteFilters) reads shown ∧
    (Assoc.keys shown.flatten).Nodup ∧
    ∀ last page, reads.getLast? = some last → last.result = .ok page → page.cursor? = none →
      ∀ key, visits.Matches siteFilters key →
        (∀ read ∈ reads, (read.memory.item? visits.model.layout key).isSome) →
        (Assoc.keys shown.flatten).count key = 1 := by
  obtain ⟨memory, hrun⟩ := performAll_visits
  have hreached : visits.Reached Environment.still plainDates visitKeys memory :=
    Reached.empty.performAll visitCalls_plain hrun
  have htemplated : Templated visits.model visitKeys := ⟨rfl, by decide, by decide⟩
  have hdistinct : visits.model.schema.Distinct := by
    simp [Schema.Distinct, visits, DistinctFields, FieldType.Distinct]
  have hnames : visits.model.layout.WellNamed := by constructor <;> decide
  have hmark : ¬ replaceMark.toList <:+ visits.model.layout.dataName.toList := by decide
  have hfiled := hreached.filed hdistinct hnames hmark htemplated visitKeys_readable
  obtain ⟨map, hmap, -⟩ := hfiled.records
  have hquery : visits.queryFor siteFilters =
      .ok { partition? := some "SITE#s1", sort? := some (.startingWith "VISIT#") } := rfl
  obtain ⟨reads, shown, hreads, -, hpresents, -, hnodup, hcomplete⟩ :=
    pageThrough_stable hdistinct hnames hmark hquery rfl (by decide) (hmap.owns hfiled.sorted "SITE#s1")
      Environment.still 1 deleter_creator_calledBy [(1, [0]), (1, [1, 1, 1]), (1, [])] ()
  exact ⟨memory, _, reads, shown, hrun, hreads, hpresents, hnodup, hcomplete⟩

end Records

end KeyedRecords
