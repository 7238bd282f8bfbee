import KeyedRecords.Proofs.Layout
import KeyedRecords.Proofs.Lists
import KeyedRecords.Proofs.Query.Found
import KeyedRecords.Proofs.Store.Answer
import Mathlib.Data.List.Basic
import Mathlib.Data.List.Pairwise
import Mathlib.Data.List.Permutation

/-! Reading a query page by page from a table that does not change gives what the query finds, each item
once and whatever the size of the pages. Each page starts after the last match of the one before, which is
found again by its key. Main statements: `readPages_rest`, `readPages_selected`, `readPages_exact`. -/

namespace KeyedRecords

namespace BoundQuery

/-! ## Going on from a match -/

theorem find?_continuation {query : BoundQuery} {last : Match} {name : String}
    (h : Assoc.find? (query.layout.keyItem last.key) name = Assoc.find? last.item name) :
    Assoc.find? (query.continuation last) name = Assoc.find? last.item name := by
  refine List.foldlRecOn (motive := fun key => Assoc.find? key name = Assoc.find? last.item name)
    _ _ h fun key hkey own _ => ?_
  split
  · rename_i value hvalue
    rw [Assoc.find?_insert]
    split
    · rename_i hown
      rw [hown, hvalue]
    · exact hkey
  · exact hkey

/-- The key attributes of the query are copied from the match, so the key of the table stays readable even
where the query uses its names. -/
theorem keyOf?_continuation {query : BoundQuery} {last : Match}
    (hnames : query.layout.partitionName ≠ query.layout.sortName)
    (hkey : query.layout.keyOf? last.item = some last.key) :
    query.layout.keyOf? (query.continuation last) = some last.key := by
  have hlast := TableLayout.keyOf?_eq_some_iff.1 hkey
  have hstart := TableLayout.keyOf?_eq_some_iff.1 (TableLayout.keyOf?_keyItem hnames last.key)
  refine TableLayout.keyOf?_eq_some_iff.2 ⟨?_, ?_⟩
  · rw [find?_continuation (hstart.1.trans hlast.1.symm), hlast.1]
  · rw [find?_continuation (hstart.2.trans hlast.2.symm), hlast.2]

theorem dropWhile_drop {before after : List Match} {m : Match} (h : ∀ a ∈ before, a.key ≠ m.key) :
    ((before ++ m :: after).dropWhile (·.key ≠ m.key)).drop 1 = after := by
  rw [List.dropWhile_append_of_pos fun a ha => by simpa using h a ha]
  simp

/-- After the key of a match come the matches after it. -/
theorem resume_after {query : BoundQuery} {found before after : List Match} {m : Match} {start : Item}
    (hstart : query.startKey? = some start) (hkey : query.layout.keyOf? start = some m.key)
    (hfound : found = before ++ m :: after) (hkeys : found.Pairwise (·.key ≠ ·.key)) :
    query.resume found = after := by
  have hmem : m ∈ found := by simp [hfound]
  have hany : found.any (fun a => decide (a.key = m.key)) = true :=
    List.any_eq_true.2 ⟨m, hmem, by simp⟩
  have hbefore : ∀ a ∈ before, a.key ≠ m.key := fun a ha =>
    (List.pairwise_append.1 (hfound ▸ hkeys)).2.2 a ha m List.mem_cons_self
  simp only [resume, hstart, hkey, Option.filter_some, hany, if_true]
  rw [hfound, dropWhile_drop hbefore]

/-! ## Where a query starts -/

/-- Whether a match lies after the start key of a query: after the match that has this key or, where there
is none, after the sort text in it. -/
def Past (query : BoundQuery) (contents : Contents) (m : Match) : Prop :=
  ∀ start, query.startKey? = some start →
    (∀ first ∈ query.found contents, query.layout.keyOf? start = some first.key →
      query.Follows first m) ∧
    ((∀ first ∈ query.found contents, query.layout.keyOf? start ≠ some first.key) →
      ∀ text, textOf? start query.sortName = some text →
        if query.ascending then text < m.sort else m.sort < text)

theorem Follows.asymm {query : BoundQuery} {a b : Match} (h : query.Follows a b) :
    ¬ query.Follows b a := by
  intro h'
  by_cases hdir : query.ascending
  · simp only [Follows, hdir, if_true] at h h'
    exact Match.Precedes.irrefl _ (h.trans h')
  · simp only [Follows, hdir] at h h'
    exact Match.Precedes.irrefl _ (h.trans h')

/-- Lists in the order of a query are known by what is in them. -/
theorem eq_of_mem_iff {query : BoundQuery} {a b : List Match} (ha : a.Pairwise query.Follows)
    (hb : b.Pairwise query.Follows) (h : ∀ m, m ∈ a ↔ m ∈ b) : a = b := by
  have hperm : a.Perm b :=
    (List.perm_ext_iff_of_nodup (ha.imp Follows.ne) (hb.imp Follows.ne)).2 h
  exact hperm.eq_of_pairwise (fun x y _ _ hxy hyx => absurd hyx hxy.asymm) ha hb

section Resume

variable {query : BoundQuery} {contents : Contents} {start : Item}

theorem resume_past_match (h : Assoc.Sorted contents) (hstart : query.startKey? = some start)
    {first : Match} (hfirst : first ∈ query.found contents)
    (hkey : query.layout.keyOf? start = some first.key) :
    query.resume (query.found contents) <:+ query.found contents ∧
      ∀ m ∈ query.found contents,
        (m ∈ query.resume (query.found contents) ↔ query.Past contents m) := by
  have hkeys := found_keys_pairwise query h
  obtain ⟨before, after, hsplit⟩ := List.append_of_mem hfirst
  rw [resume_after hstart hkey hsplit hkeys]
  have hparts := List.pairwise_append.1 (hsplit ▸ found_pairwise query h)
  have hafter := (List.pairwise_cons.1 hparts.2.1).1
  refine ⟨⟨before ++ [first], by rw [hsplit]; simp⟩, fun m hm => ⟨fun hmem start' hstart' => ?_, ?_⟩⟩
  · cases hstart.symm.trans hstart'
    refine ⟨fun other hother hkey' => ?_, fun hnone => absurd hkey (hnone first hfirst)⟩
    by_cases hsame : other = first
    · rw [hsame]
      exact hafter m hmem
    · have : Std.Symm fun a b : Match => a.key ≠ b.key := ⟨fun _ _ h => Ne.symm h⟩
      have hne := hkeys.forall hother hfirst hsame
      exact absurd (Option.some.inj (hkey'.symm.trans hkey)) hne
  · intro hpast
    have hfollows := (hpast start hstart).1 first hfirst hkey
    rw [hsplit, List.mem_append, List.mem_cons] at hm
    rcases hm with hm | rfl | hm
    · exact absurd hfollows (hparts.2.2 m hm first List.mem_cons_self).asymm
    · exact absurd rfl hfollows.ne
    · exact hm

theorem resume_gone (h : Assoc.Sorted contents) (hstart : query.startKey? = some start)
    (hgone : ∀ first ∈ query.found contents, query.layout.keyOf? start ≠ some first.key) :
    query.resume (query.found contents) <:+ query.found contents ∧
      ∀ m ∈ query.found contents,
        (m ∈ query.resume (query.found contents) ↔ query.Past contents m) := by
  have hpast : ∀ m, query.Past contents m ↔ ∀ text, textOf? start query.sortName = some text →
      if query.ascending then text < m.sort else m.sort < text := by
    intro m
    constructor
    · exact fun hpast => (hpast start hstart).2 hgone
    · intro htext start' hstart'
      cases hstart.symm.trans hstart'
      exact ⟨fun first hfirst hkey => absurd hkey (hgone first hfirst), fun _ => htext⟩
  have hfilter : (query.layout.keyOf? start).filter
      (fun key => (query.found contents).any (·.key = key)) = none := by
    refine Option.filter_eq_none_iff.2 fun key hkey hany => ?_
    obtain ⟨first, hfirst, heq⟩ := List.any_eq_true.1 hany
    exact hgone first hfirst (by rw [of_decide_eq_true heq]; exact hkey)
  cases htext : textOf? start query.sortName with
  | none =>
    have hresume : query.resume (query.found contents) = query.found contents := by
      simp only [resume, hstart, hfilter, htext]
    rw [hresume]
    refine ⟨List.suffix_rfl, fun m hm => ⟨fun _ => (hpast m).2 fun text ht => ?_, fun _ => hm⟩⟩
    exact nomatch htext.symm.trans ht
  | some text =>
    have hresume : query.resume (query.found contents) = (query.found contents).filter fun m =>
        decide (if query.ascending then text < m.sort else m.sort < text) := by
      simp only [resume, hstart, hfilter, htext]
      exact List.filter_congr fun m _ => by split <;> rfl
    rw [hresume]
    constructor
    · refine filter_suffix (found_pairwise query h) fun a b hab ha => decide_eq_true ?_
      have ha := of_decide_eq_true ha
      by_cases hdir : query.ascending
      · simp only [Follows, hdir, if_true] at hab ha ⊢
        rcases hab with hab | ⟨hab, -⟩
        · exact String.lt_trans ha hab
        · exact hab ▸ ha
      · simp only [Follows, hdir] at hab ha ⊢
        rcases hab with hab | ⟨hab, -⟩
        · exact String.lt_trans hab ha
        · exact hab ▸ ha
    · intro m hm
      rw [List.mem_filter, decide_eq_true_iff, hpast]
      constructor
      · rintro ⟨-, hm⟩ text' ht
        cases htext.symm.trans ht
        exact hm
      · exact fun hm' => ⟨hm, hm' text htext⟩

end Resume

/-- The first page starts with the first match past the start key, and none after that is left out. -/
theorem resume_spec (query : BoundQuery) {contents : Contents} (h : Assoc.Sorted contents) :
    query.resume (query.found contents) <:+ query.found contents ∧
      ∀ m ∈ query.found contents,
        (m ∈ query.resume (query.found contents) ↔ query.Past contents m) := by
  cases hstart : query.startKey? with
  | none =>
    have hresume : query.resume (query.found contents) = query.found contents := by
      simp only [resume, hstart]
    rw [hresume]
    exact ⟨List.suffix_rfl, fun m hm => ⟨fun _ start hs => (nomatch hstart.symm.trans hs), fun _ => hm⟩⟩
  | some start =>
    by_cases hpoints : ∃ first ∈ query.found contents, query.layout.keyOf? start = some first.key
    · obtain ⟨first, hfirst, hkey⟩ := hpoints
      exact resume_past_match h hstart hfirst hkey
    · exact resume_gone h hstart fun first hfirst hkey => hpoints ⟨first, hfirst, hkey⟩

/-! ## Page by page -/

theorem page_eq {query : BoundQuery} {contents : Contents} {rest : List Match}
    (h : query.resume (query.found contents) = rest) :
    query.page contents = {
      items := (rest.take query.limit).map fun m => query.shown m.item
      lastKey? := if query.limit < rest.length then (rest.take query.limit).getLast?.map query.continuation
        else none } := by
  rw [← h]
  rfl

theorem mem_found_of_mem_take {query : BoundQuery} {contents : Contents} (hsorted : Assoc.Sorted contents) {m : Match}
    (hm : m ∈ (query.resume (query.found contents)).take query.limit) : m ∈ query.found contents :=
  (resume_spec query hsorted).1.subset (List.mem_of_mem_take hm)

/-- What a page gives to go on from was made of its last match. -/
theorem exists_continuation {query : BoundQuery} {contents : Contents} {start : Item}
    (hsorted : Assoc.Sorted contents) (h : (query.page contents).lastKey? = some start) :
    ∃ last ∈ query.found contents, ((query.resume (query.found contents)).take query.limit).getLast? = some last ∧
      query.continuation last = start := by
  simp only [page] at h
  split at h
  · obtain ⟨last, hlast, hstart⟩ := Option.map_eq_some_iff.1 h
    exact ⟨last, mem_found_of_mem_take hsorted (List.mem_of_getLast? hlast), hlast, hstart⟩
  · cases h

/-- After a match that is still there, a query goes on alike from all starts that hold its key. -/
theorem page_startingAfter_congr {query : BoundQuery} {contents : Contents} {last : Match}
    (hfound : last ∈ query.found contents) {start start' : Item} (hkey : query.layout.keyOf? start = some last.key)
    (hkey' : query.layout.keyOf? start' = some last.key) :
    (query.startingAfter start).page contents = (query.startingAfter start').page contents := by
  have hany : (query.found contents).any (fun m => decide (m.key = last.key)) = true :=
    List.any_eq_true.2 ⟨last, hfound, by simp⟩
  have hresume : (query.startingAfter start).resume (query.found contents) =
      (query.startingAfter start').resume (query.found contents) := by
    simp only [resume, startingAfter, hkey, hkey', Option.filter_some, hany, if_true]
  exact page_eq hresume

/-- Where matches are left over, the next page starts with the first of them. -/
theorem resume_continuation {query : BoundQuery} {contents : Contents} (hsorted : Assoc.Sorted contents)
    (hnames : query.layout.partitionName ≠ query.layout.sortName) (hkeyed : query.layout.Keyed contents)
    (hlimit : 1 ≤ query.limit) {rest : List Match} (hsuffix : rest <:+ query.found contents)
    (hmore : query.limit < rest.length) : ∃ front last, rest.take query.limit = front ++ [last] ∧
      (query.startingAfter (query.continuation last)).resume (query.found contents) =
        rest.drop query.limit ∧
      rest.drop query.limit <:+ query.found contents := by
  obtain ⟨front, last, htake, hrest⟩ := exists_take_concat hlimit hmore
  obtain ⟨before, hbefore⟩ := hsuffix
  have hsplit : query.found contents = (before ++ front) ++ last :: rest.drop query.limit := by
    rw [← hbefore, List.append_assoc, ← hrest]
  have hlast : (last.key, last.item) ∈ contents :=
    (mem_found.1 (hsplit ▸ List.mem_append_right _ List.mem_cons_self)).1
  have hkey := keyOf?_continuation hnames (hkeyed _ _ hlast)
  refine ⟨front, last, htake, resume_after rfl hkey hsplit (found_keys_pairwise query hsorted), ?_⟩
  exact ⟨before ++ front ++ [last], by rw [hsplit]; simp⟩

/-- Reading on from where some matches are left ends, and gives the first of these; only the reader may have
stopped before the last. -/
theorem readPages_rest {ε : Type} (environment : Environment ε) (wantsMore : List Item → Bool)
    {contents : Contents} (hsorted : Assoc.Sorted contents) (pages : Nat) :
    ∀ (query : BoundQuery) (rest : List Match) (seen : List Item) (memory : Memory) (e : ε),
      query.layout.partitionName ≠ query.layout.sortName → query.layout.Keyed contents →
      1 ≤ query.limit → memory.contents query.layout.table = contents →
      rest <:+ query.found contents → query.resume (query.found contents) = rest →
      rest.length < pages →
      ∃ n after, after.tables = memory.tables ∧
        environment.host.readPages wantsMore pages query seen (memory, e) =
          some ((seen ++ (rest.take n).map fun m => query.shown m.item, none), (after, e)) ∧
        (n < rest.length →
          wantsMore (seen ++ (rest.take n).map fun m => query.shown m.item) = false) := by
  induction pages with
  | zero =>
    intro query rest seen memory e _ _ _ _ _ _ hpages
    exact absurd hpages (Nat.not_lt_zero _)
  | succ pages ih =>
    intro query rest seen memory e hnames hkeyed hlimit hcontents hsuffix hresume hpages
    let asked : Memory := { memory with calls := memory.calls.count .query }
    have hpage : environment.host.answer (.query query) (memory, e) =
        (.ok (query.page contents), (asked, e)) := by
      rw [← hcontents]
      rfl
    simp only [Host.readPages, hpage, page_eq hresume]
    by_cases hmore : query.limit < rest.length
    · obtain ⟨front, last, htake, hnext, hsuffix⟩ :=
        resume_continuation hsorted hnames hkeyed hlimit hsuffix hmore
      simp only [hmore, if_true, htake, List.getLast?_concat, Option.map_some]
      cases hwants : wantsMore (seen ++ (front ++ [last]).map fun m => query.shown m.item) with
      | false =>
        refine ⟨query.limit, asked, rfl, ?_, fun _ => ?_⟩
        · simp [htake]
        · rw [htake, hwants]
      | true =>
        obtain ⟨n, after, htables, hrun, hstop⟩ := ih (query.startingAfter (query.continuation last))
          (rest.drop query.limit) (seen ++ (front ++ [last]).map fun m => query.shown m.item) asked e
          hnames hkeyed hlimit hcontents hsuffix hnext (by rw [List.length_drop]; omega)
        have hitems : (seen ++ (front ++ [last]).map fun m => query.shown m.item) ++
            ((rest.drop query.limit).take n).map (fun m => query.shown m.item) =
            seen ++ (rest.take (query.limit + n)).map fun m => query.shown m.item := by
          rw [List.take_add, htake]
          simp
        refine ⟨query.limit + n, after, htables, ?_, fun hn => ?_⟩
        · rw [← hitems]
          exact hrun
        · rw [← hitems]
          exact hstop (by rw [List.length_drop]; omega)
    · refine ⟨rest.length, asked, rfl, ?_, fun h => absurd h (Nat.lt_irrefl _)⟩
      simp only [hmore, if_false]
      rw [List.take_of_length_le (Nat.not_lt.1 hmore), List.take_length]

/-- A query from the start that finds no more than a page holds is read with one call. -/
theorem readPages_single {ε : Type} (environment : Environment ε) (query : BoundQuery) (memory : Memory) (e : ε)
    (hwhole : query.projection = []) (hstart : query.startKey? = none)
    (hshort : (query.found (memory.contents query.layout.table)).length ≤ query.limit)
    (wantsMore : List Item → Bool) {pages : Nat} (hpages : 1 ≤ pages) :
    environment.host.command pages (Command.readPages query wantsMore) (memory, e) =
      some (.ok ((query.found (memory.contents query.layout.table)).map (·.item), none),
        (memory.counted .query, e)) := by
  have hresume : query.resume (query.found (memory.contents query.layout.table)) =
      query.found (memory.contents query.layout.table) := by
    simp only [resume, hstart]
  have hpage : environment.host.answer (.query query) (memory, e) =
      (.ok (query.page (memory.contents query.layout.table)), (memory.counted .query, e)) := rfl
  have hshown : ∀ m ∈ query.found (memory.contents query.layout.table), query.shown m.item = m.item :=
    fun m _ => by simp [shown, hwhole]
  obtain ⟨pages, rfl⟩ := Nat.exists_eq_succ_of_ne_zero (Nat.ne_of_gt hpages)
  simp only [Host.command_readPages, Host.readPages, hpage, page_eq hresume, List.take_of_length_le hshort,
    if_neg (Nat.not_lt.2 hshort), List.map_congr_left hshown, List.nil_append]
  rfl

/-- A query of whole items from the start brings each stored item that it selects once, and ends if it may read a
page for each of them and one more; only the reader may have stopped before the last. -/
theorem readPages_selected {ε : Type} (environment : Environment ε) (query : BoundQuery) {memory : Memory}
    (hnames : query.layout.partitionName ≠ query.layout.sortName) (hlimit : 1 ≤ query.limit)
    (hwhole : query.projection = []) (hstart : query.startKey? = none) (hsorted : memory.Sorted)
    (hkeyed : query.layout.Keyed (memory.contents query.layout.table)) : ∃ listed : List (Key × Item),
      (Assoc.keys listed).Nodup ∧
      (∀ key item, (key, item) ∈ listed ↔
        memory.item? query.layout key = some item ∧ query.Selects item) ∧
      (listed.map (·.2)).filterMap query.layout.keyOf? = Assoc.keys listed ∧
      ∀ wantsMore pages e, listed.length < pages → ∃ n after, after.tables = memory.tables ∧
        environment.host.command pages (Command.readPages query wantsMore) (memory, e) =
          some (.ok ((listed.map (·.2)).take n, none), (after, e)) ∧
        (n < listed.length → wantsMore ((listed.map (·.2)).take n) = false) := by
  let found := query.found (memory.contents query.layout.table)
  have hresume : query.resume found = found := by simp only [resume, hstart]
  refine ⟨found.map fun m => (m.key, m.item), ?_, ?_, ?_, ?_⟩
  · have hkeys := found_keys_pairwise query (hsorted query.layout.table)
    simpa [Assoc.keys, List.Nodup, List.pairwise_map] using hkeys
  · intro key item
    rw [List.mem_map]
    constructor
    · rintro ⟨m, hm, heq⟩
      cases heq
      obtain ⟨hmem, hselects, -⟩ := mem_found.1 hm
      exact ⟨Assoc.find?_of_mem (hsorted _).nodup hmem, hselects⟩
    · rintro ⟨hitem, hselects⟩
      exact ⟨⟨query.sortText item, key, item⟩,
        mem_found.2 ⟨Assoc.mem_of_find? hitem, hselects, rfl⟩, rfl⟩
  · have hkeys : ∀ m ∈ found, query.layout.keyOf? m.item = some m.key := fun m hm =>
      hkeyed _ _ (mem_found.1 hm).1
    rw [List.map_map, List.filterMap_map]
    refine (List.filterMap_congr hkeys).trans ?_
    simp [Assoc.keys]
  · intro wantsMore pages e hpages
    obtain ⟨n, after, htables, hrun, hstop⟩ := readPages_rest environment wantsMore
      (hsorted query.layout.table) pages query found [] memory e hnames hkeyed hlimit rfl List.suffix_rfl
      hresume (by simpa using hpages)
    have hitems : ((found.take n).map fun m => query.shown m.item) =
        ((found.map fun m => (m.key, m.item)).map (·.2)).take n := by
      rw [List.map_map, ← List.map_take]
      exact List.map_congr_left fun m _ => by simp [shown, hwhole]
    rw [List.nil_append, hitems] at hrun hstop
    refine ⟨n, after, htables, ?_, by simpa using hstop⟩
    rw [Host.command_readPages, hrun]
    rfl

/-- Reading all pages of a query gives what it selects past its start, in its order and each item once,
whatever the size of a page. -/
theorem readPages_exact {ε : Type} (environment : Environment ε) (query : BoundQuery) (memory : Memory)
    (hnames : query.layout.partitionName ≠ query.layout.sortName)
    (hsorted : Assoc.Sorted (memory.contents query.layout.table))
    (hkeyed : query.layout.Keyed (memory.contents query.layout.table)) :
    ∃ listed : List Match,
      listed.Pairwise query.Follows ∧
      (∀ m, m ∈ listed ↔ (m.key, m.item) ∈ memory.contents query.layout.table ∧
        query.Selects m.item ∧ m.sort = query.sortText m.item ∧
        query.Past (memory.contents query.layout.table) m) ∧
      ∀ limit, 1 ≤ limit → ∀ pages, listed.length < pages → ∀ e, ∃ after : Memory,
        after.tables = memory.tables ∧
        environment.host.command pages
          (Command.readPages { query with limit := limit } fun _ => true) (memory, e) =
          some (.ok (listed.map fun m => query.shown m.item, none), (after, e)) := by
  obtain ⟨hsuffix, hpast⟩ := resume_spec query hsorted
  refine ⟨_, (found_pairwise query hsorted).sublist hsuffix.sublist, fun m => ?_, ?_⟩
  · constructor
    · intro hm
      obtain ⟨hstored, hselects, hsort⟩ := mem_found.1 (hsuffix.subset hm)
      exact ⟨hstored, hselects, hsort, (hpast m (hsuffix.subset hm)).1 hm⟩
    · rintro ⟨hstored, hselects, hsort, hm⟩
      exact (hpast m (mem_found.2 ⟨hstored, hselects, hsort⟩)).2 hm
  · intro limit hlimit pages hpages e
    obtain ⟨n, after, htables, hrun, hstop⟩ := readPages_rest environment (fun _ => true) hsorted pages
      { query with limit := limit } _ [] memory e hnames hkeyed hlimit rfl hsuffix rfl hpages
    have hall : (query.resume (query.found (memory.contents query.layout.table))).length ≤ n :=
      Nat.le_of_not_lt fun hn => nomatch hstop hn
    refine ⟨after, htables, ?_⟩
    rw [Host.command_readPages, hrun, Option.map_some, List.nil_append, List.take_of_length_le hall]
    rfl

/-- Notes that an index lists by owner and due date; two of them are due on one day. -/
def notes : Contents :=
  [(⟨"n", "a"⟩, [("due", .string "1"), ("owner", .string "x"), ("pk", .string "n"), ("sk", .string "a")]),
   (⟨"n", "b"⟩, [("due", .string "1"), ("owner", .string "x"), ("pk", .string "n"), ("sk", .string "b")]),
   (⟨"n", "c"⟩, [("owner", .string "x"), ("pk", .string "n"), ("sk", .string "c")])]

theorem notes_sorted : Assoc.Sorted notes := by
  unfold Assoc.Sorted
  decide

theorem notes_keyed : TableLayout.Keyed { table := "notes" } notes := by
  intro key item hmem
  simp only [notes, List.mem_cons, Prod.mk.injEq, List.not_mem_nil, or_false] at hmem
  rcases hmem with ⟨rfl, rfl⟩ | ⟨rfl, rfl⟩ | ⟨rfl, rfl⟩ <;> decide

def notesByDate : BoundQuery where
  layout := { table := "notes" }
  index? := some "byOwner"
  partitionName := "owner"
  partition := "x"
  sortName := "due"
  sort? := none
  limit := 1
  ascending := false
  projection := ["sk"]
  startKey? := none

/-- Of the notes only those that are due come, the later key first as they are due on one day, each with the one
attribute that is asked for: one note a page, or both on one. -/
theorem readPages_exact_notes :
    (∃ after : Memory, after.tables = [("notes", notes)] ∧
      Environment.still.host.command 3 (Command.readPages notesByDate fun _ => true)
        ({ tables := [("notes", notes)] }, ()) =
          some (.ok ([[("sk", .string "b")], [("sk", .string "a")]], none), (after, ()))) ∧
    ∃ after : Memory, after.tables = [("notes", notes)] ∧
      Environment.still.host.command 3 (Command.readPages { notesByDate with limit := 2 } fun _ => true)
        ({ tables := [("notes", notes)] }, ()) =
          some (.ok ([[("sk", .string "b")], [("sk", .string "a")]], none), (after, ())) := by
  obtain ⟨listed, hordered, hlisted, hread⟩ := readPages_exact Environment.still notesByDate
    { tables := [("notes", notes)] } (by decide) notes_sorted notes_keyed
  have hfound : listed = notesByDate.found notes := by
    refine eq_of_mem_iff hordered (found_pairwise notesByDate notes_sorted) fun m => ?_
    have hpast : notesByDate.Past notes m := fun start hstart => nomatch hstart
    rw [hlisted, mem_found]
    exact ⟨fun ⟨hstored, hselects, hsort, _⟩ => ⟨hstored, hselects, hsort⟩,
      fun ⟨hstored, hselects, hsort⟩ => ⟨hstored, hselects, hsort, hpast⟩⟩
  have hitems : (notesByDate.found notes).map (fun m => notesByDate.shown m.item) =
      [[("sk", .string "b")], [("sk", .string "a")]] := by cbv
  rw [hfound, hitems] at hread
  have hpages : (notesByDate.found notes).length < 3 := by
    rw [← List.length_map fun m => notesByDate.shown m.item, hitems]
    decide
  exact ⟨hread 1 (by decide) 3 hpages (), hread 2 (by decide) 3 hpages ()⟩

end BoundQuery

end KeyedRecords
