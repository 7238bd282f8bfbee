import KeyedRecords.Proofs.Attribute.Readable
import KeyedRecords.Proofs.Counters.Total
import KeyedRecords.Proofs.Layout
import KeyedRecords.Proofs.Lists
import KeyedRecords.Proofs.Store.Interleaving
import KeyedRecords.Table

/-! Increments of one item by any number of clients at once. Each is a single call, so a schedule decides the order in
which they are made, and their totals do not depend on it. Main statement: `Table.increments_never_lost`. -/

namespace KeyedRecords

open Attribute (Node nodeIn)

namespace Counters

theorem firstOther?_eq_none_iff {parent : String} {entries : Json.Map} : firstOther? parent entries = none ↔
    ∀ entry ∈ entries, (∃ n, entry.2 = .number n) ∨
      ∃ inner, entry.2 = .map inner ∧ firstOther? (fieldPath parent entry.1) inner = none := by
  induction entries with
  | nil => simp [firstOther?]
  | cons entry rest ih =>
    obtain ⟨name, value⟩ := entry
    rw [List.forall_mem_cons, ← ih]
    cases value <;> simp [firstOther?]

/-- There is no other field if and only if all that is in a tree of counters are numbers and maps. -/
theorem firstOther?_eq_none_iff_numeric {counters : Json.Map} (hordered : (Json.map counters).Ordered)
    (parent : String) : firstOther? parent counters = none ↔ (Json.map counters).Numeric := by
  have hvalue : ∀ value : Json, value.Ordered → ∀ entries, value = .map entries → ∀ parent,
      firstOther? parent entries = none ↔ value.Numeric := by
    intro value
    induction value using Json.tree_induction with
    | leaf value hleaf => exact fun _ entries he => absurd he (hleaf entries)
    | map entries ih =>
      intro hordered _ he parent
      cases he
      rw [firstOther?_eq_none_iff]
      constructor
      · intro h path found hfound
        cases path with
        | nil =>
          cases hfound
          exact Or.inl ⟨entries, rfl⟩
        | cons name rest =>
          obtain ⟨value, hvalue, hfound⟩ := Option.bind_eq_some_iff.1 hfound
          have hentry := Assoc.mem_of_find? hvalue
          rcases h _ hentry with ⟨n, rfl⟩ | ⟨inner, rfl, hinner⟩
          · cases rest with
            | nil =>
              cases hfound
              exact Or.inr ⟨n, rfl⟩
            | cons _ _ => cases hfound
          · exact (ih _ hentry (hordered.inner hvalue) inner rfl _).1 hinner rest found hfound
      · intro hnumeric entry hentry
        have hfound := Assoc.find?_of_mem hordered.sorted.nodup hentry
        have hinner := hnumeric.inner hfound
        rcases hinner.cases with ⟨inner, he⟩ | hnumber
        · exact Or.inr ⟨inner, he, (ih entry hentry (hordered.inner hfound) inner he _).2 hinner⟩
        · exact Or.inl hnumber
  exact hvalue _ hordered counters rfl parent

end Counters

/-- Whether the data of an item can be incremented by some counters: there are some, in maps that the data has, and
each of them meets an integer or nothing. -/
structure Increments (data : Item) (counters : Json.Map) : Prop where
  nonempty : counters ≠ []
  ordered : (Json.map counters).Ordered
  integral : (Json.map counters).Integral
  maps : ∀ path entries, (Json.map counters).valueAt path = some (.map entries) →
    (Attribute.map data).nodeAt path = some .map
  integers : ∀ path n, (Json.map counters).integerAt? path = some n → ∀ node,
    (Attribute.map data).nodeAt path = some node → node.integer?.isSome

/-- Increments of the same data can be made one after another as far as counters go. -/
theorem Increments.addable {data : Item} {deltas : List Json.Map}
    (h : ∀ delta ∈ deltas, Increments data delta)
    (hbound : ∀ path, ∀ delta ∈ deltas, ∀ n, (Json.map delta).integerAt? path = some n →
      (Node.amount ((Attribute.map data).nodeAt path)).natAbs + movementAt (deltas.map Json.map) path ≤
        greatestCounter) :
    Addable (some (.map data)) (deltas.map Json.map) := by
  refine Addable.of_nodes ?_ ?_ ?_ ?_ ?_
  · exact List.forall_mem_map.2 fun delta hdelta => (h delta hdelta).integral
  · exact List.forall_mem_map.2 fun delta hdelta => (h delta hdelta).integers
  · refine List.forall_mem_map.2 fun delta hdelta path entries hentries node hnode => ?_
    exact Option.some.inj (hnode.symm.trans ((h delta hdelta).maps path entries hentries))
  · refine List.forall_mem_map.2 fun delta hdelta => List.forall_mem_map.2 fun other hother => ?_
    intro path n entries hn hentries
    cases (h delta hdelta).integers path n hn _ ((h other hother).maps path entries hentries)
  · exact List.forall_mem_map.2 fun delta hdelta path n hn => hbound path delta hdelta n hn

namespace Table

/-- An increment by counters alone is one call. -/
theorem increment_eq (table : Table) (key : Key) {counters : Json.Map} (hne : counters ≠ [])
    (hordered : (Json.map counters).Ordered) (hnumeric : (Json.map counters).Numeric) :
    table.increment key counters = (do
      let updated ← Command.ask (.updateItem table.layout key
        (Update.add (Attribute.ofJsonMap [(table.layout.dataName, .map counters)])) none)
      itemJson updated) := by
  have hempty : counters.isEmpty = false := by simpa using hne
  rw [increment, hempty, (Counters.firstOther?_eq_none_iff_numeric hordered _).2 hnumeric]
  rfl

/-- The increments of a client, one after another, and their results with some from before. -/
def incrementAll (table : Table) (key : Key) (results : List (Result Json)) :
    List Json.Map → Program (List (Result Json))
  | [] => .done results
  | counters :: rest =>
    (table.increment key counters).run.bind fun result => table.incrementAll key (results ++ [result]) rest

/-- An increment by a tree of counters is one call. -/
theorem incrementAll_cons (table : Table) (key : Key) (results : List (Result Json)) {counters : Json.Map}
    (hne : counters ≠ []) (hordered : (Json.map counters).Ordered) (hintegral : (Json.map counters).Integral)
    (rest : List Json.Map) :
    table.incrementAll key results (counters :: rest) =
      .ask (.updateItem table.layout key
        (Update.add (Attribute.ofJsonMap [(table.layout.dataName, .map counters)])) none)
        fun reply => table.incrementAll key
          (results ++ [(reply.mapError RecordError.store).bind itemJson]) rest := by
  rw [incrementAll, increment_eq table key hne hordered hintegral.numeric]
  show Program.ask _ _ = Program.ask _ _
  congr 1
  funext reply
  cases reply <;> rfl

/-- Counters as an update has them, below the name of the data. -/
def dataTree (table : Table) (counters : Json.Map) : Json := .map [(table.layout.dataName, .map counters)]

/-- A client on its way: the results of the increments made, and the counters still to be added. -/
structure Client where
  results : List (Result Json)
  pending : List Json.Map

def Client.program (table : Table) (key : Key) (client : Client) : Program (List (Result Json)) :=
  table.incrementAll key client.results client.pending

/-- A client after some more turns: so many increments further, with a result for each. -/
structure Client.Later (turns : Nat) (before after : Client) : Prop where
  pending : after.pending = before.pending.drop turns
  length : after.results.length + after.pending.length = before.results.length + before.pending.length

theorem Client.Later.refl (client : Client) : client.Later 0 client := ⟨rfl, rfl⟩

theorem Client.Later.trans {turns more : Nat} {before between after : Client} (h : before.Later turns between)
    (h' : between.Later more after) : before.Later (turns + more) after :=
  ⟨by rw [h'.pending, h.pending, List.drop_drop], h'.length.trans h.length⟩

/-- A client that is done stays as it is. -/
theorem Client.Later.idle (results : List (Result Json)) : Client.Later 1 ⟨results, []⟩ ⟨results, []⟩ :=
  ⟨rfl, rfl⟩

theorem Client.Later.increment (results : List (Result Json)) (result : Result Json) (counters : Json.Map)
    (rest : List Json.Map) : Client.Later 1 ⟨results, counters :: rest⟩ ⟨results ++ [result], rest⟩ := by
  refine ⟨rfl, ?_⟩
  show (results ++ [result]).length + rest.length = results.length + (rest.length + 1)
  rw [List.length_append, List.length_singleton]
  omega

/-- A client that had a turn for each increment has made them all. -/
theorem Client.Later.finished {turns : Nat} {pending : List Json.Map} {after : Client}
    (h : Client.Later turns ⟨[], pending⟩ after) (hturns : pending.length ≤ turns) :
    after.pending = [] ∧ after.results.length = pending.length := by
  have hnone : after.pending = [] := h.pending.trans (List.drop_eq_nil_of_le hturns)
  have hlength : after.results.length + after.pending.length = 0 + pending.length := h.length
  rw [hnone, List.length_nil] at hlength
  exact ⟨hnone, by omega⟩

/-- Clients that each had a turn for each increment have made them all. -/
theorem Client.all_finished {clients : List (List Json.Map)} {clients' : List Client} {schedule : List Nat}
    (hlength : clients'.length = clients.length)
    (hlater : ∀ (i : Nat) (client : List Json.Map), clients[i]? = some client →
      ∃ client', clients'[i]? = some client' ∧ Client.Later (schedule.count i) ⟨[], client⟩ client')
    (hturns : ∀ (i : Nat) (client : List Json.Map), clients[i]? = some client →
      client.length ≤ schedule.count i) :
    (∀ client' ∈ clients', client'.pending = []) ∧
      clients'.map (fun client' => client'.results.length) = clients.map List.length := by
  have hcame : ∀ (i : Nat) (client : List Json.Map), clients[i]? = some client →
      ∃ client' : Client, clients'[i]? = some client' ∧ client'.pending = [] ∧
        client'.results.length = client.length := by
    intro i client hclient
    obtain ⟨client', hclient', hcount⟩ := hlater i client hclient
    exact ⟨client', hclient', hcount.finished (hturns i client hclient)⟩
  constructor
  · intro client' hmem
    obtain ⟨i, hi, hget⟩ := List.mem_iff_getElem.1 hmem
    obtain ⟨found, hfound, hnone, -⟩ := hcame i clients[i] (List.getElem?_eq_getElem (hlength ▸ hi))
    cases (List.getElem?_eq_getElem hi).symm.trans hfound
    exact hget ▸ hnone
  · refine List.ext_getElem? fun i => ?_
    rw [List.getElem?_map, List.getElem?_map]
    cases hclient : clients[i]? with
    | none =>
      have hbeyond := List.getElem?_eq_none_iff.1 hclient
      rw [List.getElem?_eq_none (hlength ▸ hbeyond)]
      rfl
    | some client =>
      obtain ⟨client', hclient', -, hcount⟩ := hcame i client hclient
      rw [hclient']
      exact congrArg some hcount

/-- Where clients stand that increment an item together: all that was added so far has been added exactly, what is
pending is the rest, and no increment has failed. -/
structure Underway (table : Table) (key : Key) (start : Item) (all : List Json.Map) (clients : List Client)
    (memory : Memory) : Prop where
  stored : ∃ item made, memory.item? table.layout key = some item ∧ (Attribute.map item).Ordered ∧
    (Attribute.map item).Readable ∧ Totals (some (.map start)) (made.map table.dataTree) (.map item) ∧
    (made ++ clients.flatMap Client.pending).Perm all
  succeeded : ∀ client ∈ clients, ∀ result ∈ client.results, ∃ json, result = .ok json

section Run

variable {table : Table} {key : Key} {start : Item} {all : List Json.Map}

/-- Clients that have had no turn are on their way. -/
theorem underway_begins {clients : List (List Json.Map)} (hclients : clients.flatten = all) {memory : Memory}
    (hitem : memory.item? table.layout key = some start) (hstart : (Attribute.map start).Ordered)
    (hread : (Attribute.map start).Readable) :
    Underway table key start all (clients.map fun client => ⟨[], client⟩) memory := by
  refine ⟨⟨start, [], hitem, hstart, hread, Totals.nil _, ?_⟩, ?_⟩
  · rw [List.nil_append, List.flatMap_map, ← hclients]
    exact List.Perm.of_eq List.flatMap_id
  · intro client hmem result hresult
    obtain ⟨_, -, rfl⟩ := List.mem_map.1 hmem
    cases hresult

section Clients

variable (hadd : Addable (some (.map start)) (all.map table.dataTree))
  (hall : ∀ counters ∈ all, counters ≠ [] ∧ (Json.map counters).Ordered ∧ (Json.map counters).Integral ∧
    Covers (some (.map start)) (table.dataTree counters))

include hadd hall

/-- One increment more can be made, and adds its counters to what has been added. -/
theorem exists_increment {made rest : List Json.Map} {counters : Json.Map}
    (hperm : (made ++ counters :: rest).Perm all) {item : Item} (hitem : (Attribute.map item).Ordered)
    (hread : (Attribute.map item).Readable)
    (htotals : Totals (some (.map start)) (made.map table.dataTree) (.map item)) :
    ∃ after, (Update.add (Attribute.ofJsonMap [(table.layout.dataName, .map counters)])).apply item =
        .ok after ∧ (Attribute.map after).Ordered ∧ (Attribute.map after).Readable ∧
      Totals (some (.map start)) ((made ++ [counters]).map table.dataTree) (.map after) := by
  obtain ⟨-, hordered, hintegral, hcovers⟩ := hall counters
    (hperm.mem_iff.1 (List.mem_append_right _ List.mem_cons_self))
  have hnext : Addable (some (.map start))
      (made.map table.dataTree ++ table.dataTree counters :: rest.map table.dataTree) := by
    have htrees := hadd.perm (hperm.map table.dataTree).symm
    rwa [List.map_append, List.map_cons] at htrees
  have hfits := htotals.fits_next hnext
  have htree := hintegral.single table.layout.dataName
  obtain ⟨after, hafter, hraises⟩ := addEntries_raises (hordered.single table.layout.dataName) htree hitem hfits
    (htotals.covers_next hnext hcovers)
  refine ⟨after, hafter, hraises.ordered fun _ he => Option.some.inj he ▸ hitem,
    hraises.readable htree hfits (fun _ he => Option.some.inj he ▸ hitem)
      fun _ he => Option.some.inj he ▸ hread, ?_⟩
  rw [List.map_append]
  exact htotals.snoc hnext hraises

/-- All increments can be made one after another. -/
theorem exists_increments {made rest : List Json.Map} (hperm : (made ++ rest).Perm all) {item : Item}
    (hitem : (Attribute.map item).Ordered) (hread : (Attribute.map item).Readable)
    (htotals : Totals (some (.map start)) (made.map table.dataTree) (.map item)) :
    ∃ final, (Attribute.map final).Ordered ∧
      Totals (some (.map start)) (all.map table.dataTree) (.map final) := by
  induction rest generalizing made item with
  | nil =>
    rw [List.append_nil] at hperm
    exact ⟨item, hitem, htotals.perm (hperm.map _)⟩
  | cons counters rest ih =>
    obtain ⟨after, -, hordered, hreadable, hafter⟩ := exists_increment hadd hall hperm hitem hread htotals
    rw [List.append_cons] at hperm
    exact ih hperm hordered hreadable hafter

/-- A turn of a client with counters to add takes it one increment further. -/
theorem Underway.turn {clients : List Client} {memory : Memory}
    (h : Underway table key start all clients memory) {turn : Nat} {results : List (Result Json)}
    {counters : Json.Map} {rest : List Json.Map} (hclient : clients[turn]? = some ⟨results, counters :: rest⟩)
    {ε : Type} (environment : Environment ε) (e : ε) : ∃ memory' result,
      environment.host.advance (Client.program table key ⟨results, counters :: rest⟩) (memory, e) =
        (Client.program table key ⟨results ++ [result], rest⟩, (memory', e)) ∧
      Underway table key start all (clients.set turn ⟨results ++ [result], rest⟩) memory' := by
  obtain ⟨item, made, hstored, hitem, hread, htotals, hperm⟩ := h.stored
  obtain ⟨front, back, hsplit, hset⟩ := exists_split_of_getElem? hclient
  have hpending : (made ++ counters :: (front.flatMap Client.pending ++ rest ++
      back.flatMap Client.pending)).Perm all := by
    refine List.Perm.trans ?_ hperm
    rw [hsplit, List.flatMap_append, List.flatMap_cons]
    refine List.Perm.append_left made ?_
    rw [List.append_assoc, List.cons_append]
    exact List.perm_middle.symm
  obtain ⟨after, happly, hordered, hreadable, hafter⟩ :=
    exists_increment hadd hall hpending hitem hread htotals
  obtain ⟨hne, hcounters, hintegral, -⟩ := hall counters
    (hpending.mem_iff.1 (List.mem_append_right _ List.mem_cons_self))
  have hanswer := environment.answer_updateItem_checked e hstored
    (show Memory.check none (some item) key = .ok () from rfl) happly
  obtain ⟨json, hjson⟩ := hreadable
  refine ⟨(memory.counted .updateItem).store table.layout key after, .ok json, ?_, ?_⟩
  · rw [Client.program, incrementAll_cons table key results hne hcounters hintegral]
    rw [environment.host.advance_ask hanswer]
    show (table.incrementAll key (results ++ [(Attribute.map after).toJson]) rest, _) = _
    rw [hjson]
    rfl
  · rw [hset]
    constructor
    · refine ⟨after, made ++ [counters], ?_, hordered, ⟨json, hjson⟩, hafter, ?_⟩
      · exact Memory.item?_store_self ..
      · rw [List.flatMap_append, List.flatMap_cons, List.append_assoc, List.singleton_append]
        rwa [List.append_assoc] at hpending
    · intro client hmem result hresult
      rcases List.mem_append.1 hmem with hmem | hmem
      · exact h.succeeded client (hsplit ▸ List.mem_append_left _ hmem) result hresult
      · rcases List.mem_cons.1 hmem with rfl | hmem
        · rcases List.mem_append.1 hresult with hresult | hresult
          · exact h.succeeded _ (hsplit ▸ List.mem_append_right _ List.mem_cons_self) result hresult
          · exact ⟨json, List.mem_singleton.1 hresult⟩
        · exact h.succeeded client
            (hsplit ▸ List.mem_append_right _ (List.mem_cons_of_mem _ hmem)) result hresult

/-- A turn takes the client whose turn it is further, if there is one, and leaves the others where they are. -/
theorem Underway.step (turn : Nat) (turns : List Nat) {clients : List Client} {memory : Memory}
    (h : Underway table key start all clients memory) {ε : Type} (environment : Environment ε) (e : ε) :
    ∃ (clients' : List Client) (memory' : Memory),
      environment.host.interleave (turn :: turns) (clients.map (Client.program table key)) (memory, e) =
        environment.host.interleave turns (clients'.map (Client.program table key)) (memory', e) ∧
      Underway table key start all clients' memory' ∧
      List.length clients' = clients.length ∧ ∀ (i : Nat) (client : Client), clients[i]? = some client →
        ∃ client', clients'[i]? = some client' ∧ client.Later ([turn].count i) client' := by
  cases hturn : clients[turn]? with
  | none =>
    refine ⟨clients, memory, Host.interleave_nobody _ (by rw [List.getElem?_map, hturn]; rfl) _ _, h, rfl,
      fun i client hclient => ⟨client, hclient, ?_⟩⟩
    have hne : turn ≠ i := by
      rintro rfl
      cases hturn.symm.trans hclient
    rw [List.count_cons_of_ne hne]
    exact .refl client
  | some client =>
    obtain ⟨results, pending⟩ := client
    have hprogram : (clients.map (Client.program table key))[turn]? =
        some (Client.program table key ⟨results, pending⟩) := by
      rw [List.getElem?_map, hturn]
      rfl
    cases pending with
    | nil =>
      have hsame : clients.set turn ⟨results, []⟩ = clients := by
        obtain ⟨front, back, hsplit, hset⟩ := exists_split_of_getElem? hturn
        rw [hset, ← hsplit]
      have hdone := environment.host.advance_done results (memory, e)
      refine ⟨clients, memory, ?_, h, rfl, fun i client hclient => ⟨client, hclient, ?_⟩⟩
      · rw [Host.interleave_turn _ hprogram hdone,
          show Program.done results = Client.program table key ⟨results, []⟩ from rfl, ← List.map_set, hsame]
      · by_cases hi : turn = i
        · subst hi
          cases hturn.symm.trans hclient
          rw [List.count_cons_self]
          exact .idle results
        · rw [List.count_cons_of_ne hi]
          exact .refl client
    | cons counters rest =>
      obtain ⟨memory', result, hstep, hnext⟩ := h.turn hadd hall hturn environment e
      refine ⟨clients.set turn ⟨results ++ [result], rest⟩, memory', ?_, hnext, List.length_set,
        fun i client hclient => ?_⟩
      · rw [Host.interleave_turn _ hprogram hstep, ← List.map_set]
      · by_cases hi : turn = i
        · subst hi
          cases hturn.symm.trans hclient
          obtain ⟨hlt, -⟩ := List.getElem?_eq_some_iff.1 hturn
          rw [List.count_cons_self]
          exact ⟨_, List.getElem?_set_self hlt, .increment results result counters rest⟩
        · rw [List.count_cons_of_ne hi]
          exact ⟨client, (List.getElem?_set_ne hi).trans hclient, .refl client⟩

/-- Clients stay underway, whatever the schedule. -/
theorem Underway.interleave (schedule : List Nat) {clients : List Client} {memory : Memory}
    (h : Underway table key start all clients memory) {ε : Type} (environment : Environment ε) (e : ε) :
    ∃ (clients' : List Client) (memory' : Memory),
      environment.host.interleave schedule (clients.map (Client.program table key)) (memory, e) =
        (clients'.map (Client.program table key), (memory', e)) ∧
      Underway table key start all clients' memory' ∧
      List.length clients' = clients.length ∧ ∀ (i : Nat) (client : Client), clients[i]? = some client →
        ∃ client', clients'[i]? = some client' ∧ client.Later (schedule.count i) client' := by
  induction schedule generalizing clients memory with
  | nil => exact ⟨clients, memory, rfl, h, rfl, fun i client hclient => ⟨client, hclient, .refl client⟩⟩
  | cons turn turns ih =>
    obtain ⟨between, memory₁, hstep, hnext, hkept, hfirst⟩ := h.step hadd hall turn turns environment e
    obtain ⟨clients', memory', hrun, hafter, hlength, hrest⟩ := ih hnext
    refine ⟨clients', memory', hstep.trans hrun, hafter, hlength.trans hkept, fun i client hclient => ?_⟩
    obtain ⟨client₁, hclient₁, hlater₁⟩ := hfirst i client hclient
    obtain ⟨client', hclient', hlater⟩ := hrest i client₁ hclient₁
    refine ⟨client', hclient', ?_⟩
    rw [← List.singleton_append, List.count_append]
    exact hlater₁.trans hlater

/-- When each client has had its turns all increments have been made. -/
theorem Underway.finish {clients : List (List Json.Map)} (hclients : clients.flatten = all) {memory : Memory}
    (hitem : memory.item? table.layout key = some start) (hstart : (Attribute.map start).Ordered)
    (hread : (Attribute.map start).Readable) (schedule : List Nat)
    (hturns : ∀ (i : Nat) (client : List Json.Map), clients[i]? = some client →
      client.length ≤ schedule.count i) {ε : Type} (environment : Environment ε) (e : ε) :
    ∃ (results : List (List (Result Json))) (memory' : Memory) (item : Item),
      environment.host.interleave schedule (clients.map (table.incrementAll key [])) (memory, e) =
        (results.map .done, (memory', e)) ∧
      results.map List.length = clients.map List.length ∧
      (∀ own ∈ results, ∀ result ∈ own, ∃ json, result = .ok json) ∧
      memory'.item? table.layout key = some item ∧ (Attribute.map item).Ordered ∧
      Totals (some (.map start)) (all.map table.dataTree) (.map item) := by
  obtain ⟨clients', memory', hrun, hend, hlength, hlater⟩ :=
    (underway_begins hclients hitem hstart hread).interleave hadd hall schedule environment e
  rw [List.length_map] at hlength
  obtain ⟨hdone, hcounts⟩ := Client.all_finished hlength (fun i client hclient =>
    hlater i ⟨[], client⟩ (by rw [List.getElem?_map, hclient]; rfl)) hturns
  obtain ⟨item, made, hstored, hordered, -, htotals, hperm⟩ := hend.stored
  refine ⟨clients'.map Client.results, memory', item, ?_, ?_, ?_, hstored, hordered, htotals.perm ?_⟩
  · rw [List.map_map] at hrun
    refine hrun.trans (congrArg (fun programs => (programs, (memory', e))) ?_)
    rw [List.map_map]
    refine List.map_congr_left fun client' hmem => ?_
    rw [Client.program, hdone client' hmem]
    rfl
  · rw [List.map_map]
    exact hcounts
  · intro own hown
    obtain ⟨client', hmem, rfl⟩ := List.mem_map.1 hown
    exact hend.succeeded client' hmem
  · refine List.Perm.map table.dataTree (List.Perm.trans (List.Perm.of_eq ?_) hperm)
    rw [List.flatMap_eq_nil_iff.2 hdone, List.append_nil]

end Clients

end Run

/-! ## All increments -/

/-- What stands in an item that has counters added below its data. -/
theorem nodes_of_totals {table : Table} {item data : Item} (hdata : table.layout.dataOf? item = some data)
    {all : List Json.Map} (hadd : Addable (some (.map item)) (all.map table.dataTree))
    (hcovers : ∀ counters ∈ all, Covers (some (.map item)) (table.dataTree counters)) {final : Attribute}
    (htotals : Totals (some (.map item)) (all.map table.dataTree) final) :
    (∀ path, ∀ counters ∈ all, ∀ n, (Json.map counters).integerAt? path = some n →
      final.nodeAt (table.layout.dataName :: path) =
        some (.leaf (.number (toString (Node.amount ((Attribute.map data).nodeAt path) +
          totalAt (all.map Json.map) path))))) ∧
    ∀ path, (∀ rest, path = table.layout.dataName :: rest → ∀ counters ∈ all,
        (Json.map counters).integerAt? rest = none) →
      final.nodeAt path = (Attribute.map item).nodeAt path := by
  have hfound := TableLayout.dataOf?_eq_some_iff.1 hdata
  constructor
  · intro path counters hcounters n hn
    have hbelow : (table.dataTree counters).integerAt? (table.layout.dataName :: path) = some n := by
      rw [dataTree, Json.integerAt?_single, if_pos rfl, hn]
    have hnode : nodeIn (some (.map item)) (table.layout.dataName :: path) = (Attribute.map data).nodeAt path :=
      (Attribute.nodeAt_entry item _ path).trans (by rw [hfound]; rfl)
    have htrees : all.map table.dataTree =
        (all.map Json.map).map fun counters => .map [(table.layout.dataName, counters)] := by
      rw [List.map_map]
      rfl
    rw [htotals.counters _ _ (List.mem_map_of_mem hcounters) n hbelow, hnode, htrees, totalAt_single]
  · intro path huntouched
    rcases integral_at_path hadd.integral path with
      hnone | ⟨tree, htree, entries, hentries⟩ | ⟨tree, htree, n, hn⟩
    · exact htotals.others path hnone
    · obtain ⟨counters, hcounters, rfl⟩ := List.mem_map.1 htree
      rw [htotals.maps path _ htree entries hentries]
      exact (hcovers counters hcounters path entries hentries).symm
    · obtain ⟨counters, hcounters, rfl⟩ := List.mem_map.1 htree
      cases path with
      | nil => cases hn
      | cons name rest =>
        rw [dataTree, Json.integerAt?_single] at hn
        split at hn
        · rename_i he
          cases (huntouched rest (he ▸ rfl) counters hcounters).symm.trans hn
        · cases hn

section All

variable {table : Table} {key : Key} {memory : Memory} {item data : Item} {clients : List (List Json.Map)}
  (hitem : memory.item? table.layout key = some item) (hdata : table.layout.dataOf? item = some data)
  (hordered : (Attribute.map item).Ordered) (hread : ∃ json, itemJson item = .ok json)
  (hclients : ∀ client ∈ clients, ∀ counters ∈ client, Increments data counters)
  (hbound : ∀ path, ∀ client ∈ clients, ∀ counters ∈ client, ∀ n,
    (Json.map counters).integerAt? path = some n →
      (Node.amount ((Attribute.map data).nodeAt path)).natAbs +
        movementAt (clients.flatten.map Json.map) path ≤ greatestCounter)

include hitem hdata hordered hread hclients hbound

/-- Increments are never lost. However clients take turns that increment counters of an item, whose maps the item
has, all increments succeed as soon as each client has had its turns. Each counter is then its value from before,
nothing counting as zero, and the exact sum of all that was added to it, everything else is as it was, and so the
item is the same for every order. The item has to be readable, since each increment answers with all of it. -/
theorem increments_never_lost : ∃ final : Item,
    (∀ path, ∀ client ∈ clients, ∀ counters ∈ client, ∀ n, (Json.map counters).integerAt? path = some n →
      (Attribute.map final).nodeAt (table.layout.dataName :: path) =
        some (.leaf (.number (toString (Node.amount ((Attribute.map data).nodeAt path) +
          totalAt (clients.flatten.map Json.map) path))))) ∧
    (∀ path, (∀ rest, path = table.layout.dataName :: rest → ∀ client ∈ clients, ∀ counters ∈ client,
        (Json.map counters).integerAt? rest = none) →
      (Attribute.map final).nodeAt path = (Attribute.map item).nodeAt path) ∧
    ∀ {ε : Type} (environment : Environment ε) (e : ε) (schedule : List Nat),
      (∀ (i : Nat) (client : List Json.Map), clients[i]? = some client →
        client.length ≤ schedule.count i) →
      ∃ (results : List (List (Result Json))) (memory' : Memory),
        environment.host.interleave schedule (clients.map (table.incrementAll key [])) (memory, e) =
          (results.map .done, (memory', e)) ∧
        results.map List.length = clients.map List.length ∧
        (∀ own ∈ results, ∀ result ∈ own, ∃ json, result = .ok json) ∧
        memory'.item? table.layout key = some final := by
  have hall : ∀ counters ∈ clients.flatten, Increments data counters := by
    intro counters hcounters
    obtain ⟨client, hclient, hmem⟩ := List.mem_flatten.1 hcounters
    exact hclients client hclient counters hmem
  have hfound := TableLayout.dataOf?_eq_some_iff.1 hdata
  have hadd : Addable (some (.map item)) (clients.flatten.map table.dataTree) := by
    have hdeltas : Addable (some (.map data)) (clients.flatten.map Json.map) := by
      refine Increments.addable hall fun path counters hcounters n hn => ?_
      obtain ⟨client, hclient, hmem⟩ := List.mem_flatten.1 hcounters
      exact hbound path client hclient counters hmem n hn
    rw [← hfound] at hdeltas
    have hsingle := hdeltas.single
    rwa [List.map_map] at hsingle
  have hcovers : ∀ counters ∈ clients.flatten, Covers (some (.map item)) (table.dataTree counters) := by
    intro counters hcounters
    refine Covers.single ?_
    rw [hfound]
    exact (hall counters hcounters).maps
  have hmake : ∀ counters ∈ clients.flatten, counters ≠ [] ∧ (Json.map counters).Ordered ∧
      (Json.map counters).Integral ∧ Covers (some (.map item)) (table.dataTree counters) :=
    fun counters hcounters => ⟨(hall counters hcounters).nonempty, (hall counters hcounters).ordered,
      (hall counters hcounters).integral, hcovers counters hcounters⟩
  obtain ⟨final, hfinal, htotals⟩ := exists_increments hadd hmake
    (show ([] ++ clients.flatten).Perm clients.flatten from List.Perm.refl _) hordered hread (Totals.nil _)
  obtain ⟨hcounters, hothers⟩ := nodes_of_totals hdata hadd hcovers htotals
  refine ⟨final, ?_, ?_, ?_⟩
  · intro path client hclient counters hmem
    exact hcounters path counters (List.mem_flatten.2 ⟨client, hclient, hmem⟩)
  · intro path huntouched
    refine hothers path fun rest hrest counters hmem => ?_
    obtain ⟨client, hclient, hmem⟩ := List.mem_flatten.1 hmem
    exact huntouched rest hrest client hclient counters hmem
  · intro ε environment e schedule hturns
    obtain ⟨results, memory', item', hrun, hlength, hok, hstored, hordered', htotals'⟩ :=
      Underway.finish hadd hmake rfl hitem hordered hread schedule hturns environment e
    have hsame := htotals'.unique hadd.integral htotals hordered' hfinal
    cases hsame
    exact ⟨results, memory', hrun, hlength, hok, hstored⟩

end All

/-! ## Visits of a page -/

def visits : Table := { layout := { table := "visits" } }

def homePage : Key := ⟨"site", "home"⟩

def visitsOf (france : String) : Item := [("by", .map [("fr", .number france)]), ("seen", .number "9")]

def homeItem (france size : String) : Item :=
  [("data", .map (visitsOf france)), ("pk", .string "site"), ("size", .number size), ("sk", .string "home")]

def visitsFrom (country : String) (n : Int) (inRange : WordRange n) : Json.Map :=
  [("by", .map [(country, .number (.integer n inRange))])]

theorem path_of_visitsFrom {country : String} {n m : Int} {inRange : WordRange n} {path : List String}
    (h : (Json.map (visitsFrom country n inRange)).integerAt? path = some m) : path = ["by", country] := by
  unfold visitsFrom at h
  rcases path with _ | ⟨first, _ | ⟨second, _ | ⟨third, rest⟩⟩⟩
  · cases h
  · rw [Json.integerAt?_single] at h
    split at h <;> cases h
  · rw [Json.integerAt?_single, Json.integerAt?_single] at h
    split at h
    · split at h
      · rename_i hfirst hsecond
        rw [hfirst, hsecond]
      · cases h
    · cases h
  · rw [Json.integerAt?_single, Json.integerAt?_single] at h
    split at h
    · split at h <;> cases h
    · cases h

theorem increments_visitsFrom {country : String} (n : Int) (inRange : WordRange n)
    (hcountry : ∀ node, (Attribute.map (visitsOf "5")).nodeAt ["by", country] = some node →
      node.integer?.isSome) :
    Increments (visitsOf "5") (visitsFrom country n inRange) := by
  have hleaf : (Json.number (.integer n inRange)).Ordered :=
    Json.ordered_of_not_map fun _ he => by cases he
  refine ⟨List.cons_ne_nil _ _, (hleaf.single country).single "by",
    ((Json.integral_integer n inRange).single country).single "by", ?_, ?_⟩
  · intro path entries hentries
    unfold visitsFrom at hentries
    rcases path with _ | ⟨first, _ | ⟨second, rest⟩⟩
    · rfl
    · rw [Json.valueAt_single] at hentries
      split at hentries
      · rename_i he
        rw [he]
        rfl
      · cases hentries
    · rw [Json.valueAt_single, Json.valueAt_single] at hentries
      split at hentries
      · split at hentries
        · cases rest <;> cases hentries
        · cases hentries
      · cases hentries
  · intro path m hm node hnode
    rw [path_of_visitsFrom hm] at hnode
    exact hcountry node hnode

theorem homeItem_ordered (france size : String) : (Attribute.map (homeItem france size)).Ordered := by
  have hleaf : ∀ text, (Attribute.number text).Ordered :=
    fun text => Attribute.ordered_of_not_map fun _ he => by cases he
  have hby : (Attribute.map [("fr", .number france)]).Ordered := by
    refine Attribute.ordered_map (List.pairwise_singleton _ _) fun name value hvalue => ?_
    cases List.mem_singleton.1 (Assoc.mem_of_find? hvalue)
    exact hleaf france
  have hdata : (Attribute.map (visitsOf france)).Ordered := by
    refine Attribute.ordered_map ?_ fun name value hvalue => ?_
    · refine List.pairwise_map.1 ?_
      show (["by", "seen"] : List String).Pairwise (· < ·)
      decide
    have hmem := Assoc.mem_of_find? hvalue
    unfold visitsOf at hmem
    rcases List.mem_pair.1 hmem with he | he <;> cases he
    · exact hby
    · exact hleaf "9"
  refine Attribute.ordered_map ?_ fun name value hvalue => ?_
  · refine List.pairwise_map.1 ?_
    show (["data", "pk", "size", "sk"] : List String).Pairwise (· < ·)
    decide
  · have hmem := Assoc.mem_of_find? hvalue
    unfold homeItem at hmem
    simp only [List.mem_cons, List.not_mem_nil, or_false, Prod.mk.injEq] at hmem
    rcases hmem with ⟨-, rfl⟩ | ⟨-, rfl⟩ | ⟨-, rfl⟩ | ⟨-, rfl⟩
    · exact hdata
    all_goals exact Attribute.ordered_of_not_map fun _ he => by cases he

def visitors : List (List Json.Map) :=
  [[visitsFrom "fr" 2 (by decide), visitsFrom "it" 7 (by decide)], [visitsFrom "fr" (-6) (by decide)]]

theorem increments_never_lost_visits : ∃ final : Item,
    (Attribute.map final).nodeAt ["data", "by", "fr"] = some (.leaf (.number "1")) ∧
    (Attribute.map final).nodeAt ["data", "by", "it"] = some (.leaf (.number "7")) ∧
    (Attribute.map final).nodeAt ["data", "seen"] = some (.leaf (.number "9")) ∧
    ∀ schedule : List Nat, 2 ≤ schedule.count 0 → 1 ≤ schedule.count 1 →
      ∃ (results : List (List (Result Json))) (memory' : Memory),
        Environment.still.host.interleave schedule (visitors.map (visits.incrementAll homePage []))
            (({} : Memory).store visits.layout homePage (homeItem "5" "1"), ()) =
          (results.map .done, (memory', ())) ∧
        (∀ own ∈ results, ∀ result ∈ own, ∃ json, result = .ok json) ∧
        memory'.item? visits.layout homePage = some final := by
  have hitem : (({} : Memory).store visits.layout homePage (homeItem "5" "1")).item? visits.layout homePage =
      some (homeItem "5" "1") := by
    rw [Memory.item?_store, if_pos rfl]
  have hvisits : ∀ client ∈ visitors, ∀ counters ∈ client, ∃ country n inRange,
      counters = visitsFrom country n inRange ∧ (country = "fr" ∨ country = "it") := by
    intro client hclient counters hcounters
    rcases List.mem_pair.1 hclient with rfl | rfl
    · rcases List.mem_pair.1 hcounters with rfl | rfl
      · exact ⟨_, _, _, rfl, Or.inl rfl⟩
      · exact ⟨_, _, _, rfl, Or.inr rfl⟩
    · cases List.mem_singleton.1 hcounters
      exact ⟨_, _, _, rfl, Or.inl rfl⟩
  have hincrements : ∀ client ∈ visitors, ∀ counters ∈ client, Increments (visitsOf "5") counters := by
    intro client hclient counters hcounters
    obtain ⟨country, n, inRange, rfl, hcountry⟩ := hvisits client hclient counters hcounters
    refine increments_visitsFrom n inRange fun node hnode => ?_
    rcases hcountry with rfl | rfl
    · cases hnode
      decide
    · cases hnode
  have hdata : visits.layout.dataOf? (homeItem "5" "1") = some (visitsOf "5") := rfl
  obtain ⟨final, hcounters, hothers, hrun⟩ := increments_never_lost hitem hdata
    (homeItem_ordered "5" "1") ⟨_, rfl⟩ hincrements fun path client hclient counters hcounters n hn => by
      obtain ⟨country, m, inRange, rfl, hcountry⟩ := hvisits client hclient counters hcounters
      rw [path_of_visitsFrom hn]
      rcases hcountry with rfl | rfl <;> decide
  refine ⟨final, ?_, ?_, ?_, ?_⟩
  · exact hcounters ["by", "fr"] _ List.mem_cons_self _ List.mem_cons_self 2 rfl
  · exact hcounters ["by", "it"] _ List.mem_cons_self _ (List.mem_cons_of_mem _ List.mem_cons_self) 7 rfl
  · refine hothers ["data", "seen"] fun rest he client hclient counters hcounters => ?_
    cases he
    obtain ⟨country, m, inRange, rfl, -⟩ := hvisits client hclient counters hcounters
    rfl
  · intro schedule hfirst hsecond
    obtain ⟨results, memory', hend, -, hok, hfinal⟩ := hrun Environment.still () schedule fun i client hclient => by
      rcases i with _ | _ | i
      · cases hclient
        exact hfirst
      · cases hclient
        exact hsecond
      · cases hclient
    exact ⟨results, memory', hend, hok, hfinal⟩

/-- An increment of an item that cannot be read is made, but answered by a failure. -/
theorem increment_unreadable : Increments (visitsOf "5") (visitsFrom "fr" 2 (by decide)) ∧
    visits.layout.dataOf? (homeItem "5" "1e400") = some (visitsOf "5") ∧
    (Attribute.map (homeItem "5" "1e400")).Ordered ∧ ∃ memory',
      Environment.still.host.interleave [0] [visits.incrementAll homePage [] [visitsFrom "fr" 2 (by decide)]]
          (({} : Memory).store visits.layout homePage (homeItem "5" "1e400"), ()) =
        ([.done [.error (.invalidValue (.notANumber "1e400"))]], (memory', ())) ∧
      memory'.item? visits.layout homePage = some (homeItem "7" "1e400") := by
  have hincrements : Increments (visitsOf "5") (visitsFrom "fr" 2 (by decide)) := by
    refine increments_visitsFrom 2 (by decide) fun node hnode => ?_
    cases hnode
    decide
  have hitem : (({} : Memory).store visits.layout homePage (homeItem "5" "1e400")).item? visits.layout
      homePage = some (homeItem "5" "1e400") := by
    rw [Memory.item?_store, if_pos rfl]
  have happly : (Update.add (Attribute.ofJsonMap [("data", .map (visitsFrom "fr" 2 (by decide)))])).apply
      (homeItem "5" "1e400") = .ok (homeItem "7" "1e400") := rfl
  have hanswer := Environment.still.answer_updateItem_checked () hitem
    (show Memory.check none (some (homeItem "5" "1e400")) homePage = .ok () from rfl) happly
  have hcons := incrementAll_cons visits homePage [] hincrements.nonempty hincrements.ordered
    hincrements.integral []
  refine ⟨hincrements, rfl, homeItem_ordered "5" "1e400", _,
    Host.interleave_turn _ rfl (hcons ▸ Host.advance_ask _ hanswer _) [], ?_⟩
  rw [Memory.item?_store, if_pos rfl]

end Table

end KeyedRecords
