import KeyedRecords.Proofs.Query.Found
import KeyedRecords.Proofs.Records.Requests
import KeyedRecords.Proofs.Records.Simulation
import KeyedRecords.Proofs.Store.Counting

/-! Clients that create, change, list and delete records of one model together, in any turns. Each creation that
succeeds has made one item, each deletion that is reported has removed one, and no other request makes or removes any;
so what there is in the end is what there was, with what was created and without what was reported deleted. Main
statements: `handle_counts`, `deletions_counted_once`. -/

namespace KeyedRecords

/-- Whether a request stores over what there is. -/
def RecordRequest.Overwrites {ρ : Type} : RecordRequest ρ → Prop
  | .single (.save _) => True
  | _ => False

/-- A request that was served, and with what. -/
structure Served (ρ : Type) where
  request : RecordRequest ρ
  result : Result (RecordResponse ρ)

namespace Served

variable {ρ : Type}

def created : Served ρ → Nat
  | ⟨.single (.create _), .ok _⟩ | ⟨.createRecord _, .ok _⟩ => 1
  | _ => 0

def deleted : Served ρ → Nat
  | ⟨_, .ok (.answer (.count count))⟩ => count
  | ⟨_, .ok (.answer (.removed stored))⟩ => stored.toNat
  | _ => 0

end Served

namespace Records

variable {ρ : Type} (records : Records ρ)

/-- Whether the type of the records takes every value that the schema reads. -/
def Takes : Prop :=
  ∀ item value, records.model.schema.decode item = .ok value → ∃ record, records.form.ofJson value = .ok record

/-- Whether some exchanges have made and deleted so many items, from where so many were made and deleted before. -/
def Counted (seen : List Exchange) (made gone : Nat) : Prop := creations seen = made ∧ deletions seen = gone

variable {records}

theorem guardedCalls : records.GuardedCalls (Call.Guarded records.model.layout) where
  getItem _ := trivial
  query _ _ := trivial
  deleteItem _ := rfl
  created _ _ := ⟨rfl, rfl⟩
  updated _ _ _ := ⟨rfl, rfl⟩

/-! ## Requests -/

section Counts

open Command

variable {α β : Type} {seen : List Exchange}

/-- Whether a result comes with so many items made and so many deleted, or with none of either if it is a failure. -/
def Moved (made gone : α → Nat) (seen : List Exchange) : Result α → Prop
  | .ok a => Counted seen (made a) (gone a)
  | .error _ => Counted seen 0 0

theorem counted_nil : Counted [] 0 0 := ⟨rfl, rfl⟩

theorem Counted.append {own : List Exchange} {made gone more less : Nat} (h : Counted seen made gone)
    (hown : Counted own more less) : Counted (seen ++ own) (made + more) (gone + less) :=
  ⟨by rw [creations_append, h.1, hown.1], by rw [deletions_append, h.2, hown.2]⟩

theorem counted_queries {reads : List Exchange} (h : ∀ x ∈ reads, x.call.kind = .query) : Counted reads 0 0 :=
  ⟨List.countP_eq_zero.2 fun x hx => by simp [(Exchange.moves_none (h x hx)).1],
    List.countP_eq_zero.2 fun x hx => by simp [(Exchange.moves_none (h x hx)).2]⟩

theorem moved_none {result : Result α} (h : Counted seen 0 0) : Moved (fun _ => 0) (fun _ => 0) seen result := by
  cases result <;> exact h

/-- A command whose results are answered so that they tell what was made and deleted. -/
theorem answers_moved {made gone : α → Nat} {f : α → β} {created deleted : Result β → Nat} {c : Command α}
    (hok : ∀ a, created (.ok (f a)) = made a ∧ deleted (.ok (f a)) = gone a)
    (herror : ∀ e, created (.error e) = 0 ∧ deleted (.error e) = 0)
    (h : c.Ensures Exchange.Granted (Moved made gone) []) :
    (f <$> c).Ensures Exchange.Granted (fun seen result => Counted seen (created result) (deleted result)) [] := by
  refine Ensures.map (Program.Ensures.mono ?_ h)
  rintro seen (e | a) hseen
  · show Counted seen (created (.error e)) (deleted (.error e))
    rw [(herror e).1, (herror e).2]
    exact hseen
  · show Counted seen (created (.ok (f a))) (deleted (.ok (f a)))
    rw [(hok a).1, (hok a).2]
    exact hseen

theorem get_counts (args : Arguments) :
    (records.get args).Ensures Exchange.Granted (Moved (fun _ => 0) fun _ => 0) [] := by
  refine ensures_result_bind (fun key _ => ?_) fun _ _ => counted_nil
  refine ensures_ask_bind (fun item? _ => ?_) fun _ _ => ⟨rfl, rfl⟩
  cases item? with
  | none => exact ⟨rfl, rfl⟩
  | some item => exact ensures_result (moved_none ⟨rfl, rfl⟩)

theorem update_counts (args : Arguments) :
    (records.update args).Ensures Exchange.Granted (Moved (fun _ => 0) fun _ => 0) [] := by
  refine ensures_result_bind (fun key _ => ?_) fun _ _ => counted_nil
  refine ensures_result_bind (fun written _ => ?_) fun _ _ => counted_nil
  refine ensures_now_bind fun time => ensures_attempt_bind fun reply _ => ?_
  cases reply with
  | ok item => exact ensures_result (moved_none ⟨rfl, rfl⟩)
  | error e => cases e <;> exact ⟨rfl, rfl⟩

theorem page_counts (filters : Arguments) (cursor? : Option Cursor) (limit : Nat) :
    (records.page filters cursor? limit).Ensures Exchange.Granted (Moved (fun _ => 0) fun _ => 0) [] := by
  refine ensures_result_bind (fun bound _ => ?_) fun _ _ => counted_nil
  refine ensures_ask_bind (fun page _ => ?_) fun _ _ => ⟨rfl, rfl⟩
  exact ensures_result_bind (fun read _ => ⟨rfl, rfl⟩) fun _ _ => ⟨rfl, rfl⟩

theorem collect_counts (listing : Listing ρ) :
    listing.collect.Ensures Exchange.Granted (Moved (fun _ => 0) fun _ => 0) [] := by
  refine ensures_readPages_bind fun reads _ hqueries read => ?_
  have hreads : Counted ([] ++ reads) 0 0 := counted_queries hqueries
  refine ensures_result_bind (fun found _ => ?_) fun _ _ => hreads
  cases read.2 with
  | none => exact hreads
  | some e => exact hreads

theorem stream_counts (listing : Listing ρ) (count? : Option Nat) :
    (listing.stream count?).Ensures Exchange.Granted (Moved (fun _ => 0) fun _ => 0) [] := by
  simp only [Listing.stream]
  split
  · exact ensures_readPages_bind fun reads _ hqueries read => counted_queries hqueries
  · exact counted_nil

theorem deleteKey_counts (key : Key) : (records.deleteKey key).Ensures Exchange.Granted
    (fun seen result => ∃ stored : Bool, result = .ok stored ∧ Counted seen 0 stored.toNat) [] := by
  refine ensures_ask_bind (fun item? _ => ⟨item?.isSome, rfl, ?_⟩) fun e hgranted => absurd hgranted id
  cases item? with
  | none => exact ⟨rfl, rfl⟩
  | some item => exact ⟨rfl, rfl⟩

/-- A deletion by arguments takes one item at the most. -/
theorem delete_counts (args : Arguments) : (records.delete args).Ensures Exchange.Granted
    (fun seen result => Moved (fun _ => 0) id seen result ∧ ∀ count, result = .ok count → count ≤ 1) [] := by
  refine ensures_result_bind (fun key _ => ?_) fun _ _ => ⟨counted_nil, nofun⟩
  refine Ensures.bind (Program.Ensures.mono ?_ (deleteKey_counts key))
  rintro seen _ ⟨stored, rfl, hseen⟩
  refine ⟨hseen, fun count hcount => ?_⟩
  cases hcount
  exact Bool.toNat_le stored

theorem remove_counts (record : ρ) :
    (records.remove record).Ensures Exchange.Granted (Moved (fun _ => 0) Bool.toNat) [] := by
  refine ensures_result_bind (fun args _ => ?_) fun _ _ => counted_nil
  refine Ensures.bind (Program.Ensures.mono ?_ (delete_counts args))
  rintro seen (e | count) ⟨hseen, hone⟩
  · exact hseen
  · have hcount : (decide (0 < count)).toNat = count := by
      rcases Nat.le_one_iff_eq_zero_or_eq_one.1 (hone count rfl) with rfl | rfl <;> rfl
    show Counted seen 0 (decide (0 < count)).toNat
    rw [hcount]
    exact hseen

theorem deleteKeys_counts (keys : List Key) : (records.deleteKeys keys).Ensures Exchange.Granted
    (fun seen result => ∃ count, result = .ok count ∧ Counted seen 0 count) [] := by
  induction keys with
  | nil => exact ⟨0, rfl, counted_nil⟩
  | cons key rest ih =>
    refine Ensures.bind (Program.Ensures.mono ?_ (deleteKey_counts key))
    rintro seen _ ⟨stored, rfl, hseen⟩
    refine Ensures.bind (Program.Ensures.mono ?_ (Program.Ensures.after_all ih seen))
    rintro _ _ ⟨own, rfl, count, rfl, hown⟩
    exact ⟨stored.toNat + count, rfl, hseen.append hown⟩

theorem deleteAll_counts (filters : Arguments) :
    (records.deleteAll filters).Ensures Exchange.Granted (Moved (fun _ => 0) id) [] := by
  refine ensures_result_bind (fun query _ => ?_) fun _ _ => counted_nil
  refine ensures_result_bind (fun bound _ => ?_) fun _ _ => counted_nil
  refine ensures_readPages_bind fun reads _ hqueries read => ?_
  have hreads : Counted ([] ++ reads) 0 0 := counted_queries hqueries
  obtain ⟨items, failure?⟩ := read
  cases failure? with
  | some e => exact hreads
  | none =>
    refine Program.Ensures.mono ?_ (Program.Ensures.after_all (deleteKeys_counts _) ([] ++ reads))
    rintro _ _ ⟨own, rfl, count, rfl, hown⟩
    have hall := hreads.append hown
    rw [Nat.zero_add, Nat.zero_add] at hall
    exact hall

section Create

variable (hdistinct : records.model.schema.Distinct) (hnames : records.model.layout.WellNamed) (htakes : records.Takes)

include hdistinct hnames htakes

/-- A record that is stored is read back, so a creation that fails has stored none. -/
theorem create_counts (fields : Arguments) :
    (records.create fields).Ensures Exchange.Granted (Moved (fun _ => 1) fun _ => 0) [] := by
  refine Ensures.bind (Program.Ensures.mono ?_ (identified_ensures fields))
  rintro _ (e | fields) rfl
  · exact counted_nil
  · refine ensures_result_bind (fun pair hencode => ?_) fun _ _ => counted_nil
    obtain ⟨key, data⟩ := pair
    refine ensures_now_bind fun time => ensures_attempt_bind fun reply _ => ?_
    obtain ⟨value, -, hholds⟩ := keyed_of_encode hdistinct hnames hencode time
    cases reply with
    | ok _ =>
      obtain ⟨item, -, hdecode⟩ := hholds.data
      obtain ⟨record, hrecord⟩ := htakes _ _ hdecode
      have hread : records.read (records.model.layout.newItem key data time) = .ok record := by
        rw [hholds.read, recordOf, hrecord]
        rfl
      show Ensures _ _ (liftM (records.read (records.model.layout.newItem key data time)) : Command ρ) _
      rw [hread]
      have hcreates : Exchange.creates? ⟨.putItem records.model.layout
          (records.model.layout.newItem key data time) (some .absent), .ok ()⟩ = some key := hholds.key
      refine ⟨?_, rfl⟩
      rw [List.nil_append, creations_cons, hcreates]
      rfl
    | error e => cases e <;> exact ⟨rfl, rfl⟩

theorem createRecord_counts (record : ρ) :
    (records.createRecord record).Ensures Exchange.Granted (Moved (fun _ => 1) fun _ => 0) [] :=
  ensures_result_bind (fun fields _ => create_counts hdistinct hnames htakes fields) fun _ _ => counted_nil

/-- A request reports what its calls have made and deleted. -/
theorem handle_counts {request : RecordRequest ρ} (hguarded : ¬ request.Overwrites) :
    (records.handle request).Ensures Exchange.Granted (fun seen result =>
      Counted seen (Served.created ⟨request, result⟩) (Served.deleted ⟨request, result⟩)) [] := by
  cases request with
  | single call =>
    refine Ensures.map ?_
    cases call with
    | create fields =>
      exact answers_moved (fun _ => ⟨rfl, rfl⟩) (fun _ => ⟨rfl, rfl⟩) (create_counts hdistinct hnames htakes fields)
    | get args => exact answers_moved (fun _ => ⟨rfl, rfl⟩) (fun _ => ⟨rfl, rfl⟩) (get_counts args)
    | update args => exact answers_moved (fun _ => ⟨rfl, rfl⟩) (fun _ => ⟨rfl, rfl⟩) (update_counts args)
    | save record => exact absurd trivial hguarded
    | delete args =>
      exact answers_moved (fun _ => ⟨rfl, rfl⟩) (fun _ => ⟨rfl, rfl⟩)
        (Program.Ensures.mono (fun _ _ h => h.1) (delete_counts args))
    | remove record => exact answers_moved (fun _ => ⟨rfl, rfl⟩) (fun _ => ⟨rfl, rfl⟩) (remove_counts record)
  | createRecord record =>
    exact answers_moved (fun _ => ⟨rfl, rfl⟩) (fun _ => ⟨rfl, rfl⟩) (createRecord_counts hdistinct hnames htakes record)
  | collect selection keep =>
    exact ensures_result_bind (fun listing _ => answers_moved (fun _ => ⟨rfl, rfl⟩) (fun _ => ⟨rfl, rfl⟩)
      (collect_counts listing)) fun _ _ => counted_nil
  | stream selection keep count? =>
    exact ensures_result_bind (fun listing _ => answers_moved (fun _ => ⟨rfl, rfl⟩) (fun _ => ⟨rfl, rfl⟩)
      (stream_counts listing count?)) fun _ _ => counted_nil
  | page filters cursor? limit =>
    exact answers_moved (fun _ => ⟨rfl, rfl⟩) (fun _ => ⟨rfl, rfl⟩) (page_counts filters cursor? limit)
  | deleteAll filters => exact answers_moved (fun _ => ⟨rfl, rfl⟩) (fun _ => ⟨rfl, rfl⟩) (deleteAll_counts filters)

end Create

end Counts

end Records

/-! ## Clients -/

/-- A request that does not store over what there is, with what is done to the fields of records that it creates. -/
structure SharedRequest (ρ : Type) where
  request : RecordRequest ρ
  shape : Json.Map → Json.Map := id
  guarded : ¬ request.Overwrites

/-- A client that makes requests one after another, each in view of the results before. -/
inductive SharedClient (ρ : Type) where
  | done
  | next (call : SharedRequest ρ) (rest : Result (RecordResponse ρ) → SharedClient ρ)

namespace Served

variable {ρ : Type}

/-- Whether exchanges fall into those of one request after another, and each request reports what its own have made and
deleted. -/
def Tell (served : List (Served ρ)) (exchanges : List Exchange) : Prop :=
  ∃ parts, exchanges = parts.flatten ∧
    List.Forall₂ (fun call part => Records.Counted part call.created call.deleted) served parts

variable {served : List (Served ρ)} {exchanges own : List Exchange}

theorem tell_nil : Tell ([] : List (Served ρ)) [] := ⟨[], rfl, .nil⟩

theorem Tell.cons {call : Served ρ} (hown : Records.Counted own call.created call.deleted)
    (h : Tell served exchanges) : Tell (call :: served) (own ++ exchanges) := by
  obtain ⟨parts, rfl, hparts⟩ := h
  exact ⟨own :: parts, rfl, .cons hown hparts⟩

theorem Tell.counted (h : Tell served exchanges) :
    Records.Counted exchanges (served.map (·.created)).sum (served.map (·.deleted)).sum := by
  obtain ⟨parts, rfl, hparts⟩ := h
  induction hparts with
  | nil => exact Records.counted_nil
  | cons hown _ ih => exact Records.Counted.append hown ih

end Served

namespace SharedClient

variable {ρ : Type}

/-- The program of a client; its requests in their order, with what they were served. -/
def program (records : Records ρ) : SharedClient ρ → Program (List (Served ρ))
  | .done => .done []
  | .next call rest =>
    (Records.handle { records with shape := call.shape } call.request).run.bind fun result =>
      ((rest result).program records).bind fun served => .done (⟨call.request, result⟩ :: served)

variable (records : Records ρ)

theorem program_asks (client : SharedClient ρ) :
    (client.program records).Asks (Call.Guarded records.model.layout) := by
  induction client with
  | done => trivial
  | next call rest ih =>
    have hcalls := @Records.guardedCalls ρ { records with shape := call.shape }
    have hhandle : (Records.handle { records with shape := call.shape } call.request).Asks
        (Call.Guarded records.model.layout) := by
      refine Records.handle_asks hcalls fun record hsave => absurd ?_ call.guarded
      rw [hsave]
      trivial
    exact Program.Asks.bind hhandle fun result => (ih result).bind fun _ => trivial

variable {records}

/-- A client is served request by request, and is told each time what its calls have made and deleted. -/
theorem program_tells (hdistinct : records.model.schema.Distinct) (hnames : records.model.layout.WellNamed)
    (htakes : records.Takes) (client : SharedClient ρ) :
    (client.program records).Ensures Exchange.Granted (fun seen served => Served.Tell served seen) [] := by
  induction client with
  | done => exact Served.tell_nil
  | next call rest ih =>
    have hhandle := @Records.handle_counts ρ { records with shape := call.shape } hdistinct hnames htakes _ call.guarded
    refine Program.Ensures.bind (Program.Ensures.mono (fun seen result hseen => ?_) hhandle)
    refine Program.Ensures.bind (Program.Ensures.mono ?_ ((ih result).after_all seen))
    rintro _ served ⟨own, rfl, hown⟩
    exact hown.cons hseen

end SharedClient

/-! ## All clients -/

/-- Whether the results of clients account for what becomes of the items of a table in a history of their calls. -/
structure CountedOnce {ρ : Type} (layout : TableLayout) (memory after : Memory) (history : List (Nat × Exchange))
    (served : List (List (Served ρ))) : Prop where
  /-- What there was and what was created is what there is and what was deleted, as reported. -/
  conserved : (memory.contents layout.table).length + (served.flatten.map (·.created)).sum =
    (after.contents layout.table).length + (served.flatten.map (·.deleted)).sum
  /-- Each client is told what its own calls have made and deleted, request by request. -/
  told : ∀ (i : Nat) (own : List (Served ρ)), served[i]? = some own → Served.Tell own (exchangesOf i history)
  /-- At each key items are made and deleted in turn, by all calls together. -/
  lives : ∀ key, Lives key (memory.item? layout key).isSome (history.map (·.2)) (after.item? layout key).isSome
  /-- Of two deletions at one key the second is of an item made after the first. -/
  once : ∀ front first middle second back key, history = front ++ first :: (middle ++ second :: back) →
    first.2.deletes? = some key → second.2.deletes? = some key → ∃ x ∈ middle, x.2.creates? = some key

theorem Lives.once {key : Key} {stored after : Bool} {history front middle back : List (Nat × Exchange)}
    {first second : Nat × Exchange} (h : Lives key stored (history.map (·.2)) after)
    (hhistory : history = front ++ first :: (middle ++ second :: back)) (hfirst : first.2.deletes? = some key)
    (hsecond : second.2.deletes? = some key) : ∃ x ∈ middle, x.2.creates? = some key := by
  rw [hhistory, List.map_append, List.map_cons, List.map_append, List.map_cons] at h
  obtain ⟨_, hmiddle, hcreates⟩ := h.between hfirst hsecond
  obtain ⟨x, hx, rfl⟩ := List.mem_map.1 hmiddle
  exact ⟨x, hx, hcreates⟩

/-- What is counted of the exchanges of each client, and told it, is told all clients together. -/
theorem sum_told {ρ : Type} {history : List (Nat × Exchange)} {served : List (List (Served ρ))}
    (hplaces : ∀ x ∈ history, x.1 < served.length) {p : Exchange → Bool} {count : Served ρ → Nat}
    (h : ∀ (i : Nat) (own : List (Served ρ)), served[i]? = some own →
      (exchangesOf i history).countP p = (own.map count).sum) :
    (history.map (·.2)).countP p = (served.flatten.map count).sum := by
  have hown : ∀ i : Fin served.length, (exchangesOf i history).countP p = (served[i].map count).sum :=
    fun i => h i served[i] (List.getElem?_eq_getElem i.isLt)
  rw [← sum_exchangesOf hplaces p, Finset.sum_congr rfl fun i _ => hown i, List.map_flatten, List.sum_flatten,
    List.map_map]
  exact Fin.sum_univ_fun_getElem served fun own => (own.map count).sum

/-- From any store, whatever clients do to the records of a model in whatever turns, once all are done there is what
there was, with what they report as created and without what they report as deleted. No item is deleted twice. -/
theorem deletions_counted_once {ρ ε : Type} {records : Records ρ} {environment : Environment ε} {memory after : Memory}
    {e e' : ε} (hdistinct : records.model.schema.Distinct) (hnames : records.model.layout.WellNamed)
    (htakes : records.Takes) (hsorted : memory.Sorted) (clients : List (SharedClient ρ)) (turns : List Nat)
    {served : List (List (Served ρ))}
    (hturns : environment.host.interleave turns (clients.map (·.program records)) (memory, e) =
      (served.map .done, (after, e'))) :
    CountedOnce records.model.layout memory after
      (environment.host.history turns (clients.map (·.program records)) (memory, e)) served := by
  have hhost : environment.host.Answers (Call.Guarded records.model.layout) Exchange.Granted
      fun state => state.1.Sorted :=
    environment.answers (fun _ _ h => h) fun call memory _ h => ⟨memory.granted_reply call, h.reply call⟩
  generalize hprograms : clients.map (·.program records) = programs at hturns
  have hclient : ∀ p ∈ programs, ∃ client : SharedClient ρ, client.program records = p := by
    intro p hp
    rw [← hprograms] at hp
    obtain ⟨client, -, hclient⟩ := List.mem_map.1 hp
    exact ⟨client, hclient⟩
  have hasks : ∀ p ∈ programs, p.Asks (Call.Guarded records.model.layout) := by
    intro p hp
    obtain ⟨client, rfl⟩ := hclient p hp
    exact client.program_asks records
  have htells : ∀ (i : Nat) (p : Program (List (Served ρ))), programs[i]? = some p →
      p.Ensures Exchange.Granted (fun seen served => Served.Tell served seen) [] := by
    intro i p hp
    obtain ⟨client, rfl⟩ := hclient p (List.mem_of_getElem? hp)
    exact client.program_tells hdistinct hnames htakes
  have hcounts := (environment.counts_extends records.model.layout).interleave hhost turns hasks
    (show (memory, e).1.Sorted from hsorted)
  have htold : ∀ (i : Nat) (own : List (Served ρ)), served[i]? = some own →
      Served.Tell own (exchangesOf i (environment.host.history turns programs (memory, e))) := by
    intro i own hown
    have hdone : (environment.host.interleave turns programs (memory, e)).1[i]? = some (.done own) := by
      rw [hturns, List.getElem?_map, hown]
      rfl
    have htold := Program.Ensures.interleave hhost turns hasks hsorted htells i hdone
    exact htold
  have hplaces : ∀ x ∈ environment.host.history turns programs (memory, e), x.1 < served.length := by
    have hlength := environment.host.interleave_length turns programs (memory, e)
    rw [hturns, List.length_map] at hlength
    rw [hlength]
    exact environment.host.history_places turns programs (memory, e)
  rw [hturns] at hcounts
  exact {
    conserved := by
      have hmade := sum_told hplaces fun i own hown => (htold i own hown).counted.1
      have hgone := sum_told hplaces fun i own hown => (htold i own hown).counted.2
      rw [← hmade, ← hgone]
      exact hcounts.length
    told := htold
    lives := hcounts.lives
    once := fun _ _ _ _ _ key hhistory hfirst hsecond => (hcounts.lives key).once hhistory hfirst hsecond }

def openNotes : Records Json := { Records.notes with form := { Records.notes.form with ofJson := .ok } }

/-- A client that makes the same requests whatever it is told. -/
def SharedClient.ofList {ρ : Type} : List (SharedRequest ρ) → SharedClient ρ
  | [] => .done
  | call :: rest => .next call fun _ => ofList rest

/-- One client makes a note and deletes all, another one deletes that note and makes it anew. -/
def noteClients : List (SharedClient Json) :=
  [.ofList [⟨.single (.create [("id", .string "1")]), id, id⟩, ⟨.deleteAll [], id, id⟩],
    .ofList [⟨.single (.delete [("id", .string "1")]), id, id⟩, ⟨.single (.create [("id", .string "1")]), id, id⟩]]

/-- The second client has all its turns after the first one has read what to delete. -/
def noteTurns : List Nat := [0, 0, 0, 1, 1, 1, 0]

/-- What the clients are told: either makes a note, and either deletes one. -/
def noteServed : List (List (Served Json)) :=
  let created := .ok (.answer (.record (.map [("id", .string "1"), ("tag", .string "-")])))
  [[⟨.single (.create [("id", .string "1")]), created⟩, ⟨.deleteAll [], .ok (.answer (.count 1))⟩],
    [⟨.single (.delete [("id", .string "1")]), .ok (.answer (.count 1))⟩,
      ⟨.single (.create [("id", .string "1")]), created⟩]]

theorem deletions_counted_once_notes : ∃ after,
    Environment.still.host.interleave noteTurns (noteClients.map (·.program openNotes)) ({}, ()) =
        (noteServed.map .done, (after, ())) ∧
      CountedOnce openNotes.model.layout {} after
        (Environment.still.host.history noteTurns (noteClients.map (·.program openNotes)) ({}, ())) noteServed ∧
      (noteServed.flatten.map (·.created)).sum = 2 ∧ (noteServed.flatten.map (·.deleted)).sum = 2 := by
  have hdistinct : openNotes.model.schema.Distinct := by
    simp [Schema.Distinct, openNotes, Records.notes, DistinctFields, FieldType.Distinct]
  have hnames : openNotes.model.layout.WellNamed := by constructor <;> decide
  have hturns : Environment.still.host.interleave noteTurns (noteClients.map (·.program openNotes)) ({}, ()) =
      (noteServed.map .done, ({ tables := [("notes", [])], calls := ⟨0, 2, 0, 1, 2⟩ }, ())) := by
    -- The third turn reads a page, and sorting does not compute: the one note on it is found by a lemma.
    refine (Environment.still.host.interleave_turn rfl rfl [0, 0, 1, 1, 1, 0]).trans ?_
    refine (Environment.still.host.interleave_turn rfl rfl [0, 1, 1, 1, 0]).trans ?_
    refine (Environment.still.host.interleave_turn rfl (show _ =
      (Program.afterPage _ _ _ _ (.ok (BoundQuery.page _ [(_, _)])), (_, ())) from rfl) [1, 1, 1, 0]).trans ?_
    rw [BoundQuery.page, BoundQuery.found_one rfl]
    rfl
  have hsorted : ({} : Memory).Sorted := fun _ => List.Pairwise.nil
  have htakes : openNotes.Takes := fun _ value _ => ⟨value, rfl⟩
  exact ⟨_, hturns, deletions_counted_once hdistinct hnames htakes hsorted noteClients noteTurns hturns, rfl, rfl⟩

end KeyedRecords
