import KeyedRecords.Proofs.Identifier
import KeyedRecords.Proofs.Lists
import KeyedRecords.Proofs.Query.Paging
import KeyedRecords.Proofs.Records.Listing
import KeyedRecords.Proofs.Records.Neighbours
import KeyedRecords.Proofs.Records.Origins
import KeyedRecords.Proofs.Records.Validation
import KeyedRecords.Proofs.Text.Order

/-! Records that get their identifiers when they are created are listed in the order of their creation. The identifiers
sort by the times at which they are made, the keys of a model that declares none sort by the identifiers, and queries
list by sort keys. Main statement: `created_in_order`. -/

namespace KeyedRecords

/-! ## Listing -/

namespace BoundQuery

/-- Whether an ascending query lists one match before another, and a descending one after it. -/
def Ranks (query : BoundQuery) (listed : List Match) (first second : Match) : Prop :=
  if query.ascending then [first, second].Sublist listed else [second, first].Sublist listed

theorem ranks_of_pairwise {query : BoundQuery} {listed : List Match} (h : listed.Pairwise query.Follows)
    {first second : Match} (hfirst : first ∈ listed) (hsecond : second ∈ listed) (hprecedes : first.Precedes second) :
    query.Ranks listed first second := by
  rw [Ranks]
  split
  · rename_i hdirection
    have hfollows : query.Follows first second := by rwa [Follows, if_pos hdirection]
    exact pair_sublist h hfirst hsecond hfollows.ne hfollows.asymm
  · rename_i hdirection
    have hfollows : query.Follows second first := by rwa [Follows, if_neg hdirection]
    exact pair_sublist h hsecond hfirst hfollows.ne hfollows.asymm

end BoundQuery

/-- Whether every query by sort keys lists the item under one key before that under another, or after it if it is a
descending one: among all that it finds, and so when it is read from its start in pages of any size. -/
structure TableLayout.ListsInOrder (layout : TableLayout) (first second : Key) : Prop where
  found : ∀ {contents : Contents} {item item' : Item} {query : BoundQuery}, Assoc.Sorted contents →
    (first, item) ∈ contents → (second, item') ∈ contents → layout.keyOf? item = some first →
    layout.keyOf? item' = some second → query.sortName = layout.sortName → query.Selects item → query.Selects item' →
      query.Ranks (query.found contents) ⟨first.sort, first, item⟩ ⟨second.sort, second, item'⟩
  read : ∀ {ε : Type} (environment : Environment ε) {memory : Memory} {item item' : Item} {query : BoundQuery},
    layout.partitionName ≠ layout.sortName → memory.Sorted → layout.Keyed (memory.contents layout.table) →
    memory.item? layout first = some item → memory.item? layout second = some item' → query.layout = layout →
    query.sortName = layout.sortName → query.startKey? = none → query.Selects item → query.Selects item' →
      ∃ listed, query.Ranks listed ⟨first.sort, first, item⟩ ⟨second.sort, second, item'⟩ ∧
        ∀ limit, 1 ≤ limit → ∀ pages, listed.length < pages → ∀ e, ∃ after : Memory, after.tables = memory.tables ∧
          environment.host.command pages (Command.readPages { query with limit := limit } fun _ => true) (memory, e) =
            some (.ok (listed.map fun m => query.shown m.item, none), (after, e))

theorem TableLayout.listsInOrder {layout : TableLayout} {first second : Key} (h : first.sort < second.sort) :
    layout.ListsInOrder first second where
  found hsorted hfirst hsecond hkey hkey' hname hselects hselects' :=
    BoundQuery.ranks_of_pairwise (BoundQuery.found_pairwise _ hsorted)
      (BoundQuery.mem_found.2 ⟨hfirst, hselects, (BoundQuery.sortText_of_key hname hkey).symm⟩)
      (BoundQuery.mem_found.2 ⟨hsecond, hselects', (BoundQuery.sortText_of_key hname hkey').symm⟩) (Or.inl h)
  read := by
    intro _ environment memory item item' query hnames hsorted hkeyed hitem hitem' hlayout hname hstart hselects
      hselects'
    cases hlayout
    obtain ⟨listed, hpairwise, hlisted, hpages⟩ :=
      BoundQuery.readPages_exact environment query memory hnames (hsorted _) hkeyed
    have hmem : ∀ {key item}, memory.item? query.layout key = some item → query.Selects item →
        ⟨key.sort, key, item⟩ ∈ listed := by
      intro key item hitem hselects
      have hstored := Assoc.mem_of_find? hitem
      refine (hlisted _).2 ⟨hstored, hselects, (BoundQuery.sortText_of_key hname (hkeyed _ _ hstored)).symm, ?_⟩
      intro start hsome
      cases hstart.symm.trans hsome
    refine ⟨listed, ?_, hpages⟩
    exact BoundQuery.ranks_of_pairwise hpairwise (hmem hitem hselects) (hmem hitem' hselects') (Or.inl h)

/-! ## Keys of new records -/

namespace Model

/-- The key of a record with a generated identifier, where a model declares no keys. -/
def identifiedKey (model : Model) (id : Identifier) : Key := ⟨model.qualified, model.name ++ "#" ++ id.text⟩

theorem Standard.key {model : Model} (h : model.Standard) {args : Arguments} {id : Identifier}
    (hid : Assoc.find? args "id" = some (.string id.text)) : model.keys.key args = .ok (model.identifiedKey id) := by
  have hsegment : args.segment? "id" = .ok (some id.text) := by
    rw [Arguments.segment?, hid]
    rfl
  have hpartition : (KeyTemplate.standard model.qualified model.name).partition.render args model.name =
      .ok model.qualified := by
    show Except.ok (model.qualified ++ "") = _
    rw [String.append_empty]
  have hsort : (KeyTemplate.standard model.qualified model.name).sort.render args model.name =
      .ok (model.name ++ "#" ++ id.text) := by
    show Template.renderSegments args model.name [.literal (model.name ++ "#"), .field "id"] = _
    simp only [Template.renderSegments, hsegment]
    show Except.ok (model.name ++ "#" ++ (id.text ++ "")) = _
    rw [String.append_empty]
  rw [h]
  exact bind_eq_ok.2 ⟨_, hpartition, bind_eq_ok.2 ⟨_, hsort, rfl⟩⟩

theorem identifiedKey_sort_lt (model : Model) {first second : Identifier} (h : first.text < second.text) :
    (model.identifiedKey first).sort < (model.identifiedKey second).sort := Utf8.append_lt_append _ h

end Model

/-- A clock that counts microseconds, and the first identifier is made in the last one of a second. -/
def Environment.ticking : Environment Nat where
  now n := ("1970-01-01T00:00:02Z", n)
  identifier n := (⟨(1999999 + n) / 1000000, (1999999 + n) % 1000000, if n = 0 then "f" else "0"⟩, n + 1)

namespace Records

variable {ρ : Type}

/-- Whether fields have no identifier, and keep the one that a new record gets when they are shaped. -/
structure TakesIdentifier (records : Records ρ) (id : Identifier) (fields : Arguments) : Prop where
  missing : Arguments.has fields "id" = false
  kept : Assoc.find? (Assoc.ofList (records.shape (Assoc.insert fields "id" (.string id.text)))) "id" =
    some (.string id.text)

/-- Whether nothing was asked of a store but to put an item made under a key where there is none, and a record was
created only if the store has done so. -/
structure PutsUnder (records : Records ρ) (key : Key) (exchanges : List Exchange) (result : Result ρ) : Prop where
  calls : ∀ x ∈ exchanges, ∃ data time,
    x.call = .putItem records.model.layout (records.model.layout.newItem key data time) (some .absent)
  accepted : ∀ record, result = .ok record → ∃ data time, exchanges =
    [⟨.putItem records.model.layout (records.model.layout.newItem key data time) (some .absent), .ok ()⟩]

/-- Whether creating a record of some fields under an identifier puts it under a key, on any store. A store in memory
then has it there, if the key attributes have names of their own. -/
structure CreatesUnder (records : Records ρ) (id : Identifier) (fields : Arguments) (key : Key) : Prop where
  key_eq : records.createdKey id fields = .ok key
  puts : ∀ {σ : Type} (host : Host σ) (pages : Nat) (state : σ) result after exchanges,
    (host.identifier state).1 = id →
    host.recorded.command pages (records.create fields) (state, []) = some (result, after, exchanges) →
      records.PutsUnder key exchanges result
  stored : records.model.layout.KeysApart → ∀ {ε : Type} (environment : Environment ε) (pages : Nat)
    (memory after : Memory) (e e' : ε) (record : ρ), (environment.identifier e).1 = id →
    environment.host.command pages (records.create fields) (memory, e) = some (.ok record, after, e') →
      ∃ data time, after.item? records.model.layout key = some (records.model.layout.newItem key data time)

variable {records : Records ρ}

theorem createShaped_puts {fields : Arguments} {key : Key} (hkey : records.model.keys.key fields = .ok key) :
    (records.createShaped fields).Ensures (fun _ => True) (records.PutsUnder key) [] := by
  refine Command.ensures_result_bind (fun pair hencode => ?_) fun failure _ =>
    ⟨fun _ h => (nomatch h), fun _ h => (nomatch h)⟩
  obtain ⟨own, data⟩ := pair
  cases hkey.symm.trans (encode_eq_ok.1 hencode).1
  refine Command.ensures_now_bind fun time => Command.ensures_attempt_bind fun reply _ => ?_
  have hcalls : ∀ reply, ∀ x ∈ ([] ++ [⟨.putItem records.model.layout (records.model.layout.newItem key data time)
      (some .absent), reply⟩] : List Exchange), ∃ data time,
        x.call = .putItem records.model.layout (records.model.layout.newItem key data time) (some .absent) := by
    intro reply x hx
    rw [List.mem_singleton.1 hx]
    exact ⟨data, time, rfl⟩
  cases reply with
  | ok _ => exact Command.ensures_result ⟨hcalls _, fun _ _ => ⟨data, time, rfl⟩⟩
  | error e => cases e <;> exact ⟨hcalls _, fun _ h => nomatch h⟩

/-- Creating a record of fields without an identifier goes on with the one that the host makes. -/
theorem command_create_identified {σ : Type} (host : Host σ) (pages : Nat) {id : Identifier} {fields : Arguments}
    (hmissing : Arguments.has fields "id" = false) (state : σ) (hid : (host.identifier state).1 = id) :
    host.command pages (records.create fields) state =
      host.command pages (records.createShaped (Assoc.ofList (records.shape
        (Assoc.insert fields "id" (.string id.text))))) (host.identifier state).2 := by
  have hnot : ¬ Arguments.has fields "id" = true := by simp [hmissing]
  rw [create_eq, identified, if_neg hnot, ← hid]
  rfl

/-- A new record whose creation succeeded lies under its key in a store in memory. -/
theorem createShaped_stored (hapart : records.model.layout.KeysApart) {fields : Arguments} {key : Key}
    (hkey : records.model.keys.key fields = .ok key) {ε : Type} {environment : Environment ε} {pages : Nat}
    {memory after : Memory} {e e' : ε} {record : ρ}
    (hrun : environment.host.command pages (records.createShaped fields) (memory, e) =
      some (.ok record, after, e')) :
    ∃ data time, after.item? records.model.layout key = some (records.model.layout.newItem key data time) := by
  obtain ⟨⟨own, data⟩, hencode, hrun⟩ := Host.command_result_inv_ok hrun
  cases hkey.symm.trans (encode_eq_ok.1 hencode).1
  rw [environment.command_now_bind, Host.command_attempt_bind] at hrun
  have hown := TableLayout.keyOf?_newItem_apart hapart key data (environment.now e).1
  cases hitem : memory.item? records.model.layout key with
  | none =>
    rw [environment.answer_putItem_new _ hown hitem] at hrun
    change environment.host.command pages (liftM (records.read (records.model.layout.newItem key data _))) _ = _ at hrun
    generalize records.read _ = read at hrun
    cases read with
    | error failure => cases hrun
    | ok own =>
      cases hrun
      exact ⟨data, (environment.now e).1, Memory.item?_store_self ..⟩
  | some item =>
    rw [environment.answer_putItem_taken _ hown hitem] at hrun
    cases hrun

theorem TakesIdentifier.createsUnder (hstandard : records.model.Standard) {id : Identifier} {fields : Arguments}
    (h : records.TakesIdentifier id fields) : records.CreatesUnder id fields (records.model.identifiedKey id) where
  key_eq := by
    have hnot : ¬ Arguments.has fields "id" = true := by simp [h.missing]
    rw [createdKey, identifiedBy, if_neg hnot]
    exact hstandard.key h.kept
  puts host pages state result after exchanges hid hrun := by
    rw [command_create_identified host.recorded pages h.missing (state, []) hid] at hrun
    exact Program.Ensures.run host.answers_anything (Program.asks_anything _)
      (createShaped_puts (hstandard.key h.kept)) trivial hrun
  stored hapart _ environment pages memory after e e' record hid hrun := by
    rw [command_create_identified environment.host pages h.missing (memory, e) hid] at hrun
    exact createShaped_stored hapart (hstandard.key h.kept) hrun

/-- Of two identifiers the bytes of the earlier are less if their seconds have as many digits, and so are those of its
sort key, where a model declares no keys. A record that takes an identifier is put under its key, and queries list the
record of the earlier before that of the later, or after it if they are descending ones. -/
theorem created_in_order (hstandard : records.model.Standard) {earlier later : Identifier}
    (hinstants : earlier.instant < later.instant)
    (hdigits : (Nat.toDigits 10 earlier.seconds).length = (Nat.toDigits 10 later.seconds).length)
    (hmicros : earlier.micros < 1000000) (hmicros' : later.micros < 1000000) :
    Utf8.encode earlier.text < Utf8.encode later.text ∧
      Utf8.encode (records.model.identifiedKey earlier).sort < Utf8.encode (records.model.identifiedKey later).sort ∧
      records.model.layout.ListsInOrder (records.model.identifiedKey earlier) (records.model.identifiedKey later) ∧
      ∀ {id fields}, records.TakesIdentifier id fields →
        records.CreatesUnder id fields (records.model.identifiedKey id) := by
  have htext := Identifier.text_lt_of_instant hinstants hdigits hmicros hmicros'
  have hsort := records.model.identifiedKey_sort_lt htext
  exact ⟨Utf8.encode_lt htext, Utf8.encode_lt hsort, TableLayout.listsInOrder hsort, fun h => h.createsUnder hstandard⟩

/-- Notes are created before and after a second ends. The second, with the lesser text, is listed before the first by a
descending query. -/
theorem created_in_order_notes :
    let first : Key := ⟨"app::Note", "Note#1.999999-f"⟩
    let second : Key := ⟨"app::Note", "Note#2.000000-0"⟩
    let query := notes.partitionQuery "app::Note" none
    Utf8.encode first.sort < Utf8.encode second.sort ∧
      notes.CreatesUnder ⟨1, 999999, "f"⟩ [("text", .string "b")] first ∧
      notes.CreatesUnder ⟨2, 0, "0"⟩ [("text", .string "a")] second ∧
      ∃ results after item item', notes.performAll Environment.ticking.host 1
          [.create [("text", .string "b")], .create [("text", .string "a")]] ({}, 0) = some (results, after, 2) ∧
        after.item? notes.model.layout first = some item ∧ after.item? notes.model.layout second = some item' ∧
        [⟨second.sort, second, item'⟩, ⟨first.sort, first, item⟩].Sublist (query.found (after.contents "notes")) := by
  intro first second query
  obtain ⟨-, hsort, hlists, hcreates⟩ := created_in_order (show notes.model.Standard from rfl)
    (show Identifier.instant ⟨1, 999999, "f"⟩ < Identifier.instant ⟨2, 0, "0"⟩ by decide) (by decide) (by decide)
    (by decide)
  refine ⟨hsort, hcreates ⟨rfl, rfl⟩, hcreates ⟨rfl, rfl⟩, _, _, _, _, rfl, rfl, rfl, ?_⟩
  show query.Ranks (query.found _) ⟨first.sort, first, _⟩ ⟨second.sort, second, _⟩
  refine hlists.found ?_ (Assoc.mem_of_find? rfl) (Assoc.mem_of_find? rfl) rfl rfl rfl ?_ ?_
  · unfold Assoc.Sorted
    decide
  · exact selects_of_key notes rfl rfl
  · exact selects_of_key notes rfl rfl

/-- Notes that are identified by their text as they are created. -/
def retitledNotes : Records Json :=
  { notes with shape := fun fields =>
      match Assoc.find? fields "text" with
      | some text => Assoc.insert (Assoc.erase fields "text") "id" text
      | none => fields }

/-- Where the identifier that a record gets is replaced as its fields are shaped, an ascending query lists the second
record before the first. -/
theorem created_out_of_order :
    let earlier := (Environment.ticking.identifier 0).1
    let later := (Environment.ticking.identifier 1).1
    let first : Key := ⟨"app::Note", "Note#b"⟩
    let second : Key := ⟨"app::Note", "Note#a"⟩
    let query := { retitledNotes.partitionQuery "app::Note" none with ascending := true }
    retitledNotes.model.Standard ∧ earlier.instant < later.instant ∧
      (Nat.toDigits 10 earlier.seconds).length = (Nat.toDigits 10 later.seconds).length ∧
      earlier.micros < 1000000 ∧ later.micros < 1000000 ∧
      Arguments.has [("text", .string "b")] "id" = false ∧ Arguments.has [("text", .string "a")] "id" = false ∧
      retitledNotes.createdKey earlier [("text", .string "b")] = .ok first ∧
      retitledNotes.createdKey later [("text", .string "a")] = .ok second ∧
      ¬ Utf8.encode first.sort < Utf8.encode second.sort ∧
      ∃ after item item', retitledNotes.performAll Environment.ticking.host 1
          [.create [("text", .string "b")], .create [("text", .string "a")]] ({}, 0) =
            some ([.ok (.record (.map [("id", .string "b"), ("tag", .string "-")])),
              .ok (.record (.map [("id", .string "a"), ("tag", .string "-")]))], after, 2) ∧
        after.item? retitledNotes.model.layout first = some item ∧
        after.item? retitledNotes.model.layout second = some item' ∧
        [⟨second.sort, second, item'⟩, ⟨first.sort, first, item⟩].Sublist (query.found (after.contents "notes")) := by
  intro earlier later first second query
  refine ⟨rfl, by decide, by decide, by decide, by decide, rfl, rfl, rfl, rfl, ?_, _, _, _, rfl, rfl, rfl, ?_⟩
  · rw [Utf8.encode_lt_iff]
    decide
  have hlists : retitledNotes.model.layout.ListsInOrder second first := TableLayout.listsInOrder (by decide)
  show query.Ranks (query.found _) ⟨second.sort, second, _⟩ ⟨first.sort, first, _⟩
  refine hlists.found ?_ (Assoc.mem_of_find? rfl) (Assoc.mem_of_find? rfl) rfl rfl rfl ?_ ?_
  · unfold Assoc.Sorted
    decide
  · exact selects_of_key retitledNotes rfl rfl
  · exact selects_of_key retitledNotes rfl rfl

end Records

end KeyedRecords
