import KeyedRecords.Proofs.Counters.Accumulate
import KeyedRecords.Proofs.Counters.Increment

/-! Runs of calls that accumulate counters under one key. From the time stamp of the first call on, each call adds its
tree of counters, so the counters end at the sums, in whatever order the calls come. Main statement:
`Table.accumulate_totals`. -/

namespace KeyedRecords

open Attribute (Node nodeIn nodeAt_entry)

/-- The tree of counters that a call adds, below its path. -/
def Counters.tree (call : Json.Map × Option String) : Json := .map (Counters.nest call.2 call.1)

/-- Calls that accumulate counters under a key, one after another, with their answers. -/
def Table.accumulateAll (table : Table) (key : Key) : List (Json.Map × Option String) → Command (List Json)
  | [] => pure []
  | call :: rest => do
    let answer ← table.accumulate key call.1 call.2
    let answers ← table.accumulateAll key rest
    pure (answer :: answers)

/-- Whether calls can be accumulated: they give integers, under names that end in no mark and are not that of the time
stamp, no field is a number in one of them and a map in another, and the amounts at a path stay in range. -/
structure Accumulates (calls : List (Json.Map × Option String)) : Prop where
  ordered : ∀ call ∈ calls, (Counters.tree call).Ordered
  integral : ∀ call ∈ calls, (Counters.tree call).Integral
  unmarked : ∀ call ∈ calls, (Counters.tree call).Named Unmarked
  unstamped : ∀ call ∈ calls, (Counters.tree call).Named (· ≠ "timestamp")
  consistent : ∀ call ∈ calls, ∀ other ∈ calls, ∀ path n entries,
    (Counters.tree call).integerAt? path = some n → (Counters.tree other).valueAt path ≠ some (.map entries)
  bounded : ∀ path, movementAt (calls.map Counters.tree) path ≤ greatestCounter

theorem Accumulates.perm {calls others : List (Json.Map × Option String)} (h : Accumulates calls)
    (hperm : calls.Perm others) : Accumulates others where
  ordered call hcall := h.ordered call (hperm.mem_iff.2 hcall)
  integral call hcall := h.integral call (hperm.mem_iff.2 hcall)
  unmarked call hcall := h.unmarked call (hperm.mem_iff.2 hcall)
  unstamped call hcall := h.unstamped call (hperm.mem_iff.2 hcall)
  consistent call hcall other hother := h.consistent call (hperm.mem_iff.2 hcall) other (hperm.mem_iff.2 hother)
  bounded path := by
    rw [← movementAt_perm (hperm.map Counters.tree)]
    exact h.bounded path

/-! ## The time stamp -/

theorem Json.Named.not_mem {value : Json} {P : String → Prop} (h : value.Named P) {path : List String}
    {name : String} (hname : ¬ P name) (hmem : name ∈ path) : value.valueAt path = none := by
  cases hvalue : value.valueAt path with
  | none => rfl
  | some found => exact absurd (h path found hvalue name hmem) hname

theorem timestamp_mem_stampPath (path? : Option String) : "timestamp" ∈ stampPath path? :=
  List.mem_append_right _ List.mem_cons_self

theorem nodeAt_single (name other : String) (value : Attribute) (rest : List String) :
    (Attribute.map [(name, value)]).nodeAt (other :: rest) =
      if other = name then value.nodeAt rest else none := Attribute.nodeAt_insert [] name other value rest

theorem nodeAt_stamp (time : String) (path : List String) :
    (Attribute.map [("timestamp", .string time)]).nodeAt path =
      if path = [] then some .map
      else if path = ["timestamp"] then some (.leaf (.string time)) else none := by
  rcases path with _ | ⟨name, _ | ⟨next, rest⟩⟩
  · rfl
  · rw [nodeAt_single, if_neg (List.cons_ne_nil _ _)]
    by_cases h : name = "timestamp"
    · rw [if_pos h, if_pos (by rw [h])]
      rfl
    · rw [if_neg h, if_neg fun he => h (List.cons.inj he).1]
  · have hlong : name :: next :: rest ≠ ["timestamp"] := fun he => by cases (List.cons.inj he).2
    rw [nodeAt_single, if_neg (List.cons_ne_nil _ _), if_neg hlong]
    split <;> rfl

theorem nodeAt_stampPath (path? : Option String) (time : String) :
    (Attribute.map (stampTree path? time)).nodeAt (stampPath path?) = some (.leaf (.string time)) := by
  cases path? with
  | none => exact nodeAt_stamp time ["timestamp"]
  | some path => exact (nodeAt_single path path _ ["timestamp"]).trans ((if_pos rfl).trans (nodeAt_stamp _ _))

/-- What stands in the tree of a time stamp is the stamp, or a map that the call itself has too. -/
theorem nodeAt_stampTree {path? : Option String} {time : String} {path : List String} {node : Node}
    (h : (Attribute.map (stampTree path? time)).nodeAt path = some node) (counters : Json.Map) :
    path = stampPath path? ∨
      node = .map ∧ ∃ entries, (Counters.tree (counters, path?)).valueAt path = some (.map entries) := by
  have hstamp : ∀ {path : List String}, (Attribute.map [("timestamp", .string time)]).nodeAt path = some node →
      path = ["timestamp"] ∨ path = [] ∧ node = .map := by
    intro path h
    rw [nodeAt_stamp] at h
    split at h
    · cases h
      exact Or.inr ⟨‹_›, rfl⟩
    · split at h
      · exact Or.inl ‹_›
      · cases h
  cases path? with
  | none =>
    rcases hstamp h with rfl | ⟨rfl, rfl⟩
    · exact Or.inl rfl
    · exact Or.inr ⟨rfl, counters, rfl⟩
  | some name =>
    cases path with
    | nil =>
      cases h
      exact Or.inr ⟨rfl, _, rfl⟩
    | cons other rest =>
      have hinner := (nodeAt_single name other (.map [("timestamp", .string time)]) rest).symm.trans h
      split at hinner
      · rename_i he
        subst he
        rcases hstamp hinner with rfl | ⟨rfl, rfl⟩
        · exact Or.inl rfl
        · exact Or.inr ⟨rfl, counters, (Json.valueAt_single other other _ []).trans (if_pos rfl)⟩
      · cases hinner

section Stamped

variable {calls : List (Json.Map × Option String)} (h : Accumulates calls) (first : Json.Map × Option String)

include h

/-- No call gives anything where a time stamp goes. -/
theorem Accumulates.stampPath_free : ∀ call ∈ calls, (Counters.tree call).valueAt (stampPath first.2) = none :=
  fun call hcall => (h.unstamped call hcall).not_mem (not_not_intro rfl) (timestamp_mem_stampPath first.2)

/-- Before the first call, the tree of its time stamp has nothing where a counter will stand. -/
theorem Accumulates.stampTree_free (hfirst : first ∈ calls) (time : String) {call : Json.Map × Option String}
    (hcall : call ∈ calls) {path : List String} {n : Int}
    (hn : (Counters.tree call).integerAt? path = some n) :
    nodeIn (some (.map (stampTree first.2 time))) path = none := by
  obtain ⟨inRange, hvalue⟩ := Json.integerAt?_eq_some.1 hn
  cases hnode : nodeIn (some (.map (stampTree first.2 time))) path with
  | none => rfl
  | some node =>
    rcases nodeAt_stampTree hnode first.1 with rfl | ⟨-, entries, hentries⟩
    · cases (h.stampPath_free first call hcall).symm.trans hvalue
    · exact absurd hentries (h.consistent call hcall first hfirst path n entries hn)

/-- Calls can be added to the time stamp of any of them. -/
theorem Accumulates.addable (hfirst : first ∈ calls) (time : String) :
    Addable (some (.map (stampTree first.2 time))) (calls.map Counters.tree) := by
  refine Addable.of_nodes ?_ ?_ ?_ ?_ ?_
  · exact List.forall_mem_map.2 h.integral
  · refine List.forall_mem_map.2 fun call hcall path n hn node hnode => ?_
    cases (h.stampTree_free first hfirst time hcall hn).symm.trans hnode
  · refine List.forall_mem_map.2 fun call hcall path entries hentries node hnode => ?_
    rcases nodeAt_stampTree hnode first.1 with rfl | ⟨hmap, -⟩
    · cases (h.stampPath_free first call hcall).symm.trans hentries
    · exact hmap
  · exact List.forall_mem_map.2 fun call hcall => List.forall_mem_map.2 (h.consistent call hcall)
  · refine List.forall_mem_map.2 fun call hcall path n hn => ?_
    have hbound := h.bounded path
    rw [h.stampTree_free first hfirst time hcall hn]
    show (0 : Int).natAbs + movementAt (calls.map Counters.tree) path ≤ greatestCounter
    omega

/-- What stands in a tree that has all calls added to the time stamp of the first one. -/
theorem Accumulates.nodes_of_totals (hfirst : first ∈ calls) {time : String} {after : Attribute}
    (htotals : Totals (some (.map (stampTree first.2 time))) (calls.map Counters.tree) after) :
    (∀ path, ∀ call ∈ calls, ∀ n, (Counters.tree call).integerAt? path = some n →
      after.nodeAt path = some (.leaf (.number (toString (totalAt (calls.map Counters.tree) path))))) ∧
    (∀ path, ∀ call ∈ calls, ∀ entries, (Counters.tree call).valueAt path = some (.map entries) →
      after.nodeAt path = some .map) ∧
    after.nodeAt (stampPath first.2) = some (.leaf (.string time)) ∧
    ∀ path, path ≠ stampPath first.2 → (∀ call ∈ calls, (Counters.tree call).valueAt path = none) →
      after.nodeAt path = none := by
  have hothers : ∀ path, (∀ call ∈ calls, (Counters.tree call).valueAt path = none) →
      after.nodeAt path = (Attribute.map (stampTree first.2 time)).nodeAt path := by
    intro path hnone
    refine htotals.others path fun tree htree => ?_
    obtain ⟨call, hcall, rfl⟩ := List.mem_map.1 htree
    exact hnone call hcall
  refine ⟨?_, ?_, ?_, ?_⟩
  · intro path call hcall n hn
    rw [htotals.counters path _ (List.mem_map_of_mem hcall) n hn, h.stampTree_free first hfirst time hcall hn]
    show some (Node.leaf (.number (toString (0 + totalAt (calls.map Counters.tree) path)))) = _
    rw [Int.zero_add]
  · intro path call hcall entries hentries
    exact htotals.maps path _ (List.mem_map_of_mem hcall) entries hentries
  · rw [hothers _ (h.stampPath_free first), nodeAt_stampPath]
  · intro path hstamp hnone
    rw [hothers path hnone]
    cases hnode : (Attribute.map (stampTree first.2 time)).nodeAt path with
    | none => rfl
    | some node =>
      rcases nodeAt_stampTree hnode first.1 with hpath | ⟨-, entries, hentries⟩
      · exact absurd hpath hstamp
      · cases (hnone first hfirst).symm.trans hentries

end Stamped

/-! ## Calls one after another -/

section Calls

variable {table : Table} (hnames : table.layout.WellNamed) (hmark : Unmarked table.layout.dataName) {key : Key}
  {ε : Type} (environment : Environment ε) (pages : Nat)

include hnames hmark

/-- Calls after the first all succeed, and add up. -/
theorem accumulate_rest {first : Json.Map × Option String} {time : String}
    {done rest : List (Json.Map × Option String)} (hcalls : Accumulates (done ++ rest))
    (hfirst : first ∈ done) {memory : Memory} (e : ε) {data : Item} (hkeeps : table.Keeps key memory data)
    (htotals : Totals (some (.map (stampTree first.2 time))) (done.map Counters.tree) (.map data)) :
    ∃ answers memory' e' after,
      environment.host.command pages (table.accumulateAll key rest) (memory, e) =
        some (.ok answers, (memory', e')) ∧
      answers.length = rest.length ∧ table.Keeps key memory' after ∧
      Totals (some (.map (stampTree first.2 time))) ((done ++ rest).map Counters.tree) (.map after) := by
  induction rest generalizing done memory e data with
  | nil =>
    rw [List.append_nil]
    exact ⟨[], memory, e, data, rfl, rfl, hkeeps, htotals⟩
  | cons call rest ih =>
    have hcall : call ∈ done ++ call :: rest := List.mem_append_right _ List.mem_cons_self
    have hadd := hcalls.addable first (List.mem_append_left _ hfirst) time
    rw [List.map_append, List.map_cons] at hadd
    have hne : data ≠ [] := by
      rintro rfl
      have hstamp := htotals.others (stampPath first.2) fun tree htree => by
        obtain ⟨other, hother, rfl⟩ := List.mem_map.1 htree
        exact hcalls.stampPath_free first other (List.mem_append_left _ hother)
      have hgone : (Attribute.map []).nodeAt (stampPath first.2) = some (.leaf (.string time)) :=
        hstamp.trans (nodeAt_stampPath first.2 time)
      cases hpath : first.2 with
      | none => rw [hpath] at hgone; cases hgone
      | some path => rw [hpath] at hgone; cases hgone
    obtain ⟨answer, memory₁, e₁, between, hrun, hbetween, hraises⟩ :=
      Table.command_accumulate hnames environment pages e hmark hkeeps hne (hcalls.ordered call hcall)
        (hcalls.integral call hcall) (hcalls.unmarked call hcall) (htotals.fits_next hadd)
    have hnext := htotals.snoc hadd hraises
    rw [show [Counters.tree call] = [call].map Counters.tree from rfl, ← List.map_append] at hnext
    rw [List.append_cons] at hcalls ⊢
    obtain ⟨answers, memory', e', after, hrest, hlength, hafter, hend⟩ :=
      ih hcalls (List.mem_append_left _ hfirst) e₁ hbetween hnext
    refine ⟨answer :: answers, memory', e', after, ?_, congrArg (· + 1) hlength, hafter, hend⟩
    rw [Table.accumulateAll, Host.command_bind_ok _ _ hrun, Host.command_bind_ok _ _ hrest]
    rfl

/-- Calls of one client that accumulate counters under a key with no item all succeed. Each counter ends at the exact
sum of what the calls give for it, the same in every order of the calls, and there is nothing else but the time stamp
of the first call. -/
theorem Table.accumulate_totals (hshape : table.shape = id) {calls order : List (Json.Map × Option String)}
    (hcalls : Accumulates calls) (horder : order.Perm calls) {memory : Memory} (e : ε)
    (hnone : memory.item? table.layout key = none) :
    ∃ answers memory' e', environment.host.command pages (table.accumulateAll key order) (memory, e) =
        some (.ok answers, (memory', e')) ∧
      answers.length = order.length ∧
      ∀ first, order.head? = some first → ∃ item data,
        memory'.item? table.layout key = some item ∧ table.layout.dataOf? item = some data ∧
        (∀ path, ∀ call ∈ calls, ∀ n, (Counters.tree call).integerAt? path = some n →
          (Attribute.map data).nodeAt path =
            some (.leaf (.number (toString (totalAt (calls.map Counters.tree) path))))) ∧
        (∀ path, ∀ call ∈ calls, ∀ entries, (Counters.tree call).valueAt path = some (.map entries) →
          (Attribute.map data).nodeAt path = some .map) ∧
        (Attribute.map data).nodeAt (stampPath first.2) = some (.leaf (.string (environment.now e).1)) ∧
        ∀ path, path ≠ stampPath first.2 →
          (∀ call ∈ calls, (Counters.tree call).valueAt path = none) →
          (Attribute.map data).nodeAt path = none := by
  cases order with
  | nil => exact ⟨[], memory, e, rfl, rfl, fun first hfirst => by cases hfirst⟩
  | cons first rest =>
    have hfirst : first ∈ calls := horder.mem_iff.1 List.mem_cons_self
    have hordered := hcalls.perm horder.symm
    have hadd := hordered.addable first List.mem_cons_self (environment.now e).1
    obtain ⟨answer, memory₁, e₁, between, hrun, hkeeps, hraises⟩ :=
      Table.command_accumulate_first hshape hnames environment pages e hnone (hcalls.ordered first hfirst)
        (hcalls.unstamped first hfirst)
    have htotals := Totals.snoc (show Addable _ ([] ++ Counters.tree first :: rest.map Counters.tree) from hadd)
      (Totals.nil _) hraises
    obtain ⟨answers, memory', e', after, hrest, hlength, ⟨item, hitem, hdata, -, -⟩, hend⟩ :=
      accumulate_rest hnames hmark environment pages (show Accumulates ([first] ++ rest) from hordered)
        List.mem_cons_self e₁ hkeeps htotals
    refine ⟨answer :: answers, memory', e', ?_, congrArg (· + 1) hlength, ?_⟩
    · rw [Table.accumulateAll, Host.command_bind_ok _ _ hrun, Host.command_bind_ok _ _ hrest]
      rfl
    · intro other hother
      cases hother
      exact ⟨item, after, hitem, hdata,
        hcalls.nodes_of_totals first hfirst (hend.perm (horder.map Counters.tree))⟩

end Calls

/-! ## Visits of a page -/

namespace Table

theorem mapPath_of_visitsFrom {country : String} {n : Int} {inRange : WordRange n} {path : List String}
    {entries : Json.Map} (h : (Json.map (visitsFrom country n inRange)).valueAt path = some (.map entries)) :
    path = [] ∨ path = ["by"] := by
  unfold visitsFrom at h
  rcases path with _ | ⟨first, _ | ⟨second, rest⟩⟩
  · exact Or.inl rfl
  · rw [Json.valueAt_single] at h
    split at h
    · rename_i hfirst
      exact Or.inr (by rw [hfirst])
    · cases h
  · rw [Json.valueAt_single, Json.valueAt_single] at h
    split at h
    · split at h
      · cases rest <;> cases h
      · cases h
    · cases h

theorem natAbs_amountAt_visitsFrom_le (country : String) (n : Int) (inRange : WordRange n) (path : List String) :
    ((Json.map (visitsFrom country n inRange)).amountAt path).natAbs ≤ n.natAbs := by
  unfold Json.amountAt
  cases hm : (Json.map (visitsFrom country n inRange)).integerAt? path with
  | none => exact Nat.zero_le _
  | some m =>
    cases path_of_visitsFrom hm
    have hn : (Json.map (visitsFrom country n inRange)).integerAt? ["by", country] = some n := by
      unfold visitsFrom
      rw [Json.integerAt?_single, if_pos rfl, Json.integerAt?_single, if_pos rfl]
      rfl
    cases hn.symm.trans hm
    exact Nat.le_refl _

theorem named_visitsFrom {P : String → Prop} {country : String} (n : Int) (inRange : WordRange n)
    (hby : P "by") (hcountry : P country) : (Json.map (visitsFrom country n inRange)).Named P := by
  have hleaf : (Json.number (.integer n inRange)).Named P := Json.named_of_not_map fun _ he => by cases he
  exact (hleaf.single hcountry).single hby

theorem wordRange_two : WordRange 2 := by decide

theorem wordRange_minus_six : WordRange (-6) := by decide

theorem wordRange_seven : WordRange 7 := by decide

/-- Visits are counted below a path or in a map of their own, which comes to the same. -/
def visitCalls : List (Json.Map × Option String) :=
  [([("fr", .number (.integer 2 wordRange_two))], some "by"), (visitsFrom "fr" (-6) wordRange_minus_six, none),
    ([("it", .number (.integer 7 wordRange_seven))], some "by")]

theorem accumulates_visitCalls : Accumulates visitCalls := by
  have hcalls : ∀ call ∈ visitCalls, ∃ country n inRange,
      Counters.tree call = .map (visitsFrom country n inRange) ∧ (country = "fr" ∨ country = "it") := by
    intro call hcall
    rcases List.mem_cons.1 hcall with rfl | hcall
    · exact ⟨"fr", 2, by decide, rfl, Or.inl rfl⟩
    · rcases List.mem_pair.1 hcall with rfl | rfl
      · exact ⟨"fr", -6, by decide, rfl, Or.inl rfl⟩
      · exact ⟨"it", 7, by decide, rfl, Or.inr rfl⟩
  constructor
  · intro call hcall
    obtain ⟨country, n, inRange, htree, -⟩ := hcalls call hcall
    rw [htree]
    exact ((Json.ordered_of_not_map fun _ he => by cases he).single country).single "by"
  · intro call hcall
    obtain ⟨country, n, inRange, htree, -⟩ := hcalls call hcall
    rw [htree]
    exact ((Json.integral_integer n inRange).single country).single "by"
  · intro call hcall
    obtain ⟨country, n, inRange, htree, hcountry⟩ := hcalls call hcall
    rw [htree]
    refine named_visitsFrom n inRange (by decide) ?_
    rcases hcountry with rfl | rfl <;> decide
  · intro call hcall
    obtain ⟨country, n, inRange, htree, hcountry⟩ := hcalls call hcall
    rw [htree]
    refine named_visitsFrom n inRange (by decide) ?_
    rcases hcountry with rfl | rfl <;> decide
  · intro call hcall other hother path m entries hm hentries
    obtain ⟨country, n, inRange, htree, -⟩ := hcalls call hcall
    obtain ⟨country', n', inRange', htree', -⟩ := hcalls other hother
    rw [htree] at hm
    rw [htree'] at hentries
    cases path_of_visitsFrom hm
    rcases mapPath_of_visitsFrom hentries with he | he <;> cases he
  · intro path
    show ((Json.map (visitsFrom "fr" 2 (by decide))).amountAt path).natAbs +
      (((Json.map (visitsFrom "fr" (-6) (by decide))).amountAt path).natAbs +
        (((Json.map (visitsFrom "it" 7 (by decide))).amountAt path).natAbs + 0)) ≤ 9223372036854775807
    have hfirst := natAbs_amountAt_visitsFrom_le "fr" 2 (by decide) path
    have hsecond := natAbs_amountAt_visitsFrom_le "fr" (-6) (by decide) path
    have hthird := natAbs_amountAt_visitsFrom_le "it" 7 (by decide) path
    omega

theorem accumulate_totals_visits : ∃ answers memory' e' item data,
    Environment.still.host.command 1 (visits.accumulateAll homePage visitCalls.reverse) (({} : Memory), ()) =
      some (.ok answers, (memory', e')) ∧
    answers.length = 3 ∧ memory'.item? visits.layout homePage = some item ∧
    visits.layout.dataOf? item = some data ∧
    (Attribute.map data).nodeAt ["by", "fr"] = some (.leaf (.number "-4")) ∧
    (Attribute.map data).nodeAt ["by", "it"] = some (.leaf (.number "7")) ∧
    (Attribute.map data).nodeAt ["by", "timestamp"] = some (.leaf (.string (Environment.still.now ()).1)) ∧
    (Attribute.map data).nodeAt ["timestamp"] = none := by
  have hnone : ({} : Memory).item? visits.layout homePage = none := rfl
  obtain ⟨answers, memory', e', hrun, hlength, hlast⟩ := accumulate_totals (by constructor <;> decide)
    (by decide) Environment.still 1 rfl accumulates_visitCalls visitCalls.reverse_perm () hnone
  obtain ⟨item, data, hitem, hdata, hcounters, -, hstamp, hothers⟩ := hlast _ rfl
  refine ⟨answers, memory', e', item, data, hrun, hlength, hitem, hdata, ?_, ?_, hstamp, ?_⟩
  · exact hcounters ["by", "fr"] _ List.mem_cons_self 2 rfl
  · exact hcounters ["by", "it"] _ (List.mem_cons_of_mem _ (List.mem_cons_of_mem _ List.mem_cons_self)) 7 rfl
  · refine hothers ["timestamp"] (by decide) fun call hcall => ?_
    exact (accumulates_visitCalls.unstamped call hcall).not_mem (not_not_intro rfl) List.mem_cons_self

end Table

end KeyedRecords
