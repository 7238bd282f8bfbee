import KeyedRecords.Proofs.Store.History
import Mathlib.Algebra.BigOperators.Fin

/-! The items that come into a table and go from it, call by call. A call that is guarded makes an item only at a key
that has none and changes one only where it is, so items come by puts that succeed and go by deletions that find them,
one at a time. Main statements: `guarded_reply`, `counts_extends`, `Lives.between`. -/

namespace KeyedRecords

/-! ## Creations and deletions -/

namespace Exchange

/-- The key that a call has made an item at: that of an item put where there was none. -/
def creates? : Exchange → Option Key
  | ⟨.putItem layout item (some .absent), .ok _⟩ => layout.keyOf? item
  | _ => none

/-- The key that a call has deleted an item at. -/
def deletes? : Exchange → Option Key
  | ⟨.deleteItem _ key, .ok (some _)⟩ => some key
  | _ => none

end Exchange

def creations (exchanges : List Exchange) : Nat := exchanges.countP (·.creates?.isSome)

def deletions (exchanges : List Exchange) : Nat := exchanges.countP (·.deletes?.isSome)

theorem countP_cons_toNat (counts : Exchange → Bool) (x : Exchange) (rest : List Exchange) :
    (x :: rest).countP counts = rest.countP counts + (counts x).toNat := by
  rw [List.countP_cons]
  cases counts x <;> rfl

theorem creations_cons (x : Exchange) (rest : List Exchange) :
    creations (x :: rest) = creations rest + x.creates?.isSome.toNat := countP_cons_toNat _ x rest

theorem deletions_cons (x : Exchange) (rest : List Exchange) :
    deletions (x :: rest) = deletions rest + x.deletes?.isSome.toNat := countP_cons_toNat _ x rest

theorem creations_append (front back : List Exchange) :
    creations (front ++ back) = creations front + creations back := List.countP_append

theorem deletions_append (front back : List Exchange) :
    deletions (front ++ back) = deletions front + deletions back := List.countP_append

/-- A query makes no item and deletes none. -/
theorem Exchange.moves_none {x : Exchange} (h : x.call.kind = .query) : x.creates? = none ∧ x.deletes? = none := by
  obtain ⟨call, reply⟩ := x
  cases call with
  | query query => exact ⟨rfl, rfl⟩
  | _ => cases h

/-! ## Guarded calls -/

/-- Whether a call changes a table only as it finds it: it puts an item where there is none, updates one that there is,
or deletes. -/
def Call.Guarded (layout : TableLayout) : Call → Prop
  | .putItem own _ condition? => own = layout ∧ condition? = some .absent
  | .updateItem own _ _ condition? => own = layout ∧ condition? = some .present
  | .deleteItem own _ => own = layout
  | .getItem .. | .query _ => True

/-- Whether a call has not been denied a deletion. -/
def Exchange.Granted : Exchange → Prop
  | ⟨.deleteItem .., .error _⟩ => False
  | _ => True

namespace Memory

variable {memory : Memory} {layout : TableLayout}

theorem granted_reply (memory : Memory) (call : Call) : Exchange.Granted ⟨call, (memory.reply call).1⟩ := by
  refine of_replies (P := fun reply _ => Exchange.Granted ⟨call, reply⟩) fun reply after hreplies => ?_
  cases hreplies <;> trivial

/-- What a call does to a table as far as it is an item that comes, one that goes, or neither. -/
inductive Moves (layout : TableLayout) (memory : Memory) (x : Exchange) : Memory → Prop
  | comes {key : Key} (item : Item) (hcreates : x.creates? = some key) (hdeletes : x.deletes? = none)
      (hnone : memory.item? layout key = none) : Moves layout memory x (memory.store layout key item)
  | goes {key : Key} {item : Item} (hcreates : x.creates? = none) (hdeletes : x.deletes? = some key)
      (hsome : memory.item? layout key = some item) : Moves layout memory x (memory.remove layout key)
  | stays {key : Key} {old : Item} (item : Item) (hcreates : x.creates? = none) (hdeletes : x.deletes? = none)
      (hsome : memory.item? layout key = some old) : Moves layout memory x (memory.store layout key item)
  | nothing (hcreates : x.creates? = none) (hdeletes : x.deletes? = none) : Moves layout memory x memory

theorem guarded_reply {call : Call} (hcall : call.Guarded layout) :
    Moves layout memory ⟨call, (memory.reply call).1⟩ (memory.reply call).2 := by
  refine of_replies (P := fun reply after => Moves layout memory ⟨call, reply⟩ after) fun reply after hreplies => ?_
  cases hreplies with
  | put hkey hcheck =>
    obtain ⟨rfl, rfl⟩ := hcall
    exact .comes _ hkey rfl (check_absent hcheck)
  | updated hcheck happly =>
    obtain ⟨rfl, rfl⟩ := hcall
    obtain ⟨old, hold⟩ := check_present hcheck
    exact .stays _ rfl rfl hold
  | deleted hitem =>
    obtain rfl := hcall
    exact .goes rfl rfl hitem
  | notPut layout item condition? => rcases condition? with _ | _ | _ <;> exact .nothing rfl rfl
  | _ => exact .nothing rfl rfl

theorem contents_store (memory : Memory) (layout : TableLayout) (key : Key) (item : Item) :
    (memory.store layout key item).contents layout.table =
      Assoc.insert (memory.contents layout.table) key item :=
  (contents_insert ..).trans (if_pos rfl)

theorem contents_remove (memory : Memory) (layout : TableLayout) (key : Key) :
    (memory.remove layout key).contents layout.table = Assoc.erase (memory.contents layout.table) key :=
  (contents_insert ..).trans (if_pos rfl)

end Memory

/-! ## Lives of items -/

/-- Whether some exchanges make and delete the item at a key in turn, from there being one or none to the same
afterwards. -/
inductive Lives (key : Key) : Bool → List Exchange → Bool → Prop
  | nil (stored : Bool) : Lives key stored [] stored
  | created {x : Exchange} {rest : List Exchange} {after : Bool} (hcreates : x.creates? = some key)
      (hdeletes : x.deletes? ≠ some key) (h : Lives key true rest after) : Lives key false (x :: rest) after
  | deleted {x : Exchange} {rest : List Exchange} {after : Bool} (hcreates : x.creates? ≠ some key)
      (hdeletes : x.deletes? = some key) (h : Lives key false rest after) : Lives key true (x :: rest) after
  | other {x : Exchange} {rest : List Exchange} {stored after : Bool} (hcreates : x.creates? ≠ some key)
      (hdeletes : x.deletes? ≠ some key) (h : Lives key stored rest after) : Lives key stored (x :: rest) after

namespace Lives

variable {key : Key} {stored after : Bool} {exchanges : List Exchange}

theorem split {front back : List Exchange} (h : Lives key stored (front ++ back) after) :
    ∃ between, Lives key stored front between ∧ Lives key between back after := by
  induction front generalizing stored with
  | nil => exact ⟨stored, .nil stored, h⟩
  | cons x front ih =>
    cases h with
    | created hcreates hdeletes h =>
      obtain ⟨between, hfront, hback⟩ := ih h
      exact ⟨between, .created hcreates hdeletes hfront, hback⟩
    | deleted hcreates hdeletes h =>
      obtain ⟨between, hfront, hback⟩ := ih h
      exact ⟨between, .deleted hcreates hdeletes hfront, hback⟩
    | other hcreates hdeletes h =>
      obtain ⟨between, hfront, hback⟩ := ih h
      exact ⟨between, .other hcreates hdeletes hfront, hback⟩

/-- After a deletion there is no item until one is made. -/
theorem exists_created (h : Lives key false exchanges true) : ∃ x ∈ exchanges, x.creates? = some key := by
  generalize hstored : false = stored at h
  generalize hafter : true = after at h
  induction h with
  | nil stored => exact absurd (hstored.trans hafter.symm) Bool.false_ne_true
  | created hcreates => exact ⟨_, List.mem_cons_self, hcreates⟩
  | deleted => cases hstored
  | other _ _ _ ih =>
    obtain ⟨x, hx, hcreates⟩ := ih hstored hafter
    exact ⟨x, List.mem_cons_of_mem _ hx, hcreates⟩

/-- Between two deletions of the item at a key one is made there. -/
theorem between {front middle back : List Exchange} {first second : Exchange}
    (h : Lives key stored (front ++ first :: (middle ++ second :: back)) after)
    (hfirst : first.deletes? = some key) (hsecond : second.deletes? = some key) :
    ∃ x ∈ middle, x.creates? = some key := by
  obtain ⟨before, -, hrest⟩ := h.split
  have hmiddle : Lives key false (middle ++ second :: back) after := by
    cases hrest with
    | deleted _ _ hrest => exact hrest
    | created _ hdeletes _ | other _ hdeletes _ => exact absurd hfirst hdeletes
  obtain ⟨there, hmiddle, hlast⟩ := hmiddle.split
  have hthere : there = true := by
    cases hlast with
    | deleted => rfl
    | created _ hdeletes _ | other _ hdeletes _ => exact absurd hsecond hdeletes
  exact (hthere ▸ hmiddle).exists_created

end Lives

namespace Memory.Moves

variable {layout : TableLayout} {memory between : Memory} {x : Exchange} (h : memory.Moves layout x between)

include h

theorem length (hsorted : memory.Sorted) :
    (memory.contents layout.table).length + x.creates?.isSome.toNat =
      (between.contents layout.table).length + x.deletes?.isSome.toNat := by
  cases h with
  | comes item hcreates hdeletes hnone =>
    rw [hcreates, hdeletes, contents_store, Assoc.length_insert_of_none hnone]
    rfl
  | goes hcreates hdeletes hsome =>
    rw [hcreates, hdeletes, contents_remove]
    exact ((hsorted layout.table).length_erase hsome).symm
  | stays item hcreates hdeletes hsome =>
    rw [hcreates, hdeletes, contents_store, (hsorted layout.table).length_insert hsome]
  | nothing hcreates hdeletes => rw [hcreates, hdeletes]

theorem lives {key : Key} {exchanges : List Exchange} {after : Bool}
    (hrest : Lives key (between.item? layout key).isSome exchanges after) :
    Lives key (memory.item? layout key).isSome (x :: exchanges) after := by
  cases h with
  | comes item hcreates hdeletes hnone =>
    rename_i own
    rw [item?_store] at hrest
    by_cases hkey : key = own
    · subst hkey
      rw [if_pos rfl] at hrest
      rw [hnone]
      exact .created hcreates (by simp [hdeletes]) hrest
    · rw [if_neg hkey] at hrest
      exact .other (by simp [hcreates, Ne.symm hkey]) (by simp [hdeletes]) hrest
  | goes hcreates hdeletes hsome =>
    rename_i own item
    rw [item?_remove] at hrest
    by_cases hkey : key = own
    · subst hkey
      rw [if_pos rfl] at hrest
      rw [hsome]
      exact .deleted (by simp [hcreates]) hdeletes hrest
    · rw [if_neg hkey] at hrest
      exact .other (by simp [hcreates]) (by simp [hdeletes, Ne.symm hkey]) hrest
  | stays item hcreates hdeletes hsome =>
    rename_i own old
    refine .other (by simp [hcreates]) (by simp [hdeletes]) ?_
    rw [item?_store] at hrest
    by_cases hkey : key = own
    · subst hkey
      rw [if_pos rfl] at hrest
      rw [hsome]
      exact hrest
    · rwa [if_neg hkey] at hrest
  | nothing hcreates hdeletes => exact .other (by simp [hcreates]) (by simp [hdeletes]) hrest

end Memory.Moves

/-- Whether some exchanges account for the items of a table before and after them: for their number, and for the item
at each key. -/
structure Counts (layout : TableLayout) (memory : Memory) (exchanges : List Exchange) (after : Memory) : Prop where
  length : (memory.contents layout.table).length + creations exchanges =
    (after.contents layout.table).length + deletions exchanges
  lives : ∀ key, Lives key (memory.item? layout key).isSome exchanges (after.item? layout key).isSome

/-- Exchanges that account for a table from some state do so from the state before one more call. -/
theorem Counts.cons {layout : TableLayout} {memory between after : Memory} {exchanges : List Exchange} {x : Exchange}
    (hsorted : memory.Sorted) (hmoves : memory.Moves layout x between)
    (h : Counts layout between exchanges after) : Counts layout memory (x :: exchanges) after where
  length := by
    have hfirst := hmoves.length hsorted
    have hrest := h.length
    rw [creations_cons, deletions_cons]
    omega
  lives key := hmoves.lives (h.lives key)

/-- Guarded calls of any programs account for the items of a table. -/
theorem Environment.counts_extends {ε : Type} (environment : Environment ε) (layout : TableLayout) :
    environment.host.Extends (Call.Guarded layout) (fun state => state.1.Sorted)
      fun state exchanges after => Counts layout state.1 exchanges after.1 where
  nil _ := ⟨rfl, fun _ => .nil _⟩
  answer call state _ _ hcall hsorted h := by
    have hcounted : (state.1.counted call.kind).Sorted := hsorted
    have hcounts := Counts.cons hcounted (Memory.guarded_reply hcall) h
    exact ⟨hcounts.length, hcounts.lives⟩
  now _ _ _ h := h
  identifier _ _ _ h := h

/-! ## Programs that take turns -/

theorem Host.history_places {σ α : Type} (host : Host σ) (turns : List Nat) (programs : List (Program α)) (state : σ) :
    ∀ x ∈ host.history turns programs state, x.1 < programs.length := by
  induction turns generalizing programs state with
  | nil => exact fun _ hx => absurd hx List.not_mem_nil
  | cons turn turns ih =>
    intro x hx
    simp only [history] at hx
    split at hx
    · exact ih programs state x hx
    · rename_i p hturn
      rcases List.mem_append.1 hx with hx | hx
      · obtain ⟨exchange, -, rfl⟩ := Option.map_eq_some_iff.1 (Option.mem_toList.1 hx)
        exact (List.getElem?_eq_some_iff.1 hturn).1
      · simpa using ih _ _ x hx

/-- What is counted of each program is counted of the history of all. -/
theorem sum_exchangesOf {n : Nat} {history : List (Nat × Exchange)} (h : ∀ x ∈ history, x.1 < n)
    (p : Exchange → Bool) : ∑ i : Fin n, (exchangesOf i history).countP p = (history.map (·.2)).countP p := by
  induction history with
  | nil => simp [exchangesOf]
  | cons first rest ih =>
    obtain ⟨place, x⟩ := first
    have hplace : place < n := h (place, x) List.mem_cons_self
    have hcount : ∀ i : Fin n, (exchangesOf i ((place, x) :: rest)).countP p =
        (exchangesOf i rest).countP p + if (⟨place, hplace⟩ : Fin n) = i then (p x).toNat else 0 := by
      intro i
      by_cases hi : place = i
      · have hfin : (⟨place, hplace⟩ : Fin n) = i := Fin.ext hi
        rw [if_pos hfin]
        simp only [exchangesOf, List.filter_cons, hi, decide_true, if_true, List.map_cons, List.countP_cons]
        cases p x <;> rfl
      · have hfin : (⟨place, hplace⟩ : Fin n) ≠ i := fun he => hi (congrArg Fin.val he)
        rw [if_neg hfin]
        simp [exchangesOf, hi]
    rw [Finset.sum_congr rfl fun i _ => hcount i, Finset.sum_add_distrib,
      ih fun y hy => h y (List.mem_cons_of_mem _ hy), Finset.sum_ite_eq, if_pos (Finset.mem_univ _),
      List.map_cons, List.countP_cons]
    cases p x <;> rfl

end KeyedRecords
