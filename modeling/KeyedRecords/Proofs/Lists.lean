import Mathlib.Data.List.Basic
import Mathlib.Data.List.Nodup
import Mathlib.Data.List.Perm.Basic
import KeyedRecords.Assoc

/-! Facts about lists that say nothing of records: lists without repetitions, lists in some order, and lists cut where
an element stands. -/

namespace KeyedRecords

variable {α β : Type}

/-- What gives nothing for no elements, and for more of them what the first gives before the others, goes through the
elements one by one. -/
theorem eq_flatMap {f : List α → List β} {g : α → List β} (hnil : f [] = [])
    (hcons : ∀ a rest, f (a :: rest) = g a ++ f rest) (l : List α) : f l = l.flatMap g := by
  induction l with
  | nil => exact hnil
  | cons a rest ih => rw [hcons, List.flatMap_cons, ih]

/-! ## Repetitions -/

theorem nodup_eraseDups [BEq α] [LawfulBEq α] (l : List α) : l.eraseDups.Nodup := by
  match l with
  | [] => exact List.nodup_nil
  | a :: rest =>
    rw [List.eraseDups_cons, List.nodup_cons]
    refine ⟨fun hmem => ?_, nodup_eraseDups (rest.filter fun b => !b == a)⟩
    have hne := (List.mem_filter.1 (List.mem_eraseDups.1 hmem)).2
    simp at hne
  termination_by l.length
  decreasing_by exact Nat.lt_succ_of_le (List.length_filter_le _ _)

/-- A list that repeats nothing is left as it is when repetitions are left out. -/
theorem eraseDups_of_nodup [BEq α] [LawfulBEq α] {l : List α} (h : l.Nodup) : l.eraseDups = l := by
  induction l with
  | nil => rfl
  | cons a rest ih =>
    have ⟨hfirst, hrest⟩ := List.nodup_cons.1 h
    have hfilter : rest.filter (fun b => !b == a) = rest := List.filter_eq_self.2 fun b hb => by
      have hne : b ≠ a := fun heq => hfirst (heq ▸ hb)
      simpa using hne
    rw [List.eraseDups_cons, hfilter, ih hrest]

theorem mem_zipIdx_iff_idxOf [BEq α] [LawfulBEq α] {l : List α} (hl : l.Nodup) {a : α} {i : Nat} :
    (a, i) ∈ l.zipIdx ↔ a ∈ l ∧ i = l.idxOf a := by
  rw [List.mem_zipIdx_iff_getElem?]
  constructor
  · intro h
    obtain ⟨hi, ha⟩ : ∃ hi : i < l.length, l[i] = a := List.getElem?_eq_some_iff.1 h
    subst ha
    exact ⟨List.getElem_mem hi, (hl.idxOf_getElem i hi).symm⟩
  · rintro ⟨ha, rfl⟩
    exact List.getElem?_idxOf ha

/-! ## Searches -/

theorem mapM_eq_some_map {f : α → Option β} {g : α → β} {l : List α} (h : ∀ a ∈ l, f a = some (g a)) :
    l.mapM f = some (l.map g) := by
  induction l with
  | nil => rfl
  | cons a l ih =>
    obtain ⟨ha, hl⟩ := List.forall_mem_cons.1 h
    rw [List.mapM_cons, ha, ih hl]
    rfl

/-- A search through the first numbers stops at the least one that has something to offer. -/
theorem findSome?_range (f : Nat → Option α) (k : Nat) :
    (∃ i < k, ∃ found, f i = some found ∧ (List.range k).findSome? f = some found ∧ ∀ j < i, f j = none) ∨
      (List.range k).findSome? f = none ∧ ∀ j < k, f j = none := by
  induction k with
  | zero => exact Or.inr ⟨rfl, fun j hj => absurd hj (Nat.not_lt_zero j)⟩
  | succ k ih =>
    rw [List.range_succ, List.findSome?_append]
    rcases ih with ⟨i, hi, found, hfound, hsearch, hnone⟩ | ⟨hsearch, hnone⟩
    · exact Or.inl ⟨i, by omega, found, hfound, by rw [hsearch, Option.some_or], hnone⟩
    · rw [hsearch, Option.none_or]
      cases hk : f k with
      | some found => exact Or.inl ⟨k, by omega, found, hk, by simp [hk], hnone⟩
      | none =>
        refine Or.inr ⟨by simp [hk], fun j hj => ?_⟩
        rcases Nat.lt_succ_iff_lt_or_eq.1 hj with hless | rfl
        · exact hnone j hless
        · exact hk

/-! ## Lists in order -/

/-- Of a list in order, two elements in that order are a part. -/
theorem pair_sublist {r : α → α → Prop} {l : List α} (h : l.Pairwise r) {a b : α} (ha : a ∈ l) (hb : b ∈ l)
    (hne : a ≠ b) (hnot : ¬ r b a) : [a, b].Sublist l := by
  obtain ⟨before, after, rfl⟩ := List.append_of_mem ha
  have hfirst := (List.pairwise_append.1 h).2.2
  rcases List.mem_append.1 hb with hb | hb
  · exact absurd (hfirst b hb a List.mem_cons_self) hnot
  · have hafter : b ∈ after := (List.mem_cons.1 hb).resolve_left (Ne.symm hne)
    exact ((List.singleton_sublist.2 hafter).cons_cons a).trans (List.sublist_append_right before _)

/-- Of a list in order, the elements that satisfy an upward closed condition stand at the end. -/
theorem filter_suffix {r : α → α → Prop} {p : α → Bool} {l : List α} (h : l.Pairwise r)
    (hp : ∀ a b, r a b → p a = true → p b = true) : l.filter p <:+ l := by
  induction h with
  | nil => exact List.suffix_rfl
  | cons hfirst _ ih =>
    rename_i a l _
    cases ha : p a with
    | false => simpa [ha] using ih.trans (List.suffix_cons a l)
    | true =>
      have hall : l.filter p = l := List.filter_eq_self.2 fun b hb => hp a b (hfirst b hb) ha
      simp [ha, hall]

/-- Ends of one list that begin alike are equal. -/
theorem eq_of_suffix_of_take {l a b : List α} (hl : l.Nodup) (ha : a <:+ l) (hb : b <:+ l) {n : Nat}
    (hn : 1 ≤ n) (h : a.take n = b.take n) : a = b := by
  obtain ⟨n, rfl⟩ := Nat.exists_eq_succ_of_ne_zero (Nat.ne_of_gt hn)
  -- Of two ends the longer holds the shorter, whose first element stands in it only once.
  have hwithin : ∀ {a b : List α}, a <:+ b → b <:+ l → a.take (n + 1) = b.take (n + 1) → a = b := by
    intro a b hab hb h
    obtain ⟨front, rfl⟩ := hab
    cases a with
    | nil => simpa using h.symm
    | cons x a =>
      cases front with
      | nil => rfl
      | cons y front =>
        have hxy : x = y := by simpa using congrArg List.head? h
        have hnodup := hl.sublist hb.sublist
        rw [List.cons_append, List.nodup_cons] at hnodup
        exact absurd (List.mem_append_right front (hxy ▸ List.mem_cons_self)) hnodup.1
  rcases List.suffix_or_suffix_of_suffix ha hb with hab | hba
  · exact hwithin hab hb h
  · exact (hwithin hba ha h.symm).symm

/-! ## Cutting lists -/

/-- A page that leaves something over ends with something. -/
theorem exists_take_concat {limit : Nat} {rest : List α} (hlimit : 1 ≤ limit)
    (hmore : limit < rest.length) :
    ∃ front last, rest.take limit = front ++ [last] ∧ rest = front ++ last :: rest.drop limit := by
  rcases List.eq_nil_or_concat (rest.take limit) with hnil | ⟨front, last, h⟩
  · have hlength := congrArg List.length hnil
    rw [List.length_take, List.length_nil] at hlength
    omega
  · have htake : rest.take limit = front ++ [last] := by simpa using h
    have happend := List.take_append_drop limit rest
    rw [htake, List.append_assoc] at happend
    exact ⟨front, last, htake, happend.symm⟩

/-- Setting the place of a list that a look-up found changes the list there only. -/
theorem exists_split_of_getElem? {l : List α} {i : Nat} {a : α} (h : l[i]? = some a) :
    ∃ front back, l = front ++ a :: back ∧ ∀ next, l.set i next = front ++ next :: back := by
  obtain ⟨hlt, hget⟩ := List.getElem?_eq_some_iff.1 h
  refine ⟨l.take i, l.drop (i + 1), ?_, fun next => ?_⟩
  · rw [← hget, List.getElem_cons_drop, List.take_append_drop]
  · exact (List.set_eq_take_append_cons_drop ..).trans (if_pos hlt)

/-- What stands in a list made of two stands in the first or in the second. -/
theorem append_eq_append_cons {front back before after : List α} {a : α} (h : front ++ back = before ++ a :: after) :
    (∃ last, front = before ++ a :: last ∧ after = last ++ back) ∨
      ∃ middle, before = front ++ middle ∧ back = middle ++ a :: after := by
  rcases List.append_eq_append_iff.1 h with ⟨middle, rfl, hrest⟩ | ⟨middle, rfl, hmiddle⟩
  · exact Or.inr ⟨middle, rfl, hrest⟩
  · rcases List.cons_eq_append_iff.1 hmiddle with ⟨rfl, hrest⟩ | ⟨last, rfl, hafter⟩
    · exact Or.inr ⟨[], by simp, hrest⟩
    · exact Or.inl ⟨last, rfl, hafter⟩

/-! ## Maps -/

theorem Assoc.perm_ofList {κ : Type} [DecidableEq κ] [LT κ] [DecidableLT κ]
    [Std.Irrefl (· < · : κ → κ → Prop)] [Trans (· < · : κ → κ → Prop) (· < ·) (· < ·)]
    [Std.Trichotomous (· < · : κ → κ → Prop)] {pairs : List (κ × α)} (h : (keys pairs).Nodup) :
    (ofList pairs).Perm pairs := by
  have hsorted : (keys (ofList pairs)).Nodup := (sorted_ofList pairs).nodup
  refine (List.perm_ext_iff_of_nodup (List.Nodup.of_map _ hsorted) (List.Nodup.of_map _ h)).2 fun p => ?_
  constructor
  · exact mem_ofList
  · intro hp
    refine mem_of_find? (k := p.1) ?_
    rw [find?_ofList h]
    exact find?_of_mem h hp

end KeyedRecords
