import KeyedRecords.Proofs.Store.Asking

/-! A program among others that take turns with it. If what it asks is answered alike in two states that are related,
and the calls of the others leave states related, then the program comes as far, and to the same, as it does alone. Its
times and identifiers are given to it beforehand. Main statements: `Program.AsksShown.advance`,
`Host.interleave_alone`, `Host.alone_done_unique`. -/

namespace KeyedRecords

namespace Program

variable {α β : Type}

def supplied {ε : Type} (supply : Environment ε) : Program α → ε → Program α
  | done result, _ => done result
  | ask call next, e => ask call fun reply => (next reply).supplied supply e
  | readPages query seen wantsMore next, e =>
    readPages query seen wantsMore fun items failure? => (next items failure?).supplied supply e
  | clock next, e => (next (supply.now e).1).supplied supply (supply.now e).2
  | newIdentifier next, e => (next (supply.identifier e).1).supplied supply (supply.identifier e).2

/-- Whether a program asks nothing but a store. -/
def StoreOnly : Program α → Prop
  | done _ => True
  | ask _ next => ∀ reply, (next reply).StoreOnly
  | readPages _ _ _ next => ∀ items failure?, (next items failure?).StoreOnly
  | clock _ => False
  | newIdentifier _ => False

/-- Whether all calls that a program may make are of a kind, as long as all items on the pages that it reads are. -/
def AsksShown (P : Call → Prop) (shown : Item → Prop) : Program α → Prop
  | done _ => True
  | ask call next => P call ∧ ∀ reply, (next reply).AsksShown P shown
  | readPages query seen _ next =>
    (∀ startKey?, P (.query { query with startKey? := startKey? })) ∧
      ∀ items failure?, (∀ item ∈ items, item ∈ seen ∨ shown item) → (next items failure?).AsksShown P shown
  | clock next => ∀ time, (next time).AsksShown P shown
  | newIdentifier next => ∀ id, (next id).AsksShown P shown

variable {P : Call → Prop} {shown : Item → Prop}

theorem Asks.asksShown {p : Program α} (hp : p.Asks P) : p.AsksShown P shown := by
  induction p with
  | done result => trivial
  | ask call next ih => exact ⟨hp.1, fun reply => ih reply (hp.2 reply)⟩
  | readPages query seen wantsMore next ih =>
    exact ⟨hp.1, fun items failure? _ => ih items failure? (hp.2 items failure?)⟩
  | clock next ih => exact fun time => ih time (hp time)
  | newIdentifier next ih => exact fun id => ih id (hp id)

theorem AsksShown.bind {p : Program α} (hp : p.AsksShown P shown) {f : α → Program β}
    (hf : ∀ a, (f a).AsksShown P shown) : (p.bind f).AsksShown P shown := by
  induction p with
  | done result => exact hf result
  | ask call next ih => exact ⟨hp.1, fun reply => ih reply (hp.2 reply)⟩
  | readPages query seen wantsMore next ih =>
    exact ⟨hp.1, fun items failure? hitems => ih items failure? (hp.2 items failure? hitems)⟩
  | clock next ih => exact fun time => ih time (hp time)
  | newIdentifier next ih => exact fun id => ih id (hp id)

section Supplied

variable {ε : Type} (supply : Environment ε)

theorem supplied_storeOnly (p : Program α) (e : ε) : (p.supplied supply e).StoreOnly := by
  induction p generalizing e with
  | done result => trivial
  | ask call next ih => exact fun reply => ih reply e
  | readPages query seen wantsMore next ih => exact fun items failure? => ih items failure? e
  | clock next ih => exact ih _ _
  | newIdentifier next ih => exact ih _ _

theorem AsksShown.supplied {p : Program α} (hp : p.AsksShown P shown) (e : ε) :
    (p.supplied supply e).AsksShown P shown := by
  induction p generalizing e with
  | done result => trivial
  | ask call next ih => exact ⟨hp.1, fun reply => ih reply (hp.2 reply) e⟩
  | readPages query seen wantsMore next ih =>
    exact ⟨hp.1, fun items failure? hitems => ih items failure? (hp.2 items failure? hitems) e⟩
  | clock next ih => exact ih _ (hp _) _
  | newIdentifier next ih => exact ih _ (hp _) _

end Supplied

end Program

namespace Command

variable {α β : Type} {P : Call → Prop} {shown : Item → Prop}

/-- Whether all calls that a command may make are of a kind, as long as the items on the pages that it reads are. -/
def AsksShown (P : Call → Prop) (shown : Item → Prop) (c : Command α) : Prop := Program.AsksShown P shown c.run

theorem Asks.asksShown {c : Command α} (hc : Asks P c) : AsksShown P shown c := Program.Asks.asksShown hc

theorem AsksShown.map {c : Command α} (hc : AsksShown P shown c) (f : α → β) : AsksShown P shown (f <$> c) := by
  rw [map_eq_pure_bind]
  refine Program.AsksShown.bind hc fun result => ?_
  cases result <;> trivial

theorem asksShown_result_bind {result : Result α} {f : α → Command β}
    (hf : ∀ a, result = .ok a → AsksShown P shown (f a)) :
    AsksShown P shown ((liftM result : Command α) >>= f) := result_bind_cases hf fun _ _ => trivial

theorem asksShown_readPages_bind {query : BoundQuery} {wantsMore : List Item → Bool}
    {f : List Item × Option StoreError → Command β}
    (hquery : ∀ startKey?, P (.query { query with startKey? := startKey? }))
    (hf : ∀ items failure?, (∀ item ∈ items, shown item) → AsksShown P shown (f (items, failure?))) :
    AsksShown P shown (readPages query wantsMore >>= f) :=
  ⟨hquery, fun items failure? hitems =>
    hf items failure? fun item hitem => (hitems item hitem).resolve_left List.not_mem_nil⟩

end Command

/-! ## Steps -/

section Steps

variable {σ σ' α : Type} {host : Host σ} {host' : Host σ'} {R : σ → σ' → Prop} {P : Call → Prop}
  {shown : Item → Prop} {p : Program α} {state : σ} {state' : σ'}

theorem Program.StoreOnly.advance (hp : p.StoreOnly) : (host.advance p state).1.StoreOnly := by
  cases p with
  | done result => trivial
  | ask call next => exact hp _
  | readPages query seen wantsMore next =>
    show (Program.afterPage query seen wantsMore next (host.answer (.query query) state).1).StoreOnly
    cases (host.answer (.query query) state).1 with
    | error e => exact hp seen (some e)
    | ok page =>
      simp only [Program.afterPage]
      split
      · exact hp _ none
      · split
        · exact hp
        · exact hp _ none
  | clock next => exact hp.elim
  | newIdentifier next => exact hp.elim

theorem Program.AsksShown.advance (hshown : ∀ query state page, P (.query query) →
      (host.answer (.query query) state).1 = .ok page → ∀ item ∈ page.items, shown item)
    (hp : p.AsksShown P shown) : (host.advance p state).1.AsksShown P shown := by
  cases p with
  | done result => trivial
  | ask call next => exact hp.2 _
  | readPages query seen wantsMore next =>
    show (Program.afterPage query seen wantsMore next (host.answer (.query query) state).1).AsksShown P shown
    have hpage := hshown query state
    generalize (host.answer (.query query) state).1 = reply at hpage
    cases reply with
    | error e => exact hp.2 seen (some e) fun item hitem => Or.inl hitem
    | ok page =>
      -- What has been seen from now on was seen before or is on the page.
      have hseen : ∀ item ∈ seen ++ page.items, item ∈ seen ∨ shown item := fun item hitem =>
        (List.mem_append.1 hitem).imp_right fun hnew => hpage page (hp.1 query.startKey?) rfl item hnew
      simp only [Program.afterPage]
      split
      · exact hp.2 _ none hseen
      · split
        · exact ⟨hp.1, fun items failure? hitems => hp.2 items failure? fun item hitem =>
            (hitems item hitem).elim (hseen item) Or.inr⟩
        · exact hp.2 _ none hseen
  | clock next => exact hp _
  | newIdentifier next => exact hp _

/-- A program takes the same step in related states if its calls are answered alike there, and the states stay related.
-/
theorem Host.advance_alike (hanswer : ∀ call state state', P call → R state state' →
      (host.answer call state).1 = (host'.answer call state').1 ∧
        R (host.answer call state).2 (host'.answer call state').2)
    (hp : p.AsksShown P shown) (honly : p.StoreOnly) (h : R state state') :
    (host.advance p state).1 = (host'.advance p state').1 ∧
      R (host.advance p state).2 (host'.advance p state').2 := by
  cases p with
  | done result => exact ⟨rfl, h⟩
  | ask call next =>
    obtain ⟨hreply, hafter⟩ := hanswer call state state' hp.1 h
    exact ⟨congrArg next hreply, hafter⟩
  | readPages query seen wantsMore next =>
    obtain ⟨hreply, hafter⟩ := hanswer (.query query) state state' (hp.1 query.startKey?) h
    exact ⟨congrArg (Program.afterPage query seen wantsMore next) hreply, hafter⟩
  | clock next => exact honly.elim
  | newIdentifier next => exact honly.elim

/-- A step of another program leaves states related if its calls do. -/
theorem Host.advance_spares
    (hanswer : ∀ call state state', P call → R state state' → R (host.answer call state).2 state')
    (hnow : ∀ state state', R state state' → R (host.now state).2 state')
    (hidentifier : ∀ state state', R state state' → R (host.identifier state).2 state')
    (hp : p.AsksShown P shown) (h : R state state') : R (host.advance p state).2 state' := by
  cases p with
  | done result => exact h
  | ask call next => exact hanswer call state state' hp.1 h
  | readPages query seen wantsMore next => exact hanswer (.query query) state state' (hp.1 query.startKey?) h
  | clock next => exact hnow state state' h
  | newIdentifier next => exact hidentifier state state' h

end Steps

/-! ## Turns -/

namespace Host

variable {σ σ' α : Type}

/-- A program and the state after so many turns of its own, with nobody else. -/
def alone (host : Host σ) : Nat → Program α → σ → Program α × σ
  | 0, p, state => (p, state)
  | turns + 1, p, state => host.alone turns (host.advance p state).1 (host.advance p state).2

theorem alone_done (host : Host σ) (turns : Nat) (result : α) (state : σ) :
    host.alone turns (.done result) state = (.done result, state) := by
  induction turns with
  | zero => rfl
  | succ turns ih => exact ih

theorem alone_add (host : Host σ) (turns more : Nat) (p : Program α) (state : σ) :
    host.alone (turns + more) p state =
      host.alone more (host.alone turns p state).1 (host.alone turns p state).2 := by
  induction turns generalizing p state with
  | zero => rw [Nat.zero_add, alone]
  | succ turns ih =>
    rw [Nat.succ_add, alone, ih]
    rfl

/-- A program that has come to an end has come to the same as it has in any other number of turns that bring it to an
end. -/
theorem alone_done_unique {host : Host σ} {turns more : Nat} {p : Program α} {state : σ} {result other : α}
    (h : (host.alone turns p state).1 = .done result) (hmore : (host.alone more p state).1 = .done other) :
    result = other := by
  have hlater : ∀ {turns : Nat} {result : α} (extra : Nat), (host.alone turns p state).1 = .done result →
      (host.alone (turns + extra) p state).1 = .done result := by
    intro turns result extra h
    rw [alone_add, h, alone_done]
  have hsum := hlater more h
  rw [Nat.add_comm, hlater turns hmore] at hsum
  exact (Program.done.inj hsum).symm

/-- Among others that leave states related a program comes as far as it does alone in its own turns. -/
theorem interleave_alone {host : Host σ} {host' : Host σ'} {R : σ → σ' → Prop} {F G : Program α → Prop}
    (hown : ∀ p state state', F p → R state state' → (host.advance p state).1 = (host'.advance p state').1 ∧
      F (host.advance p state).1 ∧ R (host.advance p state).2 (host'.advance p state').2)
    (hother : ∀ p state state', G p → R state state' →
      G (host.advance p state).1 ∧ R (host.advance p state).2 state')
    (turns : List Nat) {p : Program α} {others : List (Program α)} {state : σ} {state' : σ'} (hp : F p)
    (hothers : ∀ q ∈ others, G q) (h : R state state') :
    (host.interleave turns (p :: others) state).1.head? = some (host'.alone (turns.count 0) p state').1 := by
  induction turns generalizing p others state state' with
  | nil => rfl
  | cons turn turns ih =>
    cases turn with
    | zero =>
      obtain ⟨hsame, hnext, hafter⟩ := hown p state state' hp h
      have hturn : (p :: others)[0]? = some p := rfl
      rw [interleave_turn host hturn rfl, List.count_cons_self, alone, ← hsame]
      exact ih hnext hothers hafter
    | succ turn =>
      rw [List.count_cons_of_ne (Nat.succ_ne_zero turn)]
      cases hturn : (p :: others)[turn + 1]? with
      | none =>
        rw [interleave_nobody host hturn]
        exact ih hp hothers h
      | some q =>
        obtain ⟨hnext, hafter⟩ := hother q state state' (hothers q (List.mem_of_getElem? hturn)) h
        rw [interleave_turn host hturn rfl, List.set_cons_succ]
        refine ih hp (fun other hmem => ?_) hafter
        rcases List.mem_or_eq_of_mem_set hmem with hmem | rfl
        · exact hothers other hmem
        · exact hnext

end Host

end KeyedRecords
