import KeyedRecords.Proofs.Store.Interleaving

/-! What programs ask of a store. If every call that some programs may make keeps an invariant of the store, then any
run of one and any turns of all keep it. Main statements: `Program.Asks.bind`, `Host.run_asks`,
`Host.interleave_asks`. -/

namespace KeyedRecords

/-- Whether all calls that a program may make, whatever it is answered, are of a kind. -/
def Program.Asks {α : Type} (P : Call → Prop) : Program α → Prop
  | .done _ => True
  | .ask call next => P call ∧ ∀ reply, (next reply).Asks P
  | .readPages query _ _ next =>
    (∀ startKey?, P (.query { query with startKey? := startKey? })) ∧
      ∀ items failure?, (next items failure?).Asks P
  | .clock next => ∀ time, (next time).Asks P
  | .newIdentifier next => ∀ id, (next id).Asks P

theorem Program.Asks.bind {α β : Type} {P : Call → Prop} {p : Program α} (hp : p.Asks P)
    {f : α → Program β} (hf : ∀ a, (f a).Asks P) : (p.bind f).Asks P := by
  induction p with
  | done result => exact hf result
  | ask call next ih => exact ⟨hp.1, fun reply => ih reply (hp.2 reply)⟩
  | readPages query seen wantsMore next ih =>
    exact ⟨hp.1, fun items failure? => ih items failure? (hp.2 items failure?)⟩
  | clock next ih => exact fun time => ih time (hp time)
  | newIdentifier next ih => exact fun id => ih id (hp id)

theorem Program.asks_anything {α : Type} (p : Program α) : p.Asks fun _ => True := by
  induction p with
  | done result => trivial
  | ask call next ih => exact ⟨trivial, ih⟩
  | readPages query seen wantsMore next ih => exact ⟨fun _ => trivial, ih⟩
  | clock next ih => exact ih
  | newIdentifier next ih => exact ih

/-! ## Commands -/

namespace Command

variable {α β : Type} {P : Call → Prop}

/-- Whether all calls that a command may make are of a kind. -/
def Asks (P : Call → Prop) (c : Command α) : Prop := Program.Asks P c.run

theorem asks_pure (a : α) : Asks P (pure a : Command α) := trivial

theorem asks_throw (e : RecordError) : Asks P (throw e : Command α) := trivial

theorem Asks.bind {c : Command α} (hc : Asks P c) {f : α → Command β} (hf : ∀ a, Asks P (f a)) :
    Asks P (c >>= f) := by
  refine Program.Asks.bind hc fun result => ?_
  cases result with
  | ok a => exact hf a
  | error e => trivial

theorem Asks.map {c : Command α} (hc : Asks P c) (f : α → β) : Asks P (f <$> c) := by
  rw [map_eq_pure_bind]
  exact hc.bind fun a => asks_pure (f a)

theorem asks_result (result : Result α) : Asks P (liftM result : Command α) := by
  cases result <;> trivial

/-- A command goes on from a result, or fails with it. -/
theorem result_bind_cases {Q : Command β → Prop} {result : Result α} {f : α → Command β}
    (hok : ∀ a, result = .ok a → Q (f a)) (herror : ∀ e, result = .error e → Q (throw e)) :
    Q ((liftM result : Command α) >>= f) := by
  cases result with
  | ok a => exact hok a rfl
  | error e => exact herror e rfl

theorem asks_result_bind {result : Result α} {f : α → Command β} (hf : ∀ a, result = .ok a → Asks P (f a)) :
    Asks P ((liftM result : Command α) >>= f) := result_bind_cases hf fun _ _ => trivial

theorem asks_attempt {call : Call} (h : P call) : Asks P (attempt call) := ⟨h, fun _ => trivial⟩

theorem asks_ask {call : Call} (h : P call) : Asks P (ask call) := by
  refine (asks_attempt h).bind fun reply => ?_
  cases reply with
  | ok answer => trivial
  | error e => trivial

theorem asks_now : Asks P now := fun _ => trivial

theorem asks_newIdentifier : Asks P newIdentifier := fun _ => trivial

theorem asks_readPages {query : BoundQuery} (h : ∀ startKey?, P (.query { query with startKey? := startKey? }))
    (wantsMore : List Item → Bool) : Asks P (readPages query wantsMore) := ⟨h, fun _ _ => trivial⟩

end Command

/-! ## Runs -/

namespace Host

variable {σ α : Type} (host : Host σ) {P : Call → Prop} {I : σ → Prop}

theorem readPages_asks (hanswer : ∀ call state, P call → I state → I (host.answer call state).2)
    {wantsMore : List Item → Bool} {pages : Nat} {query : BoundQuery}
    (hquery : ∀ startKey?, P (.query { query with startKey? := startKey? })) {seen : List Item} {state after : σ}
    {read : List Item × Option StoreError} (hstate : I state)
    (hrun : host.readPages wantsMore pages query seen state = some (read, after)) : I after := by
  induction pages generalizing query seen state with
  | zero => cases hrun
  | succ pages ih =>
    have hnext := hanswer (.query query) state (hquery query.startKey?) hstate
    simp only [readPages] at hrun
    generalize host.answer (.query query) state = answered at hrun hnext
    obtain ⟨e | page, between⟩ := answered
    · cases hrun
      exact hnext
    · dsimp only at hrun
      split at hrun
      · cases hrun
        exact hnext
      · rename_i key _
        split at hrun
        · have hstarting : ∀ startKey?, P (.query { query.startingAfter key with startKey? := startKey? }) := hquery
          exact ih hstarting hnext hrun
        · cases hrun
          exact hnext

/-- A run of a program keeps what each call that it may make keeps. -/
theorem run_asks (hanswer : ∀ call state, P call → I state → I (host.answer call state).2)
    (hnow : ∀ state, I state → I (host.now state).2)
    (hidentifier : ∀ state, I state → I (host.identifier state).2) {pages : Nat} {p : Program α} {a : α}
    {state after : σ} (hp : p.Asks P) (hstate : I state) (hrun : host.run pages p state = some (a, after)) :
    I after := by
  induction p generalizing state with
  | done result =>
    cases hrun
    exact hstate
  | ask call next ih => exact ih _ (hp.2 _) (hanswer call state hp.1 hstate) hrun
  | readPages query seen wantsMore next ih =>
    simp only [run] at hrun
    split at hrun
    · rename_i items failure? between hread
      exact ih _ _ (hp.2 _ _) (host.readPages_asks hanswer hp.1 hstate hread) hrun
    · cases hrun
  | clock next ih => exact ih _ (hp _) (hnow state hstate) hrun
  | newIdentifier next ih => exact ih _ (hp _) (hidentifier state hstate) hrun

end Host

/-- A command on a store in memory keeps what the calls that it may make keep. -/
theorem Environment.command_asks {ε α : Type} (environment : Environment ε) {P : Call → Prop} {I : Memory → Prop}
    (hcounted : ∀ memory kind, I memory → I (Memory.counted memory kind))
    (hreply : ∀ call memory, P call → I memory → I (memory.reply call).2) {pages : Nat} {command : Command α}
    {result : Result α} {memory after : Memory} {e e' : ε} (hcommand : command.Asks P) (hmemory : I memory)
    (hrun : environment.host.command pages command (memory, e) = some (result, (after, e'))) : I after :=
  environment.host.run_asks (I := fun state => I state.1)
    (fun call state hcall hstate => hreply call _ hcall (hcounted state.1 call.kind hstate)) (fun _ h => h)
    (fun _ h => h) hcommand hmemory hrun

/-! ## Steps -/

namespace Host

variable {σ α : Type} (host : Host σ) {P : Call → Prop} {I : σ → Prop}

theorem advance_asks (hanswer : ∀ call state, P call → I state → I (host.answer call state).2)
    (hnow : ∀ state, I state → I (host.now state).2)
    (hidentifier : ∀ state, I state → I (host.identifier state).2) {p : Program α} {state : σ}
    (hp : p.Asks P) (hstate : I state) :
    (host.advance p state).1.Asks P ∧ I (host.advance p state).2 := by
  cases p with
  | done result => exact ⟨trivial, hstate⟩
  | ask call next => exact ⟨hp.2 _, hanswer call state hp.1 hstate⟩
  | readPages query seen wantsMore next =>
    refine ⟨?_, hanswer (.query query) state (hp.1 query.startKey?) hstate⟩
    show (Program.afterPage query seen wantsMore next (host.answer (.query query) state).1).Asks P
    cases (host.answer (.query query) state).1 with
    | error e => exact hp.2 seen (some e)
    | ok page =>
      simp only [Program.afterPage]
      split
      · exact hp.2 _ none
      · split
        · exact ⟨hp.1, hp.2⟩
        · exact hp.2 _ none
  | clock next => exact ⟨hp _, hnow state hstate⟩
  | newIdentifier next => exact ⟨hp _, hidentifier state hstate⟩

/-- Turns of programs keep what each call that they may make keeps. -/
theorem interleave_asks (hanswer : ∀ call state, P call → I state → I (host.answer call state).2)
    (hnow : ∀ state, I state → I (host.now state).2)
    (hidentifier : ∀ state, I state → I (host.identifier state).2) (turns : List Nat)
    {programs : List (Program α)} {state : σ} (hprograms : ∀ p ∈ programs, p.Asks P) (hstate : I state) :
    (∀ p ∈ (host.interleave turns programs state).1, p.Asks P) ∧
      I (host.interleave turns programs state).2 :=
  host.interleave_preserves (fun _ _ => host.advance_asks hanswer hnow hidentifier) turns hprograms hstate

end Host

end KeyedRecords
