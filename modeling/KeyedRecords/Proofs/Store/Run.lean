import KeyedRecords.Store.Memory
import KeyedRecords.Store.Program

/-! Running commands step by step on any host, and the host that is a store in memory together with any
clock and source of identifiers. Main statements: `Host.run_bind`, `Host.command_bind`. -/

namespace KeyedRecords

namespace Host

variable {σ α β : Type} (host : Host σ) (pages : Nat)

/-- A program that goes on with another runs both in turn. -/
theorem run_bind (p : Program α) (f : α → Program β) (state : σ) :
    host.run pages (p.bind f) state =
      (host.run pages p state).bind fun (a, after) => host.run pages (f a) after := by
  induction p generalizing state with
  | done a => rfl
  | ask call next ih => exact ih _ _
  | readPages query seen wantsMore next ih =>
    simp only [Program.bind, run]
    cases host.readPages wantsMore pages query seen state with
    | none => rfl
    | some read => exact ih _ _ _
  | clock next ih => exact ih _ _
  | newIdentifier next ih => exact ih _ _

/-! ## Commands -/

def command (c : Command α) (state : σ) : Option (Result α × σ) := host.run pages c.run state

/-- A command that goes on with another runs that one only if it did not fail. -/
theorem command_bind (c : Command α) (f : α → Command β) (state : σ) :
    host.command pages (c >>= f) state =
      (host.command pages c state).bind fun
        | (.ok a, after) => host.command pages (f a) after
        | (.error e, after) => some (.error e, after) := by
  have hbind : (c >>= f).run = c.run.bind fun
      | .ok a => (f a).run
      | .error e => .done (.error e) := by
    show Program.bind _ _ = _
    congr 1
    funext r
    cases r <;> rfl
  rw [command, hbind, run_bind]
  show _ = (host.run pages c.run state).bind _
  congr 1
  funext ⟨r, after⟩
  cases r <;> rfl

theorem command_bind_ok {c : Command α} {a : α} {state after : σ}
    (h : host.command pages c state = some (.ok a, after)) (f : α → Command β) :
    host.command pages (c >>= f) state = host.command pages (f a) after := by
  rw [command_bind, h]
  rfl

theorem command_map (c : Command α) (f : α → β) (state : σ) :
    host.command pages (f <$> c) state =
      (host.command pages c state).map fun (result, after) => (result.map f, after) := by
  rw [map_eq_pure_bind, command_bind]
  cases host.command pages c state with
  | none => rfl
  | some step =>
    obtain ⟨result, after⟩ := step
    cases result <;> rfl

/-! A command that begins with one step goes on from the state after it. -/

theorem command_ok_bind (a : α) (f : α → Command β) (state : σ) :
    host.command pages ((liftM (.ok a : Result α) : Command α) >>= f) state =
      host.command pages (f a) state := rfl

theorem command_error_bind (e : RecordError) (f : α → Command β) (state : σ) :
    host.command pages ((liftM (.error e : Result α) : Command α) >>= f) state =
      some (.error e, state) := rfl

theorem command_attempt_bind (call : Call) (f : call.Reply → Command β) (state : σ) :
    host.command pages (Command.attempt call >>= f) state =
      host.command pages (f (host.answer call state).1) (host.answer call state).2 := rfl

theorem command_ask_bind {call : Call} {state after : σ} {answer : call.Answer}
    (h : host.answer call state = (.ok answer, after)) (f : call.Answer → Command β) :
    host.command pages (Command.ask call >>= f) state = host.command pages (f answer) after := by
  rw [Command.ask, bind_assoc, command_attempt_bind, h]
  rfl

theorem command_ask_bind_error {call : Call} {state after : σ} {failure : StoreError}
    (h : host.answer call state = (.error failure, after)) (f : call.Answer → Command β) :
    host.command pages (Command.ask call >>= f) state = some (.error (.store failure), after) := by
  rw [Command.ask, bind_assoc, command_attempt_bind, h]
  rfl

theorem command_readPages (query : BoundQuery) (wantsMore : List Item → Bool) (state : σ) :
    host.command pages (Command.readPages query wantsMore) state =
      (host.readPages wantsMore pages query [] state).map fun (read, after) => (.ok read, after) := by
  show host.run pages (Program.readPages query [] wantsMore fun items failure? =>
    .done ((.ok (items, failure?)) : Result (List Item × Option StoreError))) state = _
  simp only [run]
  cases host.readPages wantsMore pages query [] state <;> rfl

/-! ## Commands that have ended -/

section Ended

variable {host} {pages} {state after : σ}

theorem command_map_inv {c : Command α} {f : α → β} {result : Result β}
    (h : host.command pages (f <$> c) state = some (result, after)) :
    ∃ own, host.command pages c state = some (own, after) ∧ own.map f = result := by
  rw [command_map] at h
  obtain ⟨⟨own, last⟩, hrun, heq⟩ := Option.map_eq_some_iff.1 h
  cases heq
  exact ⟨own, hrun, rfl⟩

theorem command_map_inv_ok {c : Command α} {f : α → β} {b : β}
    (h : host.command pages (f <$> c) state = some (.ok b, after)) :
    ∃ a, host.command pages c state = some (.ok a, after) ∧ f a = b := by
  obtain ⟨own, hrun, heq⟩ := command_map_inv h
  cases own with
  | error e => cases heq
  | ok a => exact ⟨a, hrun, Except.ok.inj heq⟩

/-- A command that goes on with another and succeeds is two that do. -/
theorem command_bind_inv_ok {c : Command α} {f : α → Command β} {b : β}
    (h : host.command pages (c >>= f) state = some (.ok b, after)) :
    ∃ a between, host.command pages c state = some (.ok a, between) ∧
      host.command pages (f a) between = some (.ok b, after) := by
  rw [command_bind] at h
  obtain ⟨⟨e | a, between⟩, hrun, hrest⟩ := Option.bind_eq_some_iff.1 h
  · cases hrest
  · exact ⟨a, between, hrun, hrest⟩

/-- A command that begins with a result and succeeds has begun with a success. -/
theorem command_result_inv_ok {result : Result α} {f : α → Command β} {b : β}
    (h : host.command pages ((liftM result : Command α) >>= f) state = some (.ok b, after)) :
    ∃ a, result = .ok a ∧ host.command pages (f a) state = some (.ok b, after) := by
  cases result with
  | error e => cases h
  | ok a => exact ⟨a, rfl, h⟩

end Ended

/-! ## Invariants -/

section Preserves

variable {P : σ → Prop}

theorem readPages_preserves (hquery : ∀ query state, P state → P (host.answer (.query query) state).2)
    {wantsMore : List Item → Bool} {pages : Nat} {query : BoundQuery} {seen : List Item} {state after : σ}
    {read : List Item × Option StoreError} (h : P state)
    (hrun : host.readPages wantsMore pages query seen state = some (read, after)) : P after := by
  induction pages generalizing query seen state with
  | zero => cases hrun
  | succ pages ih =>
    have hnext := hquery query state h
    rw [readPages] at hrun
    split at hrun
    · rename_i e next heq
      cases hrun
      rw [heq] at hnext
      exact hnext
    · rename_i page next heq
      rw [heq] at hnext
      split at hrun
      · cases hrun
        exact hnext
      · dsimp only at hrun
        split at hrun
        · exact ih hnext hrun
        · cases hrun
          exact hnext

/-- What every step keeps, a whole run keeps. -/
theorem run_preserves (hanswer : ∀ call state, P state → P (host.answer call state).2)
    (hnow : ∀ state, P state → P (host.now state).2)
    (hidentifier : ∀ state, P state → P (host.identifier state).2) {p : Program α} {a : α}
    {state after : σ} (h : P state) (hrun : host.run pages p state = some (a, after)) : P after := by
  induction p generalizing state with
  | done result =>
    cases hrun
    exact h
  | ask call next ih => exact ih _ (hanswer call state h) hrun
  | readPages query seen wantsMore next ih =>
    simp only [run] at hrun
    split at hrun
    · rename_i items failure? between hread
      have hbetween := host.readPages_preserves (fun query => hanswer (.query query)) h hread
      exact ih _ _ hbetween hrun
    · cases hrun
  | clock next ih => exact ih _ (hnow state h) hrun
  | newIdentifier next ih => exact ih _ (hidentifier state h) hrun

end Preserves

end Host

/-! ## A store in memory -/

/-- A clock and a source of identifiers. -/
structure Environment (ε : Type) where
  now : ε → String × ε
  identifier : ε → Identifier × ε

def Environment.still : Environment Unit where
  now e := ("1970-01-01T00:00:00Z", e)
  identifier e := (⟨0, 0, "0"⟩, e)

def Environment.host {ε : Type} (environment : Environment ε) : Host (Memory × ε) where
  answer call state := ((state.1.answer call).1, (state.1.answer call).2, state.2)
  now state := ((environment.now state.2).1, state.1, (environment.now state.2).2)
  identifier state := ((environment.identifier state.2).1, state.1, (environment.identifier state.2).2)

theorem Environment.command_now_bind {α ε : Type} (environment : Environment ε) (pages : Nat)
    (memory : Memory) (e : ε) (f : String → Command α) :
    environment.host.command pages (Command.now >>= f) (memory, e) =
      environment.host.command pages (f (environment.now e).1) (memory, (environment.now e).2) := rfl

end KeyedRecords
