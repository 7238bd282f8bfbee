import KeyedRecords.Proofs.Store.Answer

/-! Programs of several clients on one host. They take turns, and in a turn a program takes one step: one call to the
store, one look at the clock or one new identifier. Main statement: `Host.interleave_preserves`. -/

namespace KeyedRecords.Host

variable {σ α : Type} (host : Host σ)

/-- A program and the state after its next step. -/
def advance (p : Program α) (state : σ) : Program α × σ :=
  match p.step with
  | .done result => (.done result, state)
  | .ask call next => (next (host.answer call state).1, (host.answer call state).2)
  | .clock next => (next (host.now state).1, (host.now state).2)
  | .newIdentifier next => (next (host.identifier state).1, (host.identifier state).2)

/-- Some programs and the state after the turns of a schedule; a turn of nobody is no step. -/
def interleave : List Nat → List (Program α) → σ → List (Program α) × σ
  | [], programs, state => (programs, state)
  | turn :: turns, programs, state =>
    match programs[turn]? with
    | none => interleave turns programs state
    | some p => interleave turns (programs.set turn (host.advance p state).1) (host.advance p state).2

theorem advance_done (result : α) (state : σ) : host.advance (.done result) state = (.done result, state) :=
  rfl

theorem advance_ask {call : Call} {state after : σ} {reply : call.Reply}
    (h : host.answer call state = (reply, after)) (next : call.Reply → Program α) :
    host.advance (.ask call next) state = (next reply, after) := by
  simp only [advance, Program.step, h]

theorem interleave_nobody {turn : Nat} {programs : List (Program α)} (h : programs[turn]? = none)
    (turns : List Nat) (state : σ) :
    host.interleave (turn :: turns) programs state = host.interleave turns programs state := by
  simp only [interleave, h]

theorem interleave_turn {turn : Nat} {programs : List (Program α)} {p next : Program α} {state after : σ}
    (h : programs[turn]? = some p) (hstep : host.advance p state = (next, after)) (turns : List Nat) :
    host.interleave (turn :: turns) programs state =
      host.interleave turns (programs.set turn next) after := by
  simp only [interleave, h, hstep]

theorem interleave_length (turns : List Nat) (programs : List (Program α)) (state : σ) :
    (host.interleave turns programs state).1.length = programs.length := by
  induction turns generalizing programs state with
  | nil => rfl
  | cons turn turns ih =>
    cases hturn : programs[turn]? with
    | none => rw [interleave_nobody host hturn, ih]
    | some p => rw [interleave_turn host hturn rfl, ih, List.length_set]

/-- What a step of each program keeps, all of them keep together. -/
theorem interleave_preserves {G : Program α → Prop} {P : σ → Prop}
    (hstep : ∀ p state, G p → P state → G (host.advance p state).1 ∧ P (host.advance p state).2)
    (turns : List Nat) {programs : List (Program α)} {state : σ} (hprograms : ∀ p ∈ programs, G p)
    (hstate : P state) :
    (∀ p ∈ (host.interleave turns programs state).1, G p) ∧
      P (host.interleave turns programs state).2 := by
  induction turns generalizing programs state with
  | nil => exact ⟨hprograms, hstate⟩
  | cons turn turns ih =>
    cases hturn : programs[turn]? with
    | none =>
      rw [interleave_nobody host hturn]
      exact ih hprograms hstate
    | some p =>
      rw [interleave_turn host hturn rfl]
      obtain ⟨hnext, hafter⟩ := hstep p state (hprograms p (List.mem_of_getElem? hturn)) hstate
      refine ih (fun other hother => ?_) hafter
      rcases List.mem_or_eq_of_mem_set hother with hother | rfl
      · exact hprograms other hother
      · exact hnext

end KeyedRecords.Host
