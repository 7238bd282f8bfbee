import KeyedRecords.Proofs.Store.Asking

/-! What programs ask a store together with what they are told: of one program in a run of its own, and of several that
take turns. A program is judged by the exchanges up to its result, whatever a store answers within the possible. Main
statements: `Program.Ensures.run`, `Program.Ensures.interleave`, `Host.Extends.interleave`. -/

namespace KeyedRecords

/-- A call and the reply to it. -/
structure Exchange where
  call : Call
  reply : call.Reply

/-! ## Every way to be answered -/

/-- Whether a program ends as wanted in view of its exchanges, some of which are over, as long as each reply is a
possible one. Of what a reading of pages brings nothing is assumed but that it took queries. -/
def Program.Ensures {α : Type} (possible : Exchange → Prop) (wanted : List Exchange → α → Prop) :
    Program α → List Exchange → Prop
  | .done result, seen => wanted seen result
  | .ask call next, seen =>
    ∀ reply, possible ⟨call, reply⟩ → (next reply).Ensures possible wanted (seen ++ [⟨call, reply⟩])
  | .readPages _ _ _ next, seen =>
    ∀ reads, reads ≠ [] → (∀ x ∈ reads, x.call.kind = .query) →
      ∀ items failure?, (next items failure?).Ensures possible wanted (seen ++ reads)
  | .clock next, seen => ∀ time, (next time).Ensures possible wanted seen
  | .newIdentifier next, seen => ∀ id, (next id).Ensures possible wanted seen

theorem Program.Ensures.mono {α : Type} {possible : Exchange → Prop} {wanted weaker : List Exchange → α → Prop}
    (hweaker : ∀ seen result, wanted seen result → weaker seen result) {p : Program α} {seen : List Exchange}
    (h : p.Ensures possible wanted seen) : p.Ensures possible weaker seen := by
  induction p generalizing seen with
  | done result => exact hweaker seen result h
  | ask call next ih => exact fun reply hreply => ih reply (h reply hreply)
  | readPages query items wantsMore next ih =>
    exact fun reads hreads hqueries items failure? => ih items failure? (h reads hreads hqueries items failure?)
  | clock next ih => exact fun time => ih time (h time)
  | newIdentifier next ih => exact fun id => ih id (h id)

theorem Program.Ensures.bind {α β : Type} {possible : Exchange → Prop} {wanted : List Exchange → β → Prop}
    {f : α → Program β} {p : Program α} {seen : List Exchange}
    (h : p.Ensures possible (fun seen a => (f a).Ensures possible wanted seen) seen) :
    (p.bind f).Ensures possible wanted seen := by
  induction p generalizing seen with
  | done result => exact h
  | ask call next ih => exact fun reply hreply => ih reply (h reply hreply)
  | readPages query items wantsMore next ih =>
    exact fun reads hreads hqueries items failure? => ih items failure? (h reads hreads hqueries items failure?)
  | clock next ih => exact fun time => ih time (h time)
  | newIdentifier next ih => exact fun id => ih id (h id)

/-- What a program ensures of its exchanges it ensures of those that come after some others. -/
theorem Program.Ensures.after {α : Type} {possible : Exchange → Prop} {wanted : List Exchange → α → Prop}
    {p : Program α} {seen : List Exchange} (h : p.Ensures possible wanted seen) (before : List Exchange) :
    p.Ensures possible (fun all result => ∃ own, all = before ++ own ∧ wanted own result) (before ++ seen) := by
  induction p generalizing seen with
  | done result => exact ⟨seen, rfl, h⟩
  | ask call next ih =>
    intro reply hreply
    rw [List.append_assoc]
    exact ih reply (h reply hreply)
  | readPages query items wantsMore next ih =>
    intro reads hreads hqueries items failure?
    rw [List.append_assoc]
    exact ih items failure? (h reads hreads hqueries items failure?)
  | clock next ih => exact fun time => ih time (h time)
  | newIdentifier next ih => exact fun id => ih id (h id)

theorem Program.Ensures.after_all {α : Type} {possible : Exchange → Prop} {wanted : List Exchange → α → Prop}
    {p : Program α} (h : p.Ensures possible wanted []) (before : List Exchange) :
    p.Ensures possible (fun all result => ∃ own, all = before ++ own ∧ wanted own result) before := by
  have hafter := h.after before
  rwa [List.append_nil] at hafter

namespace Command

variable {α β : Type} {possible : Exchange → Prop} {seen : List Exchange}

/-- Whether a command ends as wanted in view of its exchanges, whatever it is answered. -/
def Ensures (possible : Exchange → Prop) (wanted : List Exchange → Result α → Prop) (c : Command α)
    (seen : List Exchange) : Prop := Program.Ensures possible wanted c.run seen

theorem Ensures.bind {wanted : List Exchange → Result β → Prop} {c : Command α} {f : α → Command β}
    (h : c.Ensures possible (fun seen result => match result with
      | .ok a => (f a).Ensures possible wanted seen
      | .error e => wanted seen (.error e)) seen) : (c >>= f).Ensures possible wanted seen := by
  refine Program.Ensures.bind (Program.Ensures.mono (fun seen result hresult => ?_) h)
  cases result with
  | ok a => exact hresult
  | error e => exact hresult

theorem Ensures.map {wanted : List Exchange → Result β → Prop} {c : Command α} {f : α → β}
    (h : c.Ensures possible (fun seen result => wanted seen (result.map f)) seen) :
    (f <$> c).Ensures possible wanted seen := by
  rw [map_eq_pure_bind]
  refine Ensures.bind (Program.Ensures.mono (fun seen result hresult => ?_) h)
  cases result with
  | ok a => exact hresult
  | error e => exact hresult

section Steps

variable {wanted : List Exchange → Result β → Prop}

theorem ensures_result {result : Result β} (h : wanted seen result) :
    Ensures possible wanted (liftM result : Command β) seen := by
  cases result <;> exact h

theorem ensures_result_bind {result : Result α} {f : α → Command β}
    (hok : ∀ a, result = .ok a → (f a).Ensures possible wanted seen)
    (herror : ∀ e, result = .error e → wanted seen (.error e)) :
    Ensures possible wanted ((liftM result : Command α) >>= f) seen :=
  result_bind_cases (Q := fun c => c.Ensures possible wanted seen) hok herror

theorem ensures_attempt_bind {call : Call} {f : call.Reply → Command β}
    (h : ∀ reply, possible ⟨call, reply⟩ → (f reply).Ensures possible wanted (seen ++ [⟨call, reply⟩])) :
    Ensures possible wanted (attempt call >>= f) seen := h

theorem ensures_ask_bind {call : Call} {f : call.Answer → Command β}
    (hok : ∀ answer, possible ⟨call, .ok answer⟩ →
      (f answer).Ensures possible wanted (seen ++ [⟨call, .ok answer⟩]))
    (herror : ∀ e, possible ⟨call, .error e⟩ → wanted (seen ++ [⟨call, .error e⟩]) (.error (.store e))) :
    Ensures possible wanted (ask call >>= f) seen := by
  intro reply hreply
  cases reply with
  | ok answer => exact hok answer hreply
  | error e => exact herror e hreply

theorem ensures_now_bind {f : String → Command β} (h : ∀ time, (f time).Ensures possible wanted seen) :
    Ensures possible wanted (now >>= f) seen := h

theorem ensures_readPages_bind {query : BoundQuery} {wantsMore : List Item → Bool}
    {f : List Item × Option StoreError → Command β}
    (h : ∀ reads, reads ≠ [] → (∀ x ∈ reads, x.call.kind = .query) →
      ∀ read, (f read).Ensures possible wanted (seen ++ reads)) :
    Ensures possible wanted (readPages query wantsMore >>= f) seen :=
  fun reads hreads hqueries items failure? => h reads hreads hqueries (items, failure?)

end Steps

end Command

namespace Host

variable {σ α : Type} (host : Host σ)

/-- Whether the calls of a kind, in states of a kind, have possible replies and lead to such states again. -/
structure Answers (asked : Call → Prop) (possible : Exchange → Prop) (I : σ → Prop) : Prop where
  answer : ∀ call state, asked call → I state →
    possible ⟨call, (host.answer call state).1⟩ ∧ I (host.answer call state).2
  now : ∀ state, I state → I (host.now state).2
  identifier : ∀ state, I state → I (host.identifier state).2

theorem answers_anything : host.Answers (fun _ => True) (fun _ => True) (fun _ => True) where
  answer _ _ _ _ := ⟨trivial, trivial⟩
  now _ _ := trivial
  identifier _ _ := trivial

/-! ## A run of one program -/

/-- A host that keeps the exchanges, in their order. -/
def recorded : Host (σ × List Exchange) where
  answer call state :=
    ((host.answer call state.1).1, (host.answer call state.1).2, state.2 ++ [⟨call, (host.answer call state.1).1⟩])
  now state := ((host.now state.1).1, (host.now state.1).2, state.2)
  identifier state := ((host.identifier state.1).1, (host.identifier state.1).2, state.2)

theorem readPages_recorded (wantsMore : List Item → Bool) (pages : Nat) (query : BoundQuery) (items : List Item)
    (state : σ) (seen : List Exchange) :
    (host.recorded.readPages wantsMore pages query items (state, seen)).map (fun (read, after) => (read, after.1)) =
      host.readPages wantsMore pages query items state := by
  induction pages generalizing query items state seen with
  | zero => rfl
  | succ pages ih =>
    simp only [readPages, recorded]
    rcases host.answer (.query query) state with ⟨e | page, after⟩
    · rfl
    · dsimp only
      split
      · rfl
      · split
        · exact ih _ _ _ _
        · rfl

/-- Keeping the exchanges changes neither results nor states. -/
theorem run_recorded (pages : Nat) (p : Program α) (state : σ) (seen : List Exchange) :
    (host.recorded.run pages p (state, seen)).map (fun (a, after) => (a, after.1)) = host.run pages p state := by
  induction p generalizing state seen with
  | done result => rfl
  | ask call next ih => exact ih _ _ _
  | readPages query items wantsMore next ih =>
    simp only [run, ← host.readPages_recorded wantsMore pages query items state seen]
    cases host.recorded.readPages wantsMore pages query items (state, seen) with
    | none => rfl
    | some read => exact ih _ _ _ _
  | clock next ih => exact ih _ _ _
  | newIdentifier next ih => exact ih _ _ _

theorem exists_recorded {pages : Nat} {p : Program α} {state after : σ} {a : α}
    (h : host.run pages p state = some (a, after)) (seen : List Exchange) :
    ∃ exchanges, host.recorded.run pages p (state, seen) = some (a, after, exchanges) := by
  rw [← host.run_recorded pages p state seen, Option.map_eq_some_iff] at h
  obtain ⟨⟨result, between, exchanges⟩, hrun, heq⟩ := h
  cases heq
  exact ⟨exchanges, hrun⟩

/-- A reading of pages takes queries, and at least one. -/
theorem readPages_exchanges {asked : Call → Prop} {possible : Exchange → Prop} {I : σ → Prop}
    (hhost : host.Answers asked possible I) {wantsMore : List Item → Bool} {pages : Nat} {query : BoundQuery}
    (hasked : ∀ startKey?, asked (.query { query with startKey? := startKey? })) {items : List Item}
    {state after : σ} {seen exchanges : List Exchange} {read : List Item × Option StoreError} (hstate : I state)
    (h : host.recorded.readPages wantsMore pages query items (state, seen) = some (read, after, exchanges)) :
    I after ∧ ∃ reads, exchanges = seen ++ reads ∧ reads ≠ [] ∧ ∀ x ∈ reads, x.call.kind = .query := by
  induction pages generalizing query items state seen with
  | zero => cases h
  | succ pages ih =>
    have hnext := (hhost.answer (.query query) state (hasked query.startKey?) hstate).2
    have hone : ∀ reply, [(⟨.query query, reply⟩ : Exchange)] ≠ [] ∧
        ∀ x ∈ [(⟨.query query, reply⟩ : Exchange)], x.call.kind = .query := by
      simp [Call.kind]
    simp only [readPages, recorded] at h
    generalize host.answer (.query query) state = answered at h hnext
    obtain ⟨e | page, between⟩ := answered
    · cases h
      exact ⟨hnext, _, rfl, hone _⟩
    · dsimp only at h
      split at h
      · cases h
        exact ⟨hnext, _, rfl, hone _⟩
      · split at h
        · rename_i key _ _
          have hstarting : ∀ startKey?, asked (.query { query.startingAfter key with startKey? := startKey? }) := hasked
          obtain ⟨hafter, reads, rfl, -, hqueries⟩ := ih hstarting hnext h
          refine ⟨hafter, ⟨.query query, .ok page⟩ :: reads, by simp, List.cons_ne_nil _ _, fun x hx => ?_⟩
          rcases List.mem_cons.1 hx with rfl | hx
          · rfl
          · exact hqueries x hx
        · cases h
          exact ⟨hnext, _, rfl, hone _⟩

end Host

/-- A store in memory answers, in any environment, as its replies do. -/
theorem Environment.answers {ε : Type} (environment : Environment ε) {asked : Call → Prop}
    {possible : Exchange → Prop} {I : Memory → Prop}
    (hcounted : ∀ memory kind, I memory → I (Memory.counted memory kind))
    (hreply : ∀ call memory, asked call → I memory →
      possible ⟨call, (memory.reply call).1⟩ ∧ I (memory.reply call).2) :
    environment.host.Answers asked possible fun state => I state.1 where
  answer call state hcall hstate := hreply call _ hcall (hcounted state.1 call.kind hstate)
  now _ hstate := hstate
  identifier _ hstate := hstate

theorem Program.Ensures.run {σ α : Type} {host : Host σ} {asked : Call → Prop} {possible : Exchange → Prop}
    {I : σ → Prop} (hhost : host.Answers asked possible I) {wanted : List Exchange → α → Prop} {pages : Nat}
    {p : Program α} (hp : p.Asks asked) {seen exchanges : List Exchange} (h : p.Ensures possible wanted seen)
    {state after : σ} {a : α} (hstate : I state)
    (hrun : host.recorded.run pages p (state, seen) = some (a, after, exchanges)) : wanted exchanges a := by
  induction p generalizing state seen with
  | done result =>
    cases hrun
    exact h
  | ask call next ih =>
    obtain ⟨hpossible, hnext⟩ := hhost.answer call state hp.1 hstate
    exact ih _ (hp.2 _) (h _ hpossible) hnext hrun
  | readPages query items wantsMore next ih =>
    simp only [Host.run] at hrun
    split at hrun
    · rename_i read failure? between hread
      obtain ⟨between, seen'⟩ := between
      obtain ⟨hbetween, reads, rfl, hreads, hqueries⟩ := host.readPages_exchanges hhost hp.1 hstate hread
      exact ih _ _ (hp.2 _ _) (h reads hreads hqueries _ _) hbetween hrun
    · cases hrun
  | clock next ih => exact ih _ (hp _) (h _) (hhost.now state hstate) hrun
  | newIdentifier next ih => exact ih _ (hp _) (h _) (hhost.identifier state hstate) hrun

/-! ## Programs that take turns -/

namespace Host

variable {σ α : Type} (host : Host σ)

/-- The exchange that a program has with a store in its next step, if that is a call. -/
def exchange? (p : Program α) (state : σ) : Option Exchange :=
  match p.step with
  | .ask call _ => some ⟨call, (host.answer call state).1⟩
  | .done _ | .clock _ | .newIdentifier _ => none

/-- The exchanges in the turns of a schedule, each with the place of the program that had it. -/
def history : List Nat → List (Program α) → σ → List (Nat × Exchange)
  | [], _, _ => []
  | turn :: turns, programs, state =>
    match programs[turn]? with
    | none => history turns programs state
    | some p => ((host.exchange? p state).map (turn, ·)).toList ++
        history turns (programs.set turn (host.advance p state).1) (host.advance p state).2

/-- Whether a relation between the states before and after some exchanges goes back over the steps of a host. -/
structure Extends (asked : Call → Prop) (I : σ → Prop)
    (R : σ → List Exchange → σ → Prop) : Prop where
  nil : ∀ state, R state [] state
  answer : ∀ call state exchanges after, asked call → I state → R (host.answer call state).2 exchanges after →
    R state (⟨call, (host.answer call state).1⟩ :: exchanges) after
  now : ∀ state exchanges after, R (host.now state).2 exchanges after → R state exchanges after
  identifier : ∀ state exchanges after, R (host.identifier state).2 exchanges after → R state exchanges after

variable {host}

theorem Extends.advance {asked : Call → Prop} {I : σ → Prop} {R : σ → List Exchange → σ → Prop}
    (hR : host.Extends asked I R) {p : Program α} (hp : p.Asks asked) {state : σ} (hstate : I state)
    {exchanges : List Exchange} {after : σ} (h : R (host.advance p state).2 exchanges after) :
    R state ((host.exchange? p state).toList ++ exchanges) after := by
  cases p with
  | done result => exact h
  | ask call next => exact hR.answer call state exchanges after hp.1 hstate h
  | readPages query items wantsMore next =>
    exact hR.answer (.query query) state exchanges after (hp.1 query.startKey?) hstate h
  | clock next => exact hR.now state exchanges after h
  | newIdentifier next => exact hR.identifier state exchanges after h

end Host

def exchangesOf (place : Nat) (history : List (Nat × Exchange)) : List Exchange :=
  (history.filter (·.1 = place)).map (·.2)

theorem exchangesOf_append (place : Nat) (front back : List (Nat × Exchange)) :
    exchangesOf place (front ++ back) = exchangesOf place front ++ exchangesOf place back := by
  simp [exchangesOf]

theorem exchangesOf_self (place : Nat) (exchange? : Option Exchange) :
    exchangesOf place ((exchange?.map (place, ·)).toList) = exchange?.toList := by
  cases exchange? <;> simp [exchangesOf]

theorem exchangesOf_other {place turn : Nat} (h : turn ≠ place) (exchange? : Option Exchange) :
    exchangesOf place ((exchange?.map (turn, ·)).toList) = [] := by
  cases exchange? <;> simp [exchangesOf, h]

section Turns

variable {σ α : Type} {host : Host σ} {asked : Call → Prop} {possible : Exchange → Prop} {I : σ → Prop}
  (hhost : host.Answers asked possible I)

include hhost

/-- After a turn the programs still ask calls of the kind, in a state of the kind. -/
theorem Host.Answers.advance {programs : List (Program α)} (hprograms : ∀ p ∈ programs, p.Asks asked)
    {p : Program α} (hp : p.Asks asked) {state : σ} (hstate : I state) (turn : Nat) :
    (∀ q ∈ programs.set turn (host.advance p state).1, q.Asks asked) ∧ I (host.advance p state).2 := by
  obtain ⟨hasks, hafter⟩ := host.advance_asks (fun call state hcall hstate =>
    (hhost.answer call state hcall hstate).2) hhost.now hhost.identifier hp hstate
  refine ⟨fun other hother => ?_, hafter⟩
  rcases List.mem_or_eq_of_mem_set hother with hother | rfl
  · exact hprograms other hother
  · exact hasks

theorem Program.Ensures.advance {wanted : List Exchange → α → Prop} {p : Program α} {state : σ}
    (hp : p.Asks asked) (hstate : I state) {seen : List Exchange} (h : p.Ensures possible wanted seen) :
    (host.advance p state).1.Ensures possible wanted (seen ++ (host.exchange? p state).toList) := by
  cases p with
  | done result => simpa [Host.advance, Host.exchange?, Program.step] using h
  | ask call next => exact h _ (hhost.answer call state hp.1 hstate).1
  | readPages query items wantsMore next =>
    show (Program.afterPage query items wantsMore next (host.answer (.query query) state).1).Ensures possible
      wanted (seen ++ [⟨.query query, (host.answer (.query query) state).1⟩])
    generalize (host.answer (.query query) state).1 = reply
    have hread : ∀ more, (∀ x ∈ more, Call.kind x.call = .query) → ∀ items failure?,
        (next items failure?).Ensures possible wanted (seen ++ ⟨.query query, reply⟩ :: more) := by
      refine fun more hmore => h _ (List.cons_ne_nil _ _) fun x hx => ?_
      rcases List.mem_cons.1 hx with rfl | hx
      · rfl
      · exact hmore x hx
    have hlast := hread [] (by simp)
    cases reply with
    | error e => exact hlast items (some e)
    | ok page =>
      simp only [Program.afterPage]
      split
      · exact hlast _ none
      · split
        · intro reads _ hqueries items failure?
          rw [List.append_assoc]
          exact hread reads hqueries items failure?
        · exact hlast _ none
  | clock next => simpa [Host.advance, Host.exchange?, Program.step] using h _
  | newIdentifier next => simpa [Host.advance, Host.exchange?, Program.step] using h _

/-- Turns leave what each program still ensures, in view of the exchanges that were its own. -/
theorem Program.Ensures.interleave {wanted : Nat → List Exchange → α → Prop} (turns : List Nat)
    {programs : List (Program α)} {state : σ} (hprograms : ∀ p ∈ programs, p.Asks asked) (hstate : I state)
    {seen : Nat → List Exchange}
    (h : ∀ (i : Nat) (p : Program α), programs[i]? = some p → p.Ensures possible (wanted i) (seen i)) (i : Nat)
    {p : Program α} (hp : (host.interleave turns programs state).1[i]? = some p) :
    p.Ensures possible (wanted i) (seen i ++ exchangesOf i (host.history turns programs state)) := by
  induction turns generalizing programs state seen with
  | nil => simpa [Host.history, exchangesOf] using h i p hp
  | cons turn turns ih =>
    cases hturn : programs[turn]? with
    | none =>
      rw [host.interleave_nobody hturn] at hp
      simp only [Host.history, hturn]
      exact ih hprograms hstate h hp
    | some q =>
      have hq := hprograms q (List.mem_of_getElem? hturn)
      have hadvance := (h turn q hturn).advance hhost hq hstate
      obtain ⟨hnext, hafter⟩ := hhost.advance hprograms hq hstate turn
      have hturned : ∀ (j : Nat) (other : Program α),
          (programs.set turn (host.advance q state).1)[j]? = some other → other.Ensures possible (wanted j)
            (seen j ++ exchangesOf j ((host.exchange? q state).map (turn, ·)).toList) := by
        intro j other hother
        by_cases hj : turn = j
        · subst hj
          rw [List.getElem?_set_self (List.getElem?_eq_some_iff.1 hturn).1] at hother
          cases hother
          rw [exchangesOf_self]
          exact hadvance
        · rw [List.getElem?_set_ne hj] at hother
          rw [exchangesOf_other hj, List.append_nil]
          exact h j other hother
      rw [host.interleave_turn hturn (Prod.eta _).symm] at hp
      simp only [Host.history, hturn]
      rw [exchangesOf_append, ← List.append_assoc]
      exact ih hnext hafter hturned hp

/-- What each step extends holds of the states before and after all turns. -/
theorem Host.Extends.interleave {R : σ → List Exchange → σ → Prop} (hR : host.Extends asked I R)
    (turns : List Nat) {programs : List (Program α)} {state : σ} (hprograms : ∀ p ∈ programs, p.Asks asked)
    (hstate : I state) :
    R state ((host.history turns programs state).map (·.2)) (host.interleave turns programs state).2 := by
  induction turns generalizing programs state with
  | nil => exact hR.nil state
  | cons turn turns ih =>
    cases hturn : programs[turn]? with
    | none =>
      rw [host.interleave_nobody hturn]
      simp only [history, hturn]
      exact ih hprograms hstate
    | some p =>
      have hp := hprograms p (List.mem_of_getElem? hturn)
      obtain ⟨hnext, hafter⟩ := hhost.advance hprograms hp hstate turn
      rw [host.interleave_turn hturn (Prod.eta _).symm]
      simp only [history, hturn, List.map_append]
      have htags : ((host.exchange? p state).map (turn, ·)).toList.map (·.2) = (host.exchange? p state).toList := by
        cases host.exchange? p state <;> rfl
      rw [htags]
      exact hR.advance hp hstate (ih hnext hafter)

end Turns

end KeyedRecords
