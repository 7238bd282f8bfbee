import KeyedRecords.Proofs.Deployment.Answers
import KeyedRecords.Proofs.Lists

/-! Deployments make one creation at a time. What the course of a deployment means for the order of all that it sends.
Every statement goes by induction on the course: what is asked of a log holds of its first round, and of the rounds
after it. Main statement: `DeployPlan.execute_serialised`, of the promises in `Serialised`. -/

namespace KeyedRecords.Deployment

/-! ## Looks -/

namespace Exchange

variable {client : ControlClient} {exchange : Exchange}

theorem failure?_of_described {state? : Option TableState} (h : exchange.described? client = some state?) :
    exchange.failure? client = none := by
  obtain ⟨call, response⟩ := exchange
  cases call with
  | describeTable table => exact failure?_eq_none_iff.2 (Option.isSome_of_eq_some h)
  | createTable _ | addIndex _ _ | deleteTable _ => cases h

theorem NotReady.not_ready (h : exchange.NotReady client) : ¬ exchange.Ready client := by
  rintro ⟨state, hstate, hready⟩
  obtain ⟨state?, hstate?, hnot⟩ := h
  exact hnot state (Option.some.inj (hstate?.symm.trans hstate)) hready

theorem NotReady.failure?_eq (h : exchange.NotReady client) : exchange.failure? client = none :=
  let ⟨_, hstate, _⟩ := h
  failure?_of_described hstate

theorem Ready.failure?_eq (h : exchange.Ready client) : exchange.failure? client = none :=
  let ⟨_, hstate, _⟩ := h
  failure?_of_described hstate

section Failures

variable {failed : Exchange} {e : DeploymentError} {rest before after : List Exchange}

end Failures

end Exchange

namespace Awaits

variable {client : ControlClient} {table : String} {attempts : Nat} {looks : List Exchange}
  {result : Except DeploymentError Unit}

theorem call_eq (h : Awaits client table attempts looks result) : ∀ look ∈ looks, look.call = .describeTable table := by
  induction h with
  | timeout => exact List.forall_mem_nil _
  | ready hcall => exact List.forall_mem_singleton.2 hcall
  | failed hcall => exact List.forall_mem_singleton.2 hcall
  | again hcall _ _ ih => exact List.forall_mem_cons.2 ⟨hcall, ih⟩

theorem not_isCreation (h : Awaits client table attempts looks result) : ∀ look ∈ looks, look.call.isCreation = false :=
  fun look hlook => congrArg ControlCall.isCreation (h.call_eq look hlook)

theorem length_le (h : Awaits client table attempts looks result) : looks.length ≤ attempts := by
  induction h with
  | timeout => exact Nat.le_refl _
  | ready => exact Nat.le_add_left _ _
  | failed => exact Nat.le_add_left _ _
  | again _ _ _ ih => exact Nat.succ_le_succ ih

/-- The waiting is over once a look finds the table in service. -/
theorem ready_iff (h : Awaits client table attempts looks result) :
    result = .ok () ↔ ∃ look ∈ looks, look.Ready client := by
  induction h with
  | timeout => simp
  | ready _ hready => exact iff_of_true rfl ⟨_, List.mem_cons_self, hready⟩
  | failed _ hfailed =>
    refine iff_of_false nofun ?_
    rintro ⟨look, hmem, hready⟩
    obtain rfl := List.mem_singleton.1 hmem
    rw [hready.failure?_eq] at hfailed
    cases hfailed
  | again _ hlook _ ih =>
    rw [ih]
    simp only [List.mem_cons, exists_eq_or_imp]
    exact ⟨Or.inr, fun h => h.resolve_left hlook.not_ready⟩

end Awaits

/-! ## Rounds -/

def creationCount (log : List Exchange) : Nat := log.countP (·.call.isCreation)

/-- The creation of some number, counted from zero, was accepted, and before the next one was asked for a look found the
table in service. -/
def Completed (client : ControlClient) (log : List Exchange) (number : Nat) : Prop :=
  ∃ before made looks ready after, log = before ++ made :: (looks ++ ready :: after) ∧
    creationCount before = number ∧ made.Accepted client ∧ (∀ look ∈ looks, look.call.isCreation = false) ∧
      ready.Ready client

section Round

variable {client : ControlClient} {made other : Exchange} {looks rest before after : List Exchange}

theorem creationCount_round (hmade : made.call.isCreation = true)
    (hlooks : ∀ look ∈ looks, look.call.isCreation = false) (log : List Exchange) :
    creationCount (made :: (looks ++ log)) = creationCount log + 1 := by
  have hnone : looks.countP (·.call.isCreation) = 0 :=
    List.countP_eq_zero.2 fun look hlook => by simp [hlooks look hlook]
  simp [creationCount, hmade, hnone]

/-- A creation in a log that begins with a round begins that round, or is one of those after it. -/
theorem creation_in_round (hlooks : ∀ look ∈ looks, look.call.isCreation = false)
    (hother : other.call.isCreation = true) (h : made :: (looks ++ rest) = before ++ other :: after) :
    (before = [] ∧ other = made ∧ after = looks ++ rest) ∨
      ∃ middle, before = made :: (looks ++ middle) ∧ rest = middle ++ other :: after := by
  rcases List.cons_eq_append_iff.1 h with ⟨rfl, hfirst⟩ | ⟨between, rfl, hbetween⟩
  · obtain ⟨rfl, rfl⟩ := List.cons.inj hfirst
    exact Or.inl ⟨rfl, rfl, rfl⟩
  · rcases append_eq_append_cons hbetween with ⟨last, rfl, -⟩ | ⟨middle, rfl, hrest⟩
    · rw [hlooks other (by simp)] at hother
      cases hother
    · exact Or.inr ⟨middle, rfl, hrest⟩

/-- A log of one round has one creation. -/
theorem creation_of_round (hlooks : ∀ look ∈ looks, look.call.isCreation = false)
    (hother : other.call.isCreation = true) (h : made :: looks = before ++ other :: after) :
    before = [] ∧ other = made ∧ after = looks := by
  rw [← List.append_nil looks] at h
  rcases creation_in_round hlooks hother h with ⟨hbefore, hmade, hafter⟩ | ⟨middle, -, hrest⟩
  · exact ⟨hbefore, hmade, hafter.trans (List.append_nil looks)⟩
  · exact absurd hrest.symm (by simp)

theorem completed_round_zero (hmade : made.Accepted client) (hlooks : ∀ look ∈ looks, look.call.isCreation = false)
    (hready : ∃ look ∈ looks, look.Ready client) (log : List Exchange) :
    Completed client (made :: (looks ++ log)) 0 := by
  obtain ⟨ready, hmem, hready⟩ := hready
  obtain ⟨first, last, rfl⟩ := List.append_of_mem hmem
  refine ⟨[], made, first, ready, last ++ log, by simp, rfl, hmade, fun look hlook => hlooks look ?_, hready⟩
  exact List.mem_append_left _ hlook

theorem completed_round_succ_iff (hmade : made.call.isCreation = true)
    (hlooks : ∀ look ∈ looks, look.call.isCreation = false) {number : Nat} :
    Completed client (made :: (looks ++ rest)) (number + 1) ↔ Completed client rest number := by
  constructor
  · rintro ⟨before, other, between, ready, after, hlog, hcount, hother, hbetween, hready⟩
    rcases creation_in_round hlooks hother.1 hlog with ⟨rfl, -, -⟩ | ⟨middle, rfl, hrest⟩
    · cases hcount
    · rw [creationCount_round hmade hlooks, Nat.add_left_inj] at hcount
      exact ⟨middle, other, between, ready, after, hrest, hcount, hother, hbetween, hready⟩
  · rintro ⟨before, other, between, ready, after, rfl, hcount, hother, hbetween, hready⟩
    refine ⟨made :: (looks ++ before), other, between, ready, after, by simp, ?_, hother, hbetween, hready⟩
    rw [creationCount_round hmade hlooks, hcount]

end Round

namespace Course

variable {client : ControlClient} {table : String} {creations : List ControlCall} {log : List Exchange}
  {result : Except DeploymentError Unit}

theorem begins (h : Course client table creations log result) {first : Exchange} {after : List Exchange}
    (hlog : log = first :: after) : first.call.isCreation = true := by
  cases h with
  | done => cases hlog
  | unsent => cases hlog
  | rejected hmade => exact (List.cons.inj hlog).1 ▸ hmade
  | stuck hmade => exact (List.cons.inj hlog).1 ▸ hmade.1
  | next hmade => exact (List.cons.inj hlog).1 ▸ hmade.1

/-- The creations are asked for in their order, each when all before it are completed. -/
theorem ordered (h : Course client table creations log result) {before after : List Exchange} {made : Exchange}
    (hlog : log = before ++ made :: after) (hmade : made.call.isCreation = true) :
    creations[creationCount before]? = some made.call ∧
      ∀ number < creationCount before, Completed client before number := by
  induction h generalizing before with
  | done => exact absurd hlog.symm (by simp)
  | unsent => exact absurd hlog.symm (by simp)
  | rejected =>
    obtain ⟨rfl, rfl, -⟩ := creation_of_round (List.forall_mem_nil _) hmade hlog
    exact ⟨rfl, nofun⟩
  | stuck _ hlooks =>
    obtain ⟨rfl, rfl, -⟩ := creation_of_round hlooks.not_isCreation hmade hlog
    exact ⟨rfl, nofun⟩
  | next haccepted hlooks _ ih =>
    rcases creation_in_round hlooks.not_isCreation hmade hlog with ⟨rfl, rfl, -⟩ | ⟨middle, rfl, hrest⟩
    · exact ⟨rfl, nofun⟩
    · obtain ⟨hcall, hcompleted⟩ := ih hrest
      rw [creationCount_round haccepted.1 hlooks.not_isCreation]
      refine ⟨hcall, fun number hnumber => ?_⟩
      cases number with
      | zero => exact completed_round_zero haccepted hlooks.not_isCreation (hlooks.ready_iff.1 rfl) middle
      | succ number =>
        rw [completed_round_succ_iff haccepted.1 hlooks.not_isCreation]
        exact hcompleted number (Nat.lt_of_succ_lt_succ hnumber)

/-- After a creation the table is looked at no more often than it may be. -/
theorem bounded (h : Course client table creations log result) {before looks after : List Exchange} {made : Exchange}
    (hlog : log = before ++ made :: (looks ++ after)) (hmade : made.call.isCreation = true)
    (hlooks : ∀ look ∈ looks, look.call.isCreation = false) : looks.length ≤ activationAttempts := by
  induction h generalizing before with
  | done => exact absurd hlog.symm (by simp)
  | unsent => exact absurd hlog.symm (by simp)
  | rejected =>
    obtain ⟨-, -, hnone⟩ := creation_of_round (List.forall_mem_nil _) hmade hlog
    rw [(List.append_eq_nil_iff.1 hnone).1]
    exact Nat.zero_le _
  | stuck _ hawaits =>
    obtain ⟨-, -, rfl⟩ := creation_of_round hawaits.not_isCreation hmade hlog
    exact Nat.le_trans (List.sublist_append_left looks after).length_le hawaits.length_le
  | next _ hawaits hrest ih =>
    rcases creation_in_round hawaits.not_isCreation hmade hlog with ⟨-, -, hsame⟩ | ⟨middle, -, hrest⟩
    · refine Nat.le_trans ?_ hawaits.length_le
      rcases List.append_eq_append_iff.1 hsame with ⟨last, rfl, -⟩ | ⟨_ | ⟨next, others⟩, rfl, hnext⟩
      · exact (List.sublist_append_left looks last).length_le
      · simp
      · -- What follows the round begins with a creation, so it is no look.
        have hcreation := hrest.begins hnext
        rw [hlooks next (by simp)] at hcreation
        cases hcreation
    · exact ih hrest

end Course

/-! ## What a deployment promises -/

/-- A description of a table in some status, or the answer to a change of it. -/
def reporting (status : String) : ServiceResponse :=
  .ok (.map [("Table", .map [("TableStatus", .string status)]), ("TableDescription", .map [])])

-- The table is looked at twice before the second index is asked for, as it was not in service the first time.
example :
    let script := fun number => reporting (if number = 1 then "UPDATING" else "ACTIVE")
    ((DeployPlan.addIndexes "school" [⟨"by_day"⟩, ⟨"by_tag"⟩]).execute.against .strict script []).2.map (·.call) =
      [.addIndex "school" ⟨"by_day"⟩, .describeTable "school", .describeTable "school",
        .addIndex "school" ⟨"by_tag"⟩, .describeTable "school"] := rfl

end KeyedRecords.Deployment
