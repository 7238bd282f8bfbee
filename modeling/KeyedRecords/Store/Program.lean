import KeyedRecords.Identifier
import KeyedRecords.Store.Call

/-! A command is a program: it asks a store, a clock and a source of identifiers, and goes on with what it is told.
The same program runs on any host. Its one loop reads the pages of a query for as long as its reader wants more. -/

namespace KeyedRecords

inductive Program (α : Type) : Type where
  | done (result : α)
  | ask (call : Call) (next : call.Reply → Program α)
  /-- Reads page after page; goes on with all items seen, and the failure if one ended the reading. -/
  | readPages (query : BoundQuery) (seen : List Item) (wantsMore : List Item → Bool)
      (next : List Item → Option StoreError → Program α)
  /-- The time, as a text. -/
  | clock (next : String → Program α)
  | newIdentifier (next : Identifier → Program α)

namespace Program

def bind {α β : Type} : Program α → (α → Program β) → Program β
  | done result, f => f result
  | ask call next, f => ask call fun reply => (next reply).bind f
  | readPages query seen wantsMore next, f =>
    readPages query seen wantsMore fun items failure? => (next items failure?).bind f
  | clock next, f => clock fun time => (next time).bind f
  | newIdentifier next, f => newIdentifier fun id => (next id).bind f

instance : Monad Program where
  pure := done
  bind := bind

@[simp] theorem pure_eq {α : Type} (a : α) : (pure a : Program α) = done a := rfl

@[simp] theorem bind_eq {α β : Type} (p : Program α) (f : α → Program β) : (p >>= f) = p.bind f := rfl

theorem bind_done {α : Type} (p : Program α) : p.bind done = p := by
  induction p with
  | done => rfl
  | ask call next ih => simp only [bind, ih]
  | readPages query seen wantsMore next ih => simp only [bind, ih]
  | clock next ih => simp only [bind, ih]
  | newIdentifier next ih => simp only [bind, ih]

theorem bind_assoc {α β γ : Type} (p : Program α) (f : α → Program β) (g : β → Program γ) :
    (p.bind f).bind g = p.bind fun a => (f a).bind g := by
  induction p with
  | done => rfl
  | ask call next ih => simp only [bind, ih]
  | readPages query seen wantsMore next ih => simp only [bind, ih]
  | clock next ih => simp only [bind, ih]
  | newIdentifier next ih => simp only [bind, ih]

instance : LawfulMonad Program := LawfulMonad.mk' _
  (fun p => bind_done p) (fun _ _ => rfl) (fun p f g => bind_assoc p f g)

/-- What a program does next. -/
inductive Step (α : Type) : Type where
  | done (result : α)
  | ask (call : Call) (next : call.Reply → Program α)
  | clock (next : String → Program α)
  | newIdentifier (next : Identifier → Program α)

/-- Where the reading of pages stands after one more reply. -/
def afterPage {α : Type} (query : BoundQuery) (seen : List Item) (wantsMore : List Item → Bool)
    (next : List Item → Option StoreError → Program α) : Except StoreError Page → Program α
  | .error e => next seen (some e)
  | .ok page =>
    let seen := seen ++ page.items
    match page.lastKey? with
    | none => next seen none
    | some key =>
      if wantsMore seen then readPages (query.startingAfter key) seen wantsMore next else next seen none

/-- The next step of a program; reading pages asks for one of them. -/
def step {α : Type} : Program α → Step α
  | done result => .done result
  | ask call next => .ask call next
  | readPages query seen wantsMore next => .ask (.query query) (afterPage query seen wantsMore next)
  | clock next => .clock next
  | newIdentifier next => .newIdentifier next

end Program

/-- What programs run on: a store, a clock and a source of identifiers, over one state. -/
structure Host (σ : Type) where
  answer : (call : Call) → σ → call.Reply × σ
  now : σ → String × σ
  identifier : σ → Identifier × σ

namespace Host

variable {σ : Type}

/-- Reads at most so many pages; none if they do not suffice. -/
def readPages (host : Host σ) (wantsMore : List Item → Bool) :
    Nat → BoundQuery → List Item → σ → Option ((List Item × Option StoreError) × σ)
  | 0, _, _, _ => none
  | pages + 1, query, seen, state =>
    match host.answer (.query query) state with
    | (.error e, state) => some ((seen, some e), state)
    | (.ok page, state) =>
      let seen := seen ++ page.items
      match page.lastKey? with
      | none => some ((seen, none), state)
      | some key =>
        if wantsMore seen then readPages host wantsMore pages (query.startingAfter key) seen state
        else some ((seen, none), state)

/-- Runs a program to its end; none if a query has more than so many pages. -/
def run {α : Type} (host : Host σ) (pages : Nat) : Program α → σ → Option (α × σ)
  | .done result, state => some (result, state)
  | .ask call next, state =>
    let (reply, state) := host.answer call state
    host.run pages (next reply) state
  | .readPages query seen wantsMore next, state =>
    match host.readPages wantsMore pages query seen state with
    | some ((items, failure?), state) => host.run pages (next items failure?) state
    | none => none
  | .clock next, state =>
    let (time, state) := host.now state
    host.run pages (next time) state
  | .newIdentifier next, state =>
    let (id, state) := host.identifier state
    host.run pages (next id) state

end Host

abbrev Command (α : Type) : Type := ExceptT RecordError Program α

namespace Command

/-- Asks the store; its failure is the reply. -/
def attempt (call : Call) : Command call.Reply := (Program.ask call .done : Program call.Reply)

/-- Asks the store; its failure fails the command. -/
def ask (call : Call) : Command call.Answer := do
  match ← attempt call with
  | .ok answer => pure answer
  | .error e => throw (.store e)

def now : Command String := (Program.clock .done : Program String)

def newIdentifier : Command Identifier := (Program.newIdentifier .done : Program Identifier)

/-- Reads the pages of a query for as long as the items seen leave more to be wanted. -/
def readPages (query : BoundQuery) (wantsMore : List Item → Bool) :
    Command (List Item × Option StoreError) :=
  (Program.readPages query [] wantsMore fun items failure? => .done (items, failure?) :
    Program (List Item × Option StoreError))

end Command

end KeyedRecords
