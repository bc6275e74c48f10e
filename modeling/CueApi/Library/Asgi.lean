/-! Applications that talk to a server in messages: they ask for the next one, send one, end or raise,
and an answer to their asking may be an exception. -/

namespace Asgi

variable {R S E : Type}

/-- The next thing an application does. -/
inductive Next (R S E σ : Type)
  | receive (k : Except E R → σ)
  | send (message : S) (k : σ)
  | compute (k : σ)
  | returns
  | raises (e : E)

structure App (R S E : Type) where
  State : Type
  start : State
  next : State → Next R S E State

/-- The server's side of `receive`; it may let the application wait. -/
structure Channel (R E : Type) where
  State : Type
  receive : State → Option (Except E R × State)

inductive Event (R S E : Type)
  | received (answer : Except E R)
  | sent (message : S)

inductive Status (E : Type)
  | running
  | waiting
  | returned
  | raised (e : E)

/-- What has happened so far. -/
structure Run (R S E : Type) where
  events : List (Event R S E)
  status : Status E

def Run.after (event : Event R S E) (r : Run R S E) : Run R S E := ⟨event :: r.events, r.status⟩

/-- The first `n` steps of an application. -/
def run (app : App R S E) (channel : Channel R E) : Nat → app.State → channel.State → Run R S E
  | 0, _, _ => ⟨[], .running⟩
  | n + 1, s, c =>
      match app.next s with
      | .receive k =>
          match channel.receive c with
          | none => ⟨[], .waiting⟩
          | some (answer, c') => (run app channel n (k answer) c').after (.received answer)
      | .send message k => (run app channel n k c).after (.sent message)
      | .compute k => run app channel n k c
      | .returns => ⟨[], .returned⟩
      | .raises e => ⟨[], .raised e⟩

theorem run_succ (app : App R S E) (channel : Channel R E) (n : Nat) (s : app.State)
    (c : channel.State) : run app channel (n + 1) s c =
      match app.next s with
      | .receive k =>
          match channel.receive c with
          | none => ⟨[], .waiting⟩
          | some (answer, c') => (run app channel n (k answer) c').after (.received answer)
      | .send message k => (run app channel n k c).after (.sent message)
      | .compute k => run app channel n k c
      | .returns => ⟨[], .returned⟩
      | .raises e => ⟨[], .raised e⟩ := rfl

def Event.answer : Event R S E → Option (Except E R)
  | .received answer => some answer
  | .sent _ => none

@[simp] theorem Event.answer_received (answer : Except E R) :
    (.received answer : Event R S E).answer = some answer := rfl

@[simp] theorem Event.answer_sent (message : S) : (.sent message : Event R S E).answer = none := rfl

/-- What the application was handed. -/
def Run.received (r : Run R S E) : List (Except E R) := r.events.filterMap Event.answer

/-! ## What a server answers -/

/-- The answers of a server one after another. -/
inductive Yields (channel : Channel R E) : channel.State → List (Except E R) → channel.State → Prop
  | nil (c) : Yields channel c [] c
  | cons {c c' c'' answer answers} : channel.receive c = some (answer, c') →
      Yields channel c' answers c'' → Yields channel c (answer :: answers) c''

/-- An application is handed what the server answers, in this order. -/
theorem yields_received (app : App R S E) (channel : Channel R E) (n : Nat) (s : app.State)
    (c : channel.State) :
    ∃ c', Yields channel c (run app channel n s c).received c' := by
  induction n generalizing s c with
  | zero => exact ⟨c, .nil c⟩
  | succ n ih =>
    rw [run_succ]
    cases app.next s with
    | receive k =>
      cases hr : channel.receive c with
      | none => exact ⟨c, .nil c⟩
      | some x =>
        obtain ⟨c', hy⟩ := ih (k x.1) x.2
        exact ⟨c', .cons hr hy⟩
    | send message k => exact ih k c
    | compute k => exact ih k c
    | returns => exact ⟨c, .nil c⟩
    | raises e => exact ⟨c, .nil c⟩

end Asgi
