import CueApi.Library.Asgi
import CueApi.Middleware.VerifyEcho

/-! `BodySizeLimitMiddleware`: a request that says it is too long is refused at once, and what an
application reads is counted, so that it is handed no more than `MAX_BODY_SIZE` bytes. -/

namespace CueApi.BodyLimit

open Asgi PyJson
open VerifyEcho (Received Sent Scope Header octets)

def maxBodySize : Nat := 1 * 1024 * 1024

/-- `_BodyTooLargeError`, or what else may be raised. -/
inductive Raised (ε : Type)
  | bodyTooLarge
  | other (e : ε)
  deriving DecidableEq, Repr

variable {ε : Type}

/-! ## The header -/

/-- `dict(headers).get(name)`: the last header of that very name. -/
def lastHeader (name : Octets) (headers : List Header) : Option Octets :=
  (headers.reverse.find? fun header => header.1 = name).map Prod.snd

/-- `int` of bytes knows the white space and the digits of ASCII. -/
def byteTables : Unicode where
  space c := c.val ∈ [0x09, 0x0a, 0x0b, 0x0c, 0x0d, 0x20]
  digit c := if 0x30 ≤ c.val ∧ c.val ≤ 0x39 then some (c.val - 0x30) else none

def codePoints (bs : Octets) : Text := bs.map fun b => Fin.ofNat 0x110000 b.toNat

/-- `content_length`, which is 0 where `int` raises. -/
def contentLength (raw : Octets) : Int := (readInt byteTables (codePoints raw)).getD 0

/-- The request says itself that it is too long. -/
def declaredTooLarge (scope : Scope) : Bool :=
  (lastHeader (octets "content-length") (scope.headers.getD [])).any fun raw =>
    (maxBodySize : Int) < contentLength raw

example : contentLength (octets " +1_048_577 ") = 1048577 ∧ contentLength (octets "1e9") = 0 := by
  decide

/-! ## The answer -/

/-- `_RESPONSE_BODY`. -/
def responseBody : Octets :=
  asciiOctets (plain.write (.dict [(text "error", .dict
    [(text "code", .str (text "request_too_large")),
      (text "message", .str (text "Request body exceeds 1048576 bytes")),
      (text "status", .int 413)])]))

/-- The messages of `_send_413`. -/
def send413 : List Sent :=
  [.start (some 413) (some [(octets "content-type", octets "application/json"),
    (octets "content-length", octets (toString responseBody.length))]),
    .body (some responseBody) none]

/-! ## `limited_receive` -/

/-- The bytes of a message that count. -/
def bodyBytes : Received → Nat
  | .request body _ => (body.getD []).length
  | .other _ => 0

def isRequest : Received → Bool
  | .request _ _ => true
  | .other _ => false

/-- `bytes_received` goes over the limit. -/
def exceeds (bytesReceived : Nat) (message : Received) : Bool :=
  isRequest message && maxBodySize < bytesReceived + bodyBytes message

/-- What the application gets of a message. -/
def limited (bytesReceived : Nat) (message : Received) : Except (Raised ε) Received :=
  if exceeds bytesReceived message then .error .bodyTooLarge else .ok message

/-- `receive`, with `bytes_received`. -/
def limitedReceive (server : Channel Received (Raised ε)) : Channel Received (Raised ε) where
  State := Nat × server.State
  receive c :=
    (server.receive c.2).map fun (answer, d) =>
      match answer with
      | .error e => (.error e, (c.1, d))
      | .ok message => (limited c.1 message, (c.1 + bodyBytes message, d))

/-- The count, and where the server is. -/
def counting (server : Channel Received (Raised ε)) (bytesReceived : Nat) (c : server.State) :
    (limitedReceive server).State := (bytesReceived, c)

/-! ## `__call__` -/

abbrev WebApp (ε : Type) := App Received Sent (Raised ε)

/-- `_send_413` after what has happened. -/
def refuse (r : Run Received Sent (Raised ε)) : Run Received Sent (Raised ε) :=
  ⟨r.events ++ send413.map .sent, .returned⟩

/-- `except _BodyTooLargeError`. -/
def settle (r : Run Received Sent (Raised ε)) : Run Received Sent (Raised ε) :=
  match r.status with
  | .raised .bodyTooLarge => refuse r
  | _ => r

/-- The first `n` steps of the application behind the middleware. -/
def call (app : WebApp ε) (scope : Scope) (server : Channel Received (Raised ε)) (n : Nat)
    (c : server.State) : Run Received Sent (Raised ε) :=
  if scope.type ≠ "http" then run app server n app.start c
  else if declaredTooLarge scope then refuse ⟨[], .running⟩
  else settle (run app (limitedReceive server) n app.start (counting server 0 c))

/-! ## What an application is handed -/

def answerBytes : Except (Raised ε) Received → Nat
  | .ok message => bodyBytes message
  | .error _ => 0

/-- The bytes among the answers to an application's reading. -/
def bytesHanded (answers : List (Except (Raised ε) Received)) : Nat := (answers.map answerBytes).sum

variable {app : WebApp ε} {scope : Scope} {server : Channel Received (Raised ε)}

@[simp] theorem bytesHanded_nil : bytesHanded ([] : List (Except (Raised ε) Received)) = 0 := rfl

@[simp] theorem bytesHanded_cons (answer : Except (Raised ε) Received)
    (answers : List (Except (Raised ε) Received)) :
    bytesHanded (answer :: answers) = answerBytes answer + bytesHanded answers := rfl

/-- The inversion of `limited_receive`. -/
theorem limitedReceive_cases {k : Nat} {c : server.State} {answer : Except (Raised ε) Received}
    {d : (limitedReceive server).State}
    (h : (limitedReceive server).receive (counting server k c) = some (answer, d)) :
    (∃ e c', server.receive c = some (.error e, c') ∧ answer = .error e ∧ d = counting server k c') ∨
    ∃ message c', server.receive c = some (.ok message, c') ∧ answer = limited k message ∧
      d = counting server (k + bodyBytes message) c' := by
  obtain ⟨⟨given, c'⟩, hr, heq⟩ := Option.map_eq_some_iff.mp h
  cases given with
  | error e =>
    cases heq
    exact .inl ⟨e, c', hr, rfl, rfl⟩
  | ok message =>
    cases heq
    exact .inr ⟨message, c', hr, rfl, rfl⟩

/-- A message that is handed on fits into what is left, and counts in full. -/
theorem answerBytes_limited (k : Nat) (message : Received) :
    answerBytes (limited k message : Except (Raised ε) Received) = 0 ∨
      (answerBytes (limited k message : Except (Raised ε) Received) = bodyBytes message ∧
        k + bodyBytes message ≤ maxBodySize) := by
  unfold limited
  cases hex : exceeds k message with
  | true => exact .inl rfl
  | false =>
    cases message with
    | other type => exact .inl rfl
    | request body moreBody =>
      right
      simp only [exceeds, isRequest, Bool.true_and, decide_eq_false_iff_not] at hex
      exact ⟨rfl, by omega⟩

/-- The count of `limited_receive` bounds what it still hands out. -/
theorem yields_le {c c' : (limitedReceive server).State}
    {answers : List (Except (Raised ε) Received)} (h : Yields (limitedReceive server) c answers c') :
    bytesHanded answers ≤ maxBodySize - c.1 := by
  induction h with
  | nil c => exact Nat.zero_le _
  | @cons c d c'' answer answers hr _ ih =>
    rw [bytesHanded_cons]
    rcases limitedReceive_cases hr with ⟨e, c', -, rfl, rfl⟩ | ⟨message, c', -, rfl, rfl⟩
    · have ih : bytesHanded answers ≤ maxBodySize - c.1 := ih
      show 0 + bytesHanded answers ≤ maxBodySize - c.1
      omega
    · have ih : bytesHanded answers ≤ maxBodySize - (c.1 + bodyBytes message) := ih
      rcases answerBytes_limited (ε := ε) c.1 message with hzero | ⟨hfull, hfits⟩
      · omega
      · omega

theorem refuse_received (r : Run Received Sent (Raised ε)) : (refuse r).received = r.received := by
  simp [refuse, Run.received, send413, Event.answer]

/-! ## Messages and an application to try it on -/

/-- A server that has these messages. -/
def serves : Channel Received (Raised ε) where
  State := List Received
  receive
    | [] => none
    | message :: messages => some (.ok message, messages)

/-- An application that reads one message. -/
def readsOnce : WebApp ε where
  State := Option (Except (Raised ε) Received)
  start := none
  next
    | none => .receive some
    | some (.ok _) => .returns
    | some (.error e) => .raises e

/-- A body of one byte more than the limit. -/
@[irreducible] def tooLong : Received := .request (some (List.replicate (maxBodySize + 1) 0)) none

theorem bodyBytes_tooLong : bodyBytes tooLong = maxBodySize + 1 := by
  unfold tooLong
  exact List.length_replicate

/-- The answers to an application behind the middleware hold no more bytes than the limit, in every
run, whatever it does with an exception. -/
theorem bytesHanded_call_le (hhttp : scope.type = "http") (n : Nat) (c : server.State) :
    bytesHanded (call app scope server n c).received ≤ maxBodySize := by
  obtain ⟨c', hy⟩ := yields_received app (limitedReceive server) n app.start (counting server 0 c)
  have hle : bytesHanded (run app (limitedReceive server) n app.start
      (counting server 0 c)).received ≤ maxBodySize := yields_le hy
  unfold call
  rw [if_neg (not_not.mpr hhttp)]
  split
  · rw [refuse_received]
    exact Nat.zero_le _
  · unfold settle
    split
    · rwa [refuse_received]
    · exact hle

theorem bytesHanded_call_le_tooLong : bytesHanded (call (readsOnce : WebApp Unit)
    ⟨"http", some "POST", none⟩ serves 3 [tooLong]).received ≤ maxBodySize :=
  @bytesHanded_call_le Unit readsOnce ⟨"http", some "POST", none⟩ serves rfl 3 [tooLong]

/-! ## The application's own run -/

/-- The states that an application comes to without being handed `_BodyTooLargeError`. -/
inductive Untouched (app : WebApp ε) : app.State → Prop
  | start : Untouched app app.start
  | receive {s k answer} : Untouched app s → app.next s = .receive k →
      answer ≠ .error .bodyTooLarge → Untouched app (k answer)
  | send {s message k} : Untouched app s → app.next s = .send message k → Untouched app k
  | compute {s k} : Untouched app s → app.next s = .compute k → Untouched app k

/-- The application does not raise `_BodyTooLargeError` by itself. -/
def Innocent (app : WebApp ε) : Prop :=
  ∀ s, Untouched app s → app.next s ≠ .raises .bodyTooLarge

/-- It does not handle it either. -/
def Propagates (app : WebApp ε) : Prop :=
  ∀ s k, app.next s = .receive k → app.next (k (.error .bodyTooLarge)) = .raises .bodyTooLarge

/-- The error is the middleware's own. -/
def Foreign (server : Channel Received (Raised ε)) : Prop :=
  ∀ c d, server.receive c ≠ some (.error .bodyTooLarge, d)

/-- What happens before the message that goes over the limit. -/
def beforeExcess (bytesReceived : Nat) :
    List (Event Received Sent (Raised ε)) → Option (List (Event Received Sent (Raised ε)))
  | [] => none
  | .received (.ok message) :: events =>
      if exceeds bytesReceived message then some []
      else (beforeExcess (bytesReceived + bodyBytes message) events).map (.received (.ok message) :: ·)
  | event :: events => (beforeExcess bytesReceived events).map (event :: ·)

theorem fits_of_not_exceeds {k : Nat} {message : Received} (hk : k ≤ maxBodySize)
    (hex : exceeds k message = false) : k + bodyBytes message ≤ maxBodySize := by
  cases message with
  | other type => exact hk
  | request body moreBody =>
    simp only [exceeds, isRequest, Bool.true_and, decide_eq_false_iff_not] at hex
    omega

/-- There is such a message exactly where all bytes together are too many. -/
theorem beforeExcess_isSome (events : List (Event Received Sent (Raised ε))) {k : Nat}
    (hk : k ≤ maxBodySize) : (beforeExcess k events).isSome ↔
      maxBodySize < k + bytesHanded (events.filterMap Event.answer) := by
  induction events generalizing k with
  | nil => simp [beforeExcess]; omega
  | cons event events ih =>
    cases event with
    | sent message =>
      rw [List.filterMap_cons_none (Event.answer_sent message)]
      simpa [beforeExcess] using ih hk
    | received answer =>
      cases answer with
      | error e => simpa [beforeExcess, answerBytes] using ih hk
      | ok message =>
        rw [beforeExcess]
        rw [List.filterMap_cons_some (Event.answer_received _), bytesHanded_cons, answerBytes]
        cases hex : exceeds k message with
        | true =>
          simp only [exceeds, Bool.and_eq_true, decide_eq_true_eq] at hex
          simp only [if_true, Option.isSome_some, true_iff]
          omega
        | false =>
          simp only [Bool.false_eq_true, if_false, Option.isSome_map, ih (fits_of_not_exceeds hk hex)]
          omega

/-- The message that goes over the limit, and what is before and after it. -/
theorem beforeExcess_some {events before : List (Event Received Sent (Raised ε))} {k : Nat}
    (hk : k ≤ maxBodySize) (h : beforeExcess k events = some before) : ∃ message after,
      events = before ++ .received (.ok message) :: after ∧
      k + bytesHanded (before.filterMap Event.answer) ≤ maxBodySize ∧
      maxBodySize < k + bytesHanded (before.filterMap Event.answer) + bodyBytes message := by
  induction events generalizing k before with
  | nil => cases h
  | cons event events ih =>
    have skip {k' : Nat} (hk' : k' ≤ maxBodySize)
        (hbytes : ∀ before' : List (Event Received Sent (Raised ε)),
          k + bytesHanded ((event :: before').filterMap Event.answer) =
            k' + bytesHanded (before'.filterMap Event.answer))
        (h : (beforeExcess k' events).map (event :: ·) = some before) : ∃ message after,
          event :: events = before ++ .received (.ok message) :: after ∧
          k + bytesHanded (before.filterMap Event.answer) ≤ maxBodySize ∧
          maxBodySize < k + bytesHanded (before.filterMap Event.answer) + bodyBytes message := by
      obtain ⟨before', hbefore, rfl⟩ := Option.map_eq_some_iff.mp h
      obtain ⟨message, after, rfl, hle, hlt⟩ := ih hk' hbefore
      rw [hbytes before']
      exact ⟨message, after, rfl, hle, hlt⟩
    cases event with
    | sent message => exact skip hk (fun before' => rfl) h
    | received answer =>
      cases answer with
      | error e =>
        refine skip hk (fun before' => ?_) h
        rw [List.filterMap_cons_some (Event.answer_received _), bytesHanded_cons]
        show k + (0 + _) = _
        omega
      | ok message =>
        rw [beforeExcess] at h
        split at h
        · rename_i hex
          cases h
          simp only [exceeds, Bool.and_eq_true, decide_eq_true_eq] at hex
          exact ⟨message, events, rfl, hk, hex.2⟩
        · rename_i hex
          refine skip (fits_of_not_exceeds hk (Bool.eq_false_iff.mpr hex)) (fun before' => ?_) h
          rw [List.filterMap_cons_some (Event.answer_received _), bytesHanded_cons]
          exact (Nat.add_assoc _ _ _).symm

/-- The answer to the application's reading, after a message of the server. -/
theorem limitedReceive_ok {k : Nat} {c c' : server.State} {message : Received}
    (h : server.receive c = some (.ok message, c')) :
    (limitedReceive server).receive (counting server k c) =
      some (limited k message, counting server (k + bodyBytes message) c') := by
  show (server.receive c).map _ = _
  rw [h]
  rfl

theorem limitedReceive_error {k : Nat} {c c' : server.State} {e : Raised ε}
    (h : server.receive c = some (.error e, c')) :
    (limitedReceive server).receive (counting server k c) = some (.error e, counting server k c') := by
  show (server.receive c).map _ = _
  rw [h]
  rfl

theorem limitedReceive_none {k : Nat} {c : server.State} (h : server.receive c = none) :
    (limitedReceive server).receive (counting server k c) = none := by
  show (server.receive c).map _ = _
  rw [h]
  rfl

/-- As long as nothing goes over the limit, the middleware changes nothing. -/
theorem run_limited_eq (n : Nat) {s : app.State} {c : server.State} {k : Nat}
    (h : beforeExcess k (run app server n s c).events = none) :
    run app (limitedReceive server) n s (counting server k c) = run app server n s c := by
  induction n generalizing s c k with
  | zero => rfl
  | succ n ih =>
    rw [run_succ] at h ⊢
    rw [run_succ]
    cases hnext : app.next s with
    | receive f =>
      simp only [hnext] at h ⊢
      cases hr : server.receive c with
      | none => rw [limitedReceive_none hr]
      | some x =>
        obtain ⟨answer, c'⟩ := x
        simp only [hr] at h
        cases answer with
        | error e =>
          rw [limitedReceive_error hr]
          show (run app _ n (f (.error e)) (counting server k c')).after _ =
            (run app server n (f (.error e)) c').after _
          rw [ih (Option.map_eq_none_iff.mp h)]
        | ok message =>
          simp only [Run.after, beforeExcess] at h
          split at h
          · cases h
          · rename_i hex
            rw [limitedReceive_ok hr, limited, if_neg hex]
            show (run app _ n (f (.ok message)) (counting server (k + bodyBytes message) c')).after _ =
              (run app server n (f (.ok message)) c').after _
            rw [ih (Option.map_eq_none_iff.mp h)]
    | send message f =>
      simp only [hnext] at h ⊢
      rw [ih (Option.map_eq_none_iff.mp h)]
    | compute f =>
      simp only [hnext] at h ⊢
      exact ih h
    | returns => rfl
    | raises e => rfl

/-- What an application does from its reading on, where the message goes over the limit. -/
structure Overrun (app : WebApp ε) (server : Channel Received (Raised ε)) where
  state : app.State
  reads : Except (Raised ε) Received → app.State
  next_state : app.next state = .receive reads
  steps : Nat
  steps_pos : 0 < steps
  bytesReceived : Nat
  exceeded : maxBodySize < bytesReceived
  place : server.State

/-- The steps after the exception. -/
def Overrun.run (o : Overrun app server) : Run Received Sent (Raised ε) :=
  Asgi.run app (limitedReceive server) o.steps (o.reads (.error .bodyTooLarge))
    (counting server o.bytesReceived o.place)

/-- No byte comes after the exception. -/
theorem Overrun.bytesHanded (o : Overrun app server) : bytesHanded o.run.received = 0 := by
  obtain ⟨c', hy⟩ := yields_received app (limitedReceive server) o.steps
    (o.reads (.error .bodyTooLarge)) (counting server o.bytesReceived o.place)
  have hle : BodyLimit.bytesHanded o.run.received ≤ maxBodySize - o.bytesReceived := yields_le hy
  have hover := o.exceeded
  omega

theorem Overrun.run_of_propagates (o : Overrun app server) (hp : Propagates app) :
    o.run = ⟨[], .raised .bodyTooLarge⟩ := by
  obtain ⟨n, hn⟩ : ∃ n, o.steps = n + 1 := ⟨o.steps - 1, by have := o.steps_pos; omega⟩
  rw [Overrun.run, hn, run_succ, hp o.state o.reads o.next_state]

/-- What goes over the limit is not handed on. -/
theorem run_limited_excess {n : Nat} {s : app.State} {c : server.State}
    {k : Nat} {before : List (Event Received Sent (Raised ε))}
    (h : beforeExcess k (run app server n s c).events = some before) {m : Nat} (hm : n < m) :
    ∃ o : Overrun app server, run app (limitedReceive server) m s (counting server k c) =
      ⟨before ++ .received (.error .bodyTooLarge) :: o.run.events, o.run.status⟩ := by
  induction n generalizing s c k before m with
  | zero => cases h
  | succ n ih =>
    obtain ⟨m, rfl⟩ : ∃ m', m = m' + 1 := ⟨m - 1, by omega⟩
    rw [run_succ] at h ⊢
    cases hnext : app.next s with
    | receive f =>
      simp only [hnext] at h ⊢
      cases hr : server.receive c with
      | none =>
        simp only [hr] at h
        cases h
      | some x =>
        obtain ⟨answer, c'⟩ := x
        simp only [hr] at h
        cases answer with
        | error e =>
          obtain ⟨rest, hrest, rfl⟩ := Option.map_eq_some_iff.mp h
          obtain ⟨o, ho⟩ := ih hrest (show n < m by omega)
          rw [limitedReceive_error hr]
          refine ⟨o, ?_⟩
          show (run app _ m (f (.error e)) (counting server k c')).after _ = _
          rw [ho]
          rfl
        | ok message =>
          simp only [Run.after, beforeExcess] at h
          split at h
          · rename_i hex
            cases h
            rw [limitedReceive_ok hr, limited, if_pos hex]
            simp only [exceeds, Bool.and_eq_true, decide_eq_true_eq] at hex
            exact ⟨⟨s, f, hnext, m, by omega, k + bodyBytes message, hex.2, c'⟩, rfl⟩
          · rename_i hex
            obtain ⟨rest, hrest, rfl⟩ := Option.map_eq_some_iff.mp h
            obtain ⟨o, ho⟩ := ih hrest (show n < m by omega)
            rw [limitedReceive_ok hr, limited, if_neg hex]
            refine ⟨o, ?_⟩
            show (run app _ m (f (.ok message)) (counting server (k + bodyBytes message) c')).after _ = _
            rw [ho]
            rfl
    | send message f =>
      simp only [hnext] at h ⊢
      obtain ⟨rest, hrest, rfl⟩ := Option.map_eq_some_iff.mp h
      obtain ⟨o, ho⟩ := ih hrest (show n < m by omega)
      rw [ho]
      exact ⟨o, rfl⟩
    | compute f =>
      simp only [hnext] at h ⊢
      exact ih h (by omega)
    | returns =>
      simp only [hnext] at h
      cases h
    | raises e =>
      simp only [hnext] at h
      cases h

/-- Alone, an application does not raise the middleware's error. -/
theorem run_innocent (hi : Innocent app) (hf : Foreign server) (n : Nat) {s : app.State}
    (hs : Untouched app s) (c : server.State) :
    (run app server n s c).status ≠ .raised .bodyTooLarge := by
  induction n generalizing s c with
  | zero =>
    intro h
    cases h
  | succ n ih =>
    rw [run_succ]
    cases hnext : app.next s with
    | receive f =>
      simp only
      cases hr : server.receive c with
      | none =>
        intro h
        cases h
      | some x =>
        have hne : x.1 ≠ .error .bodyTooLarge := fun heq => hf c x.2 (by rw [hr, ← heq])
        exact ih (hs.receive hnext hne) x.2
    | send message f => exact ih (hs.send hnext) c
    | compute f => exact ih (hs.compute hnext) c
    | returns =>
      intro h
      cases h
    | raises e =>
      intro h
      cases h
      exact hi s hs hnext

/-- A request that declares too much gets the 413 alone. Another is served as if there were no
middleware while what the application reads keeps within the limit. Instead of the message that goes
over it, after the same events as without the middleware, the application gets the exception and from
then on no byte; the 413 is sent if it ends with this exception, at once where it does not handle it. -/
theorem call_exact (hhttp : scope.type = "http") (hi : Innocent app) (hf : Foreign server) (n : Nat)
    (c : server.State) :
    (declaredTooLarge scope = true →
      call app scope server n c = ⟨send413.map .sent, .returned⟩) ∧
    (declaredTooLarge scope = false →
      (bytesHanded (run app server n app.start c).received ≤ maxBodySize →
        call app scope server n c = run app server n app.start c) ∧
      (maxBodySize < bytesHanded (run app server n app.start c).received →
        ∃ before message after,
          (run app server n app.start c).events = before ++ .received (.ok message) :: after ∧
          bytesHanded (before.filterMap Event.answer) ≤ maxBodySize ∧
          maxBodySize < bytesHanded (before.filterMap Event.answer) + bodyBytes message ∧
          ∀ m, n < m → ∃ rest : Run Received Sent (Raised ε), bytesHanded rest.received = 0 ∧
            (Propagates app → rest = ⟨[], .raised .bodyTooLarge⟩) ∧
            call app scope server m c = settle
              ⟨before ++ .received (.error .bodyTooLarge) :: rest.events, rest.status⟩)) := by
  have hzero : 0 ≤ maxBodySize := Nat.zero_le _
  have hsome := beforeExcess_isSome (run app server n app.start c).events hzero
  rw [Nat.zero_add] at hsome
  refine ⟨fun hdeclared => ?_, fun hfits => ⟨fun hle => ?_, fun hlt => ?_⟩⟩
  · rw [call, if_neg (not_not.mpr hhttp), if_pos hdeclared]
    rfl
  · have hnone : beforeExcess 0 (run app server n app.start c).events = none := by
      cases hb : beforeExcess 0 (run app server n app.start c).events with
      | none => rfl
      | some before =>
        rw [hb] at hsome
        have hlt := hsome.mp rfl
        have hle' : bytesHanded ((run app server n app.start c).events.filterMap Event.answer) ≤
          maxBodySize := hle
        omega
    rw [call, if_neg (not_not.mpr hhttp), if_neg (by simp [hfits])]
    rw [run_limited_eq n hnone, settle]
    split
    · rename_i hraised
      exact absurd hraised (run_innocent hi hf n .start c)
    · rfl
  · obtain ⟨before, hbefore⟩ := Option.isSome_iff_exists.mp (hsome.mpr hlt)
    obtain ⟨message, after, hevents, hle, hover⟩ := beforeExcess_some hzero hbefore
    rw [Nat.zero_add] at hle hover
    refine ⟨before, message, after, hevents, hle, hover, fun m hm => ?_⟩
    obtain ⟨o, ho⟩ := run_limited_excess hbefore hm
    refine ⟨o.run, o.bytesHanded, o.run_of_propagates, ?_⟩
    rw [call, if_neg (not_not.mpr hhttp), if_neg (by simp [hfits]), ho]

theorem readsOnce_propagates : Propagates (readsOnce : WebApp ε) := by
  intro s k h
  rcases s with _ | _ | _ <;> cases h
  rfl

theorem readsOnce_innocent : Innocent (readsOnce : WebApp ε) := by
  intro s hs
  have hne : s ≠ some (.error .bodyTooLarge) := by
    cases hs with
    | start => exact nofun
    | @receive s k answer _ hnext hanswer =>
      rcases s with _ | _ | _ <;> cases hnext
      exact fun h => hanswer (Option.some.inj h)
    | @send s message k _ hnext => rcases s with _ | _ | _ <;> cases hnext
    | @compute s k _ hnext => rcases s with _ | _ | _ <;> cases hnext
  intro h
  rcases s with _ | e | message <;> cases h
  exact hne rfl

theorem serves_foreign : Foreign (serves : Channel Received (Raised ε)) := by
  intro messages d h
  cases messages with
  | nil => cases h
  | cons message messages => cases h

theorem readsOnce_events (message : Received) :
    (run (readsOnce : WebApp ε) serves 2 none [message]).events = [.received (.ok message)] := rfl

theorem readsOnce_bytesHanded (message : Received) :
    bytesHanded (run (readsOnce : WebApp ε) serves 2 none [message]).received = bodyBytes message :=
  rfl

theorem call_exact_tooLong :
    call (readsOnce : WebApp Unit) ⟨"http", some "POST", none⟩ serves 3 [tooLong] =
      ⟨.received (.error .bodyTooLarge) :: send413.map .sent, .returned⟩ := by
  have hexact := @call_exact Unit readsOnce ⟨"http", some "POST", none⟩ serves rfl
    readsOnce_innocent serves_foreign 2 [tooLong]
  have hlong : maxBodySize < bytesHanded (run (readsOnce : WebApp Unit) serves 2 none
      [tooLong]).received := by
    rw [readsOnce_bytesHanded, bodyBytes_tooLong]
    exact Nat.lt_succ_self _
  obtain ⟨before, message, after, hevents, -, -, hall⟩ := (hexact.2 rfl).2 hlong
  have hevents := (readsOnce_events tooLong).symm.trans hevents
  have hnil : before = [] := by
    cases before with
    | nil => rfl
    | cons event before =>
      have hlength := congrArg List.length hevents
      simp at hlength
  obtain ⟨rest, -, hrest, hcall⟩ := hall 3 (by omega)
  rw [hcall, hrest readsOnce_propagates, hnil]
  rfl

end CueApi.BodyLimit
