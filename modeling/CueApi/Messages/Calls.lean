import CueApi.Messages.Tables
import CueApi.Scheduler.World

/-! The requests, jobs and periodic functions of messaging, their replies, and what their statements
note besides the rows they write. -/

namespace CueApi.Messages

open Scheduler

/-! ## Requests -/

/-- An agent address: an opaque id, a slug form, or neither. -/
inductive Address
  | id (a : AgentId) (text : String)
  | slug (agent user : String) (text : String)
  | halfSlug
  | malformed
  deriving DecidableEq, Repr

structure InboxQuery where
  agent : Address
  states : Option (List (Except String DeliveryState)) := none
  since : Option Time := none
  threadId : Option MsgId := none
  counterpart : Option Address := none
  limit : Nat := 50
  offset : Nat := 0
  countOnly : Bool := false

/-- `MessageCreate` (`to` is `toAgent` here); `reply_to` is the message with its spelling. -/
structure MessageCreate where
  toAgent : Address
  body : String
  subject : Option String := none
  replyTo : Option (MsgId × String) := none
  priority : Nat := 3
  expectsReply : Bool := false
  replyToAgent : Option Address := none
  metadata : Json := ⟨"\x7b\x7d", false⟩
  correlationId : Option String := none
  sendAt : Option DateTime := none
  deriving DecidableEq, Repr

/-- What `_compute_fingerprint` hashes. -/
structure Fingerprinted where
  toAgentId : AgentId
  body : String
  subject : Option String
  priority : Nat
  replyTo : Option MsgId
  metadata : Json
  deriving DecidableEq, Repr

/-- `POST /v1/messages`: the body and the two headers. A missing `X-Cueapi-From-Agent` and an empty
one are both `none`. -/
structure SendRequest where
  fromAgent : Option Address
  idempotencyKey : Option String := none
  data : MessageCreate
  deriving DecidableEq, Repr

/-- A push job of the arq queue. -/
structure MsgJob where
  task : MsgTask
  payload : MsgPayload
  deriving DecidableEq, Repr

inductive MsgCall
  | deliverMessage (payload : MsgPayload)
  | retryMessage (payload : MsgPayload)
  | recoverStaleMessageDeliveries (staleSeconds : Nat)
  | listInbox (user : UserId) (q : InboxQuery)
  | markRead (user : UserId) (m : MsgId) (text : String)
  | markAcked (user : UserId) (m : MsgId) (text : String)
  | expireOldMessages (dryRun : Bool)
  | sendMessage (user : UserId) (req : SendRequest)
  | getMessage (user : UserId) (m : MsgId) (text : String)
  | updateAgent (user : UserId) (agent : Address) (webhookUrl : Option (Option String))
  | softDeleteAgent (user : UserId) (agent : Address)
  | pullEvents (user : UserId) (agent : Address) (since limit : Nat) (eventType : Option String)
  | dispatchOutbox
  | freeOldIdempotencyKeys (dryRun : Bool)
  | dispatchSubscriptionEvents
  | emitDigests

def MsgJob.call : MsgJob → MsgCall
  | ⟨.deliverMessage, payload⟩ => .deliverMessage payload
  | ⟨.retryMessage, payload⟩ => .retryMessage payload

def MsgCall.job : MsgCall → Option MsgJob
  | .deliverMessage payload => some ⟨.deliverMessage, payload⟩
  | .retryMessage payload => some ⟨.retryMessage, payload⟩
  | _ => none

theorem MsgCall.job_eq_some {call : MsgCall} {j : MsgJob} : call.job = some j ↔ call = j.call := by
  obtain ⟨task, payload⟩ := j
  cases call <;> cases task <;> simp [MsgCall.job, MsgJob.call]

theorem MsgJob.call_injective {j j' : MsgJob} (h : j.call = j'.call) : j = j' := by
  have hj := MsgCall.job_eq_some.mpr h
  rw [MsgCall.job_eq_some.mpr rfl] at hj
  exact Option.some.inj hj

/-! ## Replies -/

inductive MsgReply
  | error (e : ApiError)
  | message (msg : Message)
  | sent (m : MsgId) (msg : Message) (dedupHit priorityDowngraded : Bool)
  | inbox (messages : List (MsgId × Message)) (total limit offset : Nat)
  | events (events : List (EventId × EventRow)) (nextCursor : Option EventId) (hasMore : Bool)
  | agent (agent : Agent)
  | count (n : Nat)
  | expiry (dryRun : Bool) (eligible transitioned : Nat)
  | done

/-- What becomes of a push: the URL check at delivery refuses it, no response arrives
(`httpx.RequestError`), or one does. `retryAfter` is its `Retry-After` header as `int` reads it. -/
inductive PushAnswer
  | blocked
  | requestError
  | response (status : Nat) (retryAfter : Option Int)
  deriving DecidableEq, Repr

/-- The request left the worker. -/
def PushAnswer.sent : PushAnswer → Bool
  | .blocked => false
  | _ => true

/-- What a statement notes. -/
inductive MsgMark
  | missing
  | unmatched (u : MsgUpdate)
  | admitted (m : MsgId)
  | pushed (m : MsgId) (answer : PushAnswer)
  | selected (ms : List MsgId)
  | counted (m : MsgId) (prior : Nat)
  | enqueued (n : OutboxId) (job : MsgJob)
  | read (events : List (EventId × EventRow))
  | looked (cutoff time : Time) (fields : Fingerprinted) (found : Option MsgId)
  | resolved (m : MsgId) (found : Bool)
  | conflict
  | posted (sub : Subscription) (events : List (EventId × EventRow))

end CueApi.Messages
