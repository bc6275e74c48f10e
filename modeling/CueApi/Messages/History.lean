import CueApi.Messages.System

/-! The abstract level of messaging: histories. The committed tables are the replay of the commits,
and `MsgAllowed` says of each event what the code guarantees at that point, with all other processes
in any order around it. One constructor of `MsgCommits` is one transaction of the source. -/

namespace CueApi.Messages

open Scheduler (Pid Time UserId OutboxId seconds ApiError)
open ReadCommitted Interleaving Trace Recorded

/-- The tables a history leaves of `t₀`. -/
abbrev replayed (t₀ : MsgTables) (h : MsgHistory) : MsgTables := replay msgSchema t₀ h

/-! ## Jobs -/

/-- The state a push job takes its message from. -/
def MsgJob.expected : MsgJob → DeliveryState
  | ⟨.deliverMessage, _⟩ => .queued
  | ⟨.retryMessage, _⟩ => .retryReady

/-- The attempt a push job makes. -/
def MsgJob.attempt : MsgJob → Nat
  | ⟨.deliverMessage, _⟩ => 1
  | ⟨.retryMessage, payload⟩ => payload.attempt.getD 2

def MsgJob.message (j : MsgJob) : MsgId := j.payload.messageId

/-- The retry that a push job enqueues. -/
def MsgJob.retryRow (j : MsgJob) (webhookUrl : Option String) (scheduledAt : Time) : MsgOutboxRow :=
  ⟨.retryMessage, ⟨j.message, j.payload.toAgentId, webhookUrl, some (j.attempt + 1)⟩, false,
    some scheduledAt⟩

/-- The row of a recycled job. -/
def MsgJob.recycledRow (j : MsgJob) (now : Time) : MsgOutboxRow :=
  ⟨j.task, j.payload, false, some (now + seconds 30)⟩

/-- The push jobs of the arq queue: each is handed out once, and again after its worker died. A job
that raised is dropped. -/
def queuedJobs : MsgHistory → List MsgJob
  | [] => []
  | .marked _ (.enqueued _ j) :: h => j :: queuedJobs h
  | .began _ call :: h =>
      match call.job with
      | some j => (queuedJobs h).erase j
      | none => queuedJobs h
  | .ended p .crashed :: h =>
      match (callOf p h).bind MsgCall.job with
      | some j => j :: queuedJobs h
      | none => queuedJobs h
  | _ :: h => queuedJobs h

/-- The events of a job that has claimed its message. -/
def claimedBy (p : Pid) (j : MsgJob) (time now : Time) : MsgHistory :=
  [.commit p time [.updateMessages [j.message] (.claim j.expected now)], .began p j.call]

/-- A job has claimed its message and has the result of its attempt. -/
inductive Answered (p : Pid) (j : MsgJob) (h : MsgHistory) : DeliveryAttemptResult → Prop
  | unconfigured (time now : Time) : own p h = claimedBy p j time now →
      Answered p j h ⟨.terminal, none⟩
  | pushed (answer : PushAnswer) (time now : Time) :
      own p h = .marked p (.pushed j.message answer) :: claimedBy p j time now →
      Answered p j h (attemptResult answer)

/-! ## Transactions -/

/-- One iteration of `recover_stale_message_deliveries`. -/
structure RecoveredMessage where
  m : MsgId
  row : Message
  prior : Nat
  webhookUrl : Option String
  n : OutboxId

/-- The retry that it enqueues. -/
def RecoveredMessage.outbox (i : RecoveredMessage) (now : Time) : MsgOutboxRow :=
  ⟨.retryMessage, ⟨i.m, i.row.toAgentId, i.webhookUrl, some (i.prior + 1)⟩, false, some now⟩

def RecoveredMessage.writes (now : Time) (i : RecoveredMessage) : List MsgWrite :=
  if i.prior < messageRetryMaxAttempts + 1 then
    [.updateMessages [i.m] .staleRetry, .insertOutbox i.n (i.outbox now)]
  else [.updateMessages [i.m] (.staleFailed now)]

/-- The id of the retry, where there is one. -/
def RecoveredMessage.inserted (i : RecoveredMessage) : Option OutboxId :=
  if i.prior < messageRetryMaxAttempts + 1 then some i.n else none

structure RecoveredMessage.Ok (p : Pid) (h : MsgHistory) (t : MsgTables) (i : RecoveredMessage) :
    Prop where
  row : t.message i.m = some i.row
  delivering : i.row.deliveryState = .delivering
  counted : .marked p (.counted i.m i.prior) ∈ h
  fresh : i.prior < messageRetryMaxAttempts + 1 → t.outboxRow i.n = none

/-- What the fingerprint of a draft is taken of. -/
def Draft.fields (d : Draft) : Fingerprinted :=
  ⟨d.toAgent, d.data.body, d.data.subject, d.priority, d.data.replyTo.map Prod.fst, d.data.metadata⟩

/-- What the checks of `create_message` have established of a draft. -/
structure Draft.Ok (env : MsgEnv) (t : MsgTables) (user : UserId) (req : SendRequest) (d : Draft) :
    Prop where
  sent : d.user = user ∧ d.key = req.idempotencyKey ∧ d.data = req.data
  sender : ∃ agent, t.agent d.fromAgent = some agent ∧ agent.userId = user
  recipient : ∃ agent, t.agent d.toAgent = some agent
  priority : d.priority = req.data.priority ∨ d.priority = 3
  fingerprint : d.fingerprint = env.fingerprint d.fields
  parent : ∀ thread m, d.parent = some (thread, m) → ∃ r, t.message m = some r ∧
    r.threadId = thread
  sendAt : effectiveSendAt d.now req.data.sendAt = .ok d.sendAt

/-- The rows of a new message, newest write first. -/
def Draft.writes (env : MsgEnv) (d : Draft) (m : MsgId) (x : EventId) (n : OutboxId)
    (inlineSub : Bool) (seen : Time) : List MsgWrite :=
  .bumpLastSeen d.fromAgent seen ::
    ((if d.webhookUrl.isSome then [.insertOutbox n (d.outbox m)] else []) ++
      [.insertEvent x (d.event m (maybeEmbedBody inlineSub d.data.body)),
        .insertMessage m (d.row env m)])

/-- The lookup of a key that finds nothing. -/
def lookedUp (p : Pid) (req : SendRequest) (cutoff time : Time) (fields : Fingerprinted) :
    MsgHistory :=
  if req.idempotencyKey.isSome then [.marked p (.looked cutoff time fields none)] else []

/-- The lookup of a parent that finds it. -/
def parentFound (p : Pid) (req : SendRequest) : MsgHistory :=
  (req.data.replyTo.map fun x => .marked p (.resolved x.1 true)).toList

/-- The events of a request that is about to store its message. -/
def prepared (p : Pid) (user : UserId) (req : SendRequest) (cutoff time : Time)
    (fields : Fingerprinted) : MsgHistory :=
  parentFound p req ++ (lookedUp p req cutoff time fields ++ [.began p (.sendMessage user req)])

/-- The readers of events. -/
def MsgCall.readsEvents : MsgCall → Bool
  | .pullEvents _ _ _ _ _ | .dispatchSubscriptionEvents | .emitDigests => true
  | _ => false

/-- A digest bundles events that its process has read. -/
def EventPayload.Bundles (p : Pid) (h : MsgHistory) : EventPayload → Prop
  | .delivered _ => False
  | .digest _ _ _ bundled => ∃ xs events : List (EventId × EventRow), .marked p (.read xs) ∈ h ∧
      (∀ x ∈ events, x ∈ xs) ∧ bundled = events.filterMap bundle

/-- The writes of the readers of events. -/
def MsgWrite.Aside (p : Pid) (h : MsgHistory) : MsgWrite → Prop
  | .insertEvent _ row => row.payload.Bundles p h ∧ row.idempotencyKey.type = .messageDigest
  | .markDigested _ _ | .updateSubscriptions _ _ => True
  | _ => False

/-- The requests that mark a message, and whether they find it in a state to be marked. -/
inductive MarksMessage : MsgCall → UserId → MsgId → MsgUpdate → DeliveryState → Prop
  | read (user m text now s) : s.terminal = false → s ≠ .read →
      MarksMessage (.markRead user m text) user m (.markRead now) s
  | acked (user m text now s) : s.terminal = false →
      MarksMessage (.markAcked user m text) user m (.markAcked now) s

inductive MsgCommits (env : MsgEnv) (t₀ : MsgTables) (h : MsgHistory) (p : Pid) (time : Time) :
    MsgCall → List MsgWrite → Prop
  | recycled (j : MsgJob) (n : OutboxId) (now : Time) : own p h = [.began p j.call] →
      (replayed t₀ h).outboxRow n = none →
      MsgCommits env t₀ h p time j.call
        [.insertOutbox n (j.recycledRow now)]
  | lost (j : MsgJob) (now : Time) :
      own p h = [.marked p (.unmatched (.claim j.expected now)), .began p j.call] →
      MsgCommits env t₀ h p time j.call []
  | claimed (j : MsgJob) (r : Message) (now : Time) : own p h = [.began p j.call] →
      (replayed t₀ h).message j.message = some r → r.deliveryState = j.expected →
      MsgCommits env t₀ h p time j.call [.updateMessages [j.message] (.claim j.expected now)]
  | delivered (j : MsgJob) (r : Message) (result : DeliveryAttemptResult) (now : Time) :
      Answered p j h result → (replayed t₀ h).message j.message = some r →
      result.category = .success →
      MsgCommits env t₀ h p time j.call [.updateMessages [j.message] (.pushDelivered now)]
  | retried (j : MsgJob) (r : Message) (result : DeliveryAttemptResult) (n : OutboxId)
      (webhookUrl : Option String) (scheduledAt : Time) : Answered p j h result →
      (replayed t₀ h).message j.message = some r → result.category = .retryable →
      j.attempt < messageRetryMaxAttempts + 1 → (replayed t₀ h).outboxRow n = none →
      MsgCommits env t₀ h p time j.call
        [.updateMessages [j.message] .pushRetry,
          .insertOutbox n (j.retryRow webhookUrl scheduledAt)]
  | failed (j : MsgJob) (r : Message) (result : DeliveryAttemptResult) (now : Time) :
      Answered p j h result → (replayed t₀ h).message j.message = some r →
      result.category ≠ .success →
      (result.category = .retryable → messageRetryMaxAttempts + 1 ≤ j.attempt) →
      MsgCommits env t₀ h p time j.call [.updateMessages [j.message] (.pushFailed now)]
  | polled (user : UserId) (q : InboxQuery) (a : AgentId) (ms : List MsgId) (now : Time) :
      (∀ m ∈ ms, ∃ r, (replayed t₀ h).message m = some r ∧ r.deliveryState = .queued ∧
        r.toAgentId = a ∧ sendAtGate now r = true) → now ≤ time →
      MsgCommits env t₀ h p time (.listInbox user q)
        (.bumpLastSeen a now :: if ms.isEmpty then [] else [.updateMessages ms (.polled now)])
  | marked (call : MsgCall) (user : UserId) (m : MsgId) (u : MsgUpdate) (seen : Message)
      (h₀ : MsgHistory) (r : Message) : MarksMessage call user m u seen.deliveryState →
      own p h = [.marked p (.admitted m), .began p call] →
      .marked p (.admitted m) :: h₀ <:+ h → (replayed t₀ h₀).message m = some seen →
      (replayed t₀ h).message m = some r → MsgCommits env t₀ h p time call [.updateMessages [m] u]
  | recovered (staleSeconds : Nat) (now : Time) (items : List RecoveredMessage) :
      .marked p (.selected (items.map RecoveredMessage.m).reverse) ∈ h →
      (∀ i ∈ items, i.Ok p h (replayed t₀ h)) → (items.map RecoveredMessage.m).Nodup →
      (items.filterMap RecoveredMessage.inserted).Nodup →
      MsgCommits env t₀ h p time (.recoverStaleMessageDeliveries staleSeconds)
        (items.flatMap (RecoveredMessage.writes now))
  | expired (ms : List MsgId) (now : Time) :
      (∀ m ∈ ms, ∃ r, (replayed t₀ h).message m = some r ∧ pastTtl now r = true) → now ≤ time →
      MsgCommits env t₀ h p time (.expireOldMessages false)
        (if ms.isEmpty then [] else [.updateMessages ms .expire])
  | created (user : UserId) (req : SendRequest) (d : Draft) (m : MsgId) (x : EventId)
      (n : OutboxId) (inlineSub : Bool) (seen cutoff looked : Time) :
      own p h = prepared p user req cutoff looked d.fields →
      d.Ok env (replayed t₀ h) user req → d.now ≤ time → (replayed t₀ h).message m = none →
      (∀ key, req.idempotencyKey = some key → ¬ (replayed t₀ h).KeyTaken user key) →
      (replayed t₀ h).event x = none →
      (d.webhookUrl.isSome → (replayed t₀ h).outboxRow n = none) →
      MsgCommits env t₀ h p time (.sendMessage user req) (d.writes env m x n inlineSub seen)
  | dispatched (ns : List OutboxId) : (∀ n ∈ ns, ∃ j, .marked p (.enqueued n j) ∈ h) →
      MsgCommits env t₀ h p time .dispatchOutbox (ns.map .markDispatched)
  | freed (xs : List (MsgId × UserId × String)) (cutoff : Time) :
      (∀ x ∈ xs, ∃ r, (replayed t₀ h).message x.1 = some r ∧ r.createdAt < cutoff) →
      cutoff + dedupWindow ≤ time →
      MsgCommits env t₀ h p time (.freeOldIdempotencyKeys false) [.freeKeys xs]
  | unedited (user : UserId) (addr : Address) (webhookUrl : Option (Option String)) :
      MsgCommits env t₀ h p time (.updateAgent user addr webhookUrl) []
  | edited (user : UserId) (addr : Address) (webhookUrl : Option (Option String)) (a : AgentId)
      (url secret : Option (Option String)) :
      MsgCommits env t₀ h p time (.updateAgent user addr webhookUrl)
        [.updateAgent a (.webhook url secret)]
  | deleted (user : UserId) (addr : Address) (a : AgentId) (now : Time) :
      MsgCommits env t₀ h p time (.softDeleteAgent user addr) [.updateAgent a (.deleted now)]
  | aside (call : MsgCall) (ws : List MsgWrite) : call.readsEvents = true →
      (∀ w ∈ ws, w.Aside p h) → MsgCommits env t₀ h p time call ws

/-! ## Legal histories -/

/-- The requests that `get_message_for_user` lets in. -/
inductive Admits : MsgCall → UserId → MsgId → Prop
  | get (user m text) : Admits (.getMessage user m text) user m
  | read (user m text) : Admits (.markRead user m text) user m
  | acked (user m text) : Admits (.markAcked user m text) user m

/-- What the lookup of a key has found. -/
def Looked (t : MsgTables) (user : UserId) (key : String) (cutoff : Time) : Option MsgId → Prop
  | some m => ∃ r, t.message m = some r ∧ r.keyed = some (user, key) ∧ cutoff < r.createdAt
  | none => ∀ m r, t.message m = some r → r.keyed = some (user, key) → r.createdAt ≤ cutoff

/-- What a request compares with the message under its key. -/
structure Compares (req : SendRequest) (fields : Fingerprinted) : Prop where
  data : fields.body = req.data.body ∧ fields.subject = req.data.subject ∧
    fields.replyTo = req.data.replyTo.map Prod.fst ∧ fields.metadata = req.data.metadata
  priority : fields.priority = req.data.priority ∨ fields.priority = 3

/-- A batch for a subscription: events that the process has read. -/
def Posts (p : Pid) (h : MsgHistory) (events : List (EventId × EventRow)) : Prop :=
  ∃ xs, .marked p (.read xs) ∈ h ∧ ∀ x ∈ events, x ∈ xs

/-- What a note says of the tables at its point. -/
def MsgMarks (env : MsgEnv) (t₀ : MsgTables) (h : MsgHistory) (p : Pid) (call : MsgCall) : MsgMark → Prop
  | .missing => own p h = [.began p call] ∧ ∃ j : MsgJob, call = j.call
  | .unmatched u => ∀ j : MsgJob, call = j.call → own p h = [.began p call] ∧
      (∃ now, u = .claim j.expected now) ∧
      ∀ r, (replayed t₀ h).message j.message = some r → r.deliveryState ≠ j.expected
  | .admitted m => own p h = [.began p call] ∧ ∃ user, Admits call user m ∧
      ∃ r, messageForUser (replayed t₀ h) user m = some r
  | .pushed m _ => ∃ j time now, m = MsgJob.message j ∧ own p h = claimedBy p j time now
  | .selected ms => own p h = [.began p call] ∧ ms.Nodup ∧
      (∃ staleSeconds, call = .recoverStaleMessageDeliveries staleSeconds) ∧
      ∀ m ∈ ms, ∃ r, (replayed t₀ h).message m = some r ∧ r.deliveryState = .delivering
  | .counted m prior => (∃ staleSeconds, call = .recoverStaleMessageDeliveries staleSeconds) ∧
      prior = priorAttempts (replayed t₀ h) m ∧
      ∃ r, (replayed t₀ h).message m = some r ∧ r.deliveryState = .delivering
  | .enqueued n j => call = .dispatchOutbox ∧ ∃ o, (replayed t₀ h).outboxRow n = some o ∧
      o.dispatched = false ∧ j = ⟨o.taskType, o.payload⟩
  | .read _ => call.readsEvents = true
  | .looked cutoff time fields found => own p h = [.began p call] ∧ ∃ user req key,
      call = .sendMessage user req ∧ req.idempotencyKey = some key ∧
      Compares req fields ∧ cutoff + dedupWindow ≤ time ∧
      (∀ q time' ws, .commit q time' ws ∈ h → time' ≤ time) ∧
      Looked (replayed t₀ h) user key cutoff found
  | .resolved m found => ∃ user req cutoff time fields text, call = .sendMessage user req ∧
      req.data.replyTo = some (m, text) ∧
      own p h = lookedUp p req cutoff time fields ++ [.began p call] ∧
      found = ((replayed t₀ h).message m).isSome
  | .conflict => ∃ user req key cutoff time fields, call = .sendMessage user req ∧
      req.idempotencyKey = some key ∧ own p h = prepared p user req cutoff time fields ∧
      env.refuses req.data = false ∧
      (req.data.sendAt.any fun s => !s.aware) = false ∧ (replayed t₀ h).KeyTaken user key
  | .posted _ events => call.readsEvents = true ∧ Posts p h events

/-- An error of a check: neither a conflict of keys nor a crash. -/
def Rejection (e : ApiError) : Prop := e.code ∉ ["idempotency_key_conflict", "internal_error"]

/-- Among these events no lookup has found its key and no INSERT has met it. -/
structure Unfound (p : Pid) (E : MsgHistory) : Prop where
  looked : ∀ cutoff time fields m, .marked p (.looked cutoff time fields (some m)) ∉ E
  conflict : .marked p .conflict ∉ E

/-- What a reply to `send_message` rests on. -/
inductive Sends (env : MsgEnv) (t₀ : MsgTables) (h : MsgHistory) (p : Pid) (user : UserId)
    (req : SendRequest) : MsgReply → Prop
  | created (d : Draft) (m : MsgId) (x : EventId) (n : OutboxId) (inlineSub : Bool)
      (seen cutoff looked time : Time) (msg : Message) (downgraded : Bool) :
      own p h = .commit p time (d.writes env m x n inlineSub seen) ::
        prepared p user req cutoff looked d.fields →
      Sends env t₀ h p user req (.sent m msg false downgraded)
  | dedup (m : MsgId) (msg : Message) (cutoff time : Time) (fields : Fingerprinted)
      (h' : MsgHistory) :
      own p h = [.marked p (.looked cutoff time fields (some m)),
        .began p (.sendMessage user req)] →
      .marked p (.looked cutoff time fields (some m)) :: h' <:+ h →
      (replayed t₀ h').message m = some msg →
      msg.idempotencyFingerprint = some (env.fingerprint fields) →
      Sends env t₀ h p user req (.sent m msg true false)
  | mismatch (m : MsgId) (msg : Message) (cutoff time : Time) (fields : Fingerprinted)
      (h' : MsgHistory) :
      own p h = [.marked p (.looked cutoff time fields (some m)),
        .began p (.sendMessage user req)] →
      .marked p (.looked cutoff time fields (some m)) :: h' <:+ h →
      (replayed t₀ h').message m = some msg →
      msg.idempotencyFingerprint ≠ some (env.fingerprint fields) →
      Sends env t₀ h p user req (.error (idempotencyKeyConflict m))
  | conflict (cutoff time : Time) (fields : Fingerprinted) :
      own p h = .marked p .conflict :: prepared p user req cutoff time fields →
      Sends env t₀ h p user req (.error internalServerError)
  | refused : Unfound p (own p h) → env.refuses req.data = true →
      Sends env t₀ h p user req (.error internalServerError)
  | naive : Unfound p (own p h) → (req.data.sendAt.any fun s => !s.aware) = true →
      Sends env t₀ h p user req (.error internalServerError)
  | rejected (e : ApiError) : Unfound p (own p h) → Rejection e →
      Sends env t₀ h p user req (.error e)

/-- The rows of a page have passed the gate at a time before a commit of the request. -/
def ShowsInbox (p : Pid) (t₀ : MsgTables) (h : MsgHistory) (rows : List (MsgId × Message)) : Prop :=
  ∃ time now ws h', .commit p time ws ∈ h ∧ now ≤ time ∧ h' <:+ h ∧
    ∀ x ∈ rows, (replayed t₀ h').message x.1 = some x.2 ∧ sendAtGate now x.2 = true

/-- A job ends after its claim was decided or a lookup found nothing, the sweep after its commit,
and a request with a reply that its commits justify. -/
def MsgReturns (env : MsgEnv) (t₀ : MsgTables) (h : MsgHistory) (p : Pid) :
    MsgCall → MsgReply → Prop
  | .deliverMessage payload, _ => own p h ≠ [.began p (.deliverMessage payload)]
  | .retryMessage payload, _ => own p h ≠ [.began p (.retryMessage payload)]
  | .recoverStaleMessageDeliveries _, _ => ∃ time ws, .commit p time ws ∈ h
  | .sendMessage user req, reply => Sends env t₀ h p user req reply
  | .listInbox _ _, .inbox rows _ _ _ => ShowsInbox p t₀ h rows
  | .pullEvents _ _ _ _ _, .events events _ _ => .marked p (.read events) ∈ h
  | _, _ => True

def MsgAllowed (env : MsgEnv) (t₀ : MsgTables) (h : MsgHistory) : MsgEvent → Prop
  | .began p _ => own p h = []
  | .commit p time ws =>
      (∃ call, callOf p h = some call ∧ MsgCommits env t₀ h p time call ws) ∧
      ∀ q time' us, .commit q time' us ∈ h → time' ≤ time
  | .marked p mark => ∃ call, callOf p h = some call ∧ MsgMarks env t₀ h p call mark
  | .ended p (.returned reply) => ∃ call, callOf p h = some call ∧ MsgReturns env t₀ h p call reply
  | .ended p _ => ∃ call, callOf p h = some call

/-- Every event is allowed after the events before it. -/
def MsgLegal (env : MsgEnv) (t₀ : MsgTables) (h : MsgHistory) : Prop :=
  Along (MsgAllowed env t₀) h

end CueApi.Messages
