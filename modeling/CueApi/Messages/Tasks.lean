import CueApi.Messages.World

/-! `worker/tasks.py`: the two push tasks, with `message_classification.py`,
`message_delivery.py` and `retry_after.py`. The texts of a classification go to the log only. -/

namespace CueApi.Messages

open Scheduler Interleaving

/-- What the programs take from their surroundings: the settings, whether the worker has a Redis
client, the `users` table, the check of a webhook URL (`some` is its error), the SHA-256 of
`_compute_fingerprint`, and whether PostgreSQL takes a value as JSONB. -/
structure MsgEnv where
  maxConcurrentDeliveriesPerUser : Nat := 50
  messageTtlDays : Nat := 30
  disableQuotaEnforcement : Bool := false
  digestMinBatchSize : Nat := 1
  redis : Bool := true
  userSlug : UserId → Option String
  plan : UserId → String := fun _ => "free"
  monthlyMessageLimit : UserId → Nat := fun _ => 300
  validateWebhookUrl : String → Option String := fun _ => none
  fingerprint : Fingerprinted → String
  takesJson : Json → Bool := fun json => !json.nullByte

variable (env : MsgEnv)

/-! ## One attempt -/

inductive Category
  | success | retryable | terminal
  deriving DecidableEq, Repr

/-- The category of `classify_response`. -/
def classifyResponse (status : Nat) : Category :=
  if 200 ≤ status ∧ status < 300 then .success
  else if status = 408 ∨ status = 429 then .retryable
  else if 400 ≤ status ∧ status < 500 then .terminal
  else if 500 ≤ status ∧ status < 600 then .retryable
  else .terminal

structure DeliveryAttemptResult where
  category : Category
  retryAfterHeader : Option Int
  deriving DecidableEq, Repr

/-- `classify_exception` finds every `httpx.RequestError` retryable. -/
def attemptResult : PushAnswer → DeliveryAttemptResult
  | .blocked => ⟨.terminal, none⟩
  | .requestError => ⟨.retryable, none⟩
  | .response status retryAfter =>
      ⟨classifyResponse status, if status = 429 ∨ status = 503 then retryAfter else none⟩

/-- `deliver_message_to_webhook`. -/
def deliverMessageToWebhook (p : Pid) (m : MsgId) (toAgent : Agent) :
    MsgProgram DeliveryAttemptResult :=
  if !truthy toAgent.webhookUrl || !truthy toAgent.webhookSecret then .ret ⟨.terminal, none⟩
  else .step fun w a =>
    match a with
    | .push answer => some (attemptResult answer, note w p (.pushed m answer))
    | _ => none

/-- `parse_retry_after`. -/
def parseRetryAfter (header : Option Int) (ownMinSeconds : Nat) : Nat :=
  match header with
  | none => ownMinSeconds
  | some parsed => if parsed < 0 then ownMinSeconds else max ownMinSeconds parsed.toNat

def messageRetryMaxAttempts : Nat := 3

/-- `MESSAGE_RETRY_BACKOFF_MINUTES[min(attempt - 1, len - 1)] * 60`; attempt 0 would index from
the end. -/
def backoffSeconds : Nat → Nat
  | 0 => 900
  | 1 => 60
  | 2 => 300
  | _ + 3 => 900

/-- `now + timedelta(seconds=n)`; `none` is the `OverflowError` after the year 9999. -/
def plusSeconds (now : Time) (n : Nat) : Option Time :=
  if now + seconds n ≤ 253402300799999999 then some (now + seconds n) else none

/-! ## The steps of a task -/

structure MsgContext where
  msg : Message
  toAgent : Agent
  fromAgent : Agent
  userSlug : String

/-- The sending agent and the slug of the user, where both exist. -/
def senderOf (t : MsgTables) (msg : Message) : Option (Agent × String) :=
  (t.agent msg.fromAgentId).bind fun fromAgent =>
    (env.userSlug msg.userId).map fun slug => (fromAgent, slug)

/-- `_load_message_context`. -/
def loadMessageContext (p : Pid) (m : MsgId) (toAgentId : AgentId) :
    MsgProgram (Option MsgContext) := do
  let msg? ← lookup p fun t => t.message m
  match msg? with
  | none => return none
  | some msg =>
      let toAgent? ← lookup p fun t => (t.agent toAgentId).filter fun a => a.webhookUrl.isSome
      match toAgent? with
      | none => return none
      | some toAgent =>
          let sender? ← lookup p fun t => senderOf env t msg
          match sender? with
          | none => return none
          | some (fromAgent, slug) => return some ⟨msg, toAgent, fromAgent, slug⟩

/-- What `_check_concurrent_cap_or_recycle` tells its caller: stop, or go on, with a key to
release or without one. -/
inductive Cap
  | capped
  | proceed (key : Bool)
  deriving DecidableEq, Repr

/-- `_check_concurrent_cap_or_recycle`: a Redis error lets the request through. -/
def checkConcurrentCapOrRecycle (p : Pid) (user : UserId) (task : MsgTask)
    (payload : MsgPayload) : MsgProgram Cap := do
  if !env.redis then return .proceed false
  else
    let current? ← incrBy user 1
    match current? with
    | none => return .proceed true
    | some current =>
        let set ← expireCounter
        if !set then return .proceed true
        else if env.maxConcurrentDeliveriesPerUser < current then
          let undone? ← incrBy user (-1)
          if undone?.isNone then return .proceed true
          else
            let now ← clock
            insertOutbox p ⟨task, payload, false, some (now + seconds 30)⟩
            commit p
            return .capped
        else return .proceed true

/-- `_release_concurrent`, which swallows Redis errors. -/
def releaseConcurrent (user : UserId) (key : Bool) : MsgProgram Unit := do
  if env.redis && key then
    let _ ← incrBy user (-1)
    return ()
  else return ()

/-- `_claim_message`: conditional UPDATE, then commit. -/
def claimMessage (p : Pid) (m : MsgId) (expected : DeliveryState) : MsgProgram Bool := do
  let now ← clock
  let claimed ← updateMessagesWhere p (fun m' r => m' = m && r.deliveryState = expected)
    (.claim expected now)
  commit p
  return claimed ≠ []

/-- `_route_attempt_outcome`: every UPDATE names the message by its id alone. -/
def routeAttemptOutcome (p : Pid) (m : MsgId) (toAgentId : AgentId) (toAgent : Agent)
    (attempt : Nat) (result : DeliveryAttemptResult) : MsgProgram Unit := do
  let now ← clock
  if result.category = .success then
    let _ ← updateMessageById p m (.pushDelivered now)
    commit p
  else if result.category = .retryable ∧ attempt < messageRetryMaxAttempts + 1 then
    match plusSeconds now (parseRetryAfter result.retryAfterHeader (backoffSeconds attempt)) with
    | none => .fail
    | some scheduledAt =>
        insertOutbox p ⟨.retryMessage, ⟨m, toAgentId, toAgent.webhookUrl, some (attempt + 1)⟩,
          false, some scheduledAt⟩
        let _ ← updateMessageById p m .pushRetry
        commit p
  else
    let _ ← updateMessageById p m (.pushFailed now)
    commit p

/-- Both tasks: claim from the state the task expects, push, and route the result. -/
def pushMessage (p : Pid) (task : MsgTask) (expected : DeliveryState) (attempt : Nat)
    (payload : MsgPayload) : MsgProgram Unit := do
  let ctx? ← loadMessageContext env p payload.messageId payload.toAgentId
  match ctx? with
  | none => return ()
  | some ctx =>
      let cap ← checkConcurrentCapOrRecycle env p ctx.msg.userId task payload
      match cap with
      | .capped => return ()
      | .proceed key =>
          let claimed ← claimMessage p payload.messageId expected
          if claimed then
            -- the refresh raises when the row is gone
            let row? ← select p fun t => t.message payload.messageId
            match row? with
            | none => .fail
            | some _ =>
                let result ← deliverMessageToWebhook p payload.messageId ctx.toAgent
                routeAttemptOutcome p payload.messageId payload.toAgentId ctx.toAgent attempt result
                releaseConcurrent env ctx.msg.userId key
          else releaseConcurrent env ctx.msg.userId key

/-- `deliver_message_task`. -/
def deliverMessageTask (p : Pid) (payload : MsgPayload) : MsgProgram Unit :=
  pushMessage env p .deliverMessage .queued 1 payload

/-- `retry_message_task`. -/
def retryMessageTask (p : Pid) (payload : MsgPayload) : MsgProgram Unit :=
  pushMessage env p .retryMessage .retryReady (payload.attempt.getD 2) payload

end CueApi.Messages
