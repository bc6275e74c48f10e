import CueApi.Library.TextColumns
import CueApi.Messages.Service

/-! The sender side: `send_message` of `app/routers/messages.py` with `create_message` of
`message_service.py`, the quota checks of `message_usage_service.py` and `emit_event`, and
`free_old_idempotency_keys` of `worker/message_cleanup.py`. The counters of the quotas are kept
elsewhere and answer with any number; `increment_monthly_count` follows the reply's commit and is
left out. -/

namespace CueApi.Messages

open Scheduler Interleaving
open TextColumns (HasNul)

variable (env : MsgEnv)

/-- Go on with a value, or reply with the error that was raised. -/
def orReply {α : Type} (x : Except ApiError α) (k : α → MsgProgram MsgReply) :
    MsgProgram MsgReply :=
  match x with
  | .error e => return .error e
  | .ok a => k a

/-! ## Errors -/

def missingFromAgent : ApiError :=
  ⟨"missing_from_agent", "X-Cueapi-From-Agent header is required", 400⟩

def invalidIdempotencyKey : ApiError :=
  ⟨"invalid_idempotency_key", "Idempotency-Key must be ≤255 characters", 400⟩

def metadataTooLarge (bytes : Nat) : ApiError :=
  ⟨"metadata_too_large", "metadata exceeds 10240 bytes (got " ++ toString bytes ++ ")", 400⟩

def fromAgentNotOwned : ApiError :=
  ⟨"from_agent_not_owned", "from_agent is not owned by the authenticated user", 403⟩

def fromAgentDeleted : ApiError :=
  ⟨"from_agent_deleted", "from_agent is soft-deleted; cannot send messages", 400⟩

def messageDenied : ApiError :=
  ⟨"cross_tenant_messaging_forbidden", "Authorization backend denied this message", 403⟩

def replyChainDenied : ApiError :=
  ⟨"cross_tenant_messaging_forbidden",
    "Authorization backend denied the reply_to_agent in the chain", 403⟩

def rateLimitExceeded (limit : Nat) : ApiError :=
  ⟨"rate_limit_exceeded", "Message rate limit (" ++ toString limit ++ "/min) exceeded.", 429⟩

def priorityHighRateLimit : ApiError :=
  ⟨"priority_high_rate_limit", "High-priority send limit (10/hour) exceeded.", 429⟩

/-- The spelling of a message id. -/
def messageText (m : MsgId) : String := "msg_" ++ toString m

def idempotencyKeyConflict (m : MsgId) : ApiError :=
  ⟨"idempotency_key_conflict",
    "Idempotency-Key reused with a different body. Existing message: " ++ messageText m, 409⟩

def quotaExceeded (limit count : Nat) : ApiError :=
  ⟨"quota_exceeded", "Monthly message quota of " ++ toString limit ++ " exceeded (" ++
    toString count ++ " sent this month).", 402⟩

/-- The reply to an exception that nothing handles. -/
def internalServerError : ApiError := ⟨"internal_error", "Internal Server Error", 500⟩

def replyToNotFound (text : String) : ApiError :=
  ⟨"reply_to_not_found", "reply_to message " ++ text ++ " not found", 404⟩

/-! ## The checks -/

/-- `resolve_address` with the row it finds. -/
def resolveAgent (t : MsgTables) (addr : Address) : Except ApiError (AgentId × Agent) :=
  match resolveAddress env t addr with
  | .error e => .error e
  | .ok a =>
      match t.agent a with
      | some agent => .ok (a, agent)
      | none => .error (agentNotFound "")

def Address.hasNul : Address → Bool
  | .slug agentSlug userSlug _ => HasNul agentSlug || HasNul userSlug
  | .id _ _ | .halfSlug | .malformed => false

/-- `resolve_address` of an address in the body; PostgreSQL refuses to look a NUL up. -/
def selectAgent (p : Pid) (addr : Address) : MsgProgram (Except ApiError (AgentId × Agent)) :=
  if addr.hasNul then return .error internalServerError
  else select p fun t => resolveAgent env t addr

def resolveReplyToAgent (p : Pid) (addr : Option Address) :
    MsgProgram (Except ApiError (Option AgentId)) := do
  match addr with
  | none => return .ok none
  | some addr =>
      let replyToAgent? ← selectAgent env p addr
      return replyToAgent?.map fun x => some x.1

/-- `METADATA_MAX_BYTES`. -/
def metadataMaxBytes : Nat := 10240

/-- Steps 1 and 2 of `create_message`. -/
def checkSender (user : UserId) (fromAgent : Agent) (data : MessageCreate) : Except ApiError Unit :=
  if metadataMaxBytes < data.metadata.dumps.utf8ByteSize then
    .error (metadataTooLarge data.metadata.dumps.utf8ByteSize)
  else if fromAgent.userId ≠ user then .error fromAgentNotOwned
  else if fromAgent.deletedAt.isSome then .error fromAgentDeleted
  else .ok ()

/-- `authorize_message` for the message, and for the reply chain where there is one. -/
def authorizeMessage (replyToAgent : Option AgentId) : MsgProgram (Except ApiError Unit) := do
  let primaryAllowed ← askBool
  if !primaryAllowed then return .error messageDenied
  else if replyToAgent.isNone then return .ok ()
  else
    let replyAllowed ← askBool
    if !replyAllowed then return .error replyChainDenied
    else return .ok ()

/-- `PER_MINUTE_BY_PLAN`. -/
def perMinuteByPlan (plan : String) : Nat :=
  if plan = "pro" then 60 else if plan = "scale" then 300 else 10

/-- `check_per_minute_rate_limit`: a Redis error lets the request through. -/
def checkPerMinuteRateLimit (user : UserId) : MsgProgram (Except ApiError Unit) := do
  let limit := perMinuteByPlan (env.plan user)
  let count? ← askCount
  if count?.any (fun count => limit ≤ count) then return .error (rateLimitExceeded limit)
  else return .ok ()

/-- `INCR`, and `EXPIRE` of a new key. -/
def incrHourly : MsgProgram (Option Nat) := do
  let count? ← askCount
  if count? = some 1 then
    let set ← expireCounter
    return if set then count? else none
  else return count?

/-- `check_priority_high_limits`: the effective priority, and whether it was downgraded. -/
def checkPriorityHighLimits (priority : Nat) : MsgProgram (Except ApiError (Nat × Bool)) := do
  if priority ≤ 3 then return .ok (priority, false)
  else
    let senderCount? ← incrHourly
    match senderCount? with
    | none => return .ok (priority, false)
    | some senderCount =>
        if 10 < senderCount then return .error priorityHighRateLimit
        else
          let pairCount? ← incrHourly
          if pairCount?.any (fun pairCount => 5 < pairCount) then return .ok (3, true)
          else return .ok (priority, false)

/-- The checks of step 4.5. -/
def checkLimits (user : UserId) (priority : Nat) : MsgProgram (Except ApiError (Nat × Bool)) := do
  if env.disableQuotaEnforcement then return .ok (priority, false)
  else
    let rate? ← checkPerMinuteRateLimit env user
    match rate? with
    | .error e => return .error e
    | .ok () => checkPriorityHighLimits priority

/-- `check_message_quota`: a count that nobody can tell is 0. -/
def checkMessageQuota (user : UserId) : MsgProgram (Except ApiError Unit) := do
  if env.disableQuotaEnforcement then return .ok ()
  else
    let count? ← askCount
    let count := count?.getD 0
    let limit := env.monthlyMessageLimit user
    if limit ≤ count then return .error (quotaExceeded limit count)
    else return .ok ()

/-! ## Idempotency -/

/-- `IDEMPOTENCY_DEDUP_WINDOW_HOURS`. -/
def dedupWindow : Time := seconds (24 * 3600)

/-- The row under a key that was created after `cutoff`. -/
def keyedSince (t : MsgTables) (user : UserId) (key : String) (cutoff : Time) :
    Option (MsgId × Message) :=
  (keysWhere t.messages fun _ r => r.keyed = some (user, key) && cutoff < r.createdAt).head?.bind
    fun m => (t.message m).map fun r => (m, r)

/-- The dedup lookup of `create_message`, which notes what the request is about to compare. -/
def lookupKey (p : Pid) (user : UserId) (key : String) (cutoff : Time) (fields : Fingerprinted) :
    MsgProgram (Option (MsgId × Message)) :=
  .step fun w _ =>
    let found := keyedSince (w.view p) user key cutoff
    some (found, note w p (.looked cutoff w.clock fields (found.map Prod.fst)))

/-- Step 5: the message under the key, or none. -/
def checkIdempotency (p : Pid) (user : UserId) (key : Option String) (fields : Fingerprinted)
    (fingerprint : String) : MsgProgram (Except ApiError (Option (MsgId × Message))) := do
  match key with
  | none => return .ok none
  | some key =>
      let now ← clock
      let existing ← lookupKey p user key (now - dedupWindow) fields
      match existing with
      | none => return .ok none
      | some (m, row) =>
          if row.idempotencyFingerprint = some fingerprint then return .ok (some (m, row))
          else return .error (idempotencyKeyConflict m)

/-! ## The message -/

/-- `session.get` of a parent. -/
def selectParent (p : Pid) (m : MsgId) : MsgProgram (Option Message) :=
  .step fun w _ =>
    let parent := (w.view p).message m
    some (parent, note w p (.resolved m parent.isSome))

/-- `_resolve_reply_to`: the thread and the parent. -/
def resolveReplyTo (p : Pid) (replyTo : Option (MsgId × String)) :
    MsgProgram (Except ApiError (Option (MsgId × MsgId))) := do
  match replyTo with
  | none => return .ok none
  | some (m, text) =>
      let parent? ← selectParent p m
      match parent? with
      | none => return .error (replyToNotFound text)
      | some parent => return .ok (some (parent.threadId, m))

/-- `send_at` where it lies in the future. To compare a naive one is a `TypeError`. -/
def effectiveSendAt (now : Time) : Option DateTime → Except ApiError (Option Time)
  | none => .ok none
  | some sendAt =>
      if sendAt.aware then .ok (if now < sendAt.time then some sendAt.time else none)
      else .error internalServerError

/-- What a new message is made of. -/
structure Draft where
  user : UserId
  fromAgent : AgentId
  toAgent : AgentId
  webhookUrl : Option String
  replyToAgent : Option AgentId
  parent : Option (MsgId × MsgId)
  priority : Nat
  fingerprint : String
  key : Option String
  sendAt : Option Time
  createdAt : Time
  now : Time
  data : MessageCreate

/-- The row of `create_message`. An empty key is stored without a fingerprint. -/
def Draft.row (d : Draft) (m : MsgId) : Message where
  userId := d.user
  fromAgentId := d.fromAgent
  toAgentId := d.toAgent
  threadId := (d.parent.map Prod.fst).getD m
  replyTo := d.parent.map Prod.snd
  subject := d.data.subject
  body := d.data.body
  preview := String.ofList (d.data.body.toList.take 200)
  priority := d.priority
  expectsReply := d.data.expectsReply
  replyToAgentId := d.replyToAgent
  metadata := d.data.metadata
  idempotencyKey := d.key
  idempotencyFingerprint := if truthy d.key then some d.fingerprint else none
  createdAt := d.createdAt
  sendAt := d.sendAt
  expiresAt := d.now + seconds (env.messageTtlDays * 86400)
  dispatchPriorityBucket := d.priority
  correlationId := d.data.correlationId

/-- `INLINE_BODY_MAX_BYTES`. -/
def inlineBodyMaxBytes : Nat := 32 * 1024

/-- An active subscription of the recipient asks for bodies. -/
def hasInlineSub (t : MsgTables) (recipient : AgentId) : Bool :=
  !(keysWhere t.subscriptions fun _ s => s.subscriberAgentId = recipient &&
    s.eventType = .messageDelivered && s.detachedAt.isNone && s.inlineBody).isEmpty

/-- `_maybe_embed_body`. -/
def maybeEmbedBody (inlineSub : Bool) (body : String) : EventBody :=
  if !inlineSub then .absent
  else if body.utf8ByteSize ≤ inlineBodyMaxBytes then .inline body
  else .tooLarge body.utf8ByteSize

/-- The `message.delivered` event of a new message. -/
def Draft.event (d : Draft) (m : MsgId) (body : EventBody) : EventRow where
  recipientAgentId := d.toAgent
  payload := .delivered ⟨m, d.fromAgent, d.toAgent, (d.parent.map Prod.fst).getD m,
    d.parent.map Prod.snd, d.priority, d.data.correlationId, d.data.subject, body⟩
  emittedAt := d.createdAt
  idempotencyKey := .messageDelivered m

/-- The outbox row of a new message. -/
def Draft.outbox (d : Draft) (m : MsgId) : MsgOutboxRow :=
  ⟨.deliverMessage, ⟨m, d.toAgent, d.webhookUrl, none⟩, false, d.sendAt⟩

/-- `body_size_limit`, in bytes. -/
def bodySizeLimit : Nat := 32768

/-- What the columns of `messages` ask for beyond the schema: the limit on the body in octets, and
no NUL. -/
structure MessageCreate.Storable (data : MessageCreate) : Prop where
  octets : data.body.utf8ByteSize ≤ bodySizeLimit
  body : ¬ HasNul data.body
  subject : ∀ s ∈ data.subject, ¬ HasNul s
  correlationId : ∀ s ∈ data.correlationId, ¬ HasNul s

instance (data : MessageCreate) : Decidable data.Storable :=
  decidable_of_iff (data.body.utf8ByteSize ≤ bodySizeLimit ∧ ¬ HasNul data.body ∧
      (∀ s ∈ data.subject, ¬ HasNul s) ∧ ∀ s ∈ data.correlationId, ¬ HasNul s)
    ⟨fun h => ⟨h.1, h.2.1, h.2.2.1, h.2.2.2⟩, fun h => ⟨h.octets, h.body, h.subject, h.correlationId⟩⟩

/-- PostgreSQL takes the texts and the metadata of the message. -/
def MsgEnv.takes (env : MsgEnv) (data : MessageCreate) : Bool :=
  data.Storable && env.takesJson data.metadata

/-- PostgreSQL refuses a statement with a value of the request. -/
def MsgEnv.refuses (env : MsgEnv) (data : MessageCreate) : Bool :=
  data.toAgent.hasNul || data.replyToAgent.any Address.hasNul || !env.takes data

/-- The push of the new message is enqueued when the recipient has an endpoint. -/
def enqueueDelivery (p : Pid) (d : Draft) (m : MsgId) : MsgProgram Unit :=
  if d.webhookUrl.isSome then insertOutbox p (d.outbox m) else return ()

/-- The flush, the event, the outbox row and the commit. `emit_event` swallows an INSERT that
fails, and the session fails at the commit. -/
def persist (p : Pid) (d : Draft) (downgraded : Bool) : MsgProgram MsgReply := do
  if !env.takes d.data then return .error internalServerError
  else
    let inserted? ← insertMessage p (d.row env)
    match inserted? with
    | none => return .error internalServerError
    | some m =>
        let inlineSub ← select p fun t => hasInlineSub t d.toAgent
        insertEvent p (d.event m (maybeEmbedBody inlineSub d.data.body))
        enqueueDelivery p d m
        let seen ← clock
        write p (.bumpLastSeen d.fromAgent seen)
        commit p
        let row? ← select p fun t => t.message m
        match row? with
        | none => return .error internalServerError
        | some row => return .sent m row false downgraded

/-- Steps 5 to 7 of `create_message`. -/
def createKeyed (p : Pid) (user : UserId) (createdAt : Time) (fromAgent toAgent : AgentId × Agent)
    (replyToAgent : Option AgentId) (priority : Nat) (downgraded : Bool) (req : SendRequest) :
    MsgProgram MsgReply := do
  let data := req.data
  let fields : Fingerprinted := ⟨toAgent.1, data.body, data.subject, priority,
    data.replyTo.map Prod.fst, data.metadata⟩
  let fingerprint := env.fingerprint fields
  let existing? ← checkIdempotency p user req.idempotencyKey fields fingerprint
  orReply existing? fun existing =>
    match existing with
    | some (m, row) => return .sent m row true false
    | none => do
        let quota? ← checkMessageQuota env user
        orReply quota? fun _ => do
          let parent? ← resolveReplyTo p data.replyTo
          orReply parent? fun parent => do
            let now ← clock
            orReply (effectiveSendAt now data.sendAt) fun sendAt =>
              persist env p ⟨user, fromAgent.1, toAgent.1, toAgent.2.webhookUrl, replyToAgent,
                parent, priority, fingerprint, req.idempotencyKey, sendAt, createdAt, now, data⟩
                downgraded

/-- `create_message`. -/
def createMessage (p : Pid) (user : UserId) (createdAt : Time) (fromAgent : AgentId × Agent)
    (req : SendRequest) : MsgProgram MsgReply :=
  orReply (checkSender user fromAgent.2 req.data) fun _ => do
    let toAgent? ← selectAgent env p req.data.toAgent
    orReply toAgent? fun toAgent => do
      let replyToAgent? ← resolveReplyToAgent env p req.data.replyToAgent
      orReply replyToAgent? fun replyToAgent => do
        let allowed? ← authorizeMessage replyToAgent
        orReply allowed? fun _ => do
          let limits? ← checkLimits env user req.data.priority
          orReply limits? fun limits =>
            createKeyed env p user createdAt fromAgent toAgent replyToAgent limits.1 limits.2 req

/-- `send_message`; `created_at` is the start of its transaction. -/
def sendMessage (p : Pid) (user : UserId) (req : SendRequest) : MsgProgram MsgReply := do
  let createdAt ← clock
  match req.fromAgent with
  | none => return .error missingFromAgent
  | some addr =>
      let fromAgent? ← select p fun t => resolveAgent env t addr
      orReply fromAgent? fun fromAgent =>
        if req.idempotencyKey.any fun key => 255 < key.length then
          return .error invalidIdempotencyKey
        else createMessage env p user createdAt fromAgent req

/-! ## Keys -/

/-- The rows whose keys are older than `cutoff`, with their index entries. -/
def oldKeys (t : MsgTables) (cutoff : Time) : List (MsgId × UserId × String) :=
  (keysWhere t.messages fun _ r => r.keyed.isSome && r.createdAt < cutoff).filterMap fun m =>
    (t.message m).bind fun r => r.keyed.map fun entry => (m, entry)

/-- `UPDATE messages SET idempotency_key = NULL WHERE created_at < cutoff`. -/
def freeKeysBefore (p : Pid) (cutoff : Time) : MsgProgram Nat :=
  .step fun w _ =>
    let xs := oldKeys (w.view p) cutoff
    (w.store.write p (.freeKeys xs)).map fun s => (xs.length, { w with store := s })

def freeOldIdempotencyKeys (p : Pid) (dryRun : Bool) : MsgProgram MsgReply := do
  let now ← clock
  let cutoff := now - dedupWindow
  let eligible ← select p fun t => (oldKeys t cutoff).length
  if dryRun then return .expiry true eligible 0
  else
    let freed ← freeKeysBefore p cutoff
    commit p
    return .expiry false eligible freed

/-! ## The recipient agent -/

/-- The text of an address, as its errors spell it. -/
def Address.text : Address → String
  | .id _ text | .slug _ _ text => text
  | .halfSlug | .malformed => ""

/-- `get_agent_owned` without the deleted agents. -/
def getLiveAgentOwned (user : UserId) (t : MsgTables) (addr : Address) :
    Except ApiError (AgentId × Agent) :=
  match getAgentOwned env user t addr with
  | .error e => .error e
  | .ok a =>
      match (t.agent a).filter fun agent => agent.deletedAt = none with
      | some agent => .ok (a, agent)
      | none => .error (agentNotFound addr.text)

def invalidCallbackUrl (error : String) : ApiError := ⟨"invalid_callback_url", error, 400⟩

/-- The new value of a column, where it differs from the loaded one. -/
def changed (old new : Option String) : Option (Option String) :=
  if new = old then none else some new

/-- The UPDATE of an agent, where a column has changed. -/
def flushWebhook (p : Pid) (a : AgentId) (url secret : Option (Option String)) : MsgProgram Unit :=
  if url.isSome || secret.isSome then write p (.updateAgent a (.webhook url secret))
  else return ()

/-- The flush of an agent, the commit and the refresh. -/
def flushAgent (p : Pid) (a : AgentId) (url secret : Option (Option String)) :
    MsgProgram MsgReply := do
  flushWebhook p a url secret
  commit p
  let row? ← select p fun t => t.agent a
  match row? with
  | none => .fail
  | some row => return .agent row

/-- `update_agent`; `webhookUrl` is `none` when the field is omitted. -/
def updateAgent (p : Pid) (user : UserId) (addr : Address) (webhookUrl : Option (Option String)) :
    MsgProgram MsgReply := do
  let agent? ← select p fun t => getLiveAgentOwned env user t addr
  orReply agent? fun (a, agent) =>
    match webhookUrl with
    | none => flushAgent p a none none
    | some none =>
        flushAgent p a (changed agent.webhookUrl none) (changed agent.webhookSecret none)
    | some (some url) =>
        match env.validateWebhookUrl url with
        | some error => return .error (invalidCallbackUrl error)
        | none =>
            if agent.webhookSecret.isNone then do
              let secret ← generateSecret
              flushAgent p a (changed agent.webhookUrl (some url)) (some (some secret))
            else flushAgent p a (changed agent.webhookUrl (some url)) none

/-- `soft_delete_agent`. -/
def softDeleteAgent (p : Pid) (user : UserId) (addr : Address) : MsgProgram MsgReply := do
  let agent? ← select p fun t => getLiveAgentOwned env user t addr
  orReply agent? fun (a, _) => do
    let now ← clock
    write p (.updateAgent a (.deleted now))
    commit p
    return .done

end CueApi.Messages
