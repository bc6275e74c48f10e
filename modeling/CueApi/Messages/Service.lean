import CueApi.Messages.Tasks

/-! The recipient side (`inbox_service.py`, `mark_read` and `mark_acked` of `message_service.py`)
and the periodic functions: `dispatch_outbox` and `recover_stale_message_deliveries` of
`worker/poller.py` and `expire_old_messages` of `worker/message_cleanup.py`. -/

namespace CueApi.Messages

open Scheduler Interleaving

variable (env : MsgEnv)

/-! ## The inbox -/

def halfSlugError : ApiError :=
  ⟨"invalid_agent_address", "slug-form address must be 'agent_slug@user_slug'", 400⟩

def malformedError : ApiError :=
  ⟨"invalid_agent_address",
    "address must be opaque ID (agt_xxx) or slug-form (agent_slug@user_slug)", 400⟩

def agentNotFound (text : String) : ApiError :=
  ⟨"agent_not_found", "agent " ++ text ++ " not found", 404⟩

/-- The agents under a slug form. -/
def bySlug (agentSlug userSlug : String) (agent : Agent) : Bool :=
  env.userSlug agent.userId = some userSlug && agent.slug = agentSlug

/-- `scalar_one_or_none` over a unique slug. -/
def findAgent (t : MsgTables) (wh : Agent → Bool) : Option AgentId :=
  (keysWhere t.agents fun _ agent => wh agent).head?

/-- `get_agent_owned` with `include_deleted`. -/
def getAgentOwned (user : UserId) (t : MsgTables) : Address → Except ApiError AgentId
  | .id a text =>
      match (t.agent a).filter fun agent => agent.userId = user with
      | some _ => .ok a
      | none => .error (agentNotFound text)
  | .slug agentSlug userSlug text =>
      match findAgent t fun agent => bySlug env agentSlug userSlug agent && agent.userId = user with
      | some a => .ok a
      | none => .error (agentNotFound text)
  | .halfSlug => .error halfSlugError
  | .malformed => .error malformedError

/-- `resolve_address`. -/
def resolveAddress (t : MsgTables) : Address → Except ApiError AgentId
  | .id a text =>
      match (t.agent a).filter fun agent => agent.deletedAt = none with
      | some _ => .ok a
      | none => .error (agentNotFound text)
  | .slug agentSlug userSlug text =>
      match findAgent t fun agent =>
        bySlug env agentSlug userSlug agent && agent.deletedAt = none with
      | some a => .ok a
      | none => .error (agentNotFound text)
  | .halfSlug => .error halfSlugError
  | .malformed => .error malformedError

/-- `DEFAULT_STATES`. -/
def defaultStates : List DeliveryState :=
  [.queued, .delivering, .retryReady, .delivered, .read, .claimed, .failed]

def invalidStateFilter (s : String) : ApiError :=
  ⟨"invalid_state_filter", "unknown state '" ++ s ++ "'. Valid: ['acked', 'claimed', 'delivered', " ++
    "'delivering', 'expired', 'failed', 'queued', 'read', 'retry_ready']", 400⟩

/-- `_parse_state_filter` on the parts of the query parameter; a part that is no state is
`.error`. -/
def parseStateFilter : Option (List (Except String DeliveryState)) →
    Except ApiError (List DeliveryState)
  | none => .ok defaultStates
  | some parts => parts.mapM fun part =>
      match part with
      | .ok s => .ok s
      | .error s => .error (invalidStateFilter s)

/-- `send_at IS NULL OR send_at <= now`. -/
def sendAtGate (now : Time) (r : Message) : Bool := r.sendAt.all fun s => s ≤ now

/-- `base_filters`. -/
def inInbox (q : InboxQuery) (a : AgentId) (states : List DeliveryState)
    (counterpart : Option AgentId) (now : Time) (r : Message) : Bool :=
  r.toAgentId = a && r.deliveryState ∈ states && sendAtGate now r &&
    (q.since.all fun since => decide (since < r.createdAt)) &&
    (q.threadId.all fun thread => r.threadId = thread) &&
    counterpart.all fun c => r.fromAgentId = c

/-- The rows of a page: newest first, ties by id. -/
def pageOf (t : Table MsgId Message) (wh : Message → Bool) (limit offset : Nat) :
    List (MsgId × Message) :=
  let newer (x y : MsgId × Message) : Bool :=
    y.2.createdAt < x.2.createdAt || (x.2.createdAt = y.2.createdAt && y.1 ≤ x.1)
  let rows := rowsAt t (keysWhere t fun _ r => wh r)
  ((rows.mergeSort newer).drop offset).take limit

/-- The optional counterpart of a query. -/
def resolveCounterpart (p : Pid) (addr : Option Address) :
    MsgProgram (Except ApiError (Option AgentId)) :=
  match addr with
  | none => return .ok none
  | some addr => select p fun t => (resolveAddress env t addr).map some

/-- `list_inbox`. -/
def listInbox (p : Pid) (user : UserId) (q : InboxQuery) : MsgProgram MsgReply := do
  let agent? ← select p fun t => getAgentOwned env user t q.agent
  match agent? with
  | .error e => return .error e
  | .ok a =>
      match parseStateFilter q.states with
      | .error e => return .error e
      | .ok states =>
          let counterpart? ← resolveCounterpart env p q.counterpart
          match counterpart? with
          | .error e => return .error e
          | .ok counterpart =>
              let nowGate ← clock
              let wh := inInbox q a states counterpart nowGate
              if q.countOnly then
                let n ← select p fun t => (keysWhere t.messages fun _ r => wh r).length
                return .count n
              else
                if .queued ∈ states then
                  let updNow ← clock
                  let _ ← updateMessagesWhere p (fun _ r => r.toAgentId = a &&
                    r.deliveryState = .queued && sendAtGate updNow r &&
                    counterpart.all fun c => r.fromAgentId = c) (.polled updNow)
                  write p (.bumpLastSeen a updNow)
                  commit p
                else
                  write p (.bumpLastSeen a nowGate)
                  commit p
                let total ← select p fun t => (keysWhere t.messages fun _ r => wh r).length
                let rows ← select p fun t => pageOf t.messages wh q.limit q.offset
                return .inbox rows total q.limit q.offset

/-! ## Reading and acknowledging -/

def messageNotFound (text : String) : ApiError :=
  ⟨"message_not_found", "message " ++ text ++ " not found", 404⟩

/-- `get_message_for_user`: the sender's user, or the owner of the recipient. -/
def messageForUser (t : MsgTables) (user : UserId) (m : MsgId) : Option Message :=
  (t.message m).bind fun msg => (t.agent msg.toAgentId).bind fun toAgent =>
    if msg.userId = user ∨ toAgent.userId = user then some msg else none

/-- The SELECT of `get_message_for_user`. -/
def selectMessageForUser (p : Pid) (user : UserId) (m : MsgId) : MsgProgram (Option Message) :=
  .step fun w _ =>
    match messageForUser (w.view p) user m with
    | some msg => some (some msg, note w p (.admitted m))
    | none => some (none, w)

/-- `GET /v1/messages/{id}`. -/
def getMessage (p : Pid) (user : UserId) (m : MsgId) (text : String) : MsgProgram MsgReply := do
  let msg? ← selectMessageForUser p user m
  match msg? with
  | none => return .error (messageNotFound text)
  | some msg => return .message msg

/-- `delivery_state` as the column spells it. -/
def DeliveryState.text : DeliveryState → String
  | .queued => "queued"
  | .delivering => "delivering"
  | .retryReady => "retry_ready"
  | .delivered => "delivered"
  | .read => "read"
  | .claimed => "claimed"
  | .acked => "acked"
  | .expired => "expired"
  | .failed => "failed"

def invalidTransition (verb : String) (s : DeliveryState) : ApiError :=
  ⟨"invalid_state_transition", "cannot " ++ verb ++ " on terminal state '" ++ s.text ++ "'", 409⟩

/-- The flush, the commit and the refresh of an ORM change: the UPDATE names the row by its id
alone and raises when it is gone. -/
def flushMessage (p : Pid) (m : MsgId) (u : MsgUpdate) : MsgProgram MsgReply := do
  let hit ← updateMessageById p m u
  if hit = [] then .fail
  else
    commit p
    let row? ← select p fun t => t.message m
    match row? with
    | none => .fail
    | some row => return .message row

/-- `mark_read`. -/
def markRead (p : Pid) (user : UserId) (m : MsgId) (text : String) : MsgProgram MsgReply := do
  let msg? ← selectMessageForUser p user m
  match msg? with
  | none => return .error (messageNotFound text)
  | some msg =>
      if msg.deliveryState = .acked ∨ msg.deliveryState = .expired then
        return .error (invalidTransition "mark read" msg.deliveryState)
      else if msg.deliveryState = .read then return .message msg
      else
        let now ← clock
        flushMessage p m (.markRead now)

/-- `mark_acked`. -/
def markAcked (p : Pid) (user : UserId) (m : MsgId) (text : String) : MsgProgram MsgReply := do
  let msg? ← selectMessageForUser p user m
  match msg? with
  | none => return .error (messageNotFound text)
  | some msg =>
      if msg.deliveryState = .acked then return .message msg
      else if msg.deliveryState = .expired then
        return .error (invalidTransition "ack" msg.deliveryState)
      else
        let now ← clock
        flushMessage p m (.markAcked now)

/-! ## The poller -/

/-- The WHERE clause of `dispatch_outbox`. -/
def outboxDue (now : Time) (o : MsgOutboxRow) : Bool :=
  !o.dispatched && o.scheduledAt.all fun s => s ≤ now

/-- Its SELECT. The rows of cues share the batch, so any number of message rows may be in it. -/
def selectOutboxForUpdate (p : Pid) (now : Time) (batchSize : Nat) :
    MsgProgram (List (OutboxId × MsgOutboxRow)) :=
  .step fun w a =>
    match a with
    | .rows ids =>
        let t := (w.view p).outbox
        let all := keysWhere t fun n o => outboxDue now o && decide (w.store.Free p (.outbox n))
        if ids.Nodup ∧ ids.length ≤ batchSize ∧ ∀ n ∈ ids, n ∈ all then
          (w.store.lock p (ids.map .outbox)).map fun s => (rowsAt t ids, { w with store := s })
        else none
    | _ => none

/-- The body of its loop; the columns that note a failure are read by nobody. -/
def dispatchRow (p : Pid) (x : OutboxId × MsgOutboxRow) : MsgProgram Bool := do
  let sent ← enqueueJob p x.1 ⟨x.2.taskType, x.2.payload⟩
  if sent then
    write p (.markDispatched x.1)
    return true
  else return false

def dispatchOutbox (p : Pid) : MsgProgram MsgReply := do
  let now ← clock
  let rows ← selectOutboxForUpdate p now 500
  let sent ← Prog.mapEach (dispatchRow p) rows
  commit p
  return .count (sent.filter id).length

/-- The dispatched push tasks of a message. -/
def priorAttempts (t : MsgTables) (m : MsgId) : Nat :=
  (keysWhere t.outbox fun _ o => o.payload.messageId = m && o.dispatched).length

/-- The COUNT of the sweep. -/
def countAttempts (p : Pid) (m : MsgId) : MsgProgram Nat :=
  .step fun w _ =>
    let prior := priorAttempts (w.view p) m
    some (prior, note w p (.counted m prior))

/-- The body of the loop of `recover_stale_message_deliveries`. -/
def recoverMessage (p : Pid) (now : Time) (x : MsgId × Message) : MsgProgram Unit := do
  let prior ← countAttempts p x.1
  let webhookUrl ← select p fun t => (t.agent x.2.toAgentId).bind Agent.webhookUrl
  if prior < messageRetryMaxAttempts + 1 then
    insertOutbox p ⟨.retryMessage, ⟨x.1, x.2.toAgentId, webhookUrl, some (prior + 1)⟩, false,
      some now⟩
    let _ ← updateMessageById p x.1 .staleRetry
  else
    let _ ← updateMessageById p x.1 (.staleFailed now)

def recoverStaleMessageDeliveries (p : Pid) (staleSeconds : Nat) : MsgProgram MsgReply := do
  let t ← clock
  let staleCutoff := t - seconds staleSeconds
  let now ← clock
  let stale ← selectMessagesForUpdate p (fun r => r.deliveryState = .delivering &&
    r.deliveringStartedAt.any fun started => decide (started < staleCutoff)) 100
  let _ ← Prog.mapEach (recoverMessage p now) stale
  commit p
  return .count stale.length

/-- The WHERE clause of `expire_old_messages`. -/
def pastTtl (now : Time) (r : Message) : Bool :=
  decide (r.expiresAt < now) && !r.deliveryState.terminal

def expireOldMessages (p : Pid) (dryRun : Bool) : MsgProgram MsgReply := do
  let now ← clock
  let eligible ← select p fun t => (keysWhere t.messages fun _ r => pastTtl now r).length
  if dryRun then return .expiry true eligible 0
  else
    let hit ← updateMessagesWhere p (fun _ r => pastTtl now r) .expire
    commit p
    return .expiry false eligible hit.length

end CueApi.Messages
