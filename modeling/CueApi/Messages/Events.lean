import CueApi.Messages.Sending

/-! The readers of events: `pull_events` with the ack of its route, the webhook batches of
`worker/subscription_dispatcher.py` and its tier policy, and `worker/digest_emitter.py`. The short
poll only; the debounce marker of Redis answers for itself. -/

namespace CueApi.Messages

open Scheduler Interleaving

variable (env : MsgEnv)

/-! ## Pull -/

def EventType.text : EventType → String
  | .messageDelivered => "message.delivered"
  | .messageDigest => "message.digest"

/-- The rows with these conditions, oldest first. -/
def eventsWhere (t : MsgTables) (wh : EventId → EventRow → Bool) : List (EventId × EventRow) :=
  (rowsAt t.events (keysWhere t.events wh)).mergeSort fun x y => x.1 ≤ y.1

/-- A SELECT of events, which notes them. -/
def readEvents (p : Pid) (q : MsgTables → List (EventId × EventRow)) :
    MsgProgram (List (EventId × EventRow)) :=
  .step fun w _ =>
    let events := q (w.view p)
    some (events, note w p (.read events))

/-- The page of `pull_events`. -/
def pulledEvents (t : MsgTables) (recipient : AgentId) (since limit : Nat)
    (eventType : Option String) : List (EventId × EventRow) :=
  (eventsWhere t fun x r => r.recipientAgentId = recipient && since < x &&
    eventType.all fun s => r.payload.type.text = s).take (min (max limit 1) 1000)

/-- The WHERE clause of `advance_ack_watermark`. -/
def ackedBy (recipient : AgentId) (cursor : EventId) (eventType : Option String)
    (s : Subscription) : Bool :=
  s.subscriberAgentId = recipient && s.deliveryTarget = .pull && s.detachedAt.isNone &&
    (s.lastAckedEventId.all fun acked => decide (acked < cursor)) &&
    eventType.all fun name => s.eventType.text = name

/-- `UPDATE subscriptions SET … WHERE wh`. -/
def updateSubscriptionsWhere (p : Pid) (wh : SubscriptionId → Subscription → Bool)
    (u : SubUpdate) : MsgProgram Unit :=
  .step fun w _ =>
    let ss := keysWhere (w.view p).subscriptions wh
    (w.store.write p (.updateSubscriptions ss u)).map fun s => ((), { w with store := s })

/-- `_advance_ack_after_pull`. -/
def advanceAckAfterPull (p : Pid) (recipient : AgentId) (nextCursor : Option EventId)
    (eventType : Option String) : MsgProgram Unit := do
  match nextCursor with
  | none => return ()
  | some cursor =>
      updateSubscriptionsWhere p (fun _ s => ackedBy recipient cursor eventType s) (.acked cursor)
      commit p

/-- `pull_events_endpoint`. -/
def pullEvents (p : Pid) (user : UserId) (addr : Address) (since limit : Nat)
    (eventType : Option String) : MsgProgram MsgReply := do
  let agent? ← select p fun t => getLiveAgentOwned env user t addr
  orReply agent? fun (a, _) => do
    let events ← readEvents p fun t => pulledEvents t a since limit eventType
    let nextCursor := events.getLast?.map Prod.fst
    advanceAckAfterPull p a nextCursor eventType
    return .events events nextCursor (events.length = min (max limit 1) 1000)

/-! ## Webhook batches -/

/-- `_event_priority`. -/
def eventPriority (r : EventRow) : Nat :=
  match r.payload with
  | .delivered payload => if 1 ≤ payload.priority ∧ payload.priority ≤ 5 then payload.priority else 3
  | .digest _ _ _ _ => 3

/-- `_fetch_pending_events_for_sub`. -/
def pendingEvents (t : MsgTables) (s : Subscription) : List (EventId × EventRow) :=
  (eventsWhere t fun x r => r.recipientAgentId = s.subscriberAgentId &&
    r.payload.type = s.eventType && s.lastDispatchedEventId.getD 0 < x).take 50

/-- `apply_tier_policy`: the events to fire and those put off. -/
def applyTierPolicy (events : List (EventId × EventRow)) :
    MsgProgram (List (EventId × EventRow) × List (EventId × EventRow)) := do
  if env.redis && events.any fun x => eventPriority x.2 = 4 then
    let debounced ← askBool
    let late (x : EventId × EventRow) : Bool := eventPriority x.2 = 4 && debounced
    return (events.filter fun x => !late x, events.filter late)
  else return (events, [])

/-- `_deliver_webhook`: the status, 0 for a network error. -/
def deliverBatch (p : Pid) (s : Subscription) (events : List (EventId × EventRow)) :
    MsgProgram Nat :=
  .step fun w a =>
    match a with
    | .number status => some (status, note w p (.posted s events))
    | _ => none

/-- How far a successful batch moves the watermark. -/
def newWatermark (s : Subscription) (fired deferred : List (EventId × EventRow)) : EventId :=
  match (deferred.map Prod.fst).min? with
  | none => (fired.getLast?.map Prod.fst).getD 0
  | some lowest =>
      (((fired.filter fun x => x.1 < lowest).getLast?).map Prod.fst).getD
        (s.lastDispatchedEventId.getD 0)

/-- `CIRCUIT_BREAKER_THRESHOLD` and its pause. -/
def pausedAfter (s : Subscription) (now : Time) : Option Time :=
  if 10 ≤ s.consecutiveFailures + 1 then some (now + seconds 3600) else s.pausedUntil

/-- The body of the loop of `dispatch_subscription_events`: whether a batch was sent. -/
def dispatchSubscription (p : Pid) (x : SubscriptionId × Subscription) : MsgProgram Bool := do
  let events ← readEvents p fun t => pendingEvents t x.2
  if events.isEmpty then return false
  else
    let (fire, deferred) ← applyTierPolicy env events
    if fire.isEmpty then return false
    else
      let status ← deliverBatch p x.2 fire
      let now ← clock
      write p (.updateSubscriptions [x.1] (if 200 ≤ status ∧ status < 300 then
          .dispatched (newWatermark x.2 fire deferred) now
        else .failed (x.2.consecutiveFailures + 1) (pausedAfter x.2 now)))
      return true

/-- The WHERE clause of `_fetch_dispatch_due_subs`. -/
def subscriptionDue (now : Time) (s : Subscription) : Bool :=
  s.deliveryTarget = .webhook && s.detachedAt.isNone && s.pausedUntil.all fun t => t < now

/-- `_fetch_dispatch_due_subs`. -/
def selectDueSubscriptions (p : Pid) (now : Time) (batchSize : Nat) :
    MsgProgram (List (SubscriptionId × Subscription)) :=
  .step fun w a =>
    match a with
    | .rows ids =>
        let t := (w.view p).subscriptions
        let order (s : SubscriptionId) : Time :=
          ((t.lookup s).bind Subscription.lastDispatchedEventId).elim (-1) Int.ofNat
        let all := keysWhere t fun s r =>
          subscriptionDue now r && decide (w.store.Free p (.subscription s))
        if Picks batchSize order all ids then
          (w.store.lock p (ids.map .subscription)).map fun s => (rowsAt t ids, { w with store := s })
        else none
    | _ => none

def dispatchSubscriptionEvents (p : Pid) : MsgProgram MsgReply := do
  let now ← clock
  let subs ← selectDueSubscriptions p now 100
  let attempts ← Prog.mapEach (dispatchSubscription env p) subs
  commit p
  return .count (attempts.filter id).length

/-! ## Digests -/

/-- The rows of `_fetch_undigested_events_grouped_by_recipient`. -/
def undigested (t : MsgTables) : List (EventId × EventRow) :=
  eventsWhere t fun _ r => r.digestedAt.isNone && match r.payload with
    | .delivered payload => payload.priority = 1 || payload.priority = 2
    | .digest _ _ _ _ => false

/-- Its groups. -/
def groupedByRecipient (events : List (EventId × EventRow)) :
    List (AgentId × List (EventId × EventRow)) :=
  ((events.map fun x => x.2.recipientAgentId).dedup.mergeSort fun a b => a ≤ b).map fun a =>
    (a, events.filter fun x => x.2.recipientAgentId = a)

/-- The entry of `_build_digest_payload` for one event. -/
def bundle (x : EventId × EventRow) : Option BundledMessage :=
  match x.2.payload with
  | .delivered payload => some ⟨payload.messageId, payload.senderAgentId, payload.subject,
      payload.priority, x.2.emittedAt⟩
  | .digest _ _ _ _ => none

/-- The body of the loop of `emit_digests`: whether a digest was emitted. -/
def emitDigest (p : Pid) (now began : Time) (group : AgentId × List (EventId × EventRow)) :
    MsgProgram Bool := do
  if group.2.length < env.digestMinBatchSize then return false
  else
    let periodStart := (group.2.head?.map fun x => x.2.emittedAt).getD now
    let highest := (group.2.getLast?.map Prod.fst).getD 0
    insertEvent p {
      recipientAgentId := group.1
      payload := .digest group.1 periodStart now (group.2.filterMap bundle)
      emittedAt := began
      idempotencyKey := .messageDigest group.1 highest }
    write p (.markDigested (group.2.map Prod.fst) began)
    return true

def emitDigests (p : Pid) : MsgProgram MsgReply := do
  let now ← clock
  let began ← clock
  let events ← readEvents p undigested
  let emitted ← Prog.mapEach (emitDigest env p now began) (groupedByRecipient events)
  commit p
  return .count (emitted.filter id).length

end CueApi.Messages
