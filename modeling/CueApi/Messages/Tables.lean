import CueApi.Scheduler.Tables

/-! The rows of messaging (`app/models/message.py`, `agent.py`, `event.py`, `subscription.py` and
the message tasks of `dispatch_outbox`) and the statements that write them. -/

namespace CueApi.Messages

open Scheduler ReadCommitted

abbrev MsgId := Nat
abbrev AgentId := Nat
abbrev EventId := Nat
abbrev SubscriptionId := Nat

inductive DeliveryState
  | queued | delivering | retryReady | delivered | read | claimed | acked | expired | failed
  deriving DecidableEq, Repr

/-- `MESSAGE_TERMINAL_STATES`. -/
def DeliveryState.terminal (s : DeliveryState) : Bool := s = .acked || s = .expired

structure Message where
  userId : UserId
  fromAgentId : AgentId
  toAgentId : AgentId
  threadId : MsgId
  replyTo : Option MsgId := none
  subject : Option String := none
  body : String
  preview : String := ""
  priority : Nat := 3
  expectsReply : Bool := false
  replyToAgentId : Option AgentId := none
  deliveryState : DeliveryState := .queued
  metadata : Json := ⟨"\x7b\x7d", false⟩
  idempotencyKey : Option String := none
  idempotencyFingerprint : Option String := none
  createdAt : Time
  deliveredAt : Option Time := none
  readAt : Option Time := none
  ackedAt : Option Time := none
  failedAt : Option Time := none
  deliveringStartedAt : Option Time := none
  sendAt : Option Time := none
  expiresAt : Time
  dispatchPriorityBucket : Nat := 3
  messageDispatchError : Option String := none
  correlationId : Option String := none
  deriving DecidableEq, Repr

/-- The UPDATEs of `messages`. `push…` are those of `_route_attempt_outcome`, `stale…` those of
`recover_stale_message_deliveries`. -/
inductive MsgUpdate
  | claim (expected : DeliveryState) (now : Time)
  | pushDelivered (now : Time)
  | pushRetry
  | pushFailed (now : Time)
  | staleRetry
  | staleFailed (now : Time)
  | polled (now : Time)
  | markRead (now : Time)
  | markAcked (now : Time)
  | expire
  deriving DecidableEq, Repr

def MsgUpdate.set : MsgUpdate → Message → Message
  | .claim _ now, m => { m with deliveryState := .delivering, deliveringStartedAt := some now }
  | .pushDelivered now, m =>
      { m with deliveryState := .delivered, deliveredAt := some now, deliveringStartedAt := none }
  | .pushRetry, m => { m with deliveryState := .retryReady, deliveringStartedAt := none }
  | .pushFailed now, m =>
      { m with deliveryState := .failed, failedAt := some now, deliveringStartedAt := none }
  | .staleRetry, m => { m with deliveryState := .retryReady, deliveringStartedAt := none }
  | .staleFailed now, m =>
      { m with deliveryState := .failed, failedAt := some now, deliveringStartedAt := none }
  | .polled now, m => { m with deliveryState := .delivered, deliveredAt := some now }
  | .markRead now, m => { m with deliveryState := .read, readAt := some now }
  | .markAcked now, m => { m with deliveryState := .acked, ackedAt := some now }
  | .expire, m => { m with deliveryState := .expired }

/-- The columns of an agent that messaging reads. -/
structure Agent where
  userId : UserId
  slug : String
  webhookUrl : Option String := none
  webhookSecret : Option String := none
  lastSeenAt : Option Time := none
  deletedAt : Option Time := none
  deriving DecidableEq, Repr

/-- The UPDATEs of `agents` by its owner; a column that keeps its value is not written. -/
inductive AgentUpdate
  | webhook (url secret : Option (Option String))
  | deleted (now : Time)
  deriving DecidableEq, Repr

def AgentUpdate.set : AgentUpdate → Agent → Agent
  | .webhook url secret, agent =>
      { agent with
        webhookUrl := url.getD agent.webhookUrl
        webhookSecret := secret.getD agent.webhookSecret }
  | .deleted now, agent => { agent with deletedAt := some now }

inductive MsgTask
  | deliverMessage | retryMessage
  deriving DecidableEq, Repr

/-- The payload of a message task; the first task carries no `attempt`. -/
structure MsgPayload where
  messageId : MsgId
  toAgentId : AgentId
  webhookUrl : Option String := none
  attempt : Option Nat := none
  deriving DecidableEq, Repr

structure MsgOutboxRow where
  taskType : MsgTask
  payload : MsgPayload
  dispatched : Bool := false
  scheduledAt : Option Time := none
  deriving DecidableEq, Repr

/-! ## Events -/

/-- The body of a message in the payload of its event: left out, `body`, or `body_omitted` with
`body_size_bytes`. -/
inductive EventBody
  | absent
  | inline (body : String)
  | tooLarge (bytes : Nat)
  deriving DecidableEq, Repr

/-- The payload of `message.delivered`. -/
structure DeliveredPayload where
  messageId : MsgId
  senderAgentId : AgentId
  recipientAgentId : AgentId
  threadId : MsgId
  replyTo : Option MsgId
  priority : Nat
  correlationId : Option String
  subject : Option String
  body : EventBody := .absent
  deriving DecidableEq, Repr

/-- One entry of `bundled_messages`. -/
structure BundledMessage where
  messageId : MsgId
  senderAgentId : AgentId
  subject : Option String
  priority : Nat
  emittedAt : Time
  deriving DecidableEq, Repr

inductive EventPayload
  | delivered (payload : DeliveredPayload)
  | digest (recipient : AgentId) (periodStart periodEnd : Time) (bundled : List BundledMessage)
  deriving DecidableEq, Repr

inductive EventType
  | messageDelivered | messageDigest
  deriving DecidableEq, Repr

def EventPayload.type : EventPayload → EventType
  | .delivered _ => .messageDelivered
  | .digest _ _ _ _ => .messageDigest

/-- `idempotency_key` of an event, with its type. -/
inductive EventKey
  | messageDelivered (m : MsgId)
  | messageDigest (recipient : AgentId) (highest : EventId)
  deriving DecidableEq, Repr

def EventKey.type : EventKey → EventType
  | .messageDelivered _ => .messageDelivered
  | .messageDigest _ _ => .messageDigest

structure EventRow where
  recipientAgentId : AgentId
  payload : EventPayload
  emittedAt : Time
  idempotencyKey : EventKey
  digestedAt : Option Time := none
  deriving DecidableEq, Repr

inductive DeliveryTarget
  | pull | webhook
  deriving DecidableEq, Repr

structure Subscription where
  subscriberAgentId : AgentId
  eventType : EventType
  deliveryTarget : DeliveryTarget
  webhookUrl : Option String := none
  webhookSecret : Option String := none
  lastDispatchedEventId : Option EventId := none
  lastDispatchedAt : Option Time := none
  lastAckedEventId : Option EventId := none
  consecutiveFailures : Nat := 0
  pausedUntil : Option Time := none
  inlineBody : Bool := false
  detachedAt : Option Time := none
  deriving DecidableEq, Repr

/-- The UPDATEs of `subscriptions`. -/
inductive SubUpdate
  | dispatched (watermark : EventId) (now : Time)
  | failed (failures : Nat) (pausedUntil : Option Time)
  | acked (watermark : EventId)
  deriving DecidableEq, Repr

def SubUpdate.set : SubUpdate → Subscription → Subscription
  | .dispatched watermark now, sub =>
      { sub with
        lastDispatchedEventId := some watermark
        lastDispatchedAt := some now
        consecutiveFailures := 0
        lastAckedEventId := some watermark }
  | .failed failures pausedUntil, sub =>
      { sub with consecutiveFailures := failures, pausedUntil := pausedUntil }
  | .acked watermark, sub => { sub with lastAckedEventId := some watermark }

/-! ## Tables and writes -/

structure MsgTables where
  messages : Table MsgId Message := ∅
  agents : Table AgentId Agent := ∅
  outbox : Table OutboxId MsgOutboxRow := ∅
  events : Table EventId EventRow := ∅
  subscriptions : Table SubscriptionId Subscription := ∅

/-- One write statement; an UPDATE names the rows it matches, and `freeKeys` also their entries of
`unique_user_idempotency_key`. -/
inductive MsgWrite
  | insertMessage (m : MsgId) (row : Message)
  | updateMessages (ms : List MsgId) (u : MsgUpdate)
  | freeKeys (xs : List (MsgId × UserId × String))
  | insertOutbox (n : OutboxId) (row : MsgOutboxRow)
  | markDispatched (n : OutboxId)
  | bumpLastSeen (a : AgentId) (now : Time)
  | updateAgent (a : AgentId) (u : AgentUpdate)
  | insertEvent (x : EventId) (row : EventRow)
  | markDigested (xs : List EventId) (now : Time)
  | updateSubscriptions (ss : List SubscriptionId) (u : SubUpdate)
  deriving DecidableEq, Repr

section Table

variable {K V : Type} [DecidableEq K]

/-- Change the rows with these keys. -/
def modifyEntry (ks : List K) (f : V → V) (x : (_ : K) × V) : (_ : K) × V :=
  if x.1 ∈ ks then ⟨x.1, f x.2⟩ else x

theorem modifyEntry_fst (ks : List K) (f : V → V) (x : (_ : K) × V) :
    (modifyEntry ks f x).1 = x.1 := by
  unfold modifyEntry
  split <;> rfl

def modifyAll (t : Table K V) (ks : List K) (f : V → V) : Table K V :=
  ⟨t.entries.map (modifyEntry ks f), by
    have hkeys : (t.entries.map (modifyEntry ks f)).map Sigma.fst = t.entries.map Sigma.fst := by
      rw [List.map_map]
      exact List.map_congr_left fun x _ => modifyEntry_fst ks f x
    change ((t.entries.map (modifyEntry ks f)).map Sigma.fst).Nodup
    rw [hkeys]
    exact t.nodupKeys⟩

theorem lookup_modifyAll (t : Table K V) (ks : List K) (f : V → V) (k : K) :
    (modifyAll t ks f).lookup k = if k ∈ ks then (t.lookup k).map f else t.lookup k := by
  refine Option.ext fun v => ?_
  change v ∈ (modifyAll t ks f).lookup k ↔ _
  rw [AList.mem_lookup_iff]
  change ⟨k, v⟩ ∈ t.entries.map (modifyEntry ks f) ↔ _
  rw [List.mem_map]
  constructor
  · rintro ⟨⟨k', v'⟩, hm, heq⟩
    have hl : t.lookup k' = some v' := AList.mem_lookup_iff.mpr hm
    unfold modifyEntry at heq
    split at heq
    · rename_i hk
      cases heq
      simp [hk, hl]
    · rename_i hk
      cases heq
      simp [hk, hl]
  · intro hv
    split at hv
    · rename_i hk
      obtain ⟨v', hl, rfl⟩ := Option.map_eq_some_iff.mp hv
      exact ⟨⟨k, v'⟩, AList.mem_lookup_iff.mp hl, by simp [modifyEntry, hk]⟩
    · rename_i hk
      exact ⟨⟨k, v⟩, AList.mem_lookup_iff.mp hv, by simp [modifyEntry, hk]⟩

end Table

/-- The entry of `unique_user_idempotency_key` that a row takes. -/
def Message.keyed (r : Message) : Option (UserId × String) :=
  r.idempotencyKey.map fun key => (r.userId, key)

/-- `SET idempotency_key = NULL` on the rows with these entries. -/
def Message.freeKey (entries : List (UserId × String)) (r : Message) : Message :=
  if r.keyed.any fun entry => entry ∈ entries then { r with idempotencyKey := none } else r

namespace MsgTables

def message (t : MsgTables) (m : MsgId) : Option Message := t.messages.lookup m
def agent (t : MsgTables) (a : AgentId) : Option Agent := t.agents.lookup a
def outboxRow (t : MsgTables) (n : OutboxId) : Option MsgOutboxRow := t.outbox.lookup n
def event (t : MsgTables) (x : EventId) : Option EventRow := t.events.lookup x
def subscription (t : MsgTables) (s : SubscriptionId) : Option Subscription :=
  t.subscriptions.lookup s

/-- `unique_user_idempotency_key` has an entry. -/
def KeyTaken (t : MsgTables) (user : UserId) (key : String) : Prop :=
  ∃ m r, t.message m = some r ∧ r.keyed = some (user, key)

/-- `ux_events_idempotency_key` has an entry. -/
def EventKeyTaken (t : MsgTables) (key : EventKey) : Prop :=
  ∃ x r, t.event x = some r ∧ r.idempotencyKey = key

def apply : MsgWrite → MsgTables → MsgTables
  | .insertMessage m row, t => { t with messages := insertNew t.messages m row }
  | .updateMessages ms u, t => { t with messages := modifyAll t.messages ms u.set }
  | .freeKeys xs, t =>
      { t with messages := modifyAll t.messages (xs.map Prod.fst)
                 (Message.freeKey (xs.map Prod.snd)) }
  | .insertOutbox n row, t => { t with outbox := insertNew t.outbox n row }
  | .markDispatched n, t =>
      { t with outbox := modify t.outbox n fun o => { o with dispatched := true } }
  | .bumpLastSeen a now, t =>
      { t with agents := modify t.agents a fun agent => { agent with lastSeenAt := some now } }
  | .updateAgent a u, t => { t with agents := modify t.agents a u.set }
  | .insertEvent x row, t => { t with events := insertNew t.events x row }
  | .markDigested xs now, t =>
      { t with events := modifyAll t.events xs fun e => { e with digestedAt := some now } }
  | .updateSubscriptions ss u, t =>
      { t with subscriptions := modifyAll t.subscriptions ss u.set }

theorem message_apply (w : MsgWrite) (t : MsgTables) (m : MsgId) :
    (apply w t).message m = match w with
      | .insertMessage m' row => if m = m' then (t.message m).or (some row) else t.message m
      | .updateMessages ms u => if m ∈ ms then (t.message m).map u.set else t.message m
      | .freeKeys xs =>
          if m ∈ xs.map Prod.fst then (t.message m).map (Message.freeKey (xs.map Prod.snd))
          else t.message m
      | _ => t.message m := by
  cases w <;> simp only [apply, message, lookup_modifyAll, lookup_insertNew]

theorem outboxRow_apply (w : MsgWrite) (t : MsgTables) (n : OutboxId) :
    (apply w t).outboxRow n = match w with
      | .insertOutbox n' row => if n = n' then (t.outboxRow n).or (some row) else t.outboxRow n
      | .markDispatched n' =>
          if n = n' then (t.outboxRow n).map fun o => { o with dispatched := true }
          else t.outboxRow n
      | _ => t.outboxRow n := by
  cases w <;> simp only [apply, outboxRow, lookup_insertNew, lookup_modify]

theorem event_apply (w : MsgWrite) (t : MsgTables) (x : EventId) :
    (apply w t).event x = match w with
      | .insertEvent x' row => if x = x' then (t.event x).or (some row) else t.event x
      | .markDigested xs now =>
          if x ∈ xs then (t.event x).map fun e => { e with digestedAt := some now } else t.event x
      | _ => t.event x := by
  cases w <;> simp only [apply, event, lookup_insertNew, lookup_modifyAll]

theorem agent_apply (w : MsgWrite) (t : MsgTables) (a : AgentId) :
    (apply w t).agent a = match w with
      | .bumpLastSeen a' now =>
          if a = a' then (t.agent a).map fun agent => { agent with lastSeenAt := some now }
          else t.agent a
      | .updateAgent a' u => if a = a' then (t.agent a).map u.set else t.agent a
      | _ => t.agent a := by
  cases w <;> simp only [apply, agent, lookup_modify]

end MsgTables

inductive MsgKey
  | message (m : MsgId)
  | idempotency (user : UserId) (key : String)
  | outbox (n : OutboxId)
  | agent (a : AgentId)
  | event (x : EventId)
  | eventKey (key : EventKey)
  | subscription (s : SubscriptionId)
  deriving DecidableEq, Repr

/-- The lock of an index entry. -/
def MsgKey.ofEntry (entry : UserId × String) : MsgKey := .idempotency entry.1 entry.2

def MsgWrite.keys : MsgWrite → List MsgKey
  | .insertMessage m row => .message m :: (row.keyed.map MsgKey.ofEntry).toList
  | .updateMessages ms _ => ms.map .message
  | .freeKeys xs => xs.map (fun x => .message x.1) ++ xs.map fun x => MsgKey.ofEntry x.2
  | .insertOutbox n _ | .markDispatched n => [.outbox n]
  | .bumpLastSeen a _ | .updateAgent a _ => [.agent a]
  | .insertEvent x row => [.event x, .eventKey row.idempotencyKey]
  | .markDigested xs _ => xs.map .event
  | .updateSubscriptions ss _ => ss.map .subscription

def MsgKey.Row : MsgKey → Type
  | .message _ => Option Message
  | .idempotency _ _ => Prop
  | .outbox _ => Option MsgOutboxRow
  | .agent _ => Option Agent
  | .event _ => Option EventRow
  | .eventKey _ => Prop
  | .subscription _ => Option Subscription

def MsgTables.row (t : MsgTables) : (k : MsgKey) → k.Row
  | .message m => t.message m
  | .idempotency user key => t.KeyTaken user key
  | .outbox n => t.outboxRow n
  | .agent a => t.agent a
  | .event x => t.event x
  | .eventKey key => t.EventKeyTaken key
  | .subscription s => t.subscription s

/-! ## What a write leaves -/

theorem MsgUpdate.set_keyed (u : MsgUpdate) (r : Message) : (u.set r).keyed = r.keyed := by
  cases u <;> rfl

theorem Message.freeKey_keyed (entries : List (UserId × String)) (r : Message) :
    (r.freeKey entries).keyed = if r.keyed.any fun entry => entry ∈ entries then none
      else r.keyed := by
  unfold Message.freeKey
  split <;> rfl

private theorem message_apply_of_locks {w : MsgWrite} {t : MsgTables} {m : MsgId}
    (hk : MsgKey.message m ∉ w.keys) : (MsgTables.apply w t).message m = t.message m := by
  rw [MsgTables.message_apply]
  cases w with
  | insertMessage m' row => exact if_neg fun h => hk (by simp [MsgWrite.keys, h])
  | updateMessages ms u => exact if_neg fun h => hk (List.mem_map.mpr ⟨m, h, rfl⟩)
  | freeKeys xs =>
    refine if_neg fun h => hk ?_
    obtain ⟨x, hx, rfl⟩ := List.mem_map.mp h
    exact List.mem_append_left _ (List.mem_map.mpr ⟨x, hx, rfl⟩)
  | _ => rfl

/-- An entry that the write does not lock is taken after it by the same rows. -/
private theorem keyed_apply {w : MsgWrite} {t : MsgTables} {user : UserId} {key : String}
    (hk : MsgKey.idempotency user key ∉ w.keys) (m : MsgId) :
    (∃ r, (MsgTables.apply w t).message m = some r ∧ r.keyed = some (user, key)) ↔
      ∃ r, t.message m = some r ∧ r.keyed = some (user, key) := by
  rw [MsgTables.message_apply]
  cases w with
  | insertMessage m' row =>
    dsimp only
    split
    · cases hm : t.message m with
      | some r => rfl
      | none =>
        simp only [Option.none_or, Option.some.injEq, reduceCtorEq, false_and, exists_false,
          iff_false, not_exists, not_and]
        rintro _ rfl hrow
        exact hk (by simp [MsgWrite.keys, hrow, MsgKey.ofEntry])
    · rfl
  | updateMessages ms u =>
    dsimp only
    split
    · simp [u.set_keyed]
    · rfl
  | freeKeys xs =>
    dsimp only
    split
    · have hnot : (user, key) ∉ xs.map Prod.snd := by
        intro h
        obtain ⟨x, hx, heq⟩ := List.mem_map.mp h
        refine hk (List.mem_append_right _ (List.mem_map.mpr ⟨x, hx, ?_⟩))
        simp [MsgKey.ofEntry, heq]
      have hsame : ∀ r : Message, (r.freeKey (xs.map Prod.snd)).keyed = some (user, key) ↔
          r.keyed = some (user, key) := by
        intro r
        rw [Message.freeKey_keyed]
        cases hr : r.keyed with
        | none => simp
        | some entry =>
          simp only [Option.any_some, decide_eq_true_eq]
          split
          · rename_i hmem
            simp only [reduceCtorEq, Option.some.injEq, false_iff]
            rintro rfl
            exact hnot hmem
          · rfl
      simp [hsame]
    · rfl
  | _ => rfl

private theorem eventKeyed_apply {w : MsgWrite} {t : MsgTables} {key : EventKey}
    (hk : MsgKey.eventKey key ∉ w.keys) (x : EventId) :
    (∃ r, (MsgTables.apply w t).event x = some r ∧ r.idempotencyKey = key) ↔
      ∃ r, t.event x = some r ∧ r.idempotencyKey = key := by
  rw [MsgTables.event_apply]
  cases w with
  | insertEvent x' row =>
    dsimp only
    split
    · cases hx : t.event x with
      | some r => rfl
      | none =>
        simp only [Option.none_or, Option.some.injEq, reduceCtorEq, false_and, exists_false,
          iff_false, not_exists, not_and]
        rintro _ rfl hrow
        exact hk (by simp [MsgWrite.keys, hrow])
    · rfl
  | markDigested xs now =>
    dsimp only
    split
    · simp
    · rfl
  | _ => rfl

/-- The messaging tables as a transactional database. -/
def msgSchema : Schema MsgKey MsgTables MsgWrite where
  Row := MsgKey.Row
  row k t := t.row k
  keys := MsgWrite.keys
  apply := MsgTables.apply
  row_apply w t k hk := by
    cases k with
    | message m => exact message_apply_of_locks hk
    | idempotency user key => exact propext (exists_congr fun m => keyed_apply hk m)
    | outbox n =>
      change (MsgTables.apply w t).outboxRow n = t.outboxRow n
      rw [MsgTables.outboxRow_apply]
      cases w with
      | insertOutbox n' row => exact if_neg (by simpa [MsgWrite.keys] using hk)
      | markDispatched n' => exact if_neg (by simpa [MsgWrite.keys] using hk)
      | _ => rfl
    | agent a =>
      change (MsgTables.apply w t).agent a = t.agent a
      rw [MsgTables.agent_apply]
      cases w with
      | bumpLastSeen a' now => exact if_neg (by simpa [MsgWrite.keys] using hk)
      | updateAgent a' u => exact if_neg (by simpa [MsgWrite.keys] using hk)
      | _ => rfl
    | event x =>
      change (MsgTables.apply w t).event x = t.event x
      rw [MsgTables.event_apply]
      cases w with
      | insertEvent x' row => exact if_neg (by simpa [MsgWrite.keys] using hk)
      | markDigested xs now => exact if_neg (by simpa [MsgWrite.keys] using hk)
      | _ => rfl
    | eventKey key => exact propext (exists_congr fun x => eventKeyed_apply hk x)
    | subscription s =>
      cases w with
      | updateSubscriptions ss u =>
        exact (lookup_modifyAll t.subscriptions ss u.set s).trans
          (if_neg (by simpa [MsgWrite.keys] using hk))
      | _ => rfl

end CueApi.Messages
