import CueApi.Library.Machine
import CueApi.Messages.Events

/-! The event stream as a machine: transactions that emit, the pulls of clients, the cycles of
`dispatch_subscription_events`, and the requests that change subscriptions. An event takes its id
from the sequence when it is inserted and is seen from its commit on. A step is one statement with
what the code does up to the next one; between two steps anybody may run. -/

namespace CueApi.Events

open Scheduler (Pid Time Table keysWhere rowsAt Picks insertNew)
open Messages

/-- The events of one POST, and those that the tier policy put off. -/
structure Batch where
  sub : SubscriptionId
  row : Subscription
  fire : List (EventId × EventRow)
  deferred : List (EventId × EventRow)
  deriving DecidableEq, Repr

/-- The transaction of `dispatch_subscription_events`: the subscriptions it has still to serve, the
POST that waits for its answer, and the UPDATEs so far. -/
structure Cycle where
  todo : List (SubscriptionId × Subscription)
  posting : Option Batch := none
  updates : List (SubscriptionId × SubUpdate) := []
  deriving DecidableEq, Repr

/-- A request of `pull_events_endpoint` after its SELECT; `acked` tells whether the transaction of
`_advance_ack_after_pull`, once it has ended, has changed any row. -/
structure Pull where
  agent : AgentId
  since : EventId
  limit : Nat
  eventType : Option String
  page : List (EventId × EventRow)
  acked : Option Bool := none
  deriving DecidableEq, Repr

/-- `visible`, `answered` and `returned` record what has happened: the events that were ever committed
and the batches with the statuses of their answers, latest first, and the ids in the responses that
each client has got. -/
structure Stream where
  tables : MsgTables := {}
  nextId : EventId := 1
  emitted : List (Pid × EventId × EventRow) := []
  locks : SubscriptionId → Option Pid := fun _ => none
  cycles : Pid → Option Cycle := fun _ => none
  pulls : Pid → Option Pull := fun _ => none
  visible : List (EventId × EventRow) := []
  answered : List (Batch × Nat) := []
  returned : Pid → List EventId := fun _ => []

/-! ## Emitting -/

/-- The rows that `p` has inserted and not committed. -/
def Stream.pending (s : Stream) (p : Pid) : List (EventId × EventRow) :=
  (s.emitted.filter fun y => y.1 = p).map Prod.snd

/-- `emit_event`: an entry of `ux_events_idempotency_key` that is not committed makes others wait;
on a conflict the sequence has moved and no row is added. -/
def Stream.emit (s : Stream) (p : Pid) (row : EventRow) : Option Stream :=
  if s.emitted.any fun y => y.1 ≠ p && y.2.2.idempotencyKey = row.idempotencyKey then none
  else
    let taken := (s.emitted.any fun y => y.2.2.idempotencyKey = row.idempotencyKey) ||
      (s.tables.events.entries.any fun y => y.2.idempotencyKey = row.idempotencyKey)
    some { s with
      nextId := s.nextId + 1
      emitted := if taken then s.emitted else (p, s.nextId, row) :: s.emitted }

def insertEvents (t : MsgTables) (rows : List (EventId × EventRow)) : MsgTables :=
  rows.foldl (fun t x => t.apply (.insertEvent x.1 x.2)) t

def Stream.commit (s : Stream) (p : Pid) : Stream :=
  { s with
    tables := insertEvents s.tables (s.pending p)
    visible := s.pending p ++ s.visible
    emitted := s.emitted.filter fun y => y.1 ≠ p }

def Stream.rollback (s : Stream) (p : Pid) : Stream :=
  { s with emitted := s.emitted.filter fun y => y.1 ≠ p }

/-- `cleanup_old_events`. -/
def cleanupOldEvents (t : MsgTables) (cutoff : Time) : MsgTables :=
  let old := keysWhere t.events fun _ r => r.emittedAt < cutoff
  { t with events := old.foldl (fun events x => events.erase x) t.events }

/-! ## Subscriptions -/

/-- `create_subscription`; `ux_subscriptions_active_unique` admits one active row for an agent, a
type and a target. -/
def createSubscription (t : MsgTables) (sub : SubscriptionId) (row : Subscription) :
    Option MsgTables :=
  let fresh : Subscription := {
    subscriberAgentId := row.subscriberAgentId
    eventType := row.eventType
    deliveryTarget := row.deliveryTarget
    webhookUrl := row.webhookUrl
    webhookSecret := row.webhookSecret
    inlineBody := row.inlineBody }
  let clash := keysWhere t.subscriptions fun _ r =>
    r.subscriberAgentId = row.subscriberAgentId && r.eventType = row.eventType &&
      r.deliveryTarget = row.deliveryTarget && r.detachedAt.isNone
  if (t.subscription sub).isNone && clash.isEmpty then
    some { t with subscriptions := insertNew t.subscriptions sub fresh }
  else none

/-- `detach_subscription`. -/
def detachSubscription (t : MsgTables) (sub : SubscriptionId) (agent : AgentId) (now : Time) :
    MsgTables :=
  let matched := keysWhere t.subscriptions fun k r =>
    k = sub && r.subscriberAgentId = agent && r.detachedAt.isNone
  { t with subscriptions := modifyAll t.subscriptions matched fun r =>
      { r with detachedAt := some now } }

/-- `ack_subscription`. -/
def ackSubscription (t : MsgTables) (sub : SubscriptionId) (agent : AgentId) (acked : EventId) :
    MsgTables :=
  t.apply (.updateSubscriptions (keysWhere t.subscriptions fun k r =>
    k = sub && r.subscriberAgentId = agent && r.detachedAt.isNone &&
      r.lastAckedEventId.all fun old => old < acked) (.acked acked))

/-! ## Pulls -/

/-- `pull_events`. -/
def Pull.read (q : Pull) (t : MsgTables) : Pull :=
  { q with page := pulledEvents t q.agent q.since q.limit q.eventType }

def Pull.nextCursor (q : Pull) : Option EventId := q.page.getLast?.map Prod.fst

def Pull.hasMore (q : Pull) : Bool := q.page.length = min (max q.limit 1) 1000

/-- The rows that `advance_ack_watermark` changes. -/
def Pull.acks (q : Pull) (t : MsgTables) : List SubscriptionId :=
  q.nextCursor.elim [] fun cursor =>
    keysWhere t.subscriptions fun _ r => ackedBy q.agent cursor q.eventType r

/-- `_advance_ack_after_pull`; its failure is swallowed. -/
def advanceAck (t : MsgTables) (q : Pull) (stored : Bool) : MsgTables :=
  match q.nextCursor with
  | none => t
  | some cursor => if stored then t.apply (.updateSubscriptions (q.acks t) (.acked cursor)) else t

/-! ## Dispatch -/

def late (debounced : Bool) (x : EventId × EventRow) : Bool := eventPriority x.2 = 4 && debounced

/-- `apply_tier_policy`: the batch of these events, if any is to fire. -/
def splitEvents (x : SubscriptionId × Subscription) (debounced : Bool)
    (events : List (EventId × EventRow)) : Option Batch :=
  let fire := events.filter fun y => !late debounced y
  if fire.isEmpty then none else some ⟨x.1, x.2, fire, events.filter (late debounced)⟩

/-- What one round of the loop posts: nothing without pending events, or when all are put off. -/
def batchFor (t : MsgTables) (x : SubscriptionId × Subscription) (debounced : Bool) : Option Batch :=
  splitEvents x debounced (pendingEvents t x.2)

def Batch.ids (b : Batch) : List EventId := b.fire.map Prod.fst

/-- `_classify_response`. -/
def success (status : Nat) : Bool := 200 ≤ status && status < 300

/-- The UPDATE after the answer; status 0 stands for a timeout or a network error. -/
def Batch.update (b : Batch) (status : Nat) (now : Time) : SubUpdate :=
  if success status then .dispatched (newWatermark b.row b.fire b.deferred) now
  else .failed (b.row.consecutiveFailures + 1) (pausedAfter b.row now)

def applyUpdates (t : MsgTables) (updates : List (SubscriptionId × SubUpdate)) : MsgTables :=
  updates.foldl (fun t x => t.apply (.updateSubscriptions [x.1] x.2)) t

def Stream.setCycle (s : Stream) (p : Pid) (c : Option Cycle) : Stream :=
  { s with cycles := fun q => if q = p then c else s.cycles q }

def Stream.unlock (s : Stream) (p : Pid) : Stream :=
  { s with locks := fun x => if s.locks x = some p then none else s.locks x }

/-- `_fetch_dispatch_due_subs` with the start of its transaction. -/
def Stream.begin (s : Stream) (p : Pid) (now : Time) (ids : List SubscriptionId) : Option Stream :=
  let t := s.tables.subscriptions
  let order (x : SubscriptionId) : Time :=
    ((t.lookup x).bind Subscription.lastDispatchedEventId).elim (-1) Int.ofNat
  let due := keysWhere t fun x r => subscriptionDue now r && (s.locks x).isNone
  if (s.cycles p).isNone ∧ Picks 100 order due ids then
    some { s.setCycle p (some { todo := rowsAt t ids }) with
      locks := fun x => if x ∈ ids then some p else s.locks x }
  else none

/-! ## Steps -/

inductive Action
  | emit (p : Pid) (row : EventRow)
  | commit (p : Pid)
  | rollback (p : Pid)
  | digest (xs : List EventId) (now : Time)
  | cleanup (cutoff : Time)
  | subscribe (sub : SubscriptionId) (row : Subscription)
  | detach (sub : SubscriptionId) (agent : AgentId) (now : Time)
  | ack (sub : SubscriptionId) (agent : AgentId) (acked : EventId)
  | pull (p : Pid) (agent : AgentId) (since : EventId) (limit : Nat) (eventType : Option String)
  | requery (p : Pid)
  | advance (p : Pid) (stored : Bool)
  | respond (p : Pid)
  | cancel (p : Pid)
  | begin (p : Pid) (now : Time) (ids : List SubscriptionId)
  | fetch (p : Pid) (debounced : Bool)
  | answer (p : Pid) (status : Nat) (now : Time)
  | finish (p : Pid)
  | abort (p : Pid)
  deriving DecidableEq, Repr

def Stream.setPull (s : Stream) (p : Pid) (q : Option Pull) : Stream :=
  { s with pulls := fun p' => if p' = p then q else s.pulls p' }

/-- A subscription that a cycle has locked lets no other UPDATE of it through; `requery` is the
SELECT of the long poll. The ack of a pull commits before the client gets the response, and the
connection or the server may go at any point (`cancel`). -/
def step (s : Stream) : Action → Option Stream
  | .emit p row => s.emit p row
  | .commit p => some (s.commit p)
  | .rollback p => some (s.rollback p)
  | .digest xs now => some { s with tables := s.tables.apply (.markDigested xs now) }
  | .cleanup cutoff => some { s with tables := cleanupOldEvents s.tables cutoff }
  | .subscribe sub row =>
      (createSubscription s.tables sub row).map fun t => { s with tables := t }
  | .detach sub agent now =>
      if (s.locks sub).isSome then none
      else some { s with tables := detachSubscription s.tables sub agent now }
  | .ack sub agent acked =>
      if (s.locks sub).isSome then none
      else some { s with tables := ackSubscription s.tables sub agent acked }
  | .pull p agent since limit eventType =>
      match s.pulls p with
      | some _ => none
      | none =>
          let q : Pull := ⟨agent, since, limit, eventType, [], none⟩
          some (s.setPull p (some (q.read s.tables)))
  | .requery p =>
      match s.pulls p with
      | none => none
      | some q =>
          if q.page.isEmpty && q.acked.isNone then some (s.setPull p (some (q.read s.tables))) else none
  | .advance p stored =>
      match s.pulls p with
      | none => none
      | some q =>
          if q.acked.isSome then none
          else
            let acked := some (stored && !(q.acks s.tables).isEmpty)
            some { s.setPull p (some { q with acked := acked }) with
              tables := advanceAck s.tables q stored }
  | .respond p =>
      match s.pulls p with
      | none => none
      | some q =>
          if q.acked.isSome then some { s.setPull p none with
            returned := fun p' =>
              if p' = p then s.returned p ++ q.page.map Prod.fst else s.returned p' }
          else none
  | .cancel p => some (s.setPull p none)
  | .begin p now ids => s.begin p now ids
  | .fetch p debounced =>
      match s.cycles p with
      | some ⟨x :: todo, none, updates⟩ =>
          some (s.setCycle p (some ⟨todo, batchFor s.tables x debounced, updates⟩))
      | _ => none
  | .answer p status now =>
      match s.cycles p with
      | some ⟨todo, some b, updates⟩ =>
          some { s.setCycle p (some ⟨todo, none, updates ++ [(b.sub, b.update status now)]⟩) with
            answered := (b, status) :: s.answered }
      | _ => none
  | .finish p =>
      match s.cycles p with
      | some ⟨[], none, updates⟩ =>
          some { (s.setCycle p none).unlock p with tables := applyUpdates s.tables updates }
      | _ => none
  | .abort p =>
      match s.cycles p with
      | some _ => some ((s.setCycle p none).unlock p)
      | none => none

/-- Nothing has happened yet. -/
def start : Stream := {}

/-- The events of the response that is on its way to the client after their ack. -/
def Stream.underway (s : Stream) (p : Pid) : List EventId :=
  ((s.pulls p).filter fun q => q.acked = some true).elim [] fun q => q.page.map Prod.fst

/-- The last `next_cursor` that the client has seen. -/
def Stream.cursor (s : Stream) (p : Pid) : EventId := (s.returned p).getLast?.getD 0

end CueApi.Events
