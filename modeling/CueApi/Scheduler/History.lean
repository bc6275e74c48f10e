import CueApi.Library.Trace
import CueApi.Scheduler.System

/-! The abstract level: histories. The committed tables are the replay of the
commits, and `Legal` says of each event what the code guarantees at that point,
with all other processes in any order around it. One constructor of `Commits` is
one transaction of the source. -/

namespace CueApi.Scheduler

open ReadCommitted Interleaving Trace

/-- What the event commits. -/
def Event.writes : Event → List Write
  | .commit _ _ ws => ws
  | _ => []

/-- The tables a history leaves. -/
def replay : History → Tables
  | [] => {}
  | .commit _ _ ws :: h => schema.applyAll ws (replay h)
  | _ :: h => replay h

/-! ## The loops of the poller, by what one iteration writes -/

/-- One iteration of `_process_cue_batch`: the run that was due, the execution
and the outbox row it got, and the next run. -/
structure BatchItem where
  c : CueId
  cue : Cue
  scheduledFor : Time
  inserted : Option (ExecId × Option OutboxId)
  next : Option Time

def BatchItem.writes (env : Env) (now began : Time) (i : BatchItem) : List Write :=
  .updateCue i.c (.advance i.next now) ::
    match i.inserted with
    | none => []
    | some (e, n?) =>
        (match n? with
          | some n => [.insertOutbox n (firedOutbox env i.c i.cue e i.scheduledFor began)]
          | none => []) ++
        [.updateCue i.c (.incrementFired began),
          .insertExecution e (firedExecution i.c i.scheduledFor began)]

structure BatchItem.Ok (env : Env) (t : Tables) (now : Time) (i : BatchItem) : Prop where
  row : t.cue i.c = some i.cue
  active : i.cue.status = .active
  due : i.cue.nextRun = some i.scheduledFor
  dueBy : i.scheduledFor ≤ now
  next : nextRunAfter env i.cue i.scheduledFor = some i.next
  conflict : i.inserted = none → t.SlotTaken i.c i.scheduledFor
  fresh : ∀ e n?, i.inserted = some (e, n?) → t.execution e = none ∧
    ¬ t.SlotTaken i.c i.scheduledFor ∧ (n? = none ↔ i.cue.callbackTransport = .worker) ∧
    ∀ n, n? = some n → t.outboxRow n = none

/-- One iteration of `poll_retries`. -/
structure RetryItem where
  e : ExecId
  r : Execution
  n : OutboxId
  cue : Cue

def RetryItem.writes (env : Env) (now began : Time) (i : RetryItem) : List Write :=
  [.updateExecution i.e (.retryReady now),
    .insertOutbox i.n (retryOutbox env i.e i.r.cueId i.cue i.r.scheduledFor began)]

structure RetryItem.Ok (t : Tables) (now : Time) (i : RetryItem) : Prop where
  row : t.execution i.e = some i.r
  due : retryDue now i.r = true
  fresh : t.outboxRow i.n = none
  cue : ∃ cue, t.cue i.r.cueId = some cue ∧ CueFixed i.cue cue

/-- One iteration of `recover_stale_executions`: back to `retrying`, or failed. -/
structure RecoverItem where
  e : ExecId
  r : Execution
  next : Option Time
  once : Bool

def RecoverItem.writes (env : Env) (now : Time) (i : RecoverItem) : List Write :=
  match i.next with
  | some next =>
      [.updateExecution i.e (.recovered env.settings.executionStaleAfterSeconds next now)]
  | none =>
      (if i.once then [.updateCue i.r.cueId (.finish .failed now)] else []) ++
      [.updateExecution i.e (.stuck env.settings.executionStaleAfterSeconds now)]

def maxAttemptsOf (t : Tables) (c : CueId) : Nat := ((t.cue c).map Cue.retryMaxAttempts).getD 3

structure RecoverItem.Ok (env : Env) (t : Tables) (now : Time) (i : RecoverItem) : Prop where
  row : t.execution i.e = some i.r
  stale : staleBefore (now - seconds env.settings.executionStaleAfterSeconds) i.r = true
  budget : i.r.attempts < maxAttemptsOf t i.r.cueId ↔ i.next.isSome
  once : i.once = true → (t.cue i.r.cueId).map Cue.scheduleType = some .once

/-- One iteration of a worker sweep: the row its SELECT returned. -/
structure SweepItem where
  e : ExecId
  seen : Execution
  once : Bool := false

def SweepItem.resetWrites (now : Time) (i : SweepItem) : List Write :=
  [.updateExecution i.e (.resetClaim i.seen now)]

def SweepItem.missWrites (now : Time) (i : SweepItem) : List Write :=
  (if i.once then [.updateCue i.seen.cueId (.finish .failed now)] else []) ++
    [.updateExecution i.e (.missed i.seen now)]

/-- The row still exists and is of the same worker cue; nothing else is known of
its present version. -/
structure SweepItem.Ok (t : Tables) (i : SweepItem) : Prop where
  row : ∃ r, t.execution i.e = some r ∧ r.cueId = i.seen.cueId
  worker : transportOf t i.seen.cueId = some .worker

/-! ## Transactions -/

/-- The cue statements that follow the execution UPDATE of a finished attempt. -/
inductive CueTail (c : CueId) : List Write → Prop
  | none : CueTail c []
  | ran (now : Time) : CueTail c [.updateCue c (.ran now)]
  | finished (status : CueStatus) (now : Time) :
      CueTail c [.updateCue c (.finish status now), .updateCue c (.ran now)]
  | paused (now : Time) : CueTail c [.updateCue c (.pause now), .updateCue c (.ran now)]

/-- The execution UPDATE of a finished attempt. -/
inductive Completion (maxAttempts attempt : Nat) : ExecUpdate → Prop
  | delivered (http : Option Nat) (body : Option String) (now : Time) :
      Completion maxAttempts attempt (.delivered http body attempt now)
  | retryLater (http : Option Nat) (error : String) (next now : Time) :
      attempt < maxAttempts →
      Completion maxAttempts attempt (.retryLater http error attempt next now)
  | exhausted (http : Option Nat) (error : String) (now : Time) :
      ¬ attempt < maxAttempts →
      Completion maxAttempts attempt (.exhausted http error attempt now)

/-- The history of a job that has claimed its execution and heard from the
endpoint: its own events, newest first. -/
def Answered (p : Pid) (j : Job) (attempts : Nat) (h : History) : Prop :=
  ∃ sent time began now, own p h =
    [.posted p j.payload.executionId (attempts + 1) sent,
      .attempted p j.payload.executionId attempts,
      .commit p time
        [.updateExecution j.payload.executionId (.claim j.task.expected began now)],
      .began p (.job j)]

/-- A user request that adds an execution. -/
inductive Triggers : Call → UserId → CueId → Trigger → Prop
  | fire (user c sendAt) : Triggers (.fireCue user c sendAt) user c .manualFire
  | replay (user e c) : Triggers (.replayExecution user e) user c .replay

/-- The claim requests of worker daemons. -/
inductive ClaimsFor : Call → ClaimEndpoint → WorkerId → ExecId → Prop
  | next (user worker e) : ClaimsFor (.claimNextExecution user worker) .claimNextExecution worker e
  | one (user worker e) : ClaimsFor (.claimExecution user e worker) .claimExecution worker e

/-- The poller functions that escalate. -/
inductive Escalates : Call → Prop
  | recover : Escalates .recoverStaleExecutions
  | unclaimed : Escalates .failUnclaimedWorkerExecutions

inductive Commits (env : Env) (h : History) (p : Pid) (time : Time) : Call → List Write → Prop
  | nothing (call : Call) : (∀ j, call = .job j → own p h ≠ [.began p call]) →
      Commits env h p time call []
  | created (user : UserId) (data : CueCreate) (c : CueId) (nextRun began now : Time) :
      (replay h).cue c = none → ¬ (replay h).NameTaken user data.name →
      validateCue env data now = some (.ok nextRun) →
      Commits env h p time (.createCue user data) [.insertCue c (cueRow user data nextRun began)]
  | triggered (call : Call) (user : UserId) (c : CueId) (source : Trigger) (e : ExecId)
      (n : OutboxId) (cue cue' : Cue) (scheduledFor began : Time) (scheduledAt : Option Time)
      (metadata : Option Json) : Triggers call user c source →
      (replay h).execution e = none → ¬ (replay h).SlotTaken c scheduledFor →
      (replay h).cue c = some cue' → CueFixed cue cue' →
      (cue.callbackTransport = .webhook → truthy cue.callbackUrl = true →
        (replay h).outboxRow n = none) →
      Commits env h p time call
        ((if cue.callbackTransport = .webhook && truthy cue.callbackUrl then
            [.insertOutbox n (triggeredOutbox env user c cue e scheduledFor began scheduledAt)]
          else []) ++
        [.insertExecution e (triggeredExecution c source scheduledFor began metadata)])
  | batch (now began : Time) (items : List BatchItem) : now ≤ time →
      (∀ i ∈ items, i.Ok env (replay h) now) → (items.map BatchItem.c).Nodup →
      ((items.filterMap BatchItem.inserted).map Prod.fst).Nodup →
      ((items.filterMap BatchItem.inserted).filterMap Prod.snd).Nodup →
      Commits env h p time .processCueBatch (items.flatMap (BatchItem.writes env now began))
  | retries (now began : Time) (items : List RetryItem) : now ≤ time →
      (∀ i ∈ items, i.Ok (replay h) now) → (items.map RetryItem.e).Nodup →
      (items.map RetryItem.n).Nodup →
      Commits env h p time .pollRetries (items.flatMap (RetryItem.writes env now began))
  | dispatched (rows : List (OutboxId × OutboxUpdate)) :
      (∀ x ∈ rows, x.2 = .dispatched → ∃ j, .enqueued p x.1 j ∈ h) →
      Commits env h p time .dispatchOutbox (rows.map fun x => .updateOutbox x.1 x.2)
  | recovered (now : Time) (items : List RecoverItem) : now ≤ time →
      (∀ i ∈ items, i.Ok env (replay h) now) → (items.map RecoverItem.e).Nodup →
      Commits env h p time .recoverStaleExecutions (items.flatMap (RecoverItem.writes env now))
  | escalated (call : Call) (c : CueId) (now : Time) : Escalates call →
      Commits env h p time call [.updateCue c (.pause now)]
  | reset (now : Time) (items : List SweepItem) : now ≤ time →
      (∀ i ∈ items, i.Ok (replay h) ∧ claimExpired
        (now - seconds env.settings.workerClaimTimeoutSeconds) (replay h) i.seen = true) →
      (items.map SweepItem.e).Nodup →
      Commits env h p time .recoverStaleWorkerClaims (items.flatMap (SweepItem.resetWrites now))
  | missed (now : Time) (items : List SweepItem) : now ≤ time →
      (∀ i ∈ items, i.Ok (replay h) ∧ unclaimedSince
        (now - seconds env.settings.workerUnclaimedTimeoutSeconds) (replay h) i.seen = true) →
      (items.map SweepItem.e).Nodup →
      Commits env h p time .failUnclaimedWorkerExecutions (items.flatMap (SweepItem.missWrites now))
  | claimed (j : Job) (r : Execution) (began now : Time) : own p h = [.began p (.job j)] →
      (replay h).execution j.payload.executionId = some r → r.status = j.task.expected →
      Commits env h p time (.job j)
        [.updateExecution j.payload.executionId (.claim j.task.expected began now)]
  | limited (j : Job) (r : Execution) (now : Time) : own p h = [.began p (.job j)] →
      j.task = .deliver → (replay h).execution j.payload.executionId = some r →
      Commits env h p time (.job j) [.updateExecution j.payload.executionId (.limitReached now)]
  | finished (j : Job) (r : Execution) (attempts : Nat) (u : ExecUpdate) (tail : List Write)
      (began : Time) : Answered p j attempts h →
      (replay h).execution j.payload.executionId = some r →
      Completion (j.payload.retryMaxAttempts.getD 3) (attempts + 1) u →
      CueTail j.payload.cueId tail →
      Commits env h p time (.job j)
        (tail ++ [.updateExecution j.payload.executionId u,
          .updateCue j.payload.cueId (.incrementRun began)])
  | workerClaimed (call : Call) (endpoint : ClaimEndpoint) (worker : WorkerId) (e : ExecId)
      (r : Execution) (began now : Time) : ClaimsFor call endpoint worker e →
      own p h = [.began p call] → (replay h).execution e = some r →
      transportOf (replay h) r.cueId = some .worker →
      (endpoint = .claimExecution → r.status = .pending) →
      Commits env h p time call [.updateExecution e (.workerClaim endpoint worker began now)]
  | beaten (user : UserId) (e : ExecId) (xWorkerId : Option WorkerId) (r : Execution) (now : Time) :
      own p h = [.began p (.executionHeartbeat user e xWorkerId)] →
      (replay h).execution e = some r → now ≤ time →
      Commits env h p time (.executionHeartbeat user e xWorkerId)
        [.updateExecution e (.heartbeat now)]
  | outcome (user : UserId) (e : ExecId) (body : OutcomeRequest) (r : Execution)
      (cue cue' : Cue) (mode : VerificationMode) (now : Time) :
      own p h = [.began p (.recordOutcome user e body)] →
      (replay h).execution e = some r → r.outcomeRecordedAt = none →
      (replay h).cue r.cueId = some cue' → CueFixed cue cue' →
      Commits env h p time (.recordOutcome user e body)
        ((if cue.callbackTransport = .worker ∧ cue.scheduleType = .once then
            [.updateCue r.cueId (.finish (if body.success then .completed else .failed) now)]
          else []) ++
        (if cue.callbackTransport = .worker then [.updateCue r.cueId (.outcomeRun now)] else []) ++
        [.updateExecution e (.outcome cue.callbackTransport mode body now)])
  | workerSeen (user : UserId) (worker : WorkerId) (handlers : Option (List String))
      (row : Worker) :
      Commits env h p time (.heartbeat user worker handlers) [.putWorker (user, worker) row]
  | workerGone (user : UserId) (worker : WorkerId) :
      Commits env h p time (.deleteWorker user worker) [.deleteWorker (user, worker)]

/-! ## Legal histories -/

/-- A request ends with the reply its own commits justify, and a job only after
its claim was decided. -/
structure Returns (env : Env) (h : History) (p : Pid) (call : Call) (reply : Reply) : Prop where
  claimed : ∀ e lease, reply = .claimed e lease →
    lease = env.settings.workerClaimTimeoutSeconds ∧ ∃ endpoint worker time began now,
      ClaimsFor call endpoint worker e ∧
      .commit p time [.updateExecution e (.workerClaim endpoint worker began now)] ∈ h
  extended : ∀ until?, reply = .leaseExtended until? → ∃ user e xWorkerId time now,
    call = .executionHeartbeat user e xWorkerId ∧
    until? = now + seconds env.settings.workerClaimTimeoutSeconds ∧
    .commit p time [.updateExecution e (.heartbeat now)] ∈ h
  job : ∀ j, call = .job j → own p h ≠ [.began p call]
  outcome : ∀ user e body, call = .recordOutcome user e body →
    (∃ error, reply = .error error ∧ own p h = [.began p call]) ∨
    ∃ state time ws transport mode now, reply = .outcome state ∧ .commit p time ws ∈ h ∧
      .updateExecution e (.outcome transport mode body now) ∈ ws

/-- A reply that promises nothing. -/
def plainReturn : Call → Reply → Bool
  | .job _, _ | .recordOutcome _ _ _, _ | _, .claimed _ _ | _, .leaseExtended _ => false
  | _, _ => true

theorem Returns.plain {env : Env} {h : History} {p : Pid} {call : Call} {reply : Reply}
    (hp : plainReturn call reply = true) : Returns env h p call reply where
  claimed e lease hr := by
    subst hr
    cases call <;> cases hp
  extended until? hr := by
    subst hr
    cases call <;> cases hp
  job j hc := by
    subst hc
    cases hp
  outcome user e body hc := by
    subst hc
    cases hp

def Allowed (env : Env) (h : History) : Event → Prop
  | .began p call => own p h = [] ∧ startable h call = true
  | .commit p time ws =>
      (∃ call, callOf p h = some call ∧ Commits env h p time call ws) ∧
      ∀ q time' us, .commit q time' us ∈ h → time' ≤ time
  | .unmatched p e _ =>
      ∀ j, own p h = [.began p (.job j)] → e = j.payload.executionId ∧
        ∀ r, (replay h).execution e = some r → r.status ≠ j.task.expected
  | .attempted p e attempts =>
      ∃ j time began now, e = j.payload.executionId ∧ own p h =
        [.commit p time [.updateExecution e (.claim j.task.expected began now)],
          .began p (.job j)] ∧
        attempts = (((replay h).execution e).map Execution.attempts).getD 0
  | .posted p e attempt _ =>
      ∃ j attempts time began now, attempt = attempts + 1 ∧ e = j.payload.executionId ∧ own p h =
        [.attempted p e attempts,
          .commit p time [.updateExecution e (.claim j.task.expected began now)],
          .began p (.job j)]
  | .enqueued p n j =>
      callOf p h = some .dispatchOutbox ∧
      ∃ o, (replay h).outboxRow n = some o ∧ o.dispatched = false ∧ j = ⟨o.taskType, o.payload⟩
  | .duplicated j => ∃ p n, .enqueued p n j ∈ h
  | .ended p (.returned reply) => ∃ call, callOf p h = some call ∧ Returns env h p call reply
  | .ended p _ => ∃ call, callOf p h = some call

/-- Every event is allowed after the events before it. -/
def Legal (env : Env) (h : History) : Prop := Along (Allowed env) h

end CueApi.Scheduler
