import CueApi.Scheduler.World

/-! `worker/poller.py`: the functions of a poller cycle, statement by statement.
Emails and escalation webhooks leave no trace in the tables and are left out. -/

namespace CueApi.Scheduler

open Interleaving

/-- `app/config.py`. -/
structure Settings where
  pollerBatchSize : Nat := 500
  executionStaleAfterSeconds : Nat := 300
  workerHeartbeatTimeoutSeconds : Nat := 180
  workerClaimTimeoutSeconds : Nat := 900
  workerUnclaimedTimeoutSeconds : Nat := 900
  disableQuotaEnforcement : Bool := false

structure User where
  monthlyExecutionLimit : Nat := 0
  webhookSecret : String := ""
  activeCueLimit : Nat := 10

/-- What the code takes from its surroundings: the settings, the `users` table,
the URL, zone and cron checks (`validateCallbackUrl` gives the error message),
and `croniter.get_next` in a zone, `none` where it raises. -/
structure Env where
  settings : Settings := {}
  user : UserId → Option User
  validateCallbackUrl : String → Option String
  validateTimezone : String → Bool
  validateCron : String → Bool
  cronNext : String → String → Time → Option Time

variable (env : Env)

/-- `column IS NOT NULL AND column <= now`. -/
def dueBy (now : Time) : Option Time → Bool
  | some t => t ≤ now
  | none => false

/-- `column < cutoff`, which is not true of NULL. -/
def before (cutoff : Time) : Option Time → Bool
  | some t => t < cutoff
  | none => false

/-- The payload both the cron poller and the retry poller build from a cue. -/
def payloadOf (e : ExecId) (c : CueId) (cue : Cue) (scheduledFor : Time)
    (limit : Option Nat) : DeliveryPayload where
  executionId := e
  cueId := c
  cueName := cue.name
  userId := some cue.userId
  scheduledFor := scheduledFor
  callbackUrl := cue.callbackUrl
  callbackMethod := cue.callbackMethod
  callbackHeaders := cue.callbackHeaders
  payload := cue.payload
  retryMaxAttempts := some cue.retryMaxAttempts
  retryBackoffMinutes := some cue.retryBackoffMinutes
  monthlyExecutionLimit := limit
  webhookSecret := ((env.user cue.userId).map User.webhookSecret).getD ""

/-! ## Due cues -/

/-- The next run of a cue that fired at `scheduledFor`; `none` where croniter
raises. -/
def nextRunAfter (cue : Cue) (scheduledFor : Time) : Option (Option Time) :=
  if cue.scheduleType = .recurring ∧ truthy cue.scheduleCron then
    (env.cronNext (cue.scheduleCron.getD "") cue.scheduleTimezone scheduledFor).map some
  else some none

def firedExecution (c : CueId) (scheduledFor began : Time) : Execution where
  cueId := c
  scheduledFor := scheduledFor
  createdAt := began
  updatedAt := began

def firedOutbox (c : CueId) (cue : Cue) (e : ExecId) (scheduledFor began : Time) : OutboxRow where
  executionId := e
  cueId := c
  taskType := .deliver
  payload := payloadOf env e c cue scheduledFor
    (some (((env.user cue.userId).map User.monthlyExecutionLimit).getD 0))
  createdAt := began

/-- The body of the loop of `_process_cue_batch`. -/
def processCue (p : Pid) (now began : Time) (x : CueId × Cue) : Program Unit := do
  let (c, cue) := x
  match cue.nextRun with
  | none => .fail
  | some scheduledFor =>
      let inserted ← insertExecution p (firedExecution c scheduledFor began)
      match inserted with
      | some e =>
          updateCue p c (.incrementFired began)
          if cue.callbackTransport = .worker then pure ()
          else insertOutbox p (firedOutbox env c cue e scheduledFor began)
      | none => pure ()
      match nextRunAfter env cue scheduledFor with
      | none => .fail
      | some next => updateCue p c (.advance next now)

/-- `_process_cue_batch`. -/
def processCueBatch (p : Pid) : Program Reply := do
  let now ← clock
  let began ← clock
  let dueCues ← selectRowsForUpdate p Tables.cues .cue
    (fun _ cue => cue.status = .active && dueBy now cue.nextRun)
    (fun cue => cue.nextRun.getD 0) env.settings.pollerBatchSize
  let done ← Prog.mapEach (processCue env p now began) dueCues
  commit p
  return .count done.length

/-! ## Due retries -/

def retryOutbox (e : ExecId) (c : CueId) (cue : Cue) (scheduledFor began : Time) : OutboxRow where
  executionId := e
  cueId := c
  taskType := .retry
  payload := payloadOf env e c cue scheduledFor none
  createdAt := began

/-- The WHERE clause of `poll_retries`. -/
def retryDue (now : Time) (r : Execution) : Bool :=
  r.status = .retrying && dueBy now r.nextRetry

/-- The body of the loop of `poll_retries`. -/
def retryOne (p : Pid) (now began : Time) (x : ExecId × Execution) : Program Nat := do
  let (e, r) := x
  let cue? ← select p fun t => t.cue r.cueId
  match cue? with
  | none => return 0
  | some cue =>
      let row? ← select p fun t => t.execution e
      match row? with
      | none => .fail
      | some row =>
          insertOutbox p (retryOutbox env e r.cueId cue row.scheduledFor began)
          let _ ← updateExecutionById p e (.retryReady now)
          return 1

def pollRetries (p : Pid) : Program Reply := do
  let now ← clock
  let began ← clock
  let retries ← selectRowsForUpdate p Tables.executions .execution
    (fun _ r => retryDue now r) (fun _ => 0) env.settings.pollerBatchSize
  let counts ← Prog.mapEach (retryOne env p now began) retries
  commit p
  return .count counts.sum

/-! ## The outbox -/

/-- The body of the loop of `dispatch_outbox`. -/
def dispatchRow (p : Pid) (x : OutboxId × OutboxRow) : Program Nat := do
  let (n, o) := x
  let failed ← enqueueJob p n ⟨o.taskType, o.payload⟩
  match failed with
  | none =>
      write p (.updateOutbox n .dispatched)
      return 1
  | some error =>
      write p (.updateOutbox n (.dispatchFailed error))
      return 0

def dispatchOutbox (p : Pid) : Program Reply := do
  let now ← clock
  let rows ← selectRowsForUpdate p Tables.outbox .outbox
    (fun _ o => !o.dispatched && (o.scheduledAt = none || dueBy now o.scheduledAt))
    (fun o => o.createdAt) env.settings.pollerBatchSize
  let counts ← Prog.mapEach (dispatchRow p) rows
  commit p
  return .count counts.sum

/-! ## Recovery sweeps -/

/-- `_run_on_failure_escalation`, in its own transaction. -/
def runOnFailureEscalation (p : Pid) (c : CueId) : Program Unit := do
  let cue? ← select p fun t => t.cue c
  match cue? with
  | none => pure ()
  | some cue =>
      if cue.onFailure.pause && cue.scheduleType ≠ .once then
        let now ← clock
        updateCue p c (.pause now)
        commit p
      else pure ()

/-- `backoff[min(i, len - 1)]`; `none` for the empty list. -/
def backoffAt (backoff : List Int) (i : Nat) : Option Int := backoff[min i (backoff.length - 1)]?

/-- The WHERE clause of `recover_stale_executions`. -/
def staleBefore (cutoff : Time) (r : Execution) : Bool :=
  r.status = .delivering && decide (r.updatedAt < cutoff)

/-- The body of the loop of `recover_stale_executions`; the result is the cue to
escalate for. -/
def recoverOne (p : Pid) (now : Time) (x : ExecId × Execution) : Program (Option CueId) := do
  let (e, r) := x
  let cue? ← select p fun t => t.cue r.cueId
  let maxAttempts := (cue?.map Cue.retryMaxAttempts).getD 3
  let backoff := (cue?.map Cue.retryBackoffMinutes).getD [1, 5, 15]
  if r.attempts < maxAttempts then
    match (backoffAt backoff r.attempts).bind (plusMinutes now) with
    | none => .fail
    | some next =>
        let _ ← updateExecutionById p e
          (.recovered env.settings.executionStaleAfterSeconds next now)
        return none
  else
    let _ ← updateExecutionById p e (.stuck env.settings.executionStaleAfterSeconds now)
    if (cue?.map Cue.scheduleType) = some .once then
      updateCue p r.cueId (.finish .failed now)
      return some r.cueId
    else return some r.cueId

def recoverStaleExecutions (p : Pid) : Program Reply := do
  let t ← clock
  let staleCutoff := t - seconds env.settings.executionStaleAfterSeconds
  let stale ← selectRowsForUpdate p Tables.executions .execution
    (fun _ r => staleBefore staleCutoff r) (fun _ => 0) 100
  let now ← clock
  let escalations ← Prog.mapEach (recoverOne env p now) stale
  commit p
  let _ ← Prog.mapEach (runOnFailureEscalation p) (escalations.filterMap id)
  return .count stale.length

def transportOf (t : Tables) (c : CueId) : Option Transport := (t.cue c).map Cue.callbackTransport

/-- The WHERE clause of `recover_stale_worker_claims`. -/
def claimExpired (claimCutoff : Time) (t : Tables) (r : Execution) : Bool :=
  r.status = .delivering && transportOf t r.cueId = some .worker &&
    before claimCutoff r.claimedAt && r.claimedByWorker.isSome

/-- The body of the loop of `recover_stale_worker_claims`. -/
def resetOne (p : Pid) (now : Time) (x : ExecId × Execution) : Program Nat := do
  let (e, r) := x
  let worker? ← select p fun t =>
    (t.cue r.cueId).bind fun cue => t.worker (cue.userId, r.claimedByWorker.getD "")
  let cutoff := now - seconds env.settings.workerHeartbeatTimeoutSeconds
  if (worker?.map fun w => decide (w.lastHeartbeat < cutoff)).getD true then
    let _ ← updateExecutionById p e (.resetClaim r now)
    return 1
  else return 0

def recoverStaleWorkerClaims (p : Pid) : Program Reply := do
  let now ← clock
  let claimCutoff := now - seconds env.settings.workerClaimTimeoutSeconds
  let stale ← selectRows p Tables.executions (claimExpired claimCutoff) (fun _ => 0) 100
  let counts ← Prog.mapEach (resetOne env p now) stale
  commit p
  return .count counts.sum

/-- The WHERE clause of `fail_unclaimed_worker_executions`. -/
def unclaimedSince (cutoff : Time) (t : Tables) (r : Execution) : Bool :=
  r.status = .pending && transportOf t r.cueId = some .worker &&
    decide (r.createdAt < cutoff) && r.claimedByWorker = none

/-- The body of the loop of `fail_unclaimed_worker_executions`. -/
def missOne (p : Pid) (now : Time) (x : ExecId × Execution) : Program CueId := do
  let (e, r) := x
  let _ ← updateExecutionById p e (.missed r now)
  let cue? ← select p fun t => t.cue r.cueId
  if (cue?.map Cue.scheduleType) = some .once then
    updateCue p r.cueId (.finish .failed now)
    return r.cueId
  else return r.cueId

def failUnclaimedWorkerExecutions (p : Pid) : Program Reply := do
  let now ← clock
  let cutoff := now - seconds env.settings.workerUnclaimedTimeoutSeconds
  let unclaimed ← selectRows p Tables.executions (unclaimedSince cutoff) (fun _ => 0) 100
  let escalations ← Prog.mapEach (missOne p now) unclaimed
  commit p
  let _ ← Prog.mapEach (runOnFailureEscalation p) escalations
  return .count unclaimed.length

end CueApi.Scheduler
