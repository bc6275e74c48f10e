import CueApi.Scheduler.Tasks

/-! The API requests on cues and executions: `app/services/cue_service.py`
(creation), `app/routers/cues.py` (fire), `app/routers/executions.py` and
`app/services/outcome_service.py`, `app/routers/workers.py`. Authentication reads
the user in the same session, so a request's transaction begins before its own
`datetime.now`. -/

namespace CueApi.Scheduler

variable (env : Env)

/-! ## Creating cues -/

/-- The schedule check of `create_cue`: the first run or the error. The outer
`none` is an exception of croniter. -/
def firstRun (s : ScheduleCreate) (now : Time) : Option (Except ApiError Time) :=
  let invalid (message : String) : Option (Except ApiError Time) :=
    some (.error ⟨"invalid_schedule", message, 400⟩)
  match s.type with
  | some .recurring =>
      if !truthy s.cron then invalid "Cron expression is required for recurring schedules"
      else if !env.validateCron (s.cron.getD "") then invalid "Invalid cron expression"
      else (env.cronNext (s.cron.getD "") s.timezone now).map .ok
  | some .once =>
      match s.at? with
      | none => invalid "Timestamp is required for one-time schedules"
      | some d =>
          if d.time ≤ now then invalid "Scheduled time must be in the future"
          else some (.ok d.time)
  | none => invalid "Schedule type must be 'once' or 'recurring'"

/-- The checks of `create_cue` that read no table, in its order. -/
def validateCue (data : CueCreate) (now : Time) : Option (Except ApiError Time) :=
  let refuse (code message : String) (status : Nat) : Option (Except ApiError Time) :=
    some (.error ⟨code, message, status⟩)
  let urlError := if data.transport = .webhook then
    data.callbackUrl.bind env.validateCallbackUrl else none
  match urlError with
  | some message => refuse "invalid_callback_url" message 400
  | none =>
      if data.payload.nullByte then
        refuse "invalid_payload" "Payload contains null bytes which are not supported" 400
      else if 1048576 < data.payload.dumps.utf8ByteSize then
        refuse "invalid_payload_size" "Payload must be under 1MB" 400
      else if !env.validateTimezone data.schedule.timezone then
        refuse "invalid_timezone" ("Unknown timezone: '" ++ data.schedule.timezone ++ "'") 422
      else match firstRun env data.schedule now with
        | some (.ok next) =>
            match if truthy data.onFailure.webhook then
                data.onFailure.webhook.bind env.validateCallbackUrl else none with
            | some message =>
                refuse "invalid_callback_url" ("on_failure.webhook: " ++ message) 400
            | none => some (.ok next)
        | other => other

/-- The row `create_cue` inserts. -/
def cueRow (user : UserId) (data : CueCreate) (nextRun began : Time) : Cue where
  userId := user
  name := data.name
  scheduleType := data.schedule.type.getD .once
  scheduleCron := data.schedule.cron
  scheduleAt := if data.schedule.type = some .once then data.schedule.at?.map (·.time) else none
  scheduleTimezone := data.schedule.timezone
  callbackUrl := data.callbackUrl
  callbackMethod := data.callbackMethod
  callbackHeaders := data.callbackHeaders
  callbackTransport := data.transport
  payload := data.payload
  retryMaxAttempts := data.retry.maxAttempts
  retryBackoffMinutes := data.retry.backoffMinutes
  nextRun := some nextRun
  onFailure := data.onFailure
  verificationMode := data.verification
  createdAt := began
  updatedAt := began

def duplicateName (name : String) : Reply :=
  .error ⟨"duplicate_cue_name", "A cue named '" ++ name ++ "' already exists", 409⟩

def createCue (p : Pid) (user : UserId) (data : CueCreate) : Program Reply := do
  let began ← clock
  let named ← select p fun t =>
    (keysWhere t.cues fun _ c => c.userId = user ∧ c.name = data.name).length
  if 0 < named then return duplicateName data.name
  else
    let activeCount ← select p fun t =>
      (keysWhere t.cues fun _ c =>
        c.userId = user ∧ (c.status = .active ∨ c.status = .paused)).length
    let limit := ((env.user user).map User.activeCueLimit).getD 0
    if !env.settings.disableQuotaEnforcement && decide (limit ≤ activeCount) then
      return .error
        ⟨"cue_limit_exceeded", "Active cue limit of " ++ toString limit ++ " reached", 403⟩
    else
      let now ← clock
      match validateCue env data now with
      | none => .fail
      | some (.error e) => return .error e
      | some (.ok nextRun) =>
          let inserted ← insertCue p (cueRow user data nextRun began)
          match inserted with
          | none => return duplicateName data.name
          | some c =>
              commit p
              return .created c

/-! ## Firing and replaying -/

/-- The rows a fire or a replay adds. -/
def triggeredExecution (c : CueId) (trigger : Trigger) (scheduledFor began : Time)
    (metadata : Option Json) : Execution where
  cueId := c
  scheduledFor := scheduledFor
  triggeredBy := some trigger
  outcomeMetadata := metadata
  createdAt := began
  updatedAt := began

def triggeredOutbox (user : UserId) (c : CueId) (cue : Cue) (e : ExecId)
    (scheduledFor began : Time) (scheduledAt : Option Time) : OutboxRow where
  executionId := e
  cueId := c
  taskType := .deliver
  payload :=
    { payloadOf env e c cue scheduledFor none with
      userId := some user
      retryBackoffMinutes := some
        (if cue.retryBackoffMinutes = [] then [1, 5, 15] else cue.retryBackoffMinutes)
      webhookSecret := ((env.user user).map User.webhookSecret).getD "" }
  scheduledAt := scheduledAt
  createdAt := began

/-- Insert the execution and, for a webhook cue, its outbox row, and commit. A
conflict on `(cue_id, scheduled_for)` raises. -/
def trigger (p : Pid) (user : UserId) (c : CueId) (cue : Cue) (source : Trigger)
    (scheduledFor began : Time) (scheduledAt : Option Time) (metadata : Option Json) :
    Program Reply := do
  let inserted ← insertExecution p (triggeredExecution c source scheduledFor began metadata)
  match inserted with
  | none => .fail
  | some e =>
      if cue.callbackTransport = .webhook && truthy cue.callbackUrl then
        insertOutbox p (triggeredOutbox env user c cue e scheduledFor began scheduledAt)
        commit p
        return .fired e scheduledFor
      else
        commit p
        return .fired e scheduledFor

/-- `_build_ipc_delivery_metadata`: the live-session lookup is the answer. -/
def buildIpcDeliveryMetadata : Program (Option Json) :=
  .step fun w a =>
    match a with
    | .bool true => some (some ⟨"\x7b\"delivery_mode_requested\": \"ipc\"\x7d", false⟩, w)
    | .bool false => some (none, w)
    | _ => none

def cueNotFound : Reply := .error ⟨"cue_not_found", "Cue not found", 404⟩

def executionNotFound : Reply := .error ⟨"execution_not_found", "Execution not found", 404⟩

/-- `fire_cue`. Comparing a naive `send_at` with the aware clock raises. -/
def fireCue (p : Pid) (user : UserId) (c : CueId) (sendAt : Option DateTime) : Program Reply := do
  let began ← clock
  let cue? ← select p fun t => (t.cue c).filter fun cue => cue.userId = user
  match cue? with
  | none => return cueNotFound
  | some cue =>
      let now ← clock
      match sendAt with
      | some d =>
          if d.aware then
            let scheduledFor := if now < d.time then d.time else now
            let metadata ← buildIpcDeliveryMetadata
            trigger env p user c cue .manualFire scheduledFor began
              (if now < scheduledFor then some scheduledFor else none) metadata
          else .fail
      | none =>
          let metadata ← buildIpcDeliveryMetadata
          trigger env p user c cue .manualFire now began none metadata

def finishedStatus (s : ExecStatus) : Bool :=
  s = .success || s = .failed || s = .missed || s = .outcomeTimeout

/-- The execution and its cue, if the user owns them. -/
def ownedExecution (t : Tables) (user : UserId) (e : ExecId) : Option (Execution × Cue) :=
  (t.execution e).bind fun r =>
    ((t.cue r.cueId).filter fun cue => cue.userId = user).map fun cue => (r, cue)

/-- `replay_execution`. -/
def replayExecution (p : Pid) (user : UserId) (e : ExecId) : Program Reply := do
  let began ← clock
  let row? ← select p fun t => ownedExecution t user e
  match row? with
  | none => return executionNotFound
  | some (r, cue) =>
      if finishedStatus r.status then
        let now ← clock
        trigger env p user r.cueId cue .replay now began none none
      else return .error ⟨"execution_in_flight",
        "Cannot replay an execution that is still in progress", 409⟩

/-! ## Worker requests -/

def claimFailed (message : String) : Reply := .error ⟨"claim_failed", message, 409⟩

/-- The cue belongs to `user` and is pulled by workers. -/
def ownedWorkerCue (t : Tables) (user : UserId) (c : CueId) : Bool :=
  (t.cue c).any fun cue => cue.userId = user && cue.callbackTransport = .worker

/-- An item of `ClaimableListResponse`. -/
structure ClaimableExecution where
  executionId : ExecId
  cueId : CueId
  cueName : String
  task : Option String
  scheduledFor : Time
  payload : Json
  attempt : Nat
  deriving DecidableEq, Repr

/-- The WHERE clause of `get_claimable`. -/
def listedAsClaimable (t : Tables) (user : UserId) (r : Execution) : Bool :=
  ownedWorkerCue t user r.cueId && (r.status = .pending || r.status = .retryReady)

/-- The loop of `get_claimable` on one joined row: the filter on `payload.task` comes after
the LIMIT. `taskOf` is `payload.get("task")`. -/
def claimableItem (taskOf : Json → Option String) (task : Option String) (t : Tables)
    (x : ExecId × Execution) : Option ClaimableExecution :=
  (t.cue x.2.cueId).bind fun cue =>
    if truthy task && taskOf cue.payload ≠ task then none
    else some ⟨x.1, x.2.cueId, cue.name, taskOf cue.payload, x.2.scheduledFor, cue.payload,
      x.2.attempts⟩

/-- `get_claimable`, one SELECT. -/
def getClaimable (taskOf : Json → Option String) (p : Pid) (user : UserId) (task : Option String) :
    Program (List ClaimableExecution) :=
  .step fun w a =>
    match a with
    | .rows ids =>
        let t := w.view p
        if Picks 50 (orderBy t.executions fun r => r.scheduledFor)
            (keysWhere t.executions fun _ r => listedAsClaimable t user r) ids then
          some ((rowsAt t.executions ids).filterMap (claimableItem taskOf task t), w)
        else none
    | _ => none

/-- `claim_next_execution`: the subquery of the UPDATE reads the snapshot, the
UPDATE itself names the row by id alone. -/
def claimNextExecution (p : Pid) (user : UserId) (worker : WorkerId) : Program Reply := do
  let began ← clock
  let now ← clock
  let picked ← selectRows p Tables.executions
    (fun t r => ownedWorkerCue t user r.cueId && r.status = .pending)
    (fun r => r.scheduledFor) 1
  match picked with
  | [] => return claimFailed "No executions available for claiming"
  | (e, _) :: _ =>
      let claimed ← updateExecutionById p e (.workerClaim .claimNextExecution worker began now)
      if claimed then
        commit p
        return .claimed e env.settings.workerClaimTimeoutSeconds
      else return claimFailed "No executions available for claiming"

/-- `claim_execution`. -/
def claimExecution (p : Pid) (user : UserId) (e : ExecId) (worker : WorkerId) :
    Program Reply := do
  let began ← clock
  let now ← clock
  let claimed ← updateExecution p e
    (fun t r => r.status = .pending && ownedWorkerCue t user r.cueId)
    (.workerClaim .claimExecution worker began now)
  if claimed then
    commit p
    return .claimed e env.settings.workerClaimTimeoutSeconds
  else return claimFailed "Execution not available for claiming"

/-- The checks of `execution_heartbeat` on the row it read. -/
def heartbeatRefusal (r : Execution) (xWorkerId : Option WorkerId) : Option ApiError :=
  if r.status ≠ .delivering then
    some ⟨"execution_not_claiming", "Execution is not currently being claimed", 409⟩
  else if truthy xWorkerId && truthy r.claimedByWorker && xWorkerId ≠ r.claimedByWorker then
    some ⟨"not_execution_owner", "Only the claiming worker can heartbeat", 403⟩
  else none

def executionHeartbeat (p : Pid) (user : UserId) (e : ExecId) (xWorkerId : Option WorkerId) :
    Program Reply := do
  let row? ← select p fun t => ownedExecution t user e
  match row? with
  | none => return executionNotFound
  | some (r, _) =>
      match heartbeatRefusal r xWorkerId with
      | some error => return .error error
      | none =>
          let now ← clock
          let _ ← updateExecutionById p e (.heartbeat now)
          commit p
          return .leaseExtended (now + seconds env.settings.workerClaimTimeoutSeconds)

/-- `POST /v1/worker/heartbeat`. -/
def heartbeat (p : Pid) (user : UserId) (worker : WorkerId) (handlers : Option (List String)) :
    Program Reply := do
  let now ← clock
  write p (.putWorker (user, worker) ⟨handlers, now⟩)
  commit p
  return .acknowledged

def deleteWorker (p : Pid) (user : UserId) (worker : WorkerId) : Program Reply := do
  let found ← select p fun t => (t.worker (user, worker)).isSome
  if found then
    write p (.deleteWorker (user, worker))
    commit p
    return .acknowledged
  else return .error ⟨"worker_not_found", "Worker not found", 404⟩

/-! ## Outcomes -/

/-- The first SELECT of `record_outcome`: execution and cue of the user, with
`FOR UPDATE OF executions`. -/
def selectForOutcome (p : Pid) (user : UserId) (e : ExecId) : Program (Option (Execution × Cue)) :=
  .step fun w _ =>
    match ownedExecution (w.view p) user e with
    | none => some (none, w)
    | some row => (w.store.lock p [.execution e]).map fun s => (some row, { w with store := s })

def metadataTooLarge (body : OutcomeRequest) : Bool :=
  match body.metadata with
  | some m => 10240 < m.dumps.utf8ByteSize
  | none => false

/-- `record_outcome`, up to its commit; the alerts that follow write other
tables. The two flushes of the locked row are one write. -/
def recordOutcome (p : Pid) (user : UserId) (e : ExecId) (body : OutcomeRequest) :
    Program Reply := do
  let row? ← selectForOutcome p user e
  match row? with
  | none => return executionNotFound
  | some (r, cue) =>
      if r.outcomeRecordedAt.isSome then
        return .error ⟨"outcome_already_recorded",
          "Outcome has already been recorded for this execution", 409⟩
      else if metadataTooLarge body then
        return .error ⟨"metadata_too_large", "Outcome metadata must be under 10KB", 400⟩
      else
        let now ← clock
        let mode := cue.verificationMode.getD .none
        let _ ← updateExecutionById p e (.outcome cue.callbackTransport mode body now)
        if cue.callbackTransport = .worker then
          updateCue p r.cueId (.outcomeRun now)
          if cue.scheduleType = .once then
            updateCue p r.cueId (.finish (if body.success then .completed else .failed) now)
            commit p
            return .outcome (outcomeStateOf mode body).1
          else
            commit p
            return .outcome (outcomeStateOf mode body).1
        else
          commit p
          return .outcome (outcomeStateOf mode body).1

end CueApi.Scheduler
