import CueApi.Scheduler.Poller

/-! `worker/tasks.py`: the two delivery jobs. -/

namespace CueApi.Scheduler

/-- `_claim_execution`: conditional UPDATE, then commit. -/
def claimForDelivery (p : Pid) (e : ExecId) (expected : ExecStatus) : Program Bool := do
  let began ← clock
  let now ← clock
  let claimed ← updateExecution p e (fun _ r => r.status = expected) (.claim expected began now)
  commit p
  return claimed

/-- `_handle_success`. -/
def handleSuccess (p : Pid) (e : ExecId) (c : CueId) (httpStatus : Option Nat)
    (body : Option String) (attempt : Nat) : Program Unit := do
  let now ← clock
  let _ ← updateExecutionById p e (.delivered httpStatus body attempt now)
  updateCue p c (.ran now)
  let cue? ← select p fun t => t.cue c
  if (cue?.map Cue.scheduleType) = some .once then
    updateCue p c (.finish .completed now)
    commit p
  else commit p

/-- The last part of `_handle_failure`, after the budget is spent. -/
def handleExhausted (p : Pid) (e : ExecId) (c : CueId) (httpStatus : Option Nat)
    (error : String) (attempt : Nat) (now : Time) : Program Unit := do
  let _ ← updateExecutionById p e (.exhausted httpStatus error attempt now)
  updateCue p c (.ran now)
  let cue? ← select p fun t => t.cue c
  match cue? with
  | none => commit p
  | some cue =>
      if cue.scheduleType = .once then
        updateCue p c (.finish .failed now)
        commit p
      else if cue.onFailure.pause then
        updateCue p c (.pause now)
        commit p
      else commit p

/-- `_handle_failure`. -/
def handleFailure (p : Pid) (e : ExecId) (c : CueId) (httpStatus : Option Nat)
    (error : String) (attempt maxAttempts : Nat) (backoff : List Int) : Program Unit := do
  let now ← clock
  if attempt < maxAttempts then
    match plusMinutes now ((backoffAt backoff (attempt - 1)).getD 1) with
    | none => .fail
    | some next =>
        let _ ← updateExecutionById p e (.retryLater httpStatus error attempt next now)
        commit p
  else handleExhausted p e c httpStatus error attempt now

/-- `_meaningful_error`. -/
def meaningfulError (status : Nat) : String :=
  if status = 404 then "Webhook endpoint not found (404)"
  else if status = 408 then "Webhook endpoint timed out"
  else if status = 500 then "Webhook endpoint returned server error (500)"
  else if 400 ≤ status ∧ status < 500 then
    "Webhook endpoint rejected request (" ++ toString status ++ ")"
  else if 500 ≤ status ∧ status < 600 then
    "Webhook endpoint server error (" ++ toString status ++ ")"
  else "Webhook delivery failed (" ++ toString status ++ ")"

/-- The triple that `deliver_webhook` returns. -/
structure DeliveryResult where
  success : Bool
  httpStatus : Option Nat
  text : Option String

def deliveryResult : HttpAnswer → DeliveryResult
  | .refused error => ⟨false, none, some error⟩
  | .noResponse error => ⟨false, none, some error⟩
  | .response status text =>
      if 200 ≤ status ∧ status < 300 then
        ⟨true, some status, some (String.ofList (text.toList.take 2000))⟩
      else ⟨false, some status, some (meaningfulError status)⟩

/-- `deliver_webhook`: at most one request leaves, none when the URL check at
delivery time refuses. -/
def deliverWebhook (p : Pid) (e : ExecId) (attempt : Nat) : Program DeliveryResult :=
  .step fun w a =>
    match a with
    | .http (.refused error) =>
        some (deliveryResult (.refused error), w.log (.posted p e attempt false))
    | .http answer => some (deliveryResult answer, w.log (.posted p e attempt true))
    | _ => none

/-- `response_text or "Unknown error"`. -/
def errorText (text : Option String) : String :=
  if truthy text then text.getD "" else "Unknown error"

/-- Both jobs, from a successful claim on. -/
def deliverClaimed (p : Pid) (pl : DeliveryPayload) : Program Unit := do
  let attempts ← fetchAttempts p pl.executionId
  let result ← deliverWebhook p pl.executionId (attempts + 1)
  let began ← clock
  updateCue p pl.cueId (.incrementRun began)
  if result.success then
    handleSuccess p pl.executionId pl.cueId result.httpStatus result.text (attempts + 1)
  else
    handleFailure p pl.executionId pl.cueId result.httpStatus (errorText result.text)
      (attempts + 1) (pl.retryMaxAttempts.getD 3) (pl.retryBackoffMinutes.getD [1, 5, 15])

/-- Claim from the status the task expects, and deliver. -/
def claimAndDeliver (p : Pid) (task : TaskType) (pl : DeliveryPayload) : Program Reply := do
  let claimed ← claimForDelivery p pl.executionId task.expected
  if claimed then
    deliverClaimed p pl
    return .acknowledged
  else return .acknowledged

/-- The limit check of a new execution runs when the payload names the user and
a positive limit. -/
def limitApplies (pl : DeliveryPayload) : Bool :=
  pl.userId.isSome && decide (0 < pl.monthlyExecutionLimit.getD 0)

def deliverWebhookTask (p : Pid) (pl : DeliveryPayload) : Program Reply := do
  if limitApplies pl then
    let allowed ← checkExecutionLimit
    if allowed then claimAndDeliver p .deliver pl
    else
      let now ← clock
      let _ ← updateExecutionById p pl.executionId (.limitReached now)
      commit p
      return .acknowledged
  else claimAndDeliver p .deliver pl

def retryWebhookTask (p : Pid) (pl : DeliveryPayload) : Program Reply :=
  claimAndDeliver p .retry pl

def runJob (p : Pid) (j : Job) : Program Reply :=
  match j.task with
  | .deliver => deliverWebhookTask p j.payload
  | .retry => retryWebhookTask p j.payload

end CueApi.Scheduler
