import Mathlib.Data.List.AList
import Mathlib.Algebra.Ring.Nat
import CueApi.Library.ReadCommitted

/-! The rows of the scheduler (`app/models`) and the statements that write them.
Every UPDATE of `executions`, `cues` and `dispatch_outbox` in `worker/` and
`app/` is one constructor below; its SET clause is the `set` function. -/

namespace CueApi.Scheduler

/-- Microseconds since the epoch, UTC. -/
abbrev Time := Int
abbrev ExecId := Nat
abbrev CueId := Nat
abbrev OutboxId := Nat
abbrev UserId := Nat
abbrev WorkerId := String
abbrev Pid := Nat

/-- `timedelta(seconds=n)`. -/
def seconds (n : Nat) : Time := n * 1000000

/-- `now + timedelta(minutes=m)`; `none` is the `OverflowError` outside the
years 1 to 9999. -/
def plusMinutes (now : Time) (m : Int) : Option Time :=
  let t := now + m * 60000000
  if -62135596800000000 ≤ t ∧ t ≤ 253402300799999999 then some t else none

/-- A JSON value as the service handles it: its `json.dumps` text, and whether
`_contains_null_byte` finds a NUL in it. -/
structure Json where
  dumps : String
  nullByte : Bool := false
  deriving DecidableEq, Repr

inductive ExecStatus
  | pending | delivering | success | failed | retrying | retryReady | missed
  | pendingOutcome | outcomeTimeout
  deriving DecidableEq, Repr

inductive CueStatus
  | active | paused | completed | failed
  deriving DecidableEq, Repr

inductive ScheduleType
  | once | recurring
  deriving DecidableEq, Repr

inductive Transport
  | webhook | worker
  deriving DecidableEq, Repr

inductive VerificationMode
  | none | requireExternalId | requireResultUrl | requireArtifacts | manual
  deriving DecidableEq, Repr

inductive OutcomeState
  | reportedSuccess | reportedFailure | verificationPending | verifiedSuccess
  | verificationFailed
  deriving DecidableEq, Repr

inductive Trigger
  | manualFire | replay
  deriving DecidableEq, Repr

/-! ## Outcome reports -/

/-- `OutcomeRequest`. -/
structure OutcomeRequest where
  success : Bool
  result : Option String := none
  error : Option String := none
  metadata : Option Json := none
  externalId : Option String := none
  resultUrl : Option String := none
  resultRef : Option String := none
  resultType : Option String := none
  summary : Option String := none
  artifacts : Option (List Json) := none
  deriving DecidableEq, Repr

/-- The `evidence_*` columns. -/
structure Evidence where
  externalId : Option String := none
  resultUrl : Option String := none
  resultRef : Option String := none
  resultType : Option String := none
  summary : Option String := none
  artifacts : Option (List Json) := none
  producedAt : Option Time := none
  valid : Option Bool := none
  deriving DecidableEq, Repr

/-- Python truth of an optional text: present and not empty. -/
def truthy : Option String → Bool
  | some s => s ≠ ""
  | none => false

/-- A truthy new value replaces the stored one. -/
def orKeep (new old : Option String) : Option String := if truthy new then new else old

def hasArtifacts (body : OutcomeRequest) : Bool :=
  match body.artifacts with
  | some (_ :: _) => true
  | _ => false

/-- The outcome state and the evidence verdict of `record_outcome`, by
verification mode. -/
def outcomeStateOf (mode : VerificationMode) (body : OutcomeRequest) :
    OutcomeState × Option Bool :=
  let judged (present : Bool) : OutcomeState × Option Bool :=
    if present then (.verifiedSuccess, some true) else (.verificationFailed, some false)
  if !body.success then (.reportedFailure, none)
  else match mode with
    | .none => (.reportedSuccess, none)
    | .manual => (.verificationPending, none)
    | .requireExternalId => judged (truthy body.externalId)
    | .requireResultUrl => judged body.resultUrl.isSome
    | .requireArtifacts => judged (hasArtifacts body)

def evidenceOf (mode : VerificationMode) (body : OutcomeRequest) (now : Time)
    (old : Evidence) : Evidence where
  externalId := orKeep body.externalId old.externalId
  resultUrl := if body.resultUrl.isSome then body.resultUrl else old.resultUrl
  resultRef := orKeep body.resultRef old.resultRef
  resultType := orKeep body.resultType old.resultType
  summary := if truthy body.summary then
      body.summary.map fun s => String.ofList (s.toList.take 500)
    else old.summary
  artifacts := if hasArtifacts body then body.artifacts else old.artifacts
  producedAt :=
    if truthy body.externalId || body.resultUrl.isSome || hasArtifacts body then some now
    else old.producedAt
  valid := (outcomeStateOf mode body).2.or old.valid

/-! ## Executions -/

structure Execution where
  cueId : CueId
  scheduledFor : Time
  status : ExecStatus := .pending
  httpStatus : Option Nat := none
  responseBody : Option String := none
  attempts : Nat := 0
  nextRetry : Option Time := none
  errorMessage : Option String := none
  startedAt : Option Time := none
  deliveredAt : Option Time := none
  lastAttemptAt : Option Time := none
  claimedByWorker : Option WorkerId := none
  claimedAt : Option Time := none
  outcomeSuccess : Option Bool := none
  outcomeResult : Option String := none
  outcomeError : Option String := none
  outcomeMetadata : Option Json := none
  outcomeRecordedAt : Option Time := none
  outcomeState : Option OutcomeState := none
  lastHeartbeatAt : Option Time := none
  triggeredBy : Option Trigger := none
  evidence : Evidence := {}
  createdAt : Time
  updatedAt : Time
  deriving DecidableEq, Repr

/-- The endpoint that claims for a worker daemon. -/
inductive ClaimEndpoint
  | claimNextExecution | claimExecution
  deriving DecidableEq, Repr

/-- The UPDATEs of `executions`. `began` is PostgreSQL's `now()`, the start of
the transaction; `now` is the caller's `datetime.now`, which stands for both in the
outcome of a webhook, where the column's `onupdate` sets `updated_at`. The two worker sweeps
carry the row their own SELECT returned. -/
inductive ExecUpdate
  | claim (expected : ExecStatus) (began now : Time)
  | limitReached (now : Time)
  | delivered (httpStatus : Option Nat) (body : Option String) (attempt : Nat) (now : Time)
  | retryLater (httpStatus : Option Nat) (error : String) (attempt : Nat) (nextRetry now : Time)
  | exhausted (httpStatus : Option Nat) (error : String) (attempt : Nat) (now : Time)
  | retryReady (now : Time)
  | recovered (staleSeconds : Nat) (nextRetry now : Time)
  | stuck (staleSeconds : Nat) (now : Time)
  | resetClaim (seen : Execution) (now : Time)
  | missed (seen : Execution) (now : Time)
  | workerClaim (endpoint : ClaimEndpoint) (worker : WorkerId) (began now : Time)
  | heartbeat (now : Time)
  | outcome (transport : Transport) (mode : VerificationMode) (body : OutcomeRequest) (now : Time)
  deriving DecidableEq, Repr

namespace ExecUpdate

def set : ExecUpdate → Execution → Execution
  | .claim _ began now, r =>
      { r with status := .delivering, startedAt := r.startedAt.or (some began), updatedAt := now }
  | .limitReached now, r =>
      { r with status := .failed, errorMessage := some "Monthly execution limit reached",
               lastAttemptAt := some now, updatedAt := now }
  | .delivered http body attempt now, r =>
      { r with status := .success, httpStatus := http, responseBody := body,
               deliveredAt := some now, lastAttemptAt := some now, attempts := attempt,
               nextRetry := none, updatedAt := now }
  | .retryLater http error attempt next now, r =>
      { r with status := .retrying, httpStatus := http, errorMessage := some error,
               lastAttemptAt := some now, attempts := attempt, nextRetry := some next,
               updatedAt := now }
  | .exhausted http error attempt now, r =>
      { r with status := .failed, httpStatus := http, errorMessage := some error,
               lastAttemptAt := some now, attempts := attempt, nextRetry := none,
               updatedAt := now }
  | .retryReady now, r => { r with status := .retryReady, updatedAt := now }
  | .recovered stale next now, r =>
      { r with status := .retrying, nextRetry := some next, updatedAt := now,
               errorMessage := some
                 ("Recovered from stale delivering state after " ++ toString stale ++ "s") }
  | .stuck stale now, r =>
      { r with status := .failed, nextRetry := none, updatedAt := now,
               errorMessage := some
                 ("Failed: stuck in delivering for >" ++ toString stale ++
                   "s, max attempts exhausted") }
  | .resetClaim _ now, r =>
      { r with status := .pending, claimedByWorker := none, claimedAt := none, startedAt := none,
               errorMessage := some "Reset: worker heartbeat stale and claim lease expired",
               updatedAt := now }
  | .missed _ now, r =>
      { r with status := .missed, updatedAt := now,
               errorMessage := some "No worker claimed this execution within timeout window" }
  | .workerClaim _ worker began now, r =>
      { r with status := .delivering, claimedByWorker := some worker, claimedAt := some now,
               startedAt := some now, lastAttemptAt := some now, attempts := r.attempts + 1,
               updatedAt := began }
  | .heartbeat now, r => { r with lastHeartbeatAt := some now, updatedAt := now }
  | .outcome transport mode body now, r =>
      let r' : Execution :=
        { r with outcomeSuccess := some body.success, outcomeResult := body.result,
                 outcomeError := body.error, outcomeMetadata := body.metadata,
                 outcomeRecordedAt := some now, evidence := evidenceOf mode body now r.evidence,
                 outcomeState := some (outcomeStateOf mode body).1 }
      match transport, body.success with
      | .webhook, _ => { r' with updatedAt := now }
      | .worker, true =>
          { r' with status := .success, deliveredAt := some now, updatedAt := now }
      | .worker, false =>
          { r' with status := .failed, errorMessage := body.error, updatedAt := now }

@[simp] theorem set_cueId (u : ExecUpdate) (r : Execution) : (u.set r).cueId = r.cueId := by
  cases u <;> try rfl
  case outcome transport mode body now =>
    obtain ⟨success⟩ := body
    cases transport <;> cases success <;> rfl

@[simp] theorem set_scheduledFor (u : ExecUpdate) (r : Execution) :
    (u.set r).scheduledFor = r.scheduledFor := by
  cases u <;> try rfl
  case outcome transport mode body now =>
    obtain ⟨success⟩ := body
    cases transport <;> cases success <;> rfl

@[simp] theorem set_triggeredBy (u : ExecUpdate) (r : Execution) :
    (u.set r).triggeredBy = r.triggeredBy := by
  cases u <;> try rfl
  case outcome transport mode body now =>
    obtain ⟨success⟩ := body
    cases transport <;> cases success <;> rfl

section Outcome

variable (transport : Transport) (mode : VerificationMode) (body : OutcomeRequest) (now : Time)
variable (r : Execution)

@[simp] theorem outcome_status : ((outcome transport mode body now).set r).status =
    match transport with
    | .webhook => r.status
    | .worker => if body.success then .success else .failed := by
  obtain ⟨success⟩ := body
  cases transport <;> cases success <;> rfl

@[simp] theorem outcome_recorded :
    ((outcome transport mode body now).set r).outcomeRecordedAt = some now ∧
    ((outcome transport mode body now).set r).outcomeSuccess = some body.success := by
  obtain ⟨success⟩ := body
  cases transport <;> cases success <;> exact ⟨rfl, rfl⟩

/-- The columns of claims and attempts stay as they are. -/
@[simp] theorem outcome_claim :
    ((outcome transport mode body now).set r).claimedByWorker = r.claimedByWorker ∧
    ((outcome transport mode body now).set r).claimedAt = r.claimedAt ∧
    ((outcome transport mode body now).set r).lastHeartbeatAt = r.lastHeartbeatAt ∧
    ((outcome transport mode body now).set r).attempts = r.attempts ∧
    ((outcome transport mode body now).set r).nextRetry = r.nextRetry := by
  obtain ⟨success⟩ := body
  cases transport <;> cases success <;> exact ⟨rfl, rfl, rfl, rfl, rfl⟩

end Outcome

end ExecUpdate

/-! ## Cues -/

/-- The `on_failure` object, with the defaults `.get` supplies. -/
structure OnFailure where
  email : Bool := true
  webhook : Option String := none
  pause : Bool := false
  deriving DecidableEq, Repr

structure Cue where
  userId : UserId
  name : String
  status : CueStatus := .active
  scheduleType : ScheduleType
  scheduleCron : Option String
  scheduleAt : Option Time
  scheduleTimezone : String
  callbackUrl : Option String
  callbackMethod : String
  callbackHeaders : Json
  callbackTransport : Transport
  payload : Json
  retryMaxAttempts : Nat
  retryBackoffMinutes : List Int
  nextRun : Option Time
  lastRun : Option Time := none
  runCount : Nat := 0
  firedCount : Nat := 0
  onFailure : OnFailure
  verificationMode : Option VerificationMode
  createdAt : Time
  updatedAt : Time
  deriving DecidableEq, Repr

/-- The UPDATEs of `cues`. -/
inductive CueUpdate
  | incrementFired (began : Time)
  | advance (nextRun : Option Time) (now : Time)
  | incrementRun (began : Time)
  | ran (now : Time)
  | outcomeRun (now : Time)
  | finish (status : CueStatus) (now : Time)
  | pause (now : Time)
  deriving DecidableEq, Repr

namespace CueUpdate

def set : CueUpdate → Cue → Cue
  | .incrementFired began, c => { c with firedCount := c.firedCount + 1, updatedAt := began }
  | .advance next now, c => { c with nextRun := next, updatedAt := now }
  | .incrementRun began, c => { c with runCount := c.runCount + 1, updatedAt := began }
  | .ran now, c => { c with lastRun := some now, updatedAt := now }
  | .outcomeRun now, c =>
      { c with lastRun := some now, runCount := c.runCount + 1, updatedAt := now }
  | .finish status now, c => { c with status := status, updatedAt := now }
  | .pause now, c => { c with status := .paused, nextRun := none, updatedAt := now }

end CueUpdate

/-- The columns of a cue that no statement of the scheduler writes. -/
structure CueFixed (c c' : Cue) : Prop where
  userId : c'.userId = c.userId
  name : c'.name = c.name
  scheduleType : c'.scheduleType = c.scheduleType
  scheduleCron : c'.scheduleCron = c.scheduleCron
  scheduleTimezone : c'.scheduleTimezone = c.scheduleTimezone
  callbackUrl : c'.callbackUrl = c.callbackUrl
  callbackTransport : c'.callbackTransport = c.callbackTransport
  retryMaxAttempts : c'.retryMaxAttempts = c.retryMaxAttempts
  retryBackoffMinutes : c'.retryBackoffMinutes = c.retryBackoffMinutes

theorem CueFixed.refl (c : Cue) : CueFixed c c := ⟨rfl, rfl, rfl, rfl, rfl, rfl, rfl, rfl, rfl⟩

theorem CueFixed.trans {a b c : Cue} (h : CueFixed a b) (h' : CueFixed b c) : CueFixed a c where
  userId := h'.userId.trans h.userId
  name := h'.name.trans h.name
  scheduleType := h'.scheduleType.trans h.scheduleType
  scheduleCron := h'.scheduleCron.trans h.scheduleCron
  scheduleTimezone := h'.scheduleTimezone.trans h.scheduleTimezone
  callbackUrl := h'.callbackUrl.trans h.callbackUrl
  callbackTransport := h'.callbackTransport.trans h.callbackTransport
  retryMaxAttempts := h'.retryMaxAttempts.trans h.retryMaxAttempts
  retryBackoffMinutes := h'.retryBackoffMinutes.trans h.retryBackoffMinutes

theorem CueUpdate.set_fixed (u : CueUpdate) (c : Cue) : CueFixed c (u.set c) := by
  cases u <;> exact ⟨rfl, rfl, rfl, rfl, rfl, rfl, rfl, rfl, rfl⟩

/-! ## The outbox and the workers -/

inductive TaskType
  | deliver | retry
  deriving DecidableEq, Repr

/-- The status `_claim_execution` expects: each task claims from one status. -/
def TaskType.expected : TaskType → ExecStatus
  | .deliver => .pending
  | .retry => .retryReady

/-- The payload of a delivery task; a field that a producer leaves out is `none`. -/
structure DeliveryPayload where
  executionId : ExecId
  cueId : CueId
  cueName : String
  userId : Option UserId
  scheduledFor : Time
  callbackUrl : Option String
  callbackMethod : String
  callbackHeaders : Json
  payload : Json
  retryMaxAttempts : Option Nat
  retryBackoffMinutes : Option (List Int)
  monthlyExecutionLimit : Option Nat
  webhookSecret : String
  deriving DecidableEq, Repr

/-- A `dispatch_outbox` row of a cue task. The two message tasks of the same
table carry no execution and belong to messaging. -/
structure OutboxRow where
  executionId : ExecId
  cueId : CueId
  taskType : TaskType
  payload : DeliveryPayload
  dispatched : Bool := false
  dispatchAttempts : Nat := 0
  lastDispatchError : Option String := none
  scheduledAt : Option Time := none
  createdAt : Time
  deriving DecidableEq, Repr

inductive OutboxUpdate
  | dispatched
  | dispatchFailed (error : String)
  deriving DecidableEq, Repr

def OutboxUpdate.set : OutboxUpdate → OutboxRow → OutboxRow
  | .dispatched, o => { o with dispatched := true }
  | .dispatchFailed error, o =>
      { o with dispatchAttempts := o.dispatchAttempts + 1,
               lastDispatchError := some (String.ofList (error.toList.take 500)) }

structure Worker where
  handlers : Option (List String)
  lastHeartbeat : Time
  deriving DecidableEq, Repr

/-! ## Tables and writes -/

abbrev Table (K V : Type) := AList fun _ : K => V

structure Tables where
  executions : Table ExecId Execution := ∅
  cues : Table CueId Cue := ∅
  outbox : Table OutboxId OutboxRow := ∅
  workers : Table (UserId × WorkerId) Worker := ∅

/-- One write statement. An INSERT on an existing key and an UPDATE of a
missing row change nothing. -/
inductive Write
  | insertExecution (e : ExecId) (row : Execution)
  | updateExecution (e : ExecId) (u : ExecUpdate)
  | insertCue (c : CueId) (row : Cue)
  | updateCue (c : CueId) (u : CueUpdate)
  | insertOutbox (n : OutboxId) (row : OutboxRow)
  | updateOutbox (n : OutboxId) (u : OutboxUpdate)
  | putWorker (k : UserId × WorkerId) (row : Worker)
  | deleteWorker (k : UserId × WorkerId)
  deriving DecidableEq, Repr

section Table

variable {K V : Type} [DecidableEq K]

def insertNew (t : Table K V) (k : K) (v : V) : Table K V :=
  match t.lookup k with
  | some _ => t
  | none => t.insert k v

def modify (t : Table K V) (k : K) (f : V → V) : Table K V :=
  match t.lookup k with
  | some v => t.insert k (f v)
  | none => t

theorem lookup_insertNew (t : Table K V) (k j : K) (v : V) :
    (insertNew t k v).lookup j = if j = k then (t.lookup j).or (some v) else t.lookup j := by
  unfold insertNew
  by_cases hj : j = k
  · subst hj
    cases h : t.lookup j <;> simp [h]
  · cases h : t.lookup k <;> simp [hj, AList.lookup_insert_ne]

theorem lookup_modify (t : Table K V) (k j : K) (f : V → V) :
    (modify t k f).lookup j = if j = k then (t.lookup j).map f else t.lookup j := by
  unfold modify
  by_cases hj : j = k
  · subst hj
    cases h : t.lookup j <;> simp [h]
  · cases h : t.lookup k <;> simp [hj, AList.lookup_insert_ne]

/-- The keys of the rows a WHERE clause selects. -/
def keysWhere (t : Table K V) (pred : K → V → Bool) : List K :=
  (t.entries.filter fun x => pred x.1 x.2).map Sigma.fst

omit [DecidableEq K] in
theorem keysWhere_nodup (t : Table K V) (pred : K → V → Bool) : (keysWhere t pred).Nodup :=
  t.nodupKeys.sublist List.filter_sublist

theorem mem_keysWhere (t : Table K V) (pred : K → V → Bool) (k : K) :
    k ∈ keysWhere t pred ↔ ∃ v, t.lookup k = some v ∧ pred k v = true := by
  simp only [keysWhere, List.mem_map, List.mem_filter]
  constructor
  · rintro ⟨⟨k', v⟩, ⟨hm, hp⟩, rfl⟩
    exact ⟨v, AList.mem_lookup_iff.mpr hm, hp⟩
  · rintro ⟨v, hl, hp⟩
    exact ⟨⟨k, v⟩, ⟨AList.mem_lookup_iff.mp hl, hp⟩, rfl⟩

end Table

namespace Tables

def execution (t : Tables) (e : ExecId) : Option Execution := t.executions.lookup e
def cue (t : Tables) (c : CueId) : Option Cue := t.cues.lookup c
def outboxRow (t : Tables) (n : OutboxId) : Option OutboxRow := t.outbox.lookup n
def worker (t : Tables) (k : UserId × WorkerId) : Option Worker := t.workers.lookup k

/-- The unique index `idx_executions_dedup` has an entry. -/
def SlotTaken (t : Tables) (c : CueId) (s : Time) : Prop :=
  ∃ e row, t.execution e = some row ∧ row.cueId = c ∧ row.scheduledFor = s

/-- The unique index `unique_user_cue_name` has an entry. -/
def NameTaken (t : Tables) (u : UserId) (name : String) : Prop :=
  ∃ c row, t.cue c = some row ∧ row.userId = u ∧ row.name = name

def apply : Write → Tables → Tables
  | .insertExecution e row, t => { t with executions := insertNew t.executions e row }
  | .updateExecution e u, t => { t with executions := modify t.executions e u.set }
  | .insertCue c row, t => { t with cues := insertNew t.cues c row }
  | .updateCue c u, t => { t with cues := modify t.cues c u.set }
  | .insertOutbox n row, t => { t with outbox := insertNew t.outbox n row }
  | .updateOutbox n u, t => { t with outbox := modify t.outbox n u.set }
  | .putWorker k row, t => { t with workers := t.workers.insert k row }
  | .deleteWorker k, t => { t with workers := t.workers.erase k }

theorem execution_apply (w : Write) (t : Tables) (e : ExecId) :
    (apply w t).execution e = match w with
      | .insertExecution e' row => if e = e' then (t.execution e).or (some row) else t.execution e
      | .updateExecution e' u => if e = e' then (t.execution e).map u.set else t.execution e
      | _ => t.execution e := by
  cases w <;> simp only [apply, execution, lookup_insertNew, lookup_modify]

theorem cue_apply (w : Write) (t : Tables) (c : CueId) :
    (apply w t).cue c = match w with
      | .insertCue c' row => if c = c' then (t.cue c).or (some row) else t.cue c
      | .updateCue c' u => if c = c' then (t.cue c).map u.set else t.cue c
      | _ => t.cue c := by
  cases w <;> simp only [apply, cue, lookup_insertNew, lookup_modify]

theorem outboxRow_apply (w : Write) (t : Tables) (n : OutboxId) :
    (apply w t).outboxRow n = match w with
      | .insertOutbox n' row => if n = n' then (t.outboxRow n).or (some row) else t.outboxRow n
      | .updateOutbox n' u => if n = n' then (t.outboxRow n).map u.set else t.outboxRow n
      | _ => t.outboxRow n := by
  cases w <;> simp only [apply, outboxRow, lookup_insertNew, lookup_modify]

end Tables

/-! ## Locks -/

/-- What a statement can lock: a row, or an entry of a unique index. -/
inductive Key
  | execution (e : ExecId)
  | slot (c : CueId) (s : Time)
  | cue (c : CueId)
  | cueName (u : UserId) (name : String)
  | outbox (n : OutboxId)
  | worker (k : UserId × WorkerId)
  deriving DecidableEq, Repr

def Write.keys : Write → List Key
  | .insertExecution e row => [.execution e, .slot row.cueId row.scheduledFor]
  | .updateExecution e _ => [.execution e]
  | .insertCue c row => [.cue c, .cueName row.userId row.name]
  | .updateCue c _ => [.cue c]
  | .insertOutbox n _ => [.outbox n]
  | .updateOutbox n _ => [.outbox n]
  | .putWorker k _ => [.worker k]
  | .deleteWorker k => [.worker k]

def Key.Row : Key → Type
  | .execution _ => Option Execution
  | .slot _ _ => Prop
  | .cue _ => Option Cue
  | .cueName _ _ => Prop
  | .outbox _ => Option OutboxRow
  | .worker _ => Option Worker

def Tables.row (t : Tables) : (k : Key) → k.Row
  | .execution e => t.execution e
  | .slot c s => t.SlotTaken c s
  | .cue c => t.cue c
  | .cueName u name => t.NameTaken u name
  | .outbox n => t.outboxRow n
  | .worker k => t.worker k

private theorem slotTaken_apply {w : Write} {t : Tables} {c : CueId} {s : Time}
    (hk : Key.slot c s ∉ w.keys) : (Tables.apply w t).SlotTaken c s ↔ t.SlotTaken c s := by
  unfold Tables.SlotTaken
  simp only [Tables.execution_apply]
  cases w <;> simp only
  case insertExecution e' row =>
    simp only [Write.keys, List.mem_cons, List.not_mem_nil, or_false, reduceCtorEq, false_or,
      Key.slot.injEq, not_and] at hk
    constructor
    · rintro ⟨e, r, he, rfl, rfl⟩
      by_cases hee : e = e'
      · subst hee
        cases hl : t.execution e with
        | none =>
          simp only [hl, ↓reduceIte, Option.none_or, Option.some.injEq] at he
          subst he
          exact absurd rfl (hk rfl)
        | some r' =>
          simp only [hl, ↓reduceIte, Option.some_or, Option.some.injEq] at he
          subst he
          exact ⟨e, r', hl, rfl, rfl⟩
      · exact ⟨e, r, by simpa [hee] using he, rfl, rfl⟩
    · rintro ⟨e, r, he, rfl, rfl⟩
      exact ⟨e, r, by simp [he], rfl, rfl⟩
  case updateExecution e' u =>
    constructor
    · rintro ⟨e, r, he, rfl, rfl⟩
      by_cases hee : e = e'
      · simp only [hee, ↓reduceIte, Option.map_eq_some_iff] at he
        obtain ⟨r', hr', rfl⟩ := he
        exact ⟨e', r', hr', by simp, by simp⟩
      · exact ⟨e, r, by simpa [hee] using he, rfl, rfl⟩
    · rintro ⟨e, r, he, rfl, rfl⟩
      by_cases hee : e = e'
      · exact ⟨e, u.set r, by simp [hee ▸ he, hee], by simp, by simp⟩
      · exact ⟨e, r, by simpa [hee] using he, rfl, rfl⟩

private theorem nameTaken_apply {w : Write} {t : Tables} {u : UserId} {name : String}
    (hk : Key.cueName u name ∉ w.keys) :
    (Tables.apply w t).NameTaken u name ↔ t.NameTaken u name := by
  unfold Tables.NameTaken
  simp only [Tables.cue_apply]
  cases w <;> simp only
  case insertCue c' row =>
    simp only [Write.keys, List.mem_cons, List.not_mem_nil, or_false, reduceCtorEq, false_or,
      Key.cueName.injEq, not_and] at hk
    constructor
    · rintro ⟨c, r, hc, rfl, rfl⟩
      by_cases hcc : c = c'
      · subst hcc
        cases hl : t.cue c with
        | none =>
          simp only [hl, ↓reduceIte, Option.none_or, Option.some.injEq] at hc
          subst hc
          exact absurd rfl (hk rfl)
        | some r' =>
          simp only [hl, ↓reduceIte, Option.some_or, Option.some.injEq] at hc
          subst hc
          exact ⟨c, r', hl, rfl, rfl⟩
      · exact ⟨c, r, by simpa [hcc] using hc, rfl, rfl⟩
    · rintro ⟨c, r, hc, rfl, rfl⟩
      exact ⟨c, r, by simp [hc], rfl, rfl⟩
  case updateCue c' v =>
    constructor
    · rintro ⟨c, r, hc, rfl, rfl⟩
      by_cases hcc : c = c'
      · simp only [hcc, ↓reduceIte, Option.map_eq_some_iff] at hc
        obtain ⟨r', hr', rfl⟩ := hc
        exact ⟨c', r', hr', (v.set_fixed r').userId.symm, (v.set_fixed r').name.symm⟩
      · exact ⟨c, r, by simpa [hcc] using hc, rfl, rfl⟩
    · rintro ⟨c, r, hc, rfl, rfl⟩
      by_cases hcc : c = c'
      · exact ⟨c, v.set r, by simp [hcc ▸ hc, hcc], (v.set_fixed r).userId, (v.set_fixed r).name⟩
      · exact ⟨c, r, by simpa [hcc] using hc, rfl, rfl⟩

/-- The scheduler's tables as a transactional database. -/
def schema : ReadCommitted.Schema Key Tables Write where
  Row := Key.Row
  row k t := t.row k
  keys := Write.keys
  apply := Tables.apply
  row_apply w t k hk := by
    cases k with
    | execution e =>
      have h := Tables.execution_apply w t e
      cases w <;> simp_all [Write.keys] <;> exact h
    | slot c s => exact propext (slotTaken_apply hk)
    | cue c =>
      have h := Tables.cue_apply w t c
      cases w <;> simp_all [Write.keys] <;> exact h
    | cueName u name => exact propext (nameTaken_apply hk)
    | outbox n =>
      have h := Tables.outboxRow_apply w t n
      cases w <;> simp_all [Write.keys] <;> exact h
    | worker k =>
      have h : (Tables.apply w t).worker k = t.worker k := by
        cases w <;> simp_all [Tables.worker, Tables.apply, Write.keys,
          AList.lookup_insert_ne, AList.lookup_erase_ne]
      exact h

@[simp] theorem schema_apply (w : Write) (t : Tables) : schema.apply w t = Tables.apply w t := rfl

end CueApi.Scheduler
