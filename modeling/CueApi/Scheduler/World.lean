import CueApi.Library.Interleaving
import CueApi.Scheduler.Tables

/-! The shared state of API processes, pollers and delivery workers, and the
statements they issue. `history` records what committed and what left the
system, newest first; no statement reads it. -/

namespace CueApi.Scheduler

open ReadCommitted Interleaving

/-! ## Requests, jobs and replies -/

/-- A delivery job of the arq queue. -/
structure Job where
  task : TaskType
  payload : DeliveryPayload
  deriving DecidableEq, Repr

structure ApiError where
  code : String
  message : String
  status : Nat
  deriving DecidableEq, Repr

/-- A Python `datetime`: a naive one carries no zone and reads as UTC. -/
structure DateTime where
  time : Time
  aware : Bool
  deriving DecidableEq, Repr

/-- `ScheduleCreate`; a `type` other than `once` and `recurring` is `none`. -/
structure ScheduleCreate where
  type : Option ScheduleType
  cron : Option String := none
  at? : Option DateTime := none
  timezone : String := "UTC"
  deriving DecidableEq, Repr

/-- `RetryConfig`, with the bounds of its schema. -/
structure RetryConfig where
  maxAttempts : Nat := 3
  backoffMinutes : List Int := [1, 5, 15]
  one_le : 1 ≤ maxAttempts := by decide
  le_ten : maxAttempts ≤ 10 := by decide

/-- `RetryConfig()`. -/
def RetryConfig.default : RetryConfig := {}

/-- `CueCreate`, as its validator leaves it: a webhook cue has a callback URL. -/
structure CueCreate where
  name : String
  schedule : ScheduleCreate
  callbackUrl : Option String := none
  callbackMethod : String := "POST"
  callbackHeaders : Json := ⟨"\x7b\x7d", false⟩
  transport : Transport
  payload : Json := ⟨"\x7b\x7d", false⟩
  retry : RetryConfig := .default
  onFailure : OnFailure := {}
  verification : Option VerificationMode := none
  url_of_webhook : transport = .webhook → truthy callbackUrl = true := by decide

inductive Call
  | createCue (user : UserId) (data : CueCreate)
  | fireCue (user : UserId) (cue : CueId) (sendAt : Option DateTime)
  | replayExecution (user : UserId) (execution : ExecId)
  | claimNextExecution (user : UserId) (worker : WorkerId)
  | claimExecution (user : UserId) (execution : ExecId) (worker : WorkerId)
  | executionHeartbeat (user : UserId) (execution : ExecId) (xWorkerId : Option WorkerId)
  | recordOutcome (user : UserId) (execution : ExecId) (body : OutcomeRequest)
  | heartbeat (user : UserId) (worker : WorkerId) (handlers : Option (List String))
  | deleteWorker (user : UserId) (worker : WorkerId)
  | processCueBatch
  | pollRetries
  | dispatchOutbox
  | recoverStaleExecutions
  | recoverStaleWorkerClaims
  | failUnclaimedWorkerExecutions
  | job (job : Job)

inductive Reply
  | error (e : ApiError)
  | created (cue : CueId)
  | fired (execution : ExecId) (scheduledFor : Time)
  | claimed (execution : ExecId) (leaseSeconds : Nat)
  | leaseExtended (until? : Time)
  | outcome (state : OutcomeState)
  | acknowledged
  | count (n : Nat)
  deriving DecidableEq, Repr

/-- How a process leaves: it returns, its host dies, or it raises. -/
inductive Ending
  | returned (reply : Reply)
  | crashed
  | raised
  deriving DecidableEq, Repr

inductive Event
  | began (p : Pid) (call : Call)
  | commit (p : Pid) (time : Time) (writes : List Write)
  | unmatched (p : Pid) (e : ExecId) (u : ExecUpdate)
  | attempted (p : Pid) (e : ExecId) (attempts : Nat)
  | posted (p : Pid) (e : ExecId) (attempt : Nat) (sent : Bool)
  | enqueued (p : Pid) (row : OutboxId) (job : Job)
  | duplicated (job : Job)
  | ended (p : Pid) (how : Ending)

def Event.pid : Event → Option Pid
  | .began p _ | .commit p _ _ | .unmatched p _ _ | .attempted p _ _ | .posted p _ _ _
  | .enqueued p _ _ | .ended p _ => some p
  | .duplicated _ => none

abbrev History := List Event

/-- The events of one process, newest first. -/
def own (p : Pid) (h : History) : History := h.filter fun ev => ev.pid = some p

/-- The call a process runs. -/
def callOf (p : Pid) : History → Option Call
  | [] => none
  | .began q call :: h => if q = p then some call else callOf p h
  | _ :: h => callOf p h

/-- The arq queue: a job is handed out once, and again after its worker died or
when arq runs it twice. A job that raised is dropped. -/
def queued : History → List Job
  | [] => []
  | .enqueued _ _ j :: h => j :: queued h
  | .duplicated j :: h => j :: queued h
  | .began _ (.job j) :: h => (queued h).erase j
  | .ended p .crashed :: h =>
      match callOf p h with
      | some (.job j) => j :: queued h
      | _ => queued h
  | _ :: h => queued h

/-! ## The world and its statements -/

structure World where
  store : Store schema Pid
  clock : Time
  history : History

def World.tables (w : World) : Tables := w.store.tables

def World.view (w : World) (p : Pid) : Tables := w.store.view p

def World.log (w : World) (ev : Event) : World := { w with history := ev :: w.history }

/-- What becomes of a webhook request: the URL check refuses it before it is
sent, no response arrives, or one does. -/
inductive HttpAnswer
  | refused (error : String)
  | noResponse (error : String)
  | response (status : Nat) (text : String)

/-- What the outside decides in a step: the rows a LIMIT query returns, a
generated key, the answer of the endpoint, of Redis or of the limit check. -/
inductive Answer
  | go
  | rows (ids : List Nat)
  | fresh (id : Nat)
  | bool (b : Bool)
  | http (a : HttpAnswer)
  | redisError (e : String)

abbrev Program := Prog World Answer

/-- `datetime.now`, or the start of a transaction. -/
def clock : Program Time := .step fun w _ => some (w.clock, w)

def select {β : Type} (p : Pid) (q : Tables → β) : Program β :=
  .step fun w _ => some (q (w.view p), w)

/-- `ids` is a result of `… ORDER BY order LIMIT limit` over the rows `all`. -/
def Picks (limit : Nat) (order : Nat → Time) (all ids : List Nat) : Prop :=
  ids.Nodup ∧ (∀ i ∈ ids, i ∈ all) ∧ ids.length = min limit all.length ∧
    ids.Pairwise (fun i j => order i ≤ order j) ∧ ∀ i ∈ ids, ∀ j ∈ all, j ∉ ids → order i ≤ order j

instance (limit : Nat) (order : Nat → Time) (all ids : List Nat) :
    Decidable (Picks limit order all ids) :=
  inferInstanceAs (Decidable (_ ∧ _))

section Rows

variable {V : Type}

def rowsAt (t : Table Nat V) (ids : List Nat) : List (Nat × V) :=
  ids.filterMap fun i => (t.lookup i).map fun v => (i, v)

def orderBy (t : Table Nat V) (order : V → Time) (i : Nat) : Time :=
  ((t.lookup i).map order).getD 0

/-- `SELECT … WHERE … ORDER BY … LIMIT`, without a lock. -/
def selectRows (p : Pid) (tbl : Tables → Table Nat V) (wh : Tables → V → Bool)
    (order : V → Time) (limit : Nat) : Program (List (Nat × V)) :=
  .step fun w a =>
    match a with
    | .rows ids =>
        let t := w.view p
        if Picks limit (orderBy (tbl t) order) (keysWhere (tbl t) fun _ v => wh t v) ids then
          some (rowsAt (tbl t) ids, w)
        else none
    | _ => none

/-- The same with `FOR UPDATE SKIP LOCKED`. -/
def selectRowsForUpdate (p : Pid) (tbl : Tables → Table Nat V) (key : Nat → Key)
    (wh : Tables → V → Bool) (order : V → Time) (limit : Nat) : Program (List (Nat × V)) :=
  .step fun w a =>
    match a with
    | .rows ids =>
        let t := w.view p
        let all := keysWhere (tbl t) fun i v => wh t v && decide (w.store.Free p (key i))
        if Picks limit (orderBy (tbl t) order) all ids then
          (w.store.lock p (ids.map key)).map fun s => (rowsAt (tbl t) ids, { w with store := s })
        else none
    | _ => none

end Rows

def write (p : Pid) (wr : Write) : Program Unit :=
  .step fun w _ => (w.store.write p wr).map fun s => ((), { w with store := s })

/-- `UPDATE executions SET … WHERE id = e AND wh RETURNING id`. The statement
waits while another transaction holds the row, and then judges the new version. -/
def updateExecution (p : Pid) (e : ExecId) (wh : Tables → Execution → Bool) (u : ExecUpdate) :
    Program Bool :=
  .step fun w _ =>
    match (w.view p).execution e with
    | some r =>
        if wh (w.view p) r then
          (w.store.write p (.updateExecution e u)).map fun s => (true, { w with store := s })
        else some (false, w.log (.unmatched p e u))
    | none => some (false, w.log (.unmatched p e u))

/-- `UPDATE … WHERE id = e`. -/
def updateExecutionById (p : Pid) (e : ExecId) (u : ExecUpdate) : Program Bool :=
  updateExecution p e (fun _ _ => true) u

def updateCue (p : Pid) (c : CueId) (u : CueUpdate) : Program Unit := write p (.updateCue c u)

/-- INSERT into `executions` under a generated id; `none` is a conflict on
`idx_executions_dedup`. A pending insert of the same key by another transaction
makes it wait. -/
def insertExecution (p : Pid) (row : Execution) : Program (Option ExecId) :=
  .step fun w a =>
    match a with
    | .fresh e =>
        let t := w.view p
        if t.execution e = none ∧ w.store.Free p (.slot row.cueId row.scheduledFor) then
          if keysWhere t.executions
              (fun _ r => r.cueId = row.cueId ∧ r.scheduledFor = row.scheduledFor) ≠ [] then
            some (none, w)
          else
            (w.store.write p (.insertExecution e row)).map fun s =>
              (some e, { w with store := s })
        else none
    | _ => none

def insertOutbox (p : Pid) (row : OutboxRow) : Program Unit :=
  .step fun w a =>
    match a with
    | .fresh n =>
        if (w.view p).outboxRow n = none then
          (w.store.write p (.insertOutbox n row)).map fun s => ((), { w with store := s })
        else none
    | _ => none

/-- INSERT into `cues`; `none` is a conflict on `unique_user_cue_name`. -/
def insertCue (p : Pid) (row : Cue) : Program (Option CueId) :=
  .step fun w a =>
    match a with
    | .fresh c =>
        let t := w.view p
        if t.cue c = none ∧ w.store.Free p (.cueName row.userId row.name) then
          if keysWhere t.cues (fun _ r => r.userId = row.userId ∧ r.name = row.name) ≠ [] then
            some (none, w)
          else
            (w.store.write p (.insertCue c row)).map fun s => (some c, { w with store := s })
        else none
    | _ => none

def commit (p : Pid) : Program Unit :=
  .step fun w _ =>
    some ((), { w with
      store := w.store.commit p
      history := .commit p w.clock (w.store.buf p) :: w.history })

/-- `SELECT attempts` after the claim. -/
def fetchAttempts (p : Pid) (e : ExecId) : Program Nat :=
  .step fun w _ =>
    let n := (((w.view p).execution e).map Execution.attempts).getD 0
    some (n, w.log (.attempted p e n))

/-- `enqueue_job`; `some` is the error that Redis raised. -/
def enqueueJob (p : Pid) (row : OutboxId) (job : Job) : Program (Option String) :=
  .step fun w a =>
    match a with
    | .go => some (none, w.log (.enqueued p row job))
    | .redisError e => some (some e, w)
    | _ => none

/-- `check_execution_limit(...)["allowed"]`. -/
def checkExecutionLimit : Program Bool :=
  .step fun w a =>
    match a with
    | .bool b => some (b, w)
    | _ => none

end CueApi.Scheduler
