import CueApi.Library.Guarded
import CueApi.Scheduler.Footprint

/-! `update_cue` and `delete_cue` of `app/services/cue_service.py`, and the scheduler with users
who edit their cues. The ORM reads the row, changes it in memory and flushes the columns that
differ from what it read in one UPDATE, which waits for the row. `Edit` logs the flushes that
commit; no statement reads the log. -/

namespace CueApi.Scheduler

open ReadCommitted Interleaving Prog

/-! ## The request -/

/-- `CallbackCreate`. -/
structure CallbackCreate where
  url : Option String := none
  method : String := "POST"
  headers : Option Json := none

/-- The values its validator leaves for `status`. -/
inductive PatchStatus
  | active | paused
  deriving DecidableEq, Repr

/-- The body `CueUpdate`. -/
structure CuePatch where
  name : Option String := none
  status : Option PatchStatus := none
  schedule : Option ScheduleCreate := none
  callback : Option CallbackCreate := none
  payload : Option Json := none
  retry : Option RetryConfig := none
  onFailure : Option OnFailure := none
  verification : Option VerificationMode := none

/-- What the service computes: a value, an error for the caller, or (`none`) an exception. -/
abbrev Checked (α : Type) : Type := ExceptT ApiError Option α

def refuse {α : Type} (code message : String) (status : Nat) : Checked α :=
  throw ⟨code, message, status⟩

def raised {α : Type} : Checked α := ExceptT.mk none

/-- `if data.field is not None`. -/
def ifGiven {β : Type} (field : Option β) (f : β → Cue → Checked Cue) (cue : Cue) : Checked Cue :=
  match field with
  | none => pure cue
  | some x => f x cue

section Patch

variable (env : Env)

def patchCallback (cb : CallbackCreate) (cue : Cue) : Checked Cue :=
  match if cue.callbackTransport = .webhook then cb.url.bind env.validateCallbackUrl else none with
  | some message => refuse "invalid_callback_url" message 400
  | none => pure { cue with
      callbackUrl := cb.url.or cue.callbackUrl
      callbackMethod := cb.method
      callbackHeaders := cb.headers.getD ⟨"\x7b\x7d", false⟩ }

def patchPayload (payload : Json) (cue : Cue) : Checked Cue :=
  if payload.nullByte then
    refuse "invalid_payload" "Payload contains null bytes which are not supported" 400
  else if 1048576 < payload.dumps.utf8ByteSize then
    refuse "invalid_payload_size" "Payload must be under 1MB" 400
  else pure { cue with payload := payload }

def patchRetry (retry : RetryConfig) (cue : Cue) : Checked Cue :=
  pure { cue with
    retryMaxAttempts := retry.maxAttempts
    retryBackoffMinutes := retry.backoffMinutes }

def patchOnFailure (onFailure : OnFailure) (cue : Cue) : Checked Cue :=
  match if truthy onFailure.webhook then onFailure.webhook.bind env.validateCallbackUrl else none with
  | some message => refuse "invalid_callback_url" ("on_failure.webhook: " ++ message) 400
  | none => pure { cue with onFailure := onFailure }

/-- A `type` other than the two is ignored here. -/
def patchSchedule (now : Time) (s : ScheduleCreate) (cue : Cue) : Checked Cue :=
  if !env.validateTimezone s.timezone then
    refuse "invalid_timezone" ("Unknown timezone: '" ++ s.timezone ++ "'") 422
  else match s.type with
    | some .recurring =>
        if !truthy s.cron then
          refuse "invalid_schedule" "Cron expression is required for recurring schedules" 400
        else if !env.validateCron (s.cron.getD "") then
          refuse "invalid_schedule" "Invalid cron expression" 400
        else match env.cronNext (s.cron.getD "") s.timezone now with
          | none => raised
          | some next => pure { cue with
              scheduleType := .recurring
              scheduleCron := s.cron
              scheduleAt := none
              scheduleTimezone := s.timezone
              nextRun := some next }
    | some .once =>
        match s.at? with
        | none => refuse "invalid_schedule" "Timestamp is required for one-time schedules" 400
        | some d =>
            if d.time ≤ now then
              refuse "invalid_schedule" "Scheduled time must be in the future" 400
            else pure { cue with
              scheduleType := .once
              scheduleCron := none
              scheduleAt := some d.time
              scheduleTimezone := s.timezone
              nextRun := some d.time }
    | none => pure cue

def patchStatus (now : Time) (status : PatchStatus) (cue : Cue) : Checked Cue :=
  match status with
  | .paused => pure { cue with status := .paused, nextRun := none }
  | .active =>
      if cue.scheduleType = .recurring ∧ truthy cue.scheduleCron then
        match env.cronNext (cue.scheduleCron.getD "") cue.scheduleTimezone now with
        | none => raised
        | some next => pure { cue with status := .active, nextRun := some next }
      else if cue.scheduleType = .once then
        pure { cue with status := .active, nextRun := cue.scheduleAt.or cue.nextRun }
      else pure { cue with status := .active }

/-- The row as `update_cue` leaves it in memory. The three times are those of the schedule
check, of the new status and of `updated_at`. -/
def patched (patch : CuePatch) (now now' updatedAt : Time) (cue : Cue) : Checked Cue := do
  let cue ← ifGiven patch.callback (patchCallback env)
    { cue with name := patch.name.getD cue.name }
  let cue ← ifGiven patch.payload patchPayload cue
  let cue ← ifGiven patch.retry patchRetry cue
  let cue ← ifGiven patch.verification (fun mode cue => pure { cue with
    verificationMode := some mode }) cue
  let cue ← ifGiven patch.onFailure (patchOnFailure env) cue
  let cue ← ifGiven patch.schedule (patchSchedule env now) cue
  let cue ← ifGiven patch.status (patchStatus env now') cue
  pure { cue with updatedAt := updatedAt }

end Patch

/-! ## The flush -/

/-- A column in the UPDATE of a flush: written if its value differs from the one read. -/
def flushed {α : Type} [DecidableEq α] (old new cur : α) : α := if new = old then cur else new

/-- The UPDATE of a cue that was read as `old` and changed to `new`, on the row `cur`. -/
def Cue.flush (old new cur : Cue) : Cue where
  userId := cur.userId
  name := flushed old.name new.name cur.name
  status := flushed old.status new.status cur.status
  scheduleType := flushed old.scheduleType new.scheduleType cur.scheduleType
  scheduleCron := flushed old.scheduleCron new.scheduleCron cur.scheduleCron
  scheduleAt := flushed old.scheduleAt new.scheduleAt cur.scheduleAt
  scheduleTimezone := flushed old.scheduleTimezone new.scheduleTimezone cur.scheduleTimezone
  callbackUrl := flushed old.callbackUrl new.callbackUrl cur.callbackUrl
  callbackMethod := flushed old.callbackMethod new.callbackMethod cur.callbackMethod
  callbackHeaders := flushed old.callbackHeaders new.callbackHeaders cur.callbackHeaders
  callbackTransport := cur.callbackTransport
  payload := flushed old.payload new.payload cur.payload
  retryMaxAttempts := flushed old.retryMaxAttempts new.retryMaxAttempts cur.retryMaxAttempts
  retryBackoffMinutes :=
    flushed old.retryBackoffMinutes new.retryBackoffMinutes cur.retryBackoffMinutes
  nextRun := flushed old.nextRun new.nextRun cur.nextRun
  lastRun := cur.lastRun
  runCount := cur.runCount
  firedCount := cur.firedCount
  onFailure := flushed old.onFailure new.onFailure cur.onFailure
  verificationMode := flushed old.verificationMode new.verificationMode cur.verificationMode
  createdAt := cur.createdAt
  updatedAt := flushed old.updatedAt new.updatedAt cur.updatedAt

structure Edit where
  p : Pid
  c : CueId
  patch : CuePatch
  old : Cue
  new : Cue

abbrev EditWorld := World × List Edit

inductive EditReply
  | request (reply : Reply)
  | updated (cue : Cue)
  | deleted

abbrev EditProgram := Prog EditWorld Answer

/-- The check constraint `valid_callback_method`. -/
def validMethod (method : String) : Bool := method ∈ ["POST", "GET", "PUT", "PATCH"]

/-- The UPDATE of the flush takes its locks; `false` is a constraint that fails, or a row that
is gone. -/
def flushCue (p : Pid) (c : CueId) (old new : Cue) : EditProgram Bool :=
  .step fun s _ =>
    if s.1.store.Free p (.cue c) then
      match s.1.tables.cue c with
      | none => some (false, s)
      | some cur =>
          if !validMethod (flushed old.callbackMethod new.callbackMethod cur.callbackMethod) then
            some (false, s)
          else if new.name ≠ old.name ∧ keysWhere s.1.tables.cues
              (fun c' r => c' ≠ c ∧ r.userId = cur.userId ∧ r.name = new.name) ≠ [] then
            some (false, s)
          else
            (s.1.store.lock p (.cue c :: if new.name = old.name then [] else
              [.cueName cur.userId cur.name, .cueName cur.userId new.name])).map fun st =>
                (true, { s.1 with store := st }, s.2)
    else none

/-- Commit, and let the tables become `f` of what they were. -/
def World.commitEdit (w : World) (p : Pid) (f : Tables → Tables) : World :=
  { w with
    store := { w.store.commit p with tables := f (w.store.commit p).tables }
    history := .commit p w.clock (w.store.buf p) :: w.history }

def Tables.flushCue (c : CueId) (old new : Cue) (t : Tables) : Tables :=
  { t with cues := modify t.cues c (Cue.flush old new) }

def commitCue (p : Pid) (c : CueId) (patch : CuePatch) (old new : Cue) : EditProgram Unit :=
  .step fun s _ =>
    some ((), s.1.commitEdit p (Tables.flushCue c old new), ⟨p, c, patch, old, new⟩ :: s.2)

/-- A statement of the scheduler in this world. -/
abbrev plainly {α : Type} (m : Program α) : EditProgram α := m.beside (List Edit)

/-- `update_cue`. -/
def updateCueRequest (env : Env) (p : Pid) (user : UserId) (c : CueId) (patch : CuePatch) :
    EditProgram EditReply := do
  let cue? ← plainly (select p fun t => (t.cue c).filter fun cue => cue.userId = user)
  match cue? with
  | none => return .request cueNotFound
  | some old =>
      let now ← plainly clock
      let now' ← plainly clock
      let updatedAt ← plainly clock
      match (patched env patch now now' updatedAt old).run with
      | none => .fail
      | some (.error e) => return .request (.error e)
      | some (.ok new) =>
          let ok ← flushCue p c old new
          if ok then
            commitCue p c patch old new
            let row? ← plainly (select p fun t => t.cue c)
            match row? with
            | none => .fail
            | some row => return .updated row
          else .fail

/-! ## Deleting -/

def dropWhere {K V : Type} (t : Table K V) (pred : K → V → Bool) : Table K V :=
  ⟨t.entries.filter fun x => !pred x.1 x.2,
    (List.filter_sublist.map Sigma.fst).nodup t.nodupKeys⟩

def Tables.ofCue (t : Tables) (c : CueId) (o : OutboxRow) : Bool :=
  o.cueId = c || (t.execution o.executionId).any fun r => r.cueId = c

/-- `ON DELETE CASCADE` from the cue to its executions and their outbox rows. -/
def Tables.cascadeKeys (t : Tables) (c : CueId) : List Key :=
  .cue c :: (keysWhere t.executions fun _ r => r.cueId = c).map .execution ++
    (keysWhere t.outbox fun _ o => t.ofCue c o).map .outbox

def Tables.deleteRows (ks : List Key) (t : Tables) : Tables :=
  { t with
    cues := dropWhere t.cues fun c _ => .cue c ∈ ks
    executions := dropWhere t.executions fun e _ => .execution e ∈ ks
    outbox := dropWhere t.outbox fun n _ => .outbox n ∈ ks }

def lockCascade (p : Pid) (c : CueId) : EditProgram (List Key) :=
  .step fun s _ => (s.1.store.lock p (s.1.tables.cascadeKeys c)).map fun st =>
    (s.1.tables.cascadeKeys c, { s.1 with store := st }, s.2)

def commitDelete (p : Pid) (ks : List Key) : EditProgram Unit :=
  .step fun s _ => some ((), s.1.commitEdit p (Tables.deleteRows ks), s.2)

/-- `delete_cue`. -/
def deleteCueRequest (p : Pid) (user : UserId) (c : CueId) : EditProgram EditReply := do
  let cue? ← plainly (select p fun t => (t.cue c).filter fun cue => cue.userId = user)
  match cue? with
  | none => return .request cueNotFound
  | some _ =>
      let ks ← lockCascade p c
      commitDelete p ks
      return .deleted

/-! ## The scheduler with edits -/

inductive EditCall
  | call (call : Call)
  | updateCue (user : UserId) (c : CueId) (patch : CuePatch)
  | deleteCue (user : UserId) (c : CueId)

def editProgram (env : Env) (p : Pid) : EditCall → EditProgram EditReply
  | .call call => plainly (programOf env p call) >>= fun reply => .ret (.request reply)
  | .updateCue user c patch => updateCueRequest env p user c patch
  | .deleteCue user c => deleteCueRequest p user c

abbrev EditSys := Config Pid EditWorld Answer EditReply

inductive EditAction
  | start (p : Pid) (call : EditCall)
  | advance (p : Pid) (a : Answer)
  | finish (p : Pid)
  | crash (p : Pid)
  | raise (p : Pid)
  | duplicate (j : Job)
  | tick (d : Nat)

/-- What the beginning of a call leaves in the world. -/
def EditCall.begin (p : Pid) (w : World) : EditCall → World
  | EditCall.call c => w.log (.began p c)
  | _ => w

def EditCall.startable (h : History) : EditCall → Bool
  | EditCall.call c => Scheduler.startable h c
  | _ => true

def leaveEdit (s : EditSys) (p : Pid) (how : Ending) : EditSys :=
  s.put ({ s.shared.1 with
    store := s.shared.1.store.rollback p
    history := .ended p how :: s.shared.1.history }, s.shared.2) p none

def endingOf : EditReply → Ending
  | .request reply => .returned reply
  | _ => .returned .acknowledged

def editStep (env : Env) (s : EditSys) : EditAction → Option EditSys
  | .start p call =>
      if own p s.shared.1.history = [] ∧ s.shared.1.store.buf p = [] ∧ (s.procs p).isNone ∧
          call.startable s.shared.1.history then
        some (s.put (call.begin p s.shared.1, s.shared.2) p (some (editProgram env p call)))
      else none
  | .advance p a => s.advance p a
  | .finish p =>
      match s.procs p with
      | some (.ret reply) => some (leaveEdit s p (endingOf reply))
      | _ => none
  | .crash p => (s.procs p).map fun _ => leaveEdit s p .crashed
  | .raise p => (s.procs p).map fun _ => leaveEdit s p .raised
  | .duplicate j =>
      if everEnqueued s.shared.1.history j then
        some { s with shared := (s.shared.1.log (.duplicated j), s.shared.2) }
      else none
  | .tick d => some { s with shared := ({ s.shared.1 with clock := s.shared.1.clock + d },
      s.shared.2) }

def editInit (t : Time) : EditSys := ⟨((init t).shared, []), fun _ => none⟩

def editRun (env : Env) (s : EditSys) : List EditAction → Option EditSys
  | [] => some s
  | a :: as => (editStep env s a).bind fun s' => editRun env s' as

/-- The calls that start are among `D`, and each statement of a process meets `C`. -/
def meets (D : EditCall → Bool) (C : Pid → EditWorld → EditWorld → Bool) (s s' : EditSys) :
    EditAction → Bool
  | .start _ call => D call
  | .advance p _ => C p s.shared s'.shared
  | _ => true

/-- Every step of the run meets its condition. -/
def alongEdits (env : Env) (D : EditCall → Bool) (C : Pid → EditWorld → EditWorld → Bool)
    (s : EditSys) : List EditAction → Bool
  | [] => true
  | a :: as => (editStep env s a).all fun s' => meets D C s s' a && alongEdits env D C s' as

end CueApi.Scheduler
