import CueApi.Library.UnitOfWork
import CueApi.Scheduler.Edits

/-! `update_cue` of `app/services/cue_service.py` with each assignment to the ORM object: every exit
that is an error leaves the row as it was. -/

namespace CueApi.FailedEdits

open Scheduler
open UnitOfWork

/-- A row of `cues`. -/
structure CueRow where
  cue : Cue
  description : Option String
  deriving DecidableEq, Repr

structure Database where
  tables : Tables
  description : CueId → Option String

/-- The body `CueUpdate`. -/
structure CueUpdateBody extends CuePatch where
  description : Option String := none

/-- An error for the caller, or an exception. -/
inductive Failure
  | refused (e : ApiError)
  | raised
  deriving DecidableEq, Repr

abbrev EditWork := Work Database CueRow Failure

def refuse {α : Type} (code message : String) (status : Nat) : EditWork α :=
  throw (.refused ⟨code, message, status⟩)

/-- Assign to attributes. -/
def set (f : Cue → Cue) (row : CueRow) : EditWork CueRow := assign { row with cue := f row.cue }

/-- `if data.field is not None`. -/
def ifGiven {β : Type} (field : Option β) (f : β → CueRow → EditWork CueRow) (row : CueRow) :
    EditWork CueRow :=
  match field with
  | none => pure row
  | some x => f x row

/-- What `json.dumps` raises on a payload. -/
inductive DumpsError
  | notSerializable (e : String)
  | other

/-- What Python does with a payload: `json.dumps` may raise, and its text may not encode. -/
structure PayloadText where
  dumpsError : Json → Option DumpsError
  encodes : Json → Bool

-- whether the server refuses the UPDATE of a flush is `refuses`
variable (env : Env) (text : PayloadText) (refuses : CueRow → Database → Bool)

def updateCallback (cb : CallbackCreate) (row : CueRow) : EditWork CueRow :=
  match if row.cue.callbackTransport = .webhook then cb.url.bind env.validateCallbackUrl else none with
  | some message => refuse "invalid_callback_url" message 400
  | none => do
      let row ← ifGiven cb.url (fun url => set fun cue => { cue with callbackUrl := some url }) row
      let row ← set (fun cue => { cue with callbackMethod := cb.method }) row
      set (fun cue => { cue with callbackHeaders := cb.headers.getD ⟨"\x7b\x7d", false⟩ }) row

def updatePayload (payload : Json) (row : CueRow) : EditWork CueRow :=
  match text.dumpsError payload with
  | some (.notSerializable e) =>
      refuse "invalid_payload" ("Payload is not serializable: " ++ e) 400
  | some .other => throw .raised
  | none =>
      if payload.nullByte then
        refuse "invalid_payload" "Payload contains null bytes which are not supported" 400
      else if !text.encodes payload then throw .raised
      else if 1048576 < payload.dumps.utf8ByteSize then
        refuse "invalid_payload_size" "Payload must be under 1MB" 400
      else set (fun cue => { cue with payload := payload }) row

def updateRetry (retry : RetryConfig) (row : CueRow) : EditWork CueRow := do
  let row ← set (fun cue => { cue with retryMaxAttempts := retry.maxAttempts }) row
  set (fun cue => { cue with retryBackoffMinutes := retry.backoffMinutes }) row

def updateOnFailure (onFailure : OnFailure) (row : CueRow) : EditWork CueRow :=
  match if truthy onFailure.webhook then onFailure.webhook.bind env.validateCallbackUrl else none with
  | some message => refuse "invalid_callback_url" ("on_failure.webhook: " ++ message) 400
  | none => set (fun cue => { cue with onFailure := onFailure }) row

/-- `cue.next_run = get_next_run(...)`, after what was assigned before it. -/
def setNextRun (cron : Option String) (timezone : String) (now : Time) (row : CueRow) :
    EditWork CueRow :=
  match env.cronNext (cron.getD "") timezone now with
  | none => throw .raised
  | some next => set (fun cue => { cue with nextRun := some next }) row

/-- The four assignments that both types of schedule make first. -/
def setSchedule (type : ScheduleType) (cron : Option String) (at? : Option Time) (timezone : String)
    (row : CueRow) : EditWork CueRow := do
  let row ← set (fun cue => { cue with scheduleType := type }) row
  let row ← set (fun cue => { cue with scheduleCron := cron }) row
  let row ← set (fun cue => { cue with scheduleAt := at? }) row
  set (fun cue => { cue with scheduleTimezone := timezone }) row

def updateSchedule (now : Time) (s : ScheduleCreate) (row : CueRow) : EditWork CueRow :=
  if !env.validateTimezone s.timezone then
    refuse "invalid_timezone" ("Unknown timezone: '" ++ s.timezone ++ "'") 422
  else match s.type with
    | some .recurring =>
        if !truthy s.cron then
          refuse "invalid_schedule" "Cron expression is required for recurring schedules" 400
        else if !env.validateCron (s.cron.getD "") then
          refuse "invalid_schedule" "Invalid cron expression" 400
        else do
          let row ← setSchedule .recurring s.cron none s.timezone row
          setNextRun env s.cron s.timezone now row
    | some .once =>
        match s.at? with
        | none => refuse "invalid_schedule" "Timestamp is required for one-time schedules" 400
        | some d =>
            if d.time ≤ now then
              refuse "invalid_schedule" "Scheduled time must be in the future" 400
            else do
              let row ← setSchedule .once none (some d.time) s.timezone row
              set (fun cue => { cue with nextRun := some d.time }) row
    | none => pure row

def updateStatus (now : Time) (status : PatchStatus) (row : CueRow) : EditWork CueRow :=
  match status with
  | .paused => do
      let row ← set (fun cue => { cue with status := .paused }) row
      set (fun cue => { cue with nextRun := none }) row
  | .active => do
      let row ← set (fun cue => { cue with status := .active }) row
      if row.cue.scheduleType = .recurring ∧ truthy row.cue.scheduleCron then
        setNextRun env row.cue.scheduleCron row.cue.scheduleTimezone now row
      else if row.cue.scheduleType = .once then
        ifGiven row.cue.scheduleAt (fun time => set fun cue => { cue with nextRun := some time }) row
      else pure row

/-- The changes to the object, in their order. -/
def edits (data : CueUpdateBody) (now now' updatedAt : Time) (row : CueRow) : EditWork CueRow := do
  let row ← ifGiven data.name (fun name => set fun cue => { cue with name := name }) row
  let row ← ifGiven data.description (fun words row => assign { row with description := some words }) row
  let row ← ifGiven data.callback (updateCallback env) row
  let row ← ifGiven data.payload (updatePayload text) row
  let row ← ifGiven data.retry updateRetry row
  let row ← ifGiven data.verification
    (fun mode => set fun cue => { cue with verificationMode := some mode }) row
  let row ← ifGiven data.onFailure (updateOnFailure env) row
  let row ← ifGiven data.schedule (updateSchedule env now) row
  let row ← ifGiven data.status (updateStatus env now') row
  set (fun cue => { cue with updatedAt := updatedAt }) row

/-- The UPDATE of the flush. -/
def flushRow (c : CueId) (old new : CueRow) (db : Database) : Except Failure Database :=
  if refuses new db then .error .raised
  else .ok
    { tables := db.tables.flushCue c old.cue new.cue
      description := Function.update db.description c
        (flushed old.description new.description (db.description c)) }

def cueNotFoundError : ApiError := ⟨"cue_not_found", "Cue not found", 404⟩

/-- `update_cue`; a cue that is not there is the caller's 404. The commit flushes, and the refresh
reads the row again. -/
def updateCue (user : UserId) (c : CueId) (data : CueUpdateBody) (now now' updatedAt : Time) :
    EditWork Cue := do
  let found ← select fun db => (db.tables.cue c).filter fun cue => cue.userId = user
  match found with
  | none => throw (.refused cueNotFoundError)
  | some cue => do
      let description ← select fun db => db.description c
      let old : CueRow := ⟨cue, description⟩
      let _ ← edits env text data now now' updatedAt old
      commit (flushRow refuses c old)
      let refreshed ← select fun db => db.tables.cue c
      match refreshed with
      | none => throw .raised
      | some cue => return cue

variable {env text refuses} {row : CueRow} {now now' updatedAt : Time}

/-! ## Nothing is flushed before the commit -/

theorem inMemory_set (f : Cue → Cue) (row : CueRow) : InMemory (set f row) := inMemory_assign _

theorem inMemory_ifGiven {β : Type} {f : β → CueRow → EditWork CueRow}
    (hf : ∀ x row, InMemory (f x row)) (field : Option β) (row : CueRow) :
    InMemory (ifGiven field f row) := by
  cases field with
  | none => exact inMemory_pure row
  | some x => exact hf x row

theorem inMemory_updateCallback (cb : CallbackCreate) (row : CueRow) :
    InMemory (updateCallback env cb row) := by
  unfold updateCallback
  split
  · exact inMemory_throw _
  · exact (inMemory_ifGiven (fun _ => inMemory_set _) _ _).bind fun row =>
      (inMemory_set _ _).bind fun row => inMemory_set _ _

theorem inMemory_updatePayload (payload : Json) (row : CueRow) :
    InMemory (updatePayload text payload row) := by
  unfold updatePayload
  split
  · exact inMemory_throw _
  · exact inMemory_throw _
  · split
    · exact inMemory_throw _
    · split
      · exact inMemory_throw _
      · split
        · exact inMemory_throw _
        · exact inMemory_set _ _

theorem inMemory_updateRetry (retry : RetryConfig) (row : CueRow) :
    InMemory (updateRetry retry row) :=
  (inMemory_set _ _).bind fun _ => inMemory_set _ _

theorem inMemory_updateOnFailure (onFailure : OnFailure) (row : CueRow) :
    InMemory (updateOnFailure env onFailure row) := by
  unfold updateOnFailure
  split
  · exact inMemory_throw _
  · exact inMemory_set _ _

theorem inMemory_setNextRun (cron : Option String) (timezone : String) (now : Time) (row : CueRow) :
    InMemory (setNextRun env cron timezone now row) := by
  unfold setNextRun
  split
  · exact inMemory_throw _
  · exact inMemory_set _ _

theorem inMemory_setSchedule (type : ScheduleType) (cron : Option String) (at? : Option Time)
    (timezone : String) (row : CueRow) : InMemory (setSchedule type cron at? timezone row) :=
  (inMemory_set _ _).bind fun _ => (inMemory_set _ _).bind fun _ =>
    (inMemory_set _ _).bind fun _ => inMemory_set _ _

theorem inMemory_updateSchedule (s : ScheduleCreate) (row : CueRow) :
    InMemory (updateSchedule env now s row) := by
  unfold updateSchedule
  split
  · exact inMemory_throw _
  · split
    · split
      · exact inMemory_throw _
      · split
        · exact inMemory_throw _
        · exact (inMemory_setSchedule _ _ _ _ _).bind fun _ => inMemory_setNextRun _ _ _ _
    · split
      · exact inMemory_throw _
      · split
        · exact inMemory_throw _
        · exact (inMemory_setSchedule _ _ _ _ _).bind fun _ => inMemory_set _ _
    · exact inMemory_pure row

theorem inMemory_updateStatus (status : PatchStatus) (row : CueRow) :
    InMemory (updateStatus env now status row) := by
  cases status with
  | paused => exact (inMemory_set _ _).bind fun _ => inMemory_set _ _
  | active =>
    refine (inMemory_set _ _).bind fun row => ?_
    split
    · exact inMemory_setNextRun _ _ _ _
    · split
      · exact inMemory_ifGiven (fun _ => inMemory_set _) _ _
      · exact inMemory_pure row

theorem inMemory_edits (data : CueUpdateBody) (row : CueRow) :
    InMemory (edits env text data now now' updatedAt row) := by
  refine (inMemory_ifGiven (fun _ => inMemory_set _) _ _).bind fun _ => ?_
  refine (inMemory_ifGiven (fun _ _ => inMemory_assign _) _ _).bind fun _ => ?_
  refine (inMemory_ifGiven inMemory_updateCallback _ _).bind fun _ => ?_
  refine (inMemory_ifGiven inMemory_updatePayload _ _).bind fun _ => ?_
  refine (inMemory_ifGiven inMemory_updateRetry _ _).bind fun _ => ?_
  refine (inMemory_ifGiven (fun _ => inMemory_set _) _ _).bind fun _ => ?_
  refine (inMemory_ifGiven inMemory_updateOnFailure _ _).bind fun _ => ?_
  refine (inMemory_ifGiven inMemory_updateSchedule _ _).bind fun _ => ?_
  exact (inMemory_ifGiven inMemory_updateStatus _ _).bind fun _ => inMemory_set _ _

/-! ## What the object becomes -/

/-- What a computed row is for the request. -/
def outcome (description : Option String) (x : Checked Cue) : Except Failure CueRow :=
  match x.run with
  | some (.ok cue) => .ok ⟨cue, description⟩
  | some (.error e) => .error (.refused e)
  | none => .error .raised

/-- The assignments compute the row that `f` does, whatever the session. -/
def Performs (m : CueRow → EditWork CueRow) (f : Cue → Checked Cue) : Prop :=
  ∀ row s, ((m row).on s).1 = outcome row.description (f row.cue)

theorem performs_set (f : Cue → Cue) : Performs (set f) fun cue => pure (f cue) := fun _ _ => rfl

theorem Performs.bind {m m' : CueRow → EditWork CueRow} {f f' : Cue → Checked Cue}
    (hm : Performs m f) (hm' : Performs m' f') :
    Performs (fun row => m row >>= m') fun cue => f cue >>= f' := by
  intro row s
  have h := hm row s
  unfold outcome at h
  split at h
  · rename_i cue hrun
    rw [on_bind_ok h, hm']
    have hbind : f row.cue >>= f' = f' cue := by
      change ExceptT.mk ((f row.cue).run >>= ExceptT.bindCont f') = _
      rw [hrun]
      rfl
    exact congrArg (outcome row.description) hbind.symm
  · rename_i e hrun
    rw [on_bind_error h]
    have hbind : (f row.cue >>= f').run = some (.error e) := by
      change ((f row.cue).run >>= ExceptT.bindCont f') = _
      rw [hrun]
      rfl
    simp only [outcome, hbind]
  · rename_i hrun
    rw [on_bind_error h]
    have hbind : (f row.cue >>= f').run = none := by
      change ((f row.cue).run >>= ExceptT.bindCont f') = _
      rw [hrun]
      rfl
    simp only [outcome, hbind]

theorem performs_ifGiven {β : Type} {m : β → CueRow → EditWork CueRow} {f : β → Cue → Checked Cue}
    (h : ∀ x, Performs (m x) (f x)) (field : Option β) :
    Performs (ifGiven field m) (Scheduler.ifGiven field f) := by
  cases field with
  | none => exact fun _ _ => rfl
  | some x => exact h x

theorem performs_updateCallback (cb : CallbackCreate) :
    Performs (updateCallback env cb) (patchCallback env cb) := by
  intro row s
  unfold updateCallback patchCallback
  generalize (if row.cue.callbackTransport = .webhook then cb.url.bind env.validateCallbackUrl
    else none) = message
  cases message with
  | some message => rfl
  | none => cases cb.url <;> rfl

/-- `json.dumps` has a text for the payload, and the text encodes. -/
def PayloadText.Dumps (text : PayloadText) (payload : Json) : Prop :=
  text.dumpsError payload = none ∧ text.encodes payload

theorem performs_updatePayload (payload : Json) (h : text.Dumps payload) :
    Performs (updatePayload text payload) (patchPayload payload) := by
  intro row s
  unfold updatePayload patchPayload
  rw [h.1, h.2]
  cases payload.nullByte with
  | true => rfl
  | false =>
    by_cases hsize : 1048576 < payload.dumps.utf8ByteSize
    · simp only [hsize, if_true]
      rfl
    · simp only [hsize, if_false]
      rfl

theorem performs_updateRetry (retry : RetryConfig) :
    Performs (updateRetry retry) (patchRetry retry) := fun _ _ => rfl

theorem performs_updateOnFailure (onFailure : OnFailure) :
    Performs (updateOnFailure env onFailure) (patchOnFailure env onFailure) := by
  intro row s
  unfold updateOnFailure patchOnFailure
  generalize (if truthy onFailure.webhook then onFailure.webhook.bind env.validateCallbackUrl
    else none) = message
  cases message <;> rfl

theorem performs_updateSchedule (schedule : ScheduleCreate) :
    Performs (updateSchedule env now schedule) (patchSchedule env now schedule) := by
  intro row s
  unfold updateSchedule patchSchedule
  cases env.validateTimezone schedule.timezone with
  | false => rfl
  | true =>
    cases schedule.type with
    | none => rfl
    | some type =>
      cases type with
      | recurring =>
        cases truthy schedule.cron with
        | false => rfl
        | true =>
          cases env.validateCron (schedule.cron.getD "") with
          | false => rfl
          | true =>
            unfold setNextRun
            cases env.cronNext (schedule.cron.getD "") schedule.timezone now <;> rfl
      | once =>
        cases schedule.at? with
        | none => rfl
        | some d =>
          by_cases hpast : d.time ≤ now
          · simp only [hpast, if_true]
            rfl
          · simp only [hpast, if_false]
            rfl

theorem performs_updateStatus (status : PatchStatus) :
    Performs (updateStatus env now status) (patchStatus env now status) := by
  intro row s
  cases status with
  | paused => rfl
  | active =>
    let active : CueRow := { row with cue := { row.cue with status := .active } }
    have hset : ((set (fun cue => { cue with status := .active }) row).on s).1 = .ok active := rfl
    simp only [updateStatus, patchStatus]
    rw [on_bind_ok hset]
    simp only [active]
    by_cases hrecurring : row.cue.scheduleType = .recurring ∧ truthy row.cue.scheduleCron
    · rw [if_pos hrecurring, if_pos hrecurring]
      unfold setNextRun
      cases env.cronNext (row.cue.scheduleCron.getD "") row.cue.scheduleTimezone now <;> rfl
    · rw [if_neg hrecurring, if_neg hrecurring]
      by_cases honce : row.cue.scheduleType = .once
      · rw [if_pos honce, if_pos honce]
        cases row.cue.scheduleAt <;> rfl
      · rw [if_neg honce, if_neg honce]
        rfl

/-- The object becomes the row that `patched` computes, with its description. -/
theorem performs_edits (data : CueUpdateBody) (h : ∀ payload ∈ data.payload, text.Dumps payload)
    (row : CueRow) (s : Session Database CueRow) :
    ((edits env text data now now' updatedAt row).on s).1 =
      outcome (data.description.or row.description)
        (patched env data.toCuePatch now now' updatedAt row.cue) := by
  have hnamed : ((ifGiven data.name (fun name => set fun cue => { cue with name := name }) row).on
      s).1 = .ok { row with cue := { row.cue with name := data.name.getD row.cue.name } } := by
    cases data.name <;> rfl
  have hdescribed (row : CueRow) (s : Session Database CueRow) :
      ((ifGiven data.description (fun words row => assign { row with description := some words })
        row).on s).1 = .ok { row with description := data.description.or row.description } := by
    cases data.description <;> rfl
  have hpayload : Performs (ifGiven data.payload (updatePayload text))
      (Scheduler.ifGiven data.payload patchPayload) := by
    cases hgiven : data.payload with
    | none => exact fun _ _ => rfl
    | some payload => exact performs_updatePayload payload (h payload hgiven)
  have hrest := (performs_ifGiven (@performs_updateCallback env) data.callback).bind <|
    hpayload.bind <| (performs_ifGiven performs_updateRetry data.retry).bind <|
    (performs_ifGiven (fun mode => performs_set fun cue =>
      { cue with verificationMode := some mode }) data.verification).bind <|
    (performs_ifGiven (@performs_updateOnFailure env) data.onFailure).bind <|
    (performs_ifGiven (@performs_updateSchedule env now) data.schedule).bind <|
    (performs_ifGiven (@performs_updateStatus env now') data.status).bind <|
    performs_set fun cue => { cue with updatedAt := updatedAt }
  unfold edits
  rw [on_bind_ok hnamed, on_bind_ok (hdescribed _ _)]
  exact hrest _ _

/-! ## The request -/

/-- The row is still there after the flush. -/
theorem flushRow_cue {c : CueId} {old new : CueRow} {db db' : Database} {cue : Cue}
    (h : flushRow refuses c old new db = .ok db') (hc : db.tables.cue c = some cue) :
    ∃ cue', db'.tables.cue c = some cue' := by
  unfold flushRow at h
  split at h
  · cases h
  · cases h
    refine ⟨Cue.flush old.cue new.cue cue, ?_⟩
    change AList.lookup c (modify db.tables.cues c _) = _
    rw [lookup_modify, if_pos rfl]
    exact congrArg _ hc

theorem updateCue_ends (user : UserId) (c : CueId) (data : CueUpdateBody) (db : Database) :
    Ends (Kept db) (fun _ _ => True)
      (updateCue env text refuses user c data now now' updatedAt) (start db) := by
  refine ends_bind.mpr (ends_select.mpr ?_)
  cases hfound : (db.tables.cue c).filter fun cue => cue.userId = user with
  | none =>
    simp only [start, hfound]
    exact ends_throw.mpr rfl
  | some cue =>
    have hcue : db.tables.cue c = some cue := (Option.filter_eq_some_iff.mp hfound).1
    simp only [start, hfound]
    refine ends_bind.mpr (ends_select.mpr (ends_bind.mpr ?_))
    refine (inMemory_edits data _ (start db) db rfl rfl).mono (fun _ _ => id) ?_
    rintro row s ⟨hstored, hworking⟩
    refine ends_bind.mpr (ends_commit hstored fun db' hflush => ?_)
    refine ends_bind.mpr (ends_select.mpr ?_)
    have hstill : ∃ cue', db'.tables.cue c = some cue' := by
      rw [hworking] at hflush
      cases hobject : s.object with
      | none =>
        rw [hobject] at hflush
        cases hflush
        exact ⟨cue, hcue⟩
      | some new =>
        rw [hobject] at hflush
        exact flushRow_cue hflush hcue
    obtain ⟨cue', hcue'⟩ := hstill
    simp only [start, hcue']
    exact ends_pure.mpr trivial

end CueApi.FailedEdits
