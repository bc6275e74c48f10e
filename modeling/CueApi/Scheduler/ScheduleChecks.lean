import CueApi.Scheduler.EditProofs

/-! One schedule before `create_cue` and before `update_cue`. Both functions check it by themselves:
the second ignores a `type` that the first refuses, and drops the cron expression of a one-time cue,
which the first keeps. -/

namespace CueApi.Scheduler

variable {env : Env} {s : ScheduleCreate} {now : Time}

/-- The columns that a schedule decides. -/
structure ScheduleColumns where
  scheduleType : ScheduleType
  scheduleCron : Option String
  scheduleTimezone : String
  nextRun : Option Time
  deriving DecidableEq, Repr

def Cue.columns (cue : Cue) : ScheduleColumns :=
  ⟨cue.scheduleType, cue.scheduleCron, cue.scheduleTimezone, cue.nextRun⟩

/-- What the caller learns: the code of an error, or (`none`) an exception, or else the columns that
are stored. -/
def verdict (row : Checked Cue) : Option (Except String ScheduleColumns) :=
  row.run.map fun
    | .ok cue => .ok cue.columns
    | .error e => .error e.code

variable (env)

/-- The row that `create_cue` stores, when no table is against it. -/
def created (user : UserId) (data : CueCreate) (now began : Time) : Checked Cue :=
  ExceptT.mk ((validateCue env data now).map fun
    | .ok nextRun => .ok (cueRow user data nextRun began)
    | .error e => .error e)

/-- The row that `update_cue` stores for a body with this schedule and nothing else. -/
def rescheduled (s : ScheduleCreate) (now now' updatedAt : Time) (cue : Cue) : Checked Cue :=
  patched env { schedule := some s } now now' updatedAt cue

/-- Whatever else `create_cue` checks in the body is fine. -/
structure CueCreate.Sound (data : CueCreate) : Prop where
  url : data.transport = .webhook → data.callbackUrl.bind env.validateCallbackUrl = none
  nullByte : data.payload.nullByte = false
  size : data.payload.dumps.utf8ByteSize ≤ 1048576
  onFailure : truthy data.onFailure.webhook → data.onFailure.webhook.bind env.validateCallbackUrl = none

/-- The two functions judge the schedule alike, and store the same for it. -/
def JudgedAlike (s : ScheduleCreate) (now : Time) : Prop :=
  ∀ (user : UserId) (data : CueCreate) (began now' updatedAt : Time) (cue : Cue),
    data.schedule = s → data.Sound env → cue.status = .active →
      verdict (rescheduled env s now now' updatedAt cue) = verdict (created env user data now began)

/-- The zone and the schedule check of `create_cue`. -/
def checkSchedule (s : ScheduleCreate) (now : Time) : Option (Except ApiError Time) :=
  if !env.validateTimezone s.timezone then
    some (.error ⟨"invalid_timezone", "Unknown timezone: '" ++ s.timezone ++ "'", 422⟩)
  else firstRun env s now

variable {env}

/-- In a sound body only the schedule can be refused. -/
theorem validateCue_sound {data : CueCreate} (h : data.Sound env) :
    validateCue env data now = checkSchedule env data.schedule now := by
  have hurl : (if data.transport = .webhook then data.callbackUrl.bind env.validateCallbackUrl
      else none) = none := by
    split
    · exact h.url ‹_›
    · rfl
  have hfail : (if truthy data.onFailure.webhook then
      data.onFailure.webhook.bind env.validateCallbackUrl else none) = none := by
    split
    · exact h.onFailure ‹_›
    · rfl
  simp only [validateCue, hurl, h.nullByte, Nat.not_lt.mpr h.size, hfail, checkSchedule,
    Bool.false_eq_true, if_false]
  split
  · rfl
  · split <;> simp_all

/-- The columns for a first run. -/
def storedFor (s : ScheduleCreate) (next : Time) : ScheduleColumns :=
  ⟨s.type.getD .once, s.cron, s.timezone, some next⟩

theorem verdict_created {user : UserId} {data : CueCreate} {began : Time} (h : data.Sound env) :
    verdict (created env user data now began) = (checkSchedule env data.schedule now).map fun
      | .ok next => .ok (storedFor data.schedule next)
      | .error e => .error e.code := by
  unfold verdict created
  rw [validateCue_sound h]
  cases checkSchedule env data.schedule now with
  | none => rfl
  | some r => cases r <;> rfl

theorem verdict_rescheduled {now' updatedAt : Time} {cue : Cue} :
    verdict (rescheduled env s now now' updatedAt cue) = verdict (patchSchedule env now s cue) := by
  unfold verdict rescheduled patched
  simp only [ifGiven, Option.getD_none, pure_bind]
  change Option.map _ ((patchSchedule env now s cue >>= fun cue => pure _).run) = _
  rw [ExceptT.run_bind]
  cases h : (patchSchedule env now s cue).run with
  | none => rfl
  | some r => cases r <;> rfl

/-- What `update_cue` stores, of a schedule whose type it knows: a one-time cue loses its cron
expression. -/
theorem verdict_patchSchedule {cue : Cue} (hz : env.validateTimezone s.timezone = true) :
    verdict (patchSchedule env now s cue) =
      match s.type with
      | none => some (.ok cue.columns)
      | some type => (firstRun env s now).map fun
          | .ok next => .ok { storedFor s next with
              scheduleCron := if type = .once then none else s.cron }
          | .error e => .error e.code := by
  unfold verdict patchSchedule firstRun storedFor
  simp only [hz, Bool.not_true, Bool.false_eq_true, if_false]
  cases htype : s.type with
  | none => rfl
  | some type =>
    cases type with
    | recurring =>
      dsimp only
      split
      · rfl
      · split
        · rfl
        · cases hnext : env.cronNext (s.cron.getD "") s.timezone now <;> rfl
    | once =>
      dsimp only
      cases s.at? with
      | none => rfl
      | some d =>
        dsimp only
        split <;> rfl

theorem checkSchedule_unknown (hz : env.validateTimezone s.timezone = true) (ht : s.type = none) :
    checkSchedule env s now =
      some (.error ⟨"invalid_schedule", "Schedule type must be 'once' or 'recurring'", 400⟩) := by
  simp [checkSchedule, hz, firstRun, ht]

/-- A one-time schedule is accepted when it is dated in the future. -/
theorem firstRun_once (ht : s.type = some .once) {next : Time} :
    firstRun env s now = some (.ok next) ↔ ∃ d, s.at? = some d ∧ now < d.time ∧ d.time = next := by
  simp only [firstRun, ht]
  cases hat : s.at? with
  | none => simp
  | some d =>
    by_cases hd : d.time ≤ now
    · simp [hd]
    · simp [hd, Int.not_le.mp hd]

theorem url_of_worker : Transport.worker = .webhook → truthy none = true := nofun

/-- A worker cue with this schedule, and nothing else in the body. -/
def workerCreate (s : ScheduleCreate) : CueCreate where
  name := "nightly"
  schedule := s
  transport := .worker
  url_of_webhook := url_of_worker

theorem workerCreate_sound : (workerCreate s).Sound env where
  url h := by cases h
  nullByte := rfl
  size := (by decide +kernel : "\x7b\x7d".utf8ByteSize ≤ 1048576)
  onFailure h := by cases h

/-- A cue that is in order. -/
def storedCue : Cue :=
  cueRow 1 (workerCreate ⟨some .recurring, some "* * * * *", none, "UTC"⟩) 60000000 0

/-- A one-time cue that both accept in the same way had no cron expression to lose. -/
theorem cron_of_judgedAlike (hz : env.validateTimezone s.timezone = true) (ht : s.type = some .once)
    (h : verdict (patchSchedule env now s storedCue) = verdict (created env 1 (workerCreate s) now 0)) :
    s.cron = none ∨ ∀ d, s.at? = some d → d.time ≤ now := by
  refine or_iff_not_imp_right.mpr fun hd => ?_
  obtain ⟨d, hd⟩ := not_forall.mp hd
  obtain ⟨hat, hlt⟩ := Classical.not_imp.mp hd
  have hfirst : firstRun env s now = some (.ok d.time) :=
    (firstRun_once ht).mpr ⟨d, hat, Int.not_le.mp hlt, rfl⟩
  rw [verdict_patchSchedule hz, verdict_created workerCreate_sound] at h
  change _ = Option.map _ (checkSchedule env s now) at h
  simp [checkSchedule, hz, ht, hfirst, workerCreate, storedFor] at h
  exact h.symm

/-- An unknown type is refused by one of the two only. -/
theorem type_of_judgedAlike (hz : env.validateTimezone s.timezone = true)
    (h : verdict (patchSchedule env now s storedCue) = verdict (created env 1 (workerCreate s) now 0)) :
    s.type ≠ none := by
  intro ht
  rw [verdict_patchSchedule hz, verdict_created workerCreate_sound] at h
  change _ = Option.map _ (checkSchedule env s now) at h
  rw [checkSchedule_unknown hz ht] at h
  simp [ht] at h

/-- In a known zone, with no cron expression that is lost. -/
theorem verdicts_alike {data : CueCreate} {user : UserId} {began : Time} {cue : Cue}
    (hsound : data.Sound env) (hz : env.validateTimezone data.schedule.timezone = true)
    (h : data.schedule.type = some .recurring ∨ (data.schedule.type = some .once ∧
      (data.schedule.cron = none ∨ ∀ d, data.schedule.at? = some d → d.time ≤ now))) :
    verdict (patchSchedule env now data.schedule cue) = verdict (created env user data now began) := by
  rw [verdict_created hsound, verdict_patchSchedule hz]
  simp only [checkSchedule, hz, Bool.not_true, Bool.false_eq_true, if_false]
  rcases h with ht | ⟨ht, hcron⟩
  · simp only [ht]
    rfl
  · simp only [ht]
    cases hfirst : firstRun env data.schedule now with
    | none => rfl
    | some r =>
      cases r with
      | error e => rfl
      | ok next =>
        obtain ⟨d, hat, hlt, -⟩ := (firstRun_once ht).mp hfirst
        rcases hcron with hcron | hpast
        · simp [storedFor, hcron]
        · exact absurd hlt (Int.not_lt.mpr (hpast d hat))

/-- The judgement on the one schedule: the two differ on an unknown type, and on a one-time cue that
is accepted with a cron expression. -/
theorem schedules_judged_alike_iff (env : Env) (s : ScheduleCreate) (now : Time) :
    JudgedAlike env s now ↔ env.validateTimezone s.timezone = false ∨ s.type = some .recurring ∨
      (s.type = some .once ∧ (s.cron = none ∨ ∀ d, s.at? = some d → d.time ≤ now)) := by
  unfold JudgedAlike
  simp only [verdict_rescheduled]
  constructor
  · intro h
    have h := h 1 (workerCreate s) 0 0 0 storedCue rfl workerCreate_sound rfl
    by_cases hz : env.validateTimezone s.timezone = true
    · cases ht : s.type with
      | none => exact absurd ht (type_of_judgedAlike hz h)
      | some type =>
        cases type with
        | recurring => exact .inr (.inl rfl)
        | once => exact .inr (.inr ⟨rfl, cron_of_judgedAlike hz ht h⟩)
    · exact .inl (Bool.eq_false_iff.mpr hz)
  · rintro h user data began now' updatedAt cue rfl hsound -
    by_cases hz : env.validateTimezone data.schedule.timezone = true
    · exact verdicts_alike hsound hz (h.resolve_left (by simp [hz]))
    · rw [verdict_created hsound]
      simp only [verdict, patchSchedule, checkSchedule, hz]
      rfl

/-- A type that is neither: the creation is refused, the update accepted. -/
theorem unknown_type_accepted : ¬ ∀ (env : Env) (s : ScheduleCreate) (now : Time),
    JudgedAlike env s now := by
  intro hall
  have h := hall plainEnv ⟨none, none, none, "UTC"⟩ 0 1 (workerCreate ⟨none, none, none, "UTC"⟩) 0 0 0
    storedCue rfl workerCreate_sound rfl
  rw [verdict_created workerCreate_sound] at h
  revert h
  decide

end CueApi.Scheduler
