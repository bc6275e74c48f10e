import CueApi.Library.Pages
import CueApi.Scheduler.Alone
import CueApi.Scheduler.ScheduleChecks

/-! The alerts of `app/services/alert_service.py` that `record_outcome` fires after its commit. A
streak of failures is read off the statuses of the executions, not off what was reported, and an
alert is a duplicate of an alert for the same execution, not for the same cue. -/

namespace CueApi.FailureAlerts

open Scheduler (Time UserId CueId ExecId Tables Table Execution ExecStatus Cue OutcomeRequest ExecUpdate
  CueStatus Reply Write schema seconds outcomeStateOf metadataTooLarge ownedExecution executionNotFound
  rowsAt orderBy Alone World Pid)
open ReadCommitted Interleaving Prog Pages

/-! ## Alerts -/

inductive AlertType
  | outcomeTimeout | verificationFailed | consecutiveFailures
  deriving DecidableEq, Repr

/-- A row of `alerts`; every alert of `record_outcome` has the severity `warning`. -/
structure Alert where
  userId : UserId
  cueId : Option CueId
  executionId : Option ExecId
  alertType : AlertType
  severity : String := "warning"
  message : String
  createdAt : Time
  deriving DecidableEq, Repr

/-- `DEDUP_WINDOW_SECONDS`. -/
def dedupWindow : Time := seconds 300

/-- `CONSECUTIVE_FAILURE_THRESHOLD`. -/
def consecutiveFailureThreshold : Nat := 3

/-- The condition on whichever of the two keys is there. -/
def sameSubject (executionId : Option ExecId) (cueId : Option CueId) (a : Alert) : Bool :=
  if executionId.isSome then a.executionId = executionId
  else if cueId.isSome then a.cueId = cueId
  else true

/-- `_recent_duplicate_exists`, asked at the instant `now`. -/
def recentDuplicateExists (alerts : List Alert) (userId : UserId) (alertType : AlertType)
    (executionId : Option ExecId) (cueId : Option CueId) (now : Time) : Bool :=
  alerts.any fun a => a.userId = userId && a.alertType = alertType && now - dedupWindow < a.createdAt &&
    sameSubject executionId cueId a

/-- `create_alert`. -/
def createAlert (a : Alert) (now : Time) (alerts : List Alert) : List Alert :=
  if recentDuplicateExists alerts a.userId a.alertType a.executionId a.cueId now then alerts
  else a :: alerts

/-- The statuses that `count_consecutive_failures` reads. -/
def completed (status : ExecStatus) : Bool := status = .success || status = .failed

/-- `count_consecutive_failures`; `order` has the executions of the cue, newest first. -/
def countConsecutiveFailures (t : Tables) (order : List ExecId) : Nat :=
  ((((rowsAt t.executions order).map fun x => x.2.status).filter completed).take
    (consecutiveFailureThreshold + 5)).takeWhile (· = .failed) |>.length

/-! ## Calls of record_outcome -/

/-- The executions of a cue as `ORDER BY created_at DESC` may return them. -/
def NewestFirst (t : Tables) (c : CueId) (order : List ExecId) : Prop :=
  Permitted (fun i => OrderDual.toDual (orderBy t.executions Execution.createdAt i))
    (Scheduler.keysWhere t.executions fun _ r => r.cueId = c) order

/-- A call: `now` is the instant of the outcome, `began` the start of the transaction of the alerts
and `checked` that of the search for a duplicate. -/
structure Report where
  user : UserId
  execution : ExecId
  body : OutcomeRequest
  now : Time
  began : Time
  checked : Time
  order : List ExecId
  deriving DecidableEq, Repr

/-- The transaction of the outcome, newest write first. -/
def outcomeWrites (e : ExecId) (r : Execution) (cue : Cue) (body : OutcomeRequest) (now : Time) :
    List Write :=
  let recorded := Write.updateExecution e
    (.outcome cue.callbackTransport (cue.verificationMode.getD .none) body now)
  if cue.callbackTransport = .worker then
    let ran := Write.updateCue r.cueId (.outcomeRun now)
    if cue.scheduleType = .once then
      [.updateCue r.cueId (.finish (if body.success then .completed else .failed) now), ran, recorded]
    else [ran, recorded]
  else [recorded]

/-- The alert of an outcome without the evidence that its cue asks for. -/
def verificationFailedAlert (c : Report) (r : Execution) : Alert where
  userId := c.user
  cueId := some r.cueId
  executionId := some c.execution
  alertType := .verificationFailed
  message := "Execution " ++ toString c.execution ++
    " reported success but failed verification (required evidence missing)."
  createdAt := c.began

def consecutiveFailuresAlert (c : Report) (r : Execution) (streak : Nat) : Alert where
  userId := c.user
  cueId := some r.cueId
  executionId := some c.execution
  alertType := .consecutiveFailures
  message := "Cue " ++ toString r.cueId ++ " has " ++ toString streak ++
    " consecutive failed executions."
  createdAt := c.began

/-- The alert firing of `record_outcome`, on the committed tables. -/
def fireAlerts (t : Tables) (c : Report) (r : Execution) (cue : Cue) (alerts : List Alert) :
    List Alert :=
  let mode := cue.verificationMode.getD .none
  let alerts :=
    if (outcomeStateOf mode c.body).1 = .verificationFailed then
      createAlert (verificationFailedAlert c r) c.checked alerts
    else alerts
  let streak := countConsecutiveFailures t c.order
  if !c.body.success && consecutiveFailureThreshold ≤ streak then
    createAlert (consecutiveFailuresAlert c r streak) c.checked alerts
  else alerts

/-! ## The state -/

/-- An alert about an execution names its cue. -/
def Traced (t : Tables) (alerts : List Alert) : Prop :=
  ∀ a ∈ alerts, ∀ e ∈ a.executionId, ∀ r, t.execution e = some r → a.cueId = some r.cueId

structure State where
  tables : Tables
  alerts : List Alert
  traced : Traced tables alerts

variable {t : Tables} {alerts : List Alert} {c : Report} {r : Execution} {cue : Cue} {e i : ExecId}

/-- The outcome's own write to the row. -/
def outcomeUpdate (cue : Cue) (body : OutcomeRequest) (now : Time) : ExecUpdate :=
  .outcome cue.callbackTransport (cue.verificationMode.getD .none) body now

/-- The transaction writes one row of `executions`. -/
theorem execution_outcomeWrites {body : OutcomeRequest} {now : Time} :
    (schema.applyAll (outcomeWrites e r cue body now) t).execution i =
      if i = e then (t.execution i).map (outcomeUpdate cue body now).set else t.execution i := by
  unfold outcomeWrites outcomeUpdate
  by_cases htransport : cue.callbackTransport = .worker <;> by_cases honce : cue.scheduleType = .once <;>
    simp [htransport, honce, schema, Tables.execution_apply]

theorem Traced.outcome (h : Traced t alerts) {body : OutcomeRequest} {now : Time} :
    Traced (schema.applyAll (outcomeWrites e r cue body now) t) alerts := by
  intro a ha i hi r' hr'
  rw [execution_outcomeWrites] at hr'
  split at hr'
  · obtain ⟨r₀, hr₀, rfl⟩ := Option.map_eq_some_iff.mp hr'
    rw [ExecUpdate.set_cueId]
    exact h a ha i hi r₀ hr₀
  · exact h a ha i hi r' hr'

theorem Traced.createAlert (h : Traced t alerts) {a : Alert} {now : Time}
    (ha : ∀ e ∈ a.executionId, ∀ r, t.execution e = some r → a.cueId = some r.cueId) :
    Traced t (createAlert a now alerts) := by
  unfold FailureAlerts.createAlert
  split
  · exact h
  · intro b hb
    rcases List.mem_cons.mp hb with rfl | hb
    · exact ha
    · exact h b hb

theorem Traced.fireAlerts (h : Traced t alerts)
    (hr : ∀ r', t.execution c.execution = some r' → r'.cueId = r.cueId) :
    Traced t (fireAlerts t c r cue alerts) := by
  have hown : ∀ e ∈ some c.execution, ∀ r', t.execution e = some r' → some r.cueId = some r'.cueId := by
    rintro e ⟨⟩ r' hr'
    rw [hr r' hr']
  have hfirst : Traced t (if (outcomeStateOf (cue.verificationMode.getD .none) c.body).1 =
      .verificationFailed then FailureAlerts.createAlert (verificationFailedAlert c r) c.checked alerts
      else alerts) := by
    split
    · exact h.createAlert hown
    · exact h
  unfold FailureAlerts.fireAlerts
  dsimp only
  split
  · exact hfirst.createAlert hown
  · exact hfirst

/-- The row of an execution that a user owns. -/
theorem ownedExecution_eq {user : UserId} (h : ownedExecution t user e = some (r, cue)) :
    t.execution e = some r ∧ t.cue r.cueId = some cue ∧ cue.userId = user := by
  obtain ⟨r', hr, h⟩ := Option.bind_eq_some_iff.mp h
  obtain ⟨cue', hcue, heq⟩ := Option.map_eq_some_iff.mp h
  obtain ⟨rfl, rfl⟩ := Prod.mk.inj heq
  obtain ⟨hcue, hu⟩ := Option.filter_eq_some_iff.mp hcue
  exact ⟨hr, hcue, of_decide_eq_true hu⟩

/-- `record_outcome` past its checks. -/
def State.record (s : State) (c : Report) (r : Execution) (cue : Cue)
    (hrow : ownedExecution s.tables c.user c.execution = some (r, cue)) : State where
  tables := schema.applyAll (outcomeWrites c.execution r cue c.body c.now) s.tables
  alerts := fireAlerts (schema.applyAll (outcomeWrites c.execution r cue c.body c.now) s.tables) c r cue
    s.alerts
  traced := by
    refine s.traced.outcome.fireAlerts fun r' hr' => ?_
    rw [execution_outcomeWrites, if_pos rfl, (ownedExecution_eq hrow).1] at hr'
    obtain rfl := Option.some.inj hr'
    rw [ExecUpdate.set_cueId]

/-- `record_outcome`, with its alerts. -/
def recordOutcome (s : State) (c : Report) : Reply × State :=
  match hrow : ownedExecution s.tables c.user c.execution with
  | none => (executionNotFound, s)
  | some (r, cue) =>
      if r.outcomeRecordedAt.isSome then
        (.error ⟨"outcome_already_recorded",
          "Outcome has already been recorded for this execution", 409⟩, s)
      else if metadataTooLarge c.body then
        (.error ⟨"metadata_too_large", "Outcome metadata must be under 10KB", 400⟩, s)
      else (.outcome (outcomeStateOf (cue.verificationMode.getD .none) c.body).1, s.record c r cue hrow)

theorem recordOutcome_none {s : State} (h : ownedExecution s.tables c.user c.execution = none) :
    recordOutcome s c = (executionNotFound, s) := by
  unfold recordOutcome
  split
  · rfl
  · rename_i hrow
    rw [h] at hrow
    cases hrow

theorem recordOutcome_some {s : State}
    (h : ownedExecution s.tables c.user c.execution = some (r, cue)) : recordOutcome s c =
      if r.outcomeRecordedAt.isSome then
        (.error ⟨"outcome_already_recorded",
          "Outcome has already been recorded for this execution", 409⟩, s)
      else if metadataTooLarge c.body then
        (.error ⟨"metadata_too_large", "Outcome metadata must be under 10KB", 400⟩, s)
      else (.outcome (outcomeStateOf (cue.verificationMode.getD .none) c.body).1,
        s.record c r cue h) := by
  unfold recordOutcome
  split
  · rename_i hrow
    rw [h] at hrow
    cases hrow
  · rename_i hrow
    obtain ⟨rfl, rfl⟩ := Prod.mk.inj (Option.some.inj (h.symm.trans hrow))
    rfl

section Program

variable {s : State} {p : Pid} {h : Scheduler.History} {w : World} {now : Time}
variable {Q : Reply → World → Prop} {user : UserId}

theorem surely_selectForOutcome {k : Option (Execution × Cue) → Scheduler.Program Reply}
    (hw : Alone p [] t now h w)
    (hk : ∀ w', Alone p [] t now h w' → Surely False Q (k (ownedExecution t user e)) w') :
    Surely False Q (Scheduler.selectForOutcome p user e >>= k) w := by
  have hview : w.view p = t := hw.view
  cases hrow : ownedExecution t user e with
  | none =>
    refine Scheduler.surely_det (fun _ => by simp only [hview, hrow]) (hrow ▸ hk w hw)
  | some row =>
    obtain ⟨st, hst, hw'⟩ := hw.lock [.execution e]
    refine Scheduler.surely_det (fun _ => ?_) (hrow ▸ hk _ hw')
    simp only [hview, hrow, hst]
    rfl

/-- The end of each branch: a commit, and the reply. -/
theorem surely_commit_reply {B : List Write} {reply : Reply} {t' : Tables} (hw : Alone p B t now h w)
    (ht : schema.applyAll B t = t') : Surely False (fun reply' w' => reply' = reply ∧ w'.tables = t')
      (Scheduler.commit p >>= fun _ => pure reply) w :=
  Scheduler.surely_commit hw fun _ hw' => ⟨rfl, hw'.tables.trans ht⟩

/-- Up to the commit it is the program that the poller and the workers run beside. -/
theorem surely_recordOutcome (hw : Alone p [] s.tables c.now h w) :
    Surely False (fun reply w' => reply = (recordOutcome s c).1 ∧
        w'.tables = (recordOutcome s c).2.tables)
      (Scheduler.recordOutcome p c.user c.execution c.body) w := by
  unfold Scheduler.recordOutcome
  refine surely_selectForOutcome hw fun w₁ hw₁ => ?_
  cases hrow : ownedExecution s.tables c.user c.execution with
  | none =>
    rw [recordOutcome_none hrow]
    exact ⟨rfl, hw₁.tables⟩
  | some row =>
    obtain ⟨r, cue⟩ := row
    rw [recordOutcome_some hrow]
    dsimp only
    split
    · exact ⟨rfl, hw₁.tables⟩
    · split
      · exact ⟨rfl, hw₁.tables⟩
      · refine Scheduler.surely_clock hw₁ (Scheduler.surely_updateExecutionById hw₁
          (fun w₂ r' _ hw₂ => ?_) fun w₂ hno _ => ?_)
        · by_cases htransport : cue.callbackTransport = .worker
          · simp only [htransport, if_true]
            refine Scheduler.surely_write hw₂ fun w₃ hw₃ => ?_
            by_cases honce : cue.scheduleType = .once
            · simp only [honce, if_true]
              refine Scheduler.surely_write hw₃ fun w₄ hw₄ => surely_commit_reply hw₄ ?_
              simp [State.record, outcomeWrites, htransport, honce]
            · simp only [honce, if_false]
              refine surely_commit_reply hw₃ ?_
              simp [State.record, outcomeWrites, htransport, honce]
          · simp only [htransport, if_false]
            refine surely_commit_reply hw₂ ?_
            simp [State.record, outcomeWrites, htransport]
        · rw [schema.applyAll_nil, (ownedExecution_eq hrow).1] at hno
          cases hno

end Program

/-! ## What an alert should say -/

/-- The executions with an outcome, newest first. -/
def reported (t : Tables) (order : List ExecId) : List (ExecId × Execution) :=
  (rowsAt t.executions order).filter fun x => x.2.outcomeRecordedAt.isSome

/-- The three newest of them report a failure. -/
def ThreeFailed (t : Tables) (order : List ExecId) : Prop :=
  3 ≤ (reported t order).length ∧ ∀ x ∈ (reported t order).take 3, x.2.outcomeSuccess = some false

/-- An alert of the kind was created for the cue in the five minutes before `now`. -/
def RecentForCue (alerts : List Alert) (cue : CueId) (now : Time) : Prop :=
  ∃ a ∈ alerts, a.alertType = .consecutiveFailures ∧ a.cueId = some cue ∧
    now - dedupWindow < a.createdAt

/-- The call creates an alert of the kind. -/
def Creates (s s' : State) : Prop :=
  ∃ a, s'.alerts = a :: s.alerts ∧ a.alertType = .consecutiveFailures

/-- The call records a failure. -/
structure Fails (s : State) (c : Report) (r : Execution) (cue : Cue) : Prop where
  row : ownedExecution s.tables c.user c.execution = some (r, cue)
  first : r.outcomeRecordedAt = none
  size : metadataTooLarge c.body = false
  failure : c.body.success = false
  order : NewestFirst s.tables r.cueId c.order

/-- A call that records a failure creates an alert exactly when the three newest outcomes of the cue,
its own included, are failures and the cue has no alert from the last five minutes. -/
def AlertsRightly (s : State) (c : Report) : Prop :=
  ∀ r cue, Fails s c r cue → (Creates s (recordOutcome s c).2 ↔
    ThreeFailed (recordOutcome s c).2.tables c.order ∧ ¬ RecentForCue s.alerts r.cueId c.checked)

/-! ## The state before the call -/

/-- An alert of the kind was created for the execution in the five minutes before `now`. -/
def RecentForExecution (alerts : List Alert) (user : UserId) (e : ExecId) (now : Time) : Prop :=
  ∃ a ∈ alerts, a.userId = user ∧ a.alertType = .consecutiveFailures ∧
    now - dedupWindow < a.createdAt ∧ a.executionId = some e

/-- The three newest finished executions failed, where that of the call counts as failed when its cue
is a worker cue, and by its status otherwise. -/
def StatusesFailed (t : Tables) (c : Report) (cue : Cue) : Prop :=
  let statuses := ((rowsAt t.executions c.order).map fun x =>
    if x.1 = c.execution ∧ cue.callbackTransport = .worker then .failed else x.2.status).filter completed
  3 ≤ statuses.length ∧ ∀ status ∈ statuses.take 3, status = .failed

/-- The three newest executions with an outcome report a failure, where that of the call does. -/
def OutcomesFailed (t : Tables) (c : Report) : Prop :=
  let rows := (rowsAt t.executions c.order).filter fun x =>
    x.1 = c.execution || x.2.outcomeRecordedAt.isSome
  3 ≤ rows.length ∧ ∀ x ∈ rows.take 3, x.1 = c.execution ∨ x.2.outcomeSuccess = some false

/-- Without a recent alert for the cue, statuses and outcomes agree; with one, the statuses do not
make a streak, or the alert is for the execution itself. -/
def StatusesTell (s : State) (c : Report) : Prop :=
  ∀ r cue, Fails s c r cue →
    (¬ RecentForCue s.alerts r.cueId c.checked →
      (StatusesFailed s.tables c cue ↔ OutcomesFailed s.tables c)) ∧
    (RecentForCue s.alerts r.cueId c.checked → StatusesFailed s.tables c cue →
      RecentForExecution s.alerts c.user c.execution c.checked)

/-! ## One call -/

/-- A streak of `n`, read off a longer prefix. -/
theorem le_streak_iff {p : ExecStatus → Bool} {l : List ExecStatus} {n m : Nat} (hnm : n ≤ m) :
    n ≤ ((l.take m).takeWhile p).length ↔ n ≤ l.length ∧ ∀ x ∈ l.take n, p x = true := by
  induction n generalizing l m with
  | zero => simp
  | succ n ih =>
    obtain ⟨m, rfl⟩ : ∃ k, m = k + 1 := ⟨m - 1, by omega⟩
    cases l with
    | nil => simp
    | cons x l =>
      rw [List.take_succ_cons, List.take_succ_cons, List.takeWhile_cons]
      by_cases hx : p x = true
      · simp [hx, ih (l := l) (Nat.le_of_succ_le_succ hnm)]
      · simp [hx]

variable {s : State}

/-- The rows of an order after the outcome. -/
theorem rowsAt_outcome {body : OutcomeRequest} {now : Time} {order : List ExecId} :
    rowsAt (schema.applyAll (outcomeWrites e r cue body now) t).executions order =
      (rowsAt t.executions order).map fun x =>
        (x.1, if x.1 = e then (outcomeUpdate cue body now).set x.2 else x.2) := by
  unfold rowsAt
  rw [List.map_filterMap]
  refine List.filterMap_congr fun i _ => ?_
  have hrow : (schema.applyAll (outcomeWrites e r cue body now) t).executions.lookup i =
      if i = e then (t.execution i).map (outcomeUpdate cue body now).set else t.execution i :=
    execution_outcomeWrites
  rw [hrow]
  unfold Tables.execution
  by_cases hi : i = e <;> cases t.executions.lookup i <;> simp [hi]

theorem streak_iff (hfailure : c.body.success = false) :
    consecutiveFailureThreshold ≤ countConsecutiveFailures
        (schema.applyAll (outcomeWrites c.execution r cue c.body c.now) t) c.order ↔
      StatusesFailed t c cue := by
  have hstatus : ((rowsAt (schema.applyAll (outcomeWrites c.execution r cue c.body c.now) t).executions
        c.order).map fun x => x.2.status) =
      (rowsAt t.executions c.order).map fun x =>
        if x.1 = c.execution ∧ cue.callbackTransport = .worker then .failed else x.2.status := by
    rw [rowsAt_outcome, List.map_map]
    refine List.map_congr_left fun x _ => ?_
    by_cases hx : x.1 = c.execution <;> cases htransport : cue.callbackTransport <;>
      simp [hx, htransport, outcomeUpdate, ExecUpdate.set, hfailure]
  unfold countConsecutiveFailures StatusesFailed consecutiveFailureThreshold
  rw [hstatus, le_streak_iff (by decide)]
  simp

theorem threeFailed_iff (hfailure : c.body.success = false) :
    ThreeFailed (schema.applyAll (outcomeWrites c.execution r cue c.body c.now) t) c.order ↔
      OutcomesFailed t c := by
  let after (x : ExecId × Execution) : ExecId × Execution :=
    (x.1, if x.1 = c.execution then (outcomeUpdate cue c.body c.now).set x.2 else x.2)
  have hrecorded : ∀ x, (after x).2.outcomeRecordedAt.isSome =
      (decide (x.1 = c.execution) || x.2.outcomeRecordedAt.isSome) := by
    intro x
    by_cases hx : x.1 = c.execution <;> cases htransport : cue.callbackTransport <;>
      simp [after, hx, htransport, outcomeUpdate, ExecUpdate.set, hfailure]
  have hsuccess : ∀ x, (after x).2.outcomeSuccess = some false ↔
      x.1 = c.execution ∨ x.2.outcomeSuccess = some false := by
    intro x
    by_cases hx : x.1 = c.execution <;> cases htransport : cue.callbackTransport <;>
      simp [after, hx, htransport, outcomeUpdate, ExecUpdate.set, hfailure]
  have hreported : reported (schema.applyAll (outcomeWrites c.execution r cue c.body c.now) t) c.order =
      ((rowsAt t.executions c.order).filter fun x =>
        x.1 = c.execution || x.2.outcomeRecordedAt.isSome).map after := by
    unfold reported
    rw [rowsAt_outcome, List.filter_map]
    exact congrArg (List.map after) (List.filter_congr fun x _ => hrecorded x)
  unfold ThreeFailed OutcomesFailed
  rw [hreported, List.length_map, ← List.map_take]
  simp only [List.forall_mem_map, hsuccess]

theorem recentDuplicateExists_iff {user : UserId} {now : Time} {cueId : Option CueId} :
    recentDuplicateExists alerts user .consecutiveFailures (some e) cueId now = true ↔
      RecentForExecution alerts user e now := by
  simp only [recentDuplicateExists, RecentForExecution, List.any_eq_true, Bool.and_eq_true,
    decide_eq_true_eq, sameSubject, Option.isSome_some, if_true, and_assoc]

/-- What a failed report does. -/
theorem recordOutcome_fails (h : Fails s c r cue) : (recordOutcome s c).2 = s.record c r cue h.row := by
  rw [recordOutcome_some h.row, h.first, h.size]
  rfl

theorem creates_iff (h : Fails s c r cue) : Creates s (recordOutcome s c).2 ↔
    StatusesFailed s.tables c cue ∧ ¬ RecentForExecution s.alerts c.user c.execution c.checked := by
  have hstate : (outcomeStateOf (cue.verificationMode.getD .none) c.body).1 ≠ .verificationFailed := by
    simp [outcomeStateOf, h.failure]
  have hstreak := @streak_iff s.tables c r cue h.failure
  have hduplicate : recentDuplicateExists s.alerts c.user .consecutiveFailures (some c.execution)
      (some r.cueId) c.checked = true ↔ RecentForExecution s.alerts c.user c.execution c.checked :=
    recentDuplicateExists_iff
  have halerts : (recordOutcome s c).2.alerts = fireAlerts
      (schema.applyAll (outcomeWrites c.execution r cue c.body c.now) s.tables) c r cue s.alerts := by
    rw [recordOutcome_fails h]
    rfl
  unfold Creates
  rw [halerts]
  simp only [fireAlerts, hstate, if_false, h.failure, Bool.not_false, Bool.true_and, decide_eq_true_eq]
  by_cases hs : StatusesFailed s.tables c cue
  · rw [if_pos (hstreak.mpr hs), createAlert, consecutiveFailuresAlert]
    by_cases hrecent : RecentForExecution s.alerts c.user c.execution c.checked
    · rw [if_pos (hduplicate.mpr hrecent)]
      exact ⟨fun ⟨a, ha, _⟩ => absurd ha.symm (List.cons_ne_self a s.alerts),
        fun hboth => absurd hrecent hboth.2⟩
    · rw [if_neg (mt hduplicate.mp hrecent)]
      exact ⟨fun _ => ⟨hs, hrecent⟩, fun _ => ⟨_, rfl, rfl⟩⟩
  · rw [if_neg (mt hstreak.mp hs)]
    exact ⟨fun ⟨a, ha, _⟩ => absurd ha.symm (List.cons_ne_self a s.alerts),
      fun hboth => absurd hboth.1 hs⟩

/-- An alert for the execution is one for its cue. -/
theorem recentForCue_of_execution (h : RecentForExecution s.alerts c.user e c.checked)
    (hr : s.tables.execution e = some r) : RecentForCue s.alerts r.cueId c.checked := by
  obtain ⟨a, ha, -, htype, hrecent, he⟩ := h
  exact ⟨a, ha, htype, s.traced a ha e he r hr, hrecent⟩

theorem alertsRightly_iff : AlertsRightly s c ↔ StatusesTell s c := by
  unfold AlertsRightly StatusesTell
  refine forall₃_congr fun r cue h => ?_
  have htables : (recordOutcome s c).2.tables =
      schema.applyAll (outcomeWrites c.execution r cue c.body c.now) s.tables := by
    rw [recordOutcome_fails h]
    rfl
  rw [creates_iff h, htables, threeFailed_iff h.failure]
  have hcue : RecentForExecution s.alerts c.user c.execution c.checked →
      RecentForCue s.alerts r.cueId c.checked := fun hrecent =>
    recentForCue_of_execution hrecent (ownedExecution_eq h.row).1
  tauto

/-! ## Runs -/

/-- A call, or whatever happens between two calls. -/
inductive Move
  | report (c : Report)
  | other (s : State)

/-- `P` holds at every call of the run. -/
def Along (P : State → Report → Prop) : State → List Move → Prop
  | _, [] => True
  | s, .report c :: moves => P s c ∧ Along P (recordOutcome s c).2 moves
  | _, .other s :: moves => Along P s moves

theorem Along.congr {P P' : State → Report → Prop} (h : ∀ s c, P s c ↔ P' s c) {moves : List Move} :
    Along P s moves ↔ Along P' s moves := by
  induction moves generalizing s with
  | nil => exact Iff.rfl
  | cons move moves ih =>
    cases move with
    | report c => exact and_congr (h s c) ih
    | other s' => exact ih

/-- The alerts of a run are right exactly when at each failure that is recorded the statuses tell what
was reported, and no alert of the cue from another execution would have to be respected. -/
theorem alerts_along_iff (s : State) (moves : List Move) :
    Along AlertsRightly s moves ↔ Along StatusesTell s moves :=
  Along.congr fun _ _ => alertsRightly_iff

/-- Four executions of a worker cue, of which three have failed. -/
def threeFailed : Tables where
  executions := [1, 2, 3].foldl (fun t i => Scheduler.insertNew t i
      { cueId := 1, scheduledFor := i, createdAt := i, updatedAt := i, status := .failed,
        outcomeSuccess := some false, outcomeRecordedAt := some i })
    (Scheduler.insertNew ∅ 4 { cueId := 1, scheduledFor := 4, createdAt := 4, updatedAt := 4 })
  cues := Scheduler.insertNew ∅ 1 Scheduler.storedCue

/-- There was an alert for the third. -/
def alerted : State where
  tables := threeFailed
  alerts := [{ userId := 1, cueId := some 1, executionId := some 3, alertType := .consecutiveFailures,
               message := "Cue 1 has 3 consecutive failed executions.", createdAt := 3 }]
  traced := by
    intro a ha e he r hr
    rw [List.mem_singleton.mp ha] at he ⊢
    obtain rfl : 3 = e := Option.some.inj he
    have hcue : (threeFailed.execution 3).map Execution.cueId = some 1 := by decide
    rw [hr] at hcue
    exact hcue.symm

/-- The fourth failure, a moment later. -/
def fourthFailure : Report where
  user := 1
  execution := 4
  body := { success := false }
  now := 5
  began := 5
  checked := 5
  order := [4, 3, 2, 1]

/-- It raises an alert again. -/
theorem fourth_failure_alerts : ¬ ∀ (s : State) (moves : List Move), Along AlertsRightly s moves := by
  intro hall
  have hright := (hall alerted [.report fourthFailure]).1
  have hfails : Fails alerted fourthFailure
      { cueId := 1, scheduledFor := 4, createdAt := 4, updatedAt := 4 } Scheduler.storedCue :=
    ⟨by decide, rfl, rfl, rfl, by decide, by decide⟩
  have hcreates := (creates_iff hfails).mpr
    ⟨by unfold StatusesFailed; decide, by unfold RecentForExecution; decide⟩
  exact ((hright _ _ hfails).mp hcreates).2 (by unfold RecentForCue; decide)

end CueApi.FailureAlerts
