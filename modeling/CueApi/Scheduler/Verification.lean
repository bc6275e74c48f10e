import CueApi.Library.Machine
import CueApi.Scheduler.Requests

/-! The verification of outcomes: `record_outcome`, and `verify_execution`,
`mark_verification_pending` and `append_evidence` of `app/routers/executions.py`, called one after
the other on one execution. -/

namespace CueApi.Verification

open Scheduler (Time UserId Cue Execution Json OutcomeRequest OutcomeState ApiError truthy orKeep
  outcomeStateOf metadataTooLarge)

/-- The row, with the column that only `append_evidence` writes. -/
structure Row where
  execution : Execution
  evidenceMetadata : Option Json := none
  deriving DecidableEq, Repr

structure VerifyRequest where
  valid : Bool := true
  reason : Option String := none
  deriving DecidableEq, Repr

/-- The body of `append_evidence`, a plain dict; PostgreSQL refuses values of other types. -/
structure EvidencePatch where
  externalId : Option String := none
  resultUrl : Option String := none
  resultRef : Option String := none
  resultType : Option String := none
  summary : Option String := none
  artifacts : Option (List Json) := none
  metadata : Option Json := none
  deriving DecidableEq, Repr

inductive Call
  | recordOutcome (body : OutcomeRequest)
  | verifyExecution (body : Option VerifyRequest)
  | markVerificationPending
  | appendEvidence (body : EvidencePatch)
  deriving DecidableEq, Repr

/-- A call of an authenticated user, at the instant `now`; `cue` is the cue of the execution as the
SELECT joins it. -/
structure Request where
  user : UserId
  cue : Cue
  now : Time
  call : Call
  deriving DecidableEq, Repr

inductive Reply
  | error (e : ApiError)
  | recorded (outcomeState : Option OutcomeState)
  | verified (outcomeState : OutcomeState) (valid : Bool) (reason : Option String)
  | pending
  | evidenceUpdated (outcomeState : Option OutcomeState)
  deriving DecidableEq, Repr

def executionNotFound : Reply := .error ⟨"execution_not_found", "Execution not found", 404⟩

def noOutcome (message : String) : Reply := .error ⟨"no_outcome", message, 409⟩

/-- `record_outcome` on the row; the UPDATEs of the cue write no column that is read here. -/
def recordOutcome (cue : Cue) (body : OutcomeRequest) (now : Time) (r : Row) : Reply × Row :=
  if r.execution.outcomeRecordedAt.isSome then
    (.error ⟨"outcome_already_recorded",
      "Outcome has already been recorded for this execution", 409⟩, r)
  else if metadataTooLarge body then
    (.error ⟨"metadata_too_large", "Outcome metadata must be under 10KB", 400⟩, r)
  else
    let mode := cue.verificationMode.getD .none
    let execution :=
      (Scheduler.ExecUpdate.outcome cue.callbackTransport mode body now).set r.execution
    (.recorded execution.outcomeState, { r with execution := execution })

/-- The column in an f-string. -/
def stateText : Option OutcomeState → String
  | none => "None"
  | some .reportedSuccess => "reported_success"
  | some .reportedFailure => "reported_failure"
  | some .verificationPending => "verification_pending"
  | some .verifiedSuccess => "verified_success"
  | some .verificationFailed => "verification_failed"

/-- The starting states that `verify_execution` accepts. -/
def verifiable (s : Option OutcomeState) : Bool :=
  s ∈ [some .reportedSuccess, some .reportedFailure, some .verificationPending]

def first500 (s : String) : String := .ofList (s.toList.take 500)

/-- `evidence_summary` after a rejection: the reason stands behind what was there. -/
def rejectedSummary (summary reason : Option String) : Option String :=
  match reason.filter (· ≠ "") with
  | none => summary
  | some reason =>
      match summary.filter (· ≠ "") with
      | none => some (first500 reason)
      | some summary =>
          some (first500 (summary ++ " | verification rejected: " ++ first500 reason))

def verifyExecution (body : Option VerifyRequest) (now : Time) (r : Row) : Reply × Row :=
  if !verifiable r.execution.outcomeState then
    (.error ⟨"invalid_state",
      "Cannot verify from state '" ++ stateText r.execution.outcomeState ++ "'", 409⟩, r)
  else
    let payload := body.getD {}
    let state : OutcomeState := if payload.valid then .verifiedSuccess else .verificationFailed
    let evidence := r.execution.evidence
    (.verified state payload.valid payload.reason,
      { r with execution := { r.execution with
          outcomeState := some state
          updatedAt := now
          evidence := { evidence with
            valid := some payload.valid
            summary := if payload.valid then evidence.summary
              else rejectedSummary evidence.summary payload.reason } } })

/-- `mark_verification_pending`; its 409 carries no status of its own. -/
def markVerificationPending (now : Time) (r : Row) : Reply × Row :=
  if r.execution.outcomeRecordedAt.isNone then (noOutcome "No outcome recorded yet", r)
  else
    (.pending, { r with execution := { r.execution with
      outcomeState := some .verificationPending
      updatedAt := now } })

/-- Python truth of a JSON value. -/
def jsonTruthy (j : Json) : Bool :=
  j.dumps ∉ ["null", "false", "0", "0.0", "-0.0", "\"\"", "[]", "\x7b\x7d"]

def appendEvidence (body : EvidencePatch) (now : Time) (r : Row) : Reply × Row :=
  if r.execution.outcomeRecordedAt.isNone then
    (noOutcome "Report outcome first before appending evidence", r)
  else
    let evidence := r.execution.evidence
    (.evidenceUpdated r.execution.outcomeState,
      { evidenceMetadata := (body.metadata.filter jsonTruthy).or r.evidenceMetadata
        execution := { r.execution with
          updatedAt := now
          evidence := { evidence with
            externalId := orKeep body.externalId evidence.externalId
            resultUrl := orKeep body.resultUrl evidence.resultUrl
            resultRef := orKeep body.resultRef evidence.resultRef
            resultType := orKeep body.resultType evidence.resultType
            summary := orKeep (body.summary.map first500) evidence.summary
            artifacts := (body.artifacts.filter (· ≠ [])).or evidence.artifacts } } })

/-- What the call answers, and the row that it leaves. -/
def serve (r : Row) (x : Request) : Reply × Row :=
  if x.cue.userId ≠ x.user then
    match x.call with
    | .markVerificationPending => (.error ⟨"", "Not Found", 404⟩, r)
    | _ => (executionNotFound, r)
  else
    match x.call with
    | .recordOutcome body => recordOutcome x.cue body x.now r
    | .verifyExecution body => verifyExecution body x.now r
    | .markVerificationPending => markVerificationPending x.now r
    | .appendEvidence body => appendEvidence body x.now r

def step (r : Row) (x : Request) : Option Row := some (serve r x).2

/-! ## The two columns -/

/-- `verified_success` and `verification_failed`. -/
def final (s : Option OutcomeState) : Bool :=
  s ∈ [some .verifiedSuccess, some .verificationFailed]

/-- What `outcome_recorded_at`, `outcome_state` and `evidence_validation_state` say of one another;
`valid` and `invalid` are the two values of the latter. -/
structure Consistent (r : Execution) : Prop where
  recorded : r.outcomeState ≠ none ↔ r.outcomeRecordedAt ≠ none
  valid : r.evidence.valid = some true ↔ r.outcomeState = some .verifiedSuccess
  invalid : r.evidence.valid = some false ↔ r.outcomeState = some .verificationFailed

/-- No outcome has been reported. -/
structure Unreported (r : Execution) : Prop where
  state : r.outcomeState = none
  recordedAt : r.outcomeRecordedAt = none
  valid : r.evidence.valid = none

/-- The call takes a settled outcome back to `verification_pending`. -/
def reopens (r : Row) (x : Request) : Bool :=
  x.call = .markVerificationPending && x.cue.userId = x.user && final r.execution.outcomeState

variable {r r' start : Row} {x : Request} {calls : List Request}

theorem Unreported.consistent {r : Execution} (h : Unreported r) : Consistent r := by
  constructor
  · simp [h.state, h.recordedAt]
  · simp [h.state, h.valid]
  · simp [h.state, h.valid]

theorem final_iff {s : Option OutcomeState} :
    final s = true ↔ s = some .verifiedSuccess ∨ s = some .verificationFailed := by
  simp [final]

/-- Evidence that has been judged belongs to a settled outcome. -/
theorem Consistent.unjudged {r : Execution} (h : Consistent r) (hf : final r.outcomeState = false) :
    r.evidence.valid = none := by
  rw [Bool.eq_false_iff, ne_eq, final_iff, not_or, ← h.valid, ← h.invalid] at hf
  cases hv : r.evidence.valid with
  | none => rfl
  | some b => cases b <;> simp [hv] at hf

theorem outcomeStateOf_judged (mode : Scheduler.VerificationMode) (body : OutcomeRequest) :
    ((outcomeStateOf mode body).2 = some true ↔
        (outcomeStateOf mode body).1 = .verifiedSuccess) ∧
      ((outcomeStateOf mode body).2 = some false ↔
        (outcomeStateOf mode body).1 = .verificationFailed) := by
  unfold outcomeStateOf
  cases body.success with
  | false => simp
  | true => cases mode <;> simp <;> split <;> simp

/-! ## One call -/

theorem outcome_columns (cue : Cue) (mode : Scheduler.VerificationMode) (body : OutcomeRequest)
    (now : Time) (r : Execution) :
    let r' := (Scheduler.ExecUpdate.outcome cue.callbackTransport mode body now).set r
    r'.outcomeState = some (outcomeStateOf mode body).1 ∧ r'.outcomeRecordedAt = some now ∧
      r'.evidence.valid = (outcomeStateOf mode body).2.or r.evidence.valid := by
  cases cue.callbackTransport <;> cases h : body.success <;>
    simp [Scheduler.ExecUpdate.set, Scheduler.evidenceOf, h]

theorem recordOutcome_consistent (cue : Cue) (body : OutcomeRequest) (now : Time)
    (h : Consistent r.execution) : Consistent (recordOutcome cue body now r).2.execution := by
  unfold recordOutcome
  split
  · exact h
  · rename_i hrec
    split
    · exact h
    · have hstate : r.execution.outcomeState = none := by
        by_contra hne
        exact hrec (Option.isSome_iff_ne_none.mpr (h.recorded.mp hne))
      have hvalid := h.unjudged (by rw [hstate]; rfl)
      obtain ⟨hs, hat, hv⟩ := outcome_columns cue (cue.verificationMode.getD .none) body now
        r.execution
      rw [hvalid, Option.or_none] at hv
      obtain ⟨htrue, hfalse⟩ := outcomeStateOf_judged (cue.verificationMode.getD .none) body
      constructor
      · simp [hs, hat]
      · rw [hs, hv, htrue, Option.some.injEq]
      · rw [hs, hv, hfalse, Option.some.injEq]

theorem verifyExecution_consistent (body : Option VerifyRequest) (now : Time)
    (h : Consistent r.execution) : Consistent (verifyExecution body now r).2.execution := by
  unfold verifyExecution
  split
  · exact h
  · rename_i hstate
    have hrec : r.execution.outcomeRecordedAt ≠ none := by
      refine h.recorded.mp fun hnone => hstate ?_
      rw [hnone]
      rfl
    constructor
    · simpa using hrec
    · cases (body.getD {}).valid <;> simp
    · cases (body.getD {}).valid <;> simp

/-- Marked as pending, an outcome is consistent unless it was settled. -/
theorem markVerificationPending_consistent_iff (now : Time) (h : Consistent r.execution) :
    Consistent (markVerificationPending now r).2.execution ↔
      final r.execution.outcomeState = false := by
  unfold markVerificationPending
  split
  · rename_i hrec
    have hnone : r.execution.outcomeState = none := by
      by_contra hne
      exact h.recorded.mp hne (Option.isNone_iff_eq_none.mp hrec)
    exact iff_of_true h (by rw [hnone]; rfl)
  · rename_i hrec
    constructor
    · intro h'
      rw [Bool.eq_false_iff, ne_eq, final_iff, not_or, ← h.valid, ← h.invalid]
      have hv := h'.valid
      have hi := h'.invalid
      simp only [Option.some.injEq, reduceCtorEq, iff_false] at hv hi
      exact ⟨hv, hi⟩
    · intro hf
      have hvalid := h.unjudged hf
      constructor
      · simpa using hrec
      · simp [hvalid]
      · simp [hvalid]

theorem appendEvidence_columns (body : EvidencePatch) (now : Time) :
    let r' := (appendEvidence body now r).2.execution
    r'.outcomeState = r.execution.outcomeState ∧
      r'.outcomeRecordedAt = r.execution.outcomeRecordedAt ∧
      r'.evidence.valid = r.execution.evidence.valid := by
  unfold appendEvidence
  split <;> exact ⟨rfl, rfl, rfl⟩

theorem appendEvidence_consistent (body : EvidencePatch) (now : Time)
    (h : Consistent r.execution) : Consistent (appendEvidence body now r).2.execution := by
  obtain ⟨hs, hat, hv⟩ := appendEvidence_columns (r := r) body now
  constructor
  · rw [hs, hat]
    exact h.recorded
  · rw [hs, hv]
    exact h.valid
  · rw [hs, hv]
    exact h.invalid

/-- A call keeps the columns consistent exactly when it does not reopen a settled outcome. -/
theorem step_consistent_iff (h : Consistent r.execution) (hs : step r x = some r') :
    Consistent r'.execution ↔ (!reopens r x) = true := by
  cases hs
  unfold serve reopens
  split
  · rename_i hne
    cases x.call <;> exact iff_of_true h (by simp [hne])
  · rename_i howner
    rw [not_ne_iff] at howner
    cases x.call with
    | recordOutcome body => exact iff_of_true (recordOutcome_consistent _ _ _ h) (by simp)
    | verifyExecution body => exact iff_of_true (verifyExecution_consistent _ _ h) (by simp)
    | markVerificationPending =>
      rw [markVerificationPending_consistent_iff _ h]
      simp [howner]
    | appendEvidence body => exact iff_of_true (appendEvidence_consistent _ _ h) (by simp)

/-- A settled outcome stays, unless the call reopens it. -/
theorem final_stays (h : Consistent r.execution) (hf : final r.execution.outcomeState = true)
    (hc : (!reopens r x) = true) (hs : step r x = some r') :
    r'.execution.outcomeState = r.execution.outcomeState := by
  have hne : r.execution.outcomeState ≠ none := by
    rintro hnone
    rw [hnone] at hf
    cases hf
  cases hs
  unfold serve
  split
  · cases x.call <;> rfl
  · rename_i howner
    cases hcall : x.call with
    | recordOutcome body =>
      have hrec := Option.isSome_iff_ne_none.mpr (h.recorded.mp hne)
      simp [recordOutcome, hrec]
    | verifyExecution body =>
      have hnot : verifiable r.execution.outcomeState = false := by
        rcases final_iff.mp hf with hs | hs <;> rw [hs] <;> rfl
      simp [verifyExecution, hnot]
    | markVerificationPending =>
      rw [not_ne_iff] at howner
      simp [reopens, hcall, howner, hf] at hc
    | appendEvidence body => exact (appendEvidence_columns body x.now).1

/-! ## Any sequence of calls -/

/-- In every state that the calls reach the columns are consistent, and no call changes a settled
outcome. -/
structure StateMachine (start : Row) (calls : List Request) : Prop where
  consistent : ∀ bs r, bs <+: calls → Machine.run step start bs = some r → Consistent r.execution
  final : ∀ bs x r r', bs ++ [x] <+: calls → Machine.run step start bs = some r →
    step r x = some r' → final r.execution.outcomeState = true →
      r'.execution.outcomeState = r.execution.outcomeState

/-- The four endpoints keep to the state machine over a sequence of calls exactly when none of them
is a `mark_verification_pending` on an outcome that is verified or has failed verification. -/
theorem verification_state_machine_iff (h : Unreported start.execution) :
    StateMachine start calls ↔
      Machine.along step (fun r x => !reopens r x) start calls = true := by
  obtain ⟨last, hr⟩ : ∃ r, Machine.run step start calls = some r :=
    Machine.run_total (fun r x => ⟨_, rfl⟩) start calls
  have hiff := Machine.along_iff (I := fun _ => True) (P := fun r => Consistent r.execution) trivial
    h.consistent (fun _ _ _ _ _ => trivial)
    (fun _ _ _ _ hP hs => step_consistent_iff hP hs) hr
  constructor
  · exact fun hsm => hiff.mp hsm.consistent
  · intro ha
    refine ⟨hiff.mpr ha, fun bs x r r' hpre hb hs hf => ?_⟩
    have hcons := hiff.mpr ha bs r ((List.prefix_append bs [x]).trans hpre) hb
    have hkept := Machine.along_at ha hpre hb
    exact final_stays hcons hf hkept hs

/-- An execution of user 7 whose outcome has not been reported. -/
def fresh : Row where
  execution := { cueId := 1, scheduledFor := 0, createdAt := 0, updatedAt := 0 }

/-- A cue of user 7 that asks for an external id. -/
def evidencedCue : Cue where
  userId := 7
  name := "invoice"
  scheduleType := .recurring
  scheduleCron := some "0 9 * * *"
  scheduleAt := none
  scheduleTimezone := "UTC"
  callbackUrl := some "https://app.example/invoice"
  callbackMethod := "POST"
  callbackHeaders := ⟨"\x7b\x7d", false⟩
  callbackTransport := .webhook
  payload := ⟨"\x7b\x7d", false⟩
  retryMaxAttempts := 3
  retryBackoffMinutes := [1, 5, 15]
  nextRun := none
  onFailure := {}
  verificationMode := some .requireExternalId
  createdAt := 0
  updatedAt := 0

/-- The outcome with its evidence. -/
def report : Request :=
  ⟨7, evidencedCue, 10, .recordOutcome { success := true, externalId := some "inv-1" }⟩

def pend : Request := ⟨7, evidencedCue, 20, .markVerificationPending⟩

/-- An outcome without evidence waits for its verification, is rejected, and gets its evidence. -/
def reviewed : List Request :=
  let cue := { evidencedCue with verificationMode := none }
  [⟨7, cue, 10, .recordOutcome { success := true }⟩,
    ⟨7, cue, 20, .markVerificationPending⟩,
    ⟨7, cue, 30, .verifyExecution (some { valid := false, reason := some "no invoice" })⟩,
    ⟨7, cue, 40, .appendEvidence { externalId := some "inv-1" }⟩]

theorem verification_state_machine_reviewed : StateMachine fresh reviewed ∧
    (Machine.run step fresh reviewed).map (fun r =>
      (r.execution.outcomeState, r.execution.evidence.valid, r.execution.evidence.externalId)) =
        some (some .verificationFailed, some false, some "inv-1") := by
  have hkeeps : Machine.along step (fun r x => !reopens r x) fresh reviewed = true := by
    decide +kernel
  exact ⟨(verification_state_machine_iff ⟨rfl, rfl, rfl⟩).mpr hkeeps, by decide +kernel⟩

/-- An outcome that was verified is pending again, with evidence that stays valid. -/
theorem verified_reopened :
    (Machine.run step fresh [report]).map (fun r =>
      (r.execution.outcomeState, r.execution.evidence.valid)) =
        some (some .verifiedSuccess, some true) ∧
      (Machine.run step fresh [report, pend]).map (fun r =>
        (r.execution.outcomeState, r.execution.evidence.valid)) =
          some (some .verificationPending, some true) ∧
      ¬ StateMachine fresh [report, pend] := by
  refine ⟨by decide +kernel, by decide +kernel, fun h => ?_⟩
  have hv := (h.consistent _ _ (List.prefix_refl _) rfl).valid.mp (by decide +kernel)
  revert hv
  decide +kernel

end CueApi.Verification
