import CueApi.Library.Snapshot
import CueApi.Scheduler.World

/-! `live_claim_execution` of `app/routers/executions.py`: any number of attestation requests on one
execution, each a SELECT with the classification of what it saw, and later the COMMIT of an UPDATE
by id. -/

namespace CueApi.LiveClaim

open Scheduler (Time UserId ExecId ApiError Pid)
open Snapshot Trace

/-- The row with the user of its cue. Only these requests write the two columns, and they write
both. -/
structure Execution where
  id : ExecId
  userId : UserId
  liveClaimSessionToken : Option String := none
  liveClaimedAt : Option Time := none
  together : liveClaimSessionToken.isSome = liveClaimedAt.isSome := by rfl
  deriving DecidableEq, Repr

/-- A `LiveClaimRequest` of an authenticated user, and the clock after its SELECT. -/
structure Request where
  user : UserId
  sessionToken : String
  now : Time
  deriving DecidableEq, Repr

structure LiveClaimResponse where
  attested : Bool
  executionId : ExecId
  liveClaimedAt : Time
  deriving DecidableEq, Repr

inductive Outcome
  | notFound (e : ApiError)
  | idempotent (r : LiveClaimResponse)
  | conflict (e : ApiError)
  | fresh (r : LiveClaimResponse)
  deriving DecidableEq, Repr

def executionNotFound : ApiError := ⟨"execution_not_found", "Execution not found", 404⟩

def alreadyAttested : ApiError :=
  ⟨"already_attested",
    "Execution already has a live-claim attestation from a different session token", 409⟩

/-- What the session flushes at the COMMIT. -/
structure Attestation where
  sessionToken : String
  now : Time
  deriving DecidableEq, Repr

/-- `_resolve_live_claim_attestation`, with the columns that it has set. -/
def resolveLiveClaimAttestation (execution : Execution) (sessionToken : String) (now : Time) :
    Outcome × Option Attestation :=
  match execution.liveClaimedAt with
  | some at? =>
      if execution.liveClaimSessionToken = some sessionToken then
        (.idempotent ⟨true, execution.id, at?⟩, none)
      else (.conflict alreadyAttested, none)
  | none => (.fresh ⟨true, execution.id, now⟩, some ⟨sessionToken, now⟩)

/-- `_process_live_claim_request`. -/
def processLiveClaimRequest (req : Request) (execution : Execution) :
    Outcome × Option Attestation :=
  if execution.userId = req.user then
    resolveLiveClaimAttestation execution req.sessionToken req.now
  else (.notFound executionNotFound, none)

/-- `UPDATE executions SET live_claim_session_token, live_claimed_at WHERE id`. -/
def attest (a : Attestation) (execution : Execution) : Execution :=
  { execution with
    liveClaimSessionToken := some a.sessionToken
    liveClaimedAt := some a.now
    together := rfl }

def service : Service Execution Request Attestation where
  decide req execution := (processLiveClaimRequest req execution).2
  write := attest
  grants _ := true

/-- The reply of a served request. -/
def reply (x : Served Execution Request Time) : Outcome := (processLiveClaimRequest x.req x.seen).1

def Outcome.isFresh : Outcome → Bool
  | .fresh _ => true
  | _ => false

variable {execution : Execution} {as : List (Action Pid Request Time)}
  {s : State Pid Execution Request Time} {log log₀ : List (Served Execution Request Time)}

/-- Write-once in a run from `execution`: an attestation that is there stays, one request is fresh,
and its user's requests with another token that come to their end later are refused. -/
structure WriteOnce (execution : Execution) (as : List (Action Pid Request Time))
    (served : List (Served Execution Request Time)) : Prop where
  stays : ∀ bs cs s₁ s₂, bs ++ cs <+: as →
    Machine.run (step service) (start execution) bs = some s₁ →
    Machine.run (step service) s₁ cs = some s₂ →
    s₁.row.liveClaimedAt.isSome = true → s₂.row = s₁.row
  fresh : served.countP (fun x => (reply x).isFresh) ≤ 1
  conflict : ∀ x ∈ served, x.req.user = execution.userId → x.met.liveClaimedAt.isSome = true →
    x.met.liveClaimSessionToken ≠ some x.req.sessionToken → reply x = .conflict alreadyAttested

/-- A request writes when it is fresh. -/
theorem fresh_writes :
    (fun x : Served Execution Request Time => (reply x).isFresh) = service.writes := by
  funext x
  simp only [reply, Service.writes, Service.granted, service, processLiveClaimRequest,
    resolveLiveClaimAttestation]
  split
  · split
    · split <;> rfl
    · rfl
  · rfl

theorem decide_attested (req : Request) (h : execution.liveClaimedAt.isSome = true) :
    service.decide req execution = none := by
  obtain ⟨at?, hat⟩ := Option.isSome_iff_exists.mp h
  simp only [service, processLiveClaimRequest, resolveLiveClaimAttestation, hat]
  split
  · split <;> rfl
  · rfl

/-- No request changes whose execution it is. -/
theorem replay_userId : (service.replay execution log).userId = execution.userId := by
  induction log with
  | nil => rfl
  | cons x log ih =>
    simp only [Service.replay]
    cases service.decide x.req x.seen with
    | none => exact ih
    | some a => exact ih

theorem fresh_once (hl : Along (service.Follows execution) log) (hc : service.Confirmed log) :
    log.countP service.writes ≤ 1 := by
  refine (granted_once (Q := fun row => row.liveClaimedAt.isSome = true) (fun _ _ => rfl)
    (fun _ _ _ _ _ => rfl) (fun _ _ _ _ _ => rfl) (fun _ _ _ _ => rfl)
    (fun req row a hrow hd => ?_) hl hc).1
  rw [decide_attested req hrow] at hd
  cases hd

theorem attested_stays (hl : Along (service.Follows execution) log) (hc : service.Confirmed log)
    (hs : log₀ <:+ log) (hat : (service.replay execution log₀).liveClaimedAt.isSome = true) :
    service.replay execution log = service.replay execution log₀ :=
  replay_settled (Q := fun row => row.liveClaimedAt.isSome = true)
    (fun req _ => decide_attested req) (fun _ => rfl) hl hc hs hat

/-- A request that meets the attestation of another token has seen it. -/
theorem conflict_of_confirmed (hl : Along (service.Follows execution) log)
    (hc : service.Confirmed log) {x : Served Execution Request Time} (hx : x ∈ log)
    (huser : x.req.user = execution.userId) (hat : x.met.liveClaimedAt.isSome = true)
    (htok : x.met.liveClaimSessionToken ≠ some x.req.sessionToken) :
    reply x = .conflict alreadyAttested := by
  obtain ⟨log₁, hsuf⟩ := mem_split hx
  have hfol := hl.at hsuf
  obtain ⟨log₀, hsuf₀, hseen⟩ := hfol.seen
  have hstart : x.seen.userId = x.req.user := by
    rw [hseen, replay_userId, huser]
  -- it has not written, so the row it saw is not as it was before the attestation
  have hseenAt : x.seen.liveClaimedAt.isSome = true := by
    by_contra hno
    have hd : service.decide x.req x.seen = some ⟨x.req.sessionToken, x.req.now⟩ := by
      simp only [Bool.not_eq_true, Option.isSome_eq_false_iff, Option.isNone_iff_eq_none] at hno
      simp [service, processLiveClaimRequest, resolveLiveClaimAttestation, hstart, hno]
    have hmet := confirms_of_decide (hc x hx) hd rfl
    rw [decide_attested x.req hat] at hmet
    cases hmet
  have hlog₁ : log₁ <:+ log := (List.suffix_cons _ _).trans hsuf
  have hsame : x.met = x.seen := by
    rw [hfol.met, hseen]
    rw [hseen] at hseenAt
    exact attested_stays (hl.suffix hlog₁) (fun y hy => hc y (hlog₁.subset hy)) hsuf₀ hseenAt
  obtain ⟨at?, hat⟩ := Option.isSome_iff_exists.mp hseenAt
  rw [hsame] at htok
  simp [reply, processLiveClaimRequest, resolveLiveClaimAttestation, hstart, hat, htok]

/-- Attestation is write-once in a run exactly when no request that writes has been overtaken by
another one between its SELECT and its COMMIT. -/
theorem live_claim_write_once_iff
    (hr : Machine.run (step service) (start execution) as = some s) :
    WriteOnce execution as s.served ↔
      Machine.along (step service) (upToDate service) (start execution) as = true := by
  have hlog : Logged service execution s := (Logged.start execution).run hr
  have hiff : service.Confirmed s.served ↔ _ := checked_start hr
  constructor
  · intro h
    have hone := h.fresh
    rw [fresh_writes] at hone
    exact hiff.mp (confirmed_of_single hlog.log hone)
  · intro h
    have hc : service.Confirmed s.served := hiff.mpr h
    refine ⟨fun bs cs s₁ s₂ hpre hb hcs hat => ?_, ?_, fun x hx => ?_⟩
    · obtain ⟨ds, rfl⟩ := hpre
      rw [Machine.run_append, Machine.run_append, hb, Option.bind_some, hcs,
        Option.bind_some] at hr
      have hl₁ := (Logged.start (T := Time) execution).run hb
      have hl₂ := hl₁.run hcs
      have hsuf := run_suffix hr
      rw [hl₁.left] at hat
      rw [hl₂.left, hl₁.left]
      exact attested_stays hl₂.log (fun y hy => hc y (hsuf.subset hy)) (run_suffix hcs) hat
    · rw [fresh_writes]
      exact fresh_once hlog.log hc
    · exact conflict_of_confirmed hlog.log hc hx

/-- An execution of user 7 and two sessions; the second SELECT comes before the first COMMIT. -/
def overlapping : List (Action Pid Request Time) :=
  [.select 1 ⟨7, "session-a", 10⟩, .select 2 ⟨7, "session-b", 11⟩, .finish 1 12, .finish 2 13]

/-- One request and, after it, another. -/
def inTurn : List (Action Pid Request Time) :=
  [.select 1 ⟨7, "session-a", 10⟩, .finish 1 12, .select 2 ⟨7, "session-b", 13⟩, .finish 2 14]

theorem live_claim_in_turn :
    WriteOnce ⟨1, 7, none, none, rfl⟩ inTurn
        [⟨⟨7, "session-b", 13⟩, ⟨1, 7, some "session-a", some 10, rfl⟩,
            ⟨1, 7, some "session-a", some 10, rfl⟩, 14⟩,
          ⟨⟨7, "session-a", 10⟩, ⟨1, 7, none, none, rfl⟩, ⟨1, 7, none, none, rfl⟩, 12⟩] ↔
      Machine.along (step service) (upToDate service) (start ⟨1, 7, none, none, rfl⟩) inTurn =
        true :=
  @live_claim_write_once_iff ⟨1, 7, none, none, rfl⟩ inTurn
    ⟨⟨1, 7, some "session-a", some 10, rfl⟩, ∅, _⟩ (by decide)

/-- Both are told that theirs is the attestation, and the second has replaced the first. -/
theorem second_attestation_replaces_first : ∃ s s',
    Machine.run (step service) (start ⟨1, 7, none, none, rfl⟩) (overlapping.take 3) = some s ∧
      Machine.run (step service) s (overlapping.drop 3) = some s' ∧
      s.row = ⟨1, 7, some "session-a", some 10, rfl⟩ ∧
      s'.row = ⟨1, 7, some "session-b", some 11, rfl⟩ ∧
      s'.served.map reply = [.fresh ⟨true, 1, 11⟩, .fresh ⟨true, 1, 10⟩] ∧
      ¬ WriteOnce ⟨1, 7, none, none, rfl⟩ overlapping s'.served := by
  refine ⟨_, _, rfl, rfl, rfl, rfl, rfl, fun h => ?_⟩
  have hone := h.fresh
  revert hone
  decide

end CueApi.LiveClaim
