import CueApi.Library.Pages
import CueApi.Scheduler.Statements
import CueApi.Scheduler.Requests

/-! The listings of `app/routers/executions.py` (`list_executions`) and `app/services/cue_service.py`
(`list_cues`, `get_cue`), page by page. All three order by `created_at` alone, which is the start of
the inserting transaction: rows of one transaction tie. -/

namespace CueApi.Scheduler

open Pages

/-! ## The spelling of the enumerations -/

def ExecStatus.text : ExecStatus → String
  | .pending => "pending"
  | .delivering => "delivering"
  | .success => "success"
  | .failed => "failed"
  | .retrying => "retrying"
  | .retryReady => "retry_ready"
  | .missed => "missed"
  | .pendingOutcome => "pending_outcome"
  | .outcomeTimeout => "outcome_timeout"

def OutcomeState.text : OutcomeState → String
  | .reportedSuccess => "reported_success"
  | .reportedFailure => "reported_failure"
  | .verificationPending => "verification_pending"
  | .verifiedSuccess => "verified_success"
  | .verificationFailed => "verification_failed"

def CueStatus.text : CueStatus → String
  | .active => "active"
  | .paused => "paused"
  | .completed => "completed"
  | .failed => "failed"

/-! ## Pages of a table -/

/-- What every listing replies. -/
structure Listing (V : Type) where
  rows : List (Nat × V)
  total : Nat
  limit : Nat
  offset : Nat
  deriving DecidableEq, Repr

/-- A page of the rows `all`, in the order that the query settled on. -/
def listing {V : Type} (t : Table Nat V) (all : List Nat) (limit offset : Nat) (order : List Nat) :
    Listing V :=
  ⟨rowsAt t (page limit offset order), all.length, limit, offset⟩

/-- `ORDER BY created_at DESC`. -/
def newestFirst {V : Type} (t : Table Nat V) (createdAt : V → Time) (i : Nat) : Timeᵒᵈ :=
  OrderDual.toDual (orderBy t createdAt i)

/-- The replies at the offsets 0, limit, 2·limit, …, where query `k` settles on `orders k`: each is
that page and tells the number of all rows, and together they hold every row once. -/
def Paginates {V K : Type} [LinearOrder K] (key : Nat → K) (t : Table Nat V) (all : List Nat)
    (limit : Nat) (reply : Nat → List Nat → Option (Listing V)) : Prop :=
  ∀ orders : Nat → List Nat, (∀ k, Permitted key all (orders k)) →
    (∀ k, reply k (orders k) = some (listing t all limit (k * limit) (orders k))) ∧
      ∀ n, all.length ≤ n * limit →
        ((List.range n).flatMap fun k =>
          ((reply k (orders k)).map Listing.rows).getD []).Perm (rowsAt t all)

/-! ## list_executions -/

/-- The filters of `list_executions`; of `status__in`, the stripped parts. -/
structure ExecutionQuery where
  cueId : Option CueId := none
  status : Option String := none
  statusIn : Option (List String) := none
  workerId : Option String := none
  outcomeState : Option String := none
  deriving DecidableEq, Repr

def conflictingFilters : ApiError :=
  ⟨"conflicting_filters", "Pass either `status` or `status__in`, not both.", 400⟩

def invalidStatusIn : ApiError :=
  ⟨"invalid_status_in", "`status__in` must contain at least one status.", 400⟩

/-- `status_list`. -/
def ExecutionQuery.statusList (q : ExecutionQuery) : Except ApiError (Option (List String)) :=
  match q.statusIn with
  | none => .ok none
  | some parts =>
      if truthy q.status then .error conflictingFilters
      else if (parts.filter (· ≠ "")).isEmpty then .error invalidStatusIn
      else .ok (some (parts.filter (· ≠ "")))

/-- The WHERE clause of the three queries. -/
def ExecutionQuery.matches (q : ExecutionQuery) (statusList : Option (List String)) (t : Tables)
    (user : UserId) (r : Execution) : Bool :=
  (t.cue r.cueId).any (fun cue => cue.userId = user) &&
    q.cueId.all (fun c => r.cueId = c) &&
    (!truthy q.status || some r.status.text = q.status) &&
    statusList.all (fun statuses => r.status.text ∈ statuses) &&
    (!truthy q.workerId || r.claimedByWorker = q.workerId) &&
    (!truthy q.outcomeState || r.outcomeState.map OutcomeState.text = q.outcomeState)

def matching (t : Tables) (user : UserId) (q : ExecutionQuery) (statusList : Option (List String)) :
    List ExecId :=
  keysWhere t.executions fun _ r => q.matches statusList t user r

structure ExecutionPage extends Listing Execution where
  hasMore : Bool
  oldestClaimedAt : Option Time
  deriving DecidableEq, Repr

/-- `list_executions`. -/
def listExecutions (t : Tables) (user : UserId) (q : ExecutionQuery) (limit offset : Nat)
    (order : List ExecId) : Except ApiError ExecutionPage :=
  match q.statusList with
  | .error e => .error e
  | .ok statusList =>
      let all := matching t user q statusList
      .ok { listing t.executions all limit offset order with
            hasMore := offset + limit < all.length
            oldestClaimedAt := ((rowsAt t.executions all).filterMap fun x => x.2.claimedAt).min? }

/-! ## list_cues and get_cue -/

def cuesOf (t : Tables) (user : UserId) (status : Option String) : List CueId :=
  keysWhere t.cues fun _ cue => cue.userId = user && (!truthy status || some cue.status.text = status)

/-- `list_cues`. -/
def listCues (t : Tables) (user : UserId) (status : Option String) (limit offset : Nat)
    (order : List CueId) : Listing Cue :=
  listing t.cues (cuesOf t user status) limit offset order

def executionsOf (t : Tables) (c : CueId) : List ExecId :=
  keysWhere t.executions fun _ r => r.cueId = c

/-- `CueDetailResponse`. -/
structure CueDetail where
  cue : Cue
  executions : Listing Execution
  deriving DecidableEq, Repr

/-- `get_cue`. -/
def getCue (t : Tables) (user : UserId) (c : CueId) (executionLimit executionOffset : Nat)
    (order : List ExecId) : Option CueDetail :=
  (t.cue c).bind fun cue =>
    if cue.userId = user then
      some ⟨cue, listing t.executions (executionsOf t c) executionLimit executionOffset order⟩
    else none

/-! ## The pages of a listing -/

section Pages

variable {V K : Type} [LinearOrder K] {key : Nat → K} {t : Table Nat V} {pred : Nat → V → Bool}
variable {limit n : Nat} {reply : Nat → List Nat → Option (Listing V)}

theorem rowsAt_flatMap {orders : Nat → List Nat} :
    ((List.range n).flatMap fun k => rowsAt t (page limit (k * limit) (orders k))) =
      rowsAt t (pages limit n orders) := by
  unfold rowsAt pages
  induction List.range n with
  | nil => rfl
  | cons k ks ih => rw [List.flatMap_cons, List.flatMap_cons, List.filterMap_append, ih]

theorem rowsAt_perm_iff {ids ids' : List Nat} (h : ∀ i ∈ ids, ∃ v, t.lookup i = some v)
    (h' : ∀ i ∈ ids', ∃ v, t.lookup i = some v) :
    (rowsAt t ids).Perm (rowsAt t ids') ↔ ids.Perm ids' := by
  constructor
  · intro hperm
    have hfst := hperm.map Prod.fst
    rwa [rowsAt_fst h, rowsAt_fst h'] at hfst
  · exact fun hperm => hperm.filterMap _

/-- A listing that answers with the page of its order is complete when the pages are. -/
theorem paginates_iff (hreply : ∀ k order, Permitted key (keysWhere t pred) order →
      reply k order = some (listing t (keysWhere t pred) limit (k * limit) order)) :
    Paginates key t (keysWhere t pred) limit reply ↔ Complete key (keysWhere t pred) limit := by
  have hthere : ∀ i ∈ keysWhere t pred, ∃ v, t.lookup i = some v := fun i hi =>
    let ⟨v, hv, _⟩ := (mem_keysWhere _ _ _).mp hi
    ⟨v, hv⟩
  unfold Paginates Complete
  refine forall₂_congr fun orders hperm => ?_
  have hpages : ∀ n, ∀ i ∈ pages limit n orders, ∃ v, t.lookup i = some v := by
    intro n i hi
    obtain ⟨k, -, hk⟩ := List.mem_flatMap.mp hi
    exact hthere i (page_subset (hperm k) hk)
  have hk : ∀ k, reply k (orders k) =
      some (listing t (keysWhere t pred) limit (k * limit) (orders k)) :=
    fun k => hreply k (orders k) (hperm k)
  simp only [hk, Option.map_some, Option.getD_some, listing, implies_true, true_and]
  refine forall₂_congr fun n _ => ?_
  rw [rowsAt_flatMap]
  exact rowsAt_perm_iff (hpages n) hthere

end Pages

/-! ## Ties of `created_at` -/

/-- A page ends between two of the rows that were created at the same time. -/
def PageEndsInTie {V : Type} (t : Table Nat V) (createdAt : V → Time) (all : List Nat)
    (limit : Nat) : Prop :=
  ∃ k, Splits (newestFirst t createdAt) all (k * limit)

theorem newestFirst_complete_iff {V : Type} {t : Table Nat V} {createdAt : V → Time}
    {pred : Nat → V → Bool} {limit : Nat} (hl : 0 < limit) :
    Complete (newestFirst t createdAt) (keysWhere t pred) limit ↔
      ¬ PageEndsInTie t createdAt (keysWhere t pred) limit := by
  rw [complete_iff hl (keysWhere_nodup t pred)]
  exact not_exists.symm

variable {t : Tables} {user : UserId} {limit : Nat}

theorem listExecutions_paginates_iff {q : ExecutionQuery} {statusList : Option (List String)}
    (hl : 0 < limit) (hq : q.statusList = .ok statusList) :
    Paginates (newestFirst t.executions Execution.createdAt) t.executions
        (matching t user q statusList) limit
        (fun k order => (listExecutions t user q limit (k * limit) order).toOption.map
          ExecutionPage.toListing) ↔
      ¬ PageEndsInTie t.executions Execution.createdAt (matching t user q statusList) limit := by
  refine (paginates_iff fun k order _ => ?_).trans (newestFirst_complete_iff hl)
  simp only [listExecutions, hq]
  rfl

theorem listCues_paginates_iff {status : Option String} (hl : 0 < limit) :
    Paginates (newestFirst t.cues Cue.createdAt) t.cues (cuesOf t user status) limit
        (fun k order => some (listCues t user status limit (k * limit) order)) ↔
      ¬ PageEndsInTie t.cues Cue.createdAt (cuesOf t user status) limit :=
  (paginates_iff fun _ _ _ => rfl).trans (newestFirst_complete_iff hl)

theorem getCue_paginates_iff {c : CueId} {cue : Cue} (hl : 0 < limit) (hc : t.cue c = some cue)
    (hu : cue.userId = user) :
    Paginates (newestFirst t.executions Execution.createdAt) t.executions (executionsOf t c) limit
        (fun k order => (getCue t user c limit (k * limit) order).map CueDetail.executions) ↔
      ¬ PageEndsInTie t.executions Execution.createdAt (executionsOf t c) limit := by
  refine (paginates_iff fun k order _ => ?_).trans (newestFirst_complete_iff hl)
  simp only [getCue, hc, hu, Option.bind_some, if_true, Option.map_some]
  rfl

end CueApi.Scheduler
