import CueApi.Library.Pages
import CueApi.Scheduler.Alone
import CueApi.Scheduler.ScheduleChecks

/-! What `get_claimable` lists against what `claim_execution` grants. The listing takes `retry_ready`
rows too, filters on the task after its LIMIT, and raises on a task that is not a text. -/

namespace CueApi.Claimable

open Scheduler
open ReadCommitted Interleaving Prog Pages

/-! ## The listing -/

/-- `payload.get("task")`. -/
inductive PayloadTask
  | absent
  | text (s : String)
  | other
  deriving DecidableEq, Repr

namespace PayloadTask

/-- `task_name == task`. -/
def equals (task : Option String) : PayloadTask → Bool
  | absent => task = none
  | text s => task = some s
  | other => false

/-- The field `task` of `ClaimableExecution`; `none` is its `ValidationError`. -/
def field : PayloadTask → Option (Option String)
  | absent => some none
  | text s => some (some s)
  | other => none

end PayloadTask

variable (taskOf : Json → PayloadTask) (task : Option String) (t : Tables)

/-- The row is not filtered out. -/
def passes (r : Execution) : Bool :=
  (t.cue r.cueId).any fun cue => !truthy task || (taskOf cue.payload).equals task

/-- The row is not filtered out, and its task is not a text. -/
def raises (r : Execution) : Bool :=
  passes taskOf task t r && (t.cue r.cueId).any fun cue => (taskOf cue.payload).field.isNone

/-- The task of the row's cue is the one asked for. -/
def hasTask (r : Execution) : Bool :=
  (t.cue r.cueId).any fun cue => (taskOf cue.payload).equals task

/-- The body of the loop of `get_claimable`: an exception, or the item unless the row is filtered
out. -/
def claimableRow (x : ExecId × Execution) : Option (Option ClaimableExecution) :=
  match t.cue x.2.cueId with
  | none => some none
  | some cue =>
      if truthy task && !(taskOf cue.payload).equals task then some none
      else (taskOf cue.payload).field.map fun name =>
        some ⟨x.1, x.2.cueId, cue.name, name, x.2.scheduledFor, cue.payload, x.2.attempts⟩

def claimableLoop : List (ExecId × Execution) → Option (List ClaimableExecution)
  | [] => some []
  | x :: rows => (claimableRow taskOf task t x).bind fun item =>
      (claimableLoop rows).map fun items => item.toList ++ items

/-- `get_claimable`, where the query returns `ids`. -/
def listClaimable (ids : List ExecId) : Option (List ClaimableExecution) :=
  claimableLoop taskOf task t (rowsAt t.executions ids)

variable {taskOf task t}
variable {env : Env} {user : UserId} {e : ExecId} {x : ExecId × Execution}
variable {rows : List (ExecId × Execution)}

/-- What the loop does with a row. -/
theorem claimableRow_cases :
    (raises taskOf task t x.2 = true ∧ passes taskOf task t x.2 = true ∧
        claimableRow taskOf task t x = none) ∨
      (raises taskOf task t x.2 = false ∧ passes taskOf task t x.2 = true ∧
        ∃ item, claimableRow taskOf task t x = some (some item) ∧ item.executionId = x.1) ∨
      (raises taskOf task t x.2 = false ∧ passes taskOf task t x.2 = false ∧
        claimableRow taskOf task t x = some none) := by
  unfold raises passes claimableRow
  cases t.cue x.2.cueId with
  | none => simp
  | some cue =>
    cases htask : truthy task <;> cases hequal : (taskOf cue.payload).equals task <;>
      cases hfield : (taskOf cue.payload).field <;> simp [hequal, hfield]

theorem claimableLoop_eq_none_iff :
    claimableLoop taskOf task t rows = none ↔ ∃ x ∈ rows, raises taskOf task t x.2 = true := by
  induction rows with
  | nil => simp [claimableLoop]
  | cons x rows ih =>
    rw [List.exists_mem_cons_iff, ← ih, claimableLoop]
    rcases @claimableRow_cases taskOf task t x with
      ⟨hr, -, hrow⟩ | ⟨hr, -, item, hrow, -⟩ | ⟨hr, -, hrow⟩ <;> simp [hr, hrow]

/-- Without an exception, the rows that pass are listed. -/
theorem claimableLoop_ids {items : List ClaimableExecution}
    (h : claimableLoop taskOf task t rows = some items) : items.map (·.executionId) =
      (rows.filter fun x => passes taskOf task t x.2).map Prod.fst := by
  induction rows generalizing items with
  | nil =>
    cases h
    rfl
  | cons x rows ih =>
    rw [claimableLoop] at h
    obtain ⟨item, hrow, h⟩ := Option.bind_eq_some_iff.mp h
    obtain ⟨items, hitems, rfl⟩ := Option.map_eq_some_iff.mp h
    have ih := ih hitems
    rcases @claimableRow_cases taskOf task t x with
      ⟨-, -, hnone⟩ | ⟨-, hp, item', hsome, hid⟩ | ⟨-, hp, hout⟩
    · rw [hnone] at hrow
      cases hrow
    · obtain rfl : some item' = item := Option.some.inj (hsome.symm.trans hrow)
      simp [hp, hid, ih]
    · obtain rfl : none = item := Option.some.inj (hout.symm.trans hrow)
      simp [hp, ih]

/-- The text of a task, if it is one. -/
def PayloadTask.text? (name : PayloadTask) : Option String := name.field.join

theorem PayloadTask.equals_eq {name : PayloadTask} (h : truthy task = true) :
    name.equals task = decide (name.text? = task) := by
  cases task with
  | none => cases h
  | some s => cases name <;> simp [equals, text?, field, eq_comm]

/-- Where nothing raises, the loop is the one of `getClaimable`. -/
theorem claimableLoop_eq_filterMap {items : List ClaimableExecution}
    (h : claimableLoop taskOf task t rows = some items) :
    items = rows.filterMap (claimableItem (fun payload => (taskOf payload).text?) task t) := by
  induction rows generalizing items with
  | nil =>
    cases h
    rfl
  | cons x rows ih =>
    rw [claimableLoop] at h
    obtain ⟨item, hrow, h⟩ := Option.bind_eq_some_iff.mp h
    obtain ⟨items, hitems, rfl⟩ := Option.map_eq_some_iff.mp h
    have hitem : claimableItem (fun payload => (taskOf payload).text?) task t x = item := by
      unfold claimableRow at hrow
      unfold claimableItem
      cases hcue : t.cue x.2.cueId with
      | none =>
        rw [hcue] at hrow
        cases hrow
        rfl
      | some cue =>
        rw [hcue] at hrow
        simp only [Option.bind_some]
        cases htruthy : truthy task with
        | false =>
          simp only [htruthy, Bool.false_and, Bool.false_eq_true, if_false] at hrow ⊢
          obtain ⟨name, hname, rfl⟩ := Option.map_eq_some_iff.mp hrow
          rw [PayloadTask.text?, hname]
          rfl
        | true =>
          simp only [htruthy, PayloadTask.equals_eq htruthy, Bool.true_and] at hrow ⊢
          by_cases heq : (taskOf cue.payload).text? = task
          · simp only [heq, decide_true, Bool.not_true, Bool.false_eq_true, if_false] at hrow
            obtain ⟨name, hname, rfl⟩ := Option.map_eq_some_iff.mp hrow
            have htext : (taskOf cue.payload).text? = name := by
              rw [PayloadTask.text?, hname]
              rfl
            rw [htext] at heq
            simp [htext, heq]
          · simpa [heq] using hrow
    rw [List.filterMap_cons, hitem, ih hitems]
    cases item <;> rfl

/-! ## The claim -/

/-- `claim_execution`, with the database to itself, grants `e`. -/
def Accepts (env : Env) (t : Tables) (user : UserId) (e : ExecId) : Prop :=
  ∀ (p : Pid) (worker : WorkerId) (now : Time) (h : History) (w : World), Alone p [] t now h w →
    Surely False (fun reply _ => reply = .claimed e env.settings.workerClaimTimeoutSeconds)
      (claimExecution env p user e worker) w

/-- The WHERE clause of the claim. -/
def claims (t : Tables) (user : UserId) (r : Execution) : Bool :=
  r.status = .pending && ownedWorkerCue t user r.cueId

theorem surely_claimExecution {p : Pid} {worker : WorkerId} {now : Time} {h : History} {w : World}
    (hw : Alone p [] t now h w) :
    Surely False (fun reply _ => reply =
        if (t.execution e).any (claims t user) then
          .claimed e env.settings.workerClaimTimeoutSeconds
        else claimFailed "Execution not available for claiming")
      (claimExecution env p user e worker) w := by
  unfold claimExecution
  refine surely_clock hw (surely_clock hw (surely_updateExecution hw ?_ ?_))
  · intro w' r hr hwh hw'
    have hclaims : (t.execution e).any (claims t user) = true := by
      have hr : t.execution e = some r := hr
      rw [hr]
      exact hwh
    refine surely_commit hw' fun w'' _ => ?_
    rw [if_pos hclaims]
    rfl
  · intro w' hno hw'
    have hclaims : (t.execution e).any (claims t user) = false := by
      cases hr : t.execution e with
      | none => rfl
      | some r => exact hno r hr
    rw [hclaims]
    rfl

theorem accepts_iff : Accepts env t user e ↔ (t.execution e).any (claims t user) = true := by
  constructor
  · intro haccepts
    let w : World := { store := Store.start schema Pid t, clock := 0, history := [] }
    have hw : Alone 0 [] t 0 [] w := ⟨fun _ => .inl rfl, rfl, rfl, rfl, rfl⟩
    by_contra hno
    obtain ⟨reply, -, hclaimed, hfailed⟩ :=
      ((haccepts 0 "" 0 [] w hw).and (surely_claimExecution hw)).ends
    rw [if_neg hno, hclaimed] at hfailed
    cases hfailed
  · intro hclaims p worker now h w hw
    refine (surely_claimExecution hw).mono fun reply _ hreply => ?_
    rw [hreply, if_pos hclaims]

/-! ## The first fifty -/

/-- What a query with a LIMIT returns is the beginning of a permitted order. -/
theorem picks_iff {limit : Nat} {order : Nat → Time} {all ids : List Nat} (hn : all.Nodup) :
    Picks limit order all ids ↔ ∃ l, Permitted order all l ∧ l.take limit = ids := by
  constructor
  · rintro ⟨hnodup, hsub, hlen, hsorted, hrest⟩
    obtain ⟨l', hl'⟩ := exists_permitted order (all.filter (· ∉ ids))
    have hmem : ∀ i, i ∈ l' ↔ i ∈ all ∧ i ∉ ids := fun i => by
      rw [hl'.perm.mem_iff, List.mem_filter, decide_eq_true_eq]
    have hperm : (ids ++ l').Perm all := by
      refine (List.perm_ext_iff_of_nodup ?_ hn).mpr fun i => ?_
      · exact List.nodup_append.mpr ⟨hnodup, hl'.nodup (hn.filter _), fun i hi j hj hij =>
          ((hmem j).mp hj).2 (hij ▸ hi)⟩
      · rw [List.mem_append, hmem]
        by_cases hi : i ∈ ids
        · simp [hi, hsub i hi]
        · simp [hi]
    refine ⟨ids ++ l', ⟨hperm, List.pairwise_append.mpr ⟨hsorted, hl'.sorted, fun i hi j hj => ?_⟩⟩, ?_⟩
    · exact hrest i hi j ((hmem j).mp hj).1 ((hmem j).mp hj).2
    · have htotal := hperm.length_eq
      rw [List.length_append] at htotal
      by_cases hfull : ids.length = limit
      · rw [← hfull, List.take_left]
      · rw [List.take_of_length_le (by rw [List.length_append]; omega),
          List.length_eq_zero_iff.mp (by omega : l'.length = 0), List.append_nil]
  · rintro ⟨l, hl, rfl⟩
    refine ⟨(hl.nodup hn).sublist (List.take_sublist _ _),
      fun i hi => hl.perm.subset (List.mem_of_mem_take hi), ?_,
      hl.sorted.sublist (List.take_sublist _ _), fun i hi j hj hnot => ?_⟩
    · rw [List.length_take, hl.perm.length_eq]
    · exact hl.le_of_take_drop hi (hl.mem_drop hj hnot)

/-- The rows of the WHERE clause of `get_claimable`. -/
def listed (t : Tables) (user : UserId) : List ExecId :=
  keysWhere t.executions fun _ r => listedAsClaimable t user r

/-- Its ORDER BY. -/
def scheduledFor (t : Tables) : ExecId → Time := orderBy t.executions fun r => r.scheduledFor

/-- The row of `e` is so. -/
def holdsAt (t : Tables) (pred : Execution → Bool) (e : ExecId) : Bool := (t.execution e).any pred

variable (env taskOf task t user)

/-- Everything listed can be claimed, and if something for the task can be claimed then something is
listed. -/
def Agrees (ids : List ExecId) : Prop :=
  (∀ items, listClaimable taskOf task t ids = some items →
      ∀ item ∈ items, Accepts env t user item.executionId) ∧
    ((∃ e, Accepts env t user e ∧ holdsAt t (hasTask taskOf task t) e = true) →
      ∃ items, listClaimable taskOf task t ids = some items ∧ items ≠ [])

/-- How many listed rows are scheduled earlier. -/
def earlier (e : ExecId) : Nat := Pages.before (scheduledFor t) (listed t user) (scheduledFor t e)

/-- How many listed rows without a property are scheduled no later. -/
def noLater (pred : Execution → Bool) (e : ExecId) : Nat :=
  (listed t user).countP fun i => ¬ holdsAt t pred i = true ∧ scheduledFor t i ≤ scheduledFor t e

/-- No `retry_ready` row that passes the filter can be among the first fifty, unless a row that makes
the listing raise is among them too. -/
def HidesRetryReady : Prop :=
  ∀ e ∈ listed t user, holdsAt t (passes taskOf task t) e = true →
    holdsAt t (raises taskOf task t) e = false →
    holdsAt t (fun r => r.status = .retryReady) e = true →
      50 ≤ earlier t user e ∨ ∃ j ∈ listed t user, holdsAt t (raises taskOf task t) j = true ∧
        noLater t user (raises taskOf task t) j < 50

/-- Where a row for the task can be claimed, no row that raises can be among the first fifty, and one
that passes the filter is. -/
def ShowsTask : Prop :=
  (∃ e ∈ listed t user, holdsAt t (fun r => r.status = .pending) e = true ∧
      holdsAt t (hasTask taskOf task t) e = true) →
    (∀ j ∈ listed t user, holdsAt t (raises taskOf task t) j = true → 50 ≤ earlier t user j) ∧
      ∃ j ∈ listed t user, holdsAt t (passes taskOf task t) j = true ∧
        noLater t user (passes taskOf task t) j < 50

variable {env taskOf task t user}

theorem mem_listed : e ∈ listed t user ↔
    ∃ r, t.execution e = some r ∧ listedAsClaimable t user r = true := by
  unfold listed
  rw [mem_keysWhere]
  rfl

theorem accepts_iff_listed : Accepts env t user e ↔
    e ∈ listed t user ∧ holdsAt t (fun r => r.status = .pending) e = true := by
  rw [accepts_iff, mem_listed]
  unfold holdsAt claims listedAsClaimable
  cases t.execution e with
  | none => simp
  | some r =>
    simp only [Option.any_some, Option.some.injEq, exists_eq_left', Bool.and_eq_true, Bool.or_eq_true,
      decide_eq_true_eq]
    constructor
    · rintro ⟨hp, ho⟩
      exact ⟨⟨ho, .inl hp⟩, hp⟩
    · rintro ⟨⟨ho, -⟩, hp⟩
      exact ⟨hp, ho⟩

/-- A listed row is pending or `retry_ready`. -/
theorem not_retryReady_iff (he : e ∈ listed t user) :
    holdsAt t (fun r => r.status = .retryReady) e = false ↔
      holdsAt t (fun r => r.status = .pending) e = true := by
  obtain ⟨r, hr, hl⟩ := mem_listed.mp he
  unfold holdsAt
  unfold listedAsClaimable at hl
  rw [hr, Option.any_some, Option.any_some]
  cases hstatus : r.status <;> simp_all

/-! ## One result of the query -/

/-- The rows at listed ids, with a property of a row carried over. -/
theorem exists_rowsAt_iff {ids : List ExecId} {pred : Execution → Bool} :
    (∃ x ∈ rowsAt t.executions ids, pred x.2 = true) ↔ ∃ i ∈ ids, holdsAt t pred i = true := by
  unfold holdsAt
  constructor
  · rintro ⟨x, hx, hpred⟩
    obtain ⟨hi, hrow⟩ := mem_rowsAt hx
    exact ⟨x.1, hi, (Option.any_eq_true _ _).mpr ⟨x.2, hrow, hpred⟩⟩
  · rintro ⟨i, hi, hpred⟩
    obtain ⟨r, hr, hpred⟩ := (Option.any_eq_true _ _).mp hpred
    exact ⟨(i, r), List.mem_filterMap.mpr ⟨i, hi, by rw [show t.executions.lookup i = some r from hr]; rfl⟩,
      hpred⟩

/-- Without an exception, the listed ids that pass are shown. -/
theorem shown_iff {ids : List ExecId} {items : List ClaimableExecution}
    (h : listClaimable taskOf task t ids = some items) :
    (∃ item ∈ items, item.executionId = e) ↔ e ∈ ids ∧ holdsAt t (passes taskOf task t) e = true := by
  have hids := claimableLoop_ids h
  have hmem : (∃ item ∈ items, item.executionId = e) ↔
      e ∈ ((rowsAt t.executions ids).filter fun x => passes taskOf task t x.2).map Prod.fst := by
    rw [← hids, List.mem_map]
  rw [hmem]
  constructor
  · intro he
    obtain ⟨x, hx, rfl⟩ := List.mem_map.mp he
    obtain ⟨hx, hpasses⟩ := List.mem_filter.mp hx
    obtain ⟨hi, hrow⟩ := mem_rowsAt hx
    exact ⟨hi, (Option.any_eq_true _ _).mpr ⟨x.2, hrow, hpasses⟩⟩
  · rintro ⟨hi, hpasses⟩
    obtain ⟨r, hr, hpasses⟩ := (Option.any_eq_true _ _).mp hpasses
    have hr : t.executions.lookup e = some r := hr
    refine List.mem_map.mpr ⟨(e, r), List.mem_filter.mpr ⟨?_, hpasses⟩, rfl⟩
    exact List.mem_filterMap.mpr ⟨e, hi, by rw [hr]; rfl⟩

theorem listClaimable_eq_none_iff {ids : List ExecId} : listClaimable taskOf task t ids = none ↔
    ∃ j ∈ ids, holdsAt t (raises taskOf task t) j = true := by
  rw [← exists_rowsAt_iff]
  exact claimableLoop_eq_none_iff

theorem agrees_iff {ids : List ExecId} (hsub : ∀ i ∈ ids, i ∈ listed t user) :
    Agrees taskOf task t env user ids ↔
      ((∀ e ∈ ids, holdsAt t (passes taskOf task t) e = true →
          holdsAt t (fun r => r.status = .retryReady) e = true →
          ∃ j ∈ ids, holdsAt t (raises taskOf task t) j = true) ∧
        ((∃ e ∈ listed t user, holdsAt t (fun r => r.status = .pending) e = true ∧
            holdsAt t (hasTask taskOf task t) e = true) →
          (∀ j ∈ ids, ¬ holdsAt t (raises taskOf task t) j = true) ∧
            ∃ j ∈ ids, holdsAt t (passes taskOf task t) j = true)) := by
  have hexists : (∃ e, Accepts env t user e ∧ holdsAt t (hasTask taskOf task t) e = true) ↔
      ∃ e ∈ listed t user, holdsAt t (fun r => r.status = .pending) e = true ∧
        holdsAt t (hasTask taskOf task t) e = true :=
    exists_congr fun e => by rw [accepts_iff_listed, and_assoc]
  unfold Agrees
  rw [hexists]
  cases hlist : listClaimable taskOf task t ids with
  | none =>
    have hraises := listClaimable_eq_none_iff.mp hlist
    have hnot : ¬ ∀ j ∈ ids, ¬ holdsAt t (raises taskOf task t) j = true := fun hall =>
      let ⟨j, hj, hr⟩ := hraises
      hall j hj hr
    refine and_congr ⟨fun _ _ _ _ _ => hraises, fun _ _ h => by cases h⟩ ?_
    exact imp_congr_right fun _ => ⟨fun ⟨_, h, _⟩ => (by cases h), fun h => absurd h.1 hnot⟩
  | some items =>
    have hraises : ¬ ∃ j ∈ ids, holdsAt t (raises taskOf task t) j = true := fun h => by
      rw [listClaimable_eq_none_iff.mpr h] at hlist
      cases hlist
    have hquiet : ∀ j ∈ ids, ¬ holdsAt t (raises taskOf task t) j = true := fun j hj h =>
      hraises ⟨j, hj, h⟩
    have hne : items ≠ [] ↔ ∃ j ∈ ids, holdsAt t (passes taskOf task t) j = true := by
      constructor
      · intro hitems
        obtain ⟨item, hitem⟩ := List.exists_mem_of_ne_nil items hitems
        exact ⟨_, (shown_iff hlist).mp ⟨item, hitem, rfl⟩⟩
      · rintro ⟨j, hj⟩
        obtain ⟨item, hitem, -⟩ := (shown_iff hlist).mpr hj
        exact List.ne_nil_of_mem hitem
    refine and_congr ⟨fun hacc e he hp hr => ?_, fun hret items' heq item hitem => ?_⟩ ?_
    · obtain ⟨item, hitem, rfl⟩ := (shown_iff hlist).mpr ⟨he, hp⟩
      have hpending := (accepts_iff_listed.mp (hacc items rfl item hitem)).2
      rw [(not_retryReady_iff (hsub _ he)).mpr hpending] at hr
      cases hr
    · obtain rfl := Option.some.inj heq
      obtain ⟨he, hp⟩ := (shown_iff hlist).mp ⟨item, hitem, rfl⟩
      refine accepts_iff_listed.mpr ⟨hsub _ he, (not_retryReady_iff (hsub _ he)).mp ?_⟩
      exact Bool.eq_false_iff.mpr fun hr => hraises (hret _ he hp hr)
    · refine imp_congr_right fun _ => ?_
      constructor
      · rintro ⟨items', heq, hitems⟩
        obtain rfl := Option.some.inj heq
        exact ⟨hquiet, hne.mp hitems⟩
      · rintro ⟨-, hpasses⟩
        exact ⟨items, rfl, hne.mpr hpasses⟩

/-! ## Every result of the query -/

/-- The rows that the query may return, as the first fifty in some order. -/
theorem agrees_picks_iff : (∀ ids, Picks 50 (scheduledFor t) (listed t user) ids →
      Agrees taskOf task t env user ids) ↔
    ∀ l, Permitted (scheduledFor t) (listed t user) l → Agrees taskOf task t env user (l.take 50) := by
  have hn : (listed t user).Nodup := keysWhere_nodup _ _
  constructor
  · exact fun h l hl => h _ ((picks_iff hn).mpr ⟨l, hl, rfl⟩)
  · rintro h ids hids
    obtain ⟨l, hl, rfl⟩ := (picks_iff hn).mp hids
    exact h l hl

section

variable {l : List ExecId}

theorem page_listed (hl : Permitted (scheduledFor t) (listed t user) l) :
    ∀ i ∈ l.take 50, i ∈ listed t user :=
  fun _ hi => hl.perm.subset (List.mem_of_mem_take hi)

/-- In some order a `retry_ready` row is among the first fifty, and nothing that raises. -/
theorem hidesRetryReady_of_agrees (h : ∀ l, Permitted (scheduledFor t) (listed t user) l →
    Agrees taskOf task t env user (l.take 50)) : HidesRetryReady taskOf task t user := by
  intro e he hp hr hready
  by_contra hnot
  push Not at hnot
  obtain ⟨l, hl, hmem, hgood⟩ : ∃ l, Permitted (scheduledFor t) (listed t user) l ∧
      e ∈ l.take 50 ∧ ∀ j ∈ l.take 50, ¬ holdsAt t (raises taskOf task t) j = true :=
    (exists_containing_iff he (by simp [hr])).mpr hnot
  obtain ⟨j, hj, hraise⟩ := ((agrees_iff (page_listed hl)).mp (h l hl)).1 e hmem hp hready
  exact hgood j hj hraise

/-- In some order the row that raises is among the first fifty, or nothing that passes is. -/
theorem showsTask_of_agrees (h : ∀ l, Permitted (scheduledFor t) (listed t user) l →
    Agrees taskOf task t env user (l.take 50)) : ShowsTask taskOf task t user := by
  intro hexists
  have hshown (l : List ExecId) (hl : Permitted (scheduledFor t) (listed t user) l) :=
    ((agrees_iff (page_listed hl)).mp (h l hl)).2 hexists
  constructor
  · intro j hj hraise
    by_contra hlt
    obtain ⟨l, hl, hmem, -⟩ : ∃ l, Permitted (scheduledFor t) (listed t user) l ∧
        j ∈ l.take 50 ∧ ∀ y ∈ l.take 50, ¬ False :=
      (exists_containing_iff hj not_false).mpr ⟨Nat.not_le.mp hlt, fun _ _ h => h.elim⟩
    exact (hshown l hl).1 j hmem hraise
  · by_contra hnot
    push Not at hnot
    obtain ⟨l, hl, hgood⟩ : ∃ l, Permitted (scheduledFor t) (listed t user) l ∧
        ∀ j ∈ l.take 50, ¬ holdsAt t (passes taskOf task t) j = true :=
      exists_avoiding_iff.mpr hnot
    obtain ⟨j, hj, hp⟩ := (hshown l hl).2
    exact hgood j hj hp

/-- Too many rows before it keep a row out of the first fifty, whatever the order. -/
theorem agrees_of_hides_shows (hready : HidesRetryReady taskOf task t user)
    (hshows : ShowsTask taskOf task t user) (hl : Permitted (scheduledFor t) (listed t user) l) :
    Agrees taskOf task t env user (l.take 50) := by
  refine (agrees_iff (page_listed hl)).mpr ⟨fun e he hp hr => ?_, fun hexists => ?_⟩
  · by_contra hnot
    have hquiet : ∀ j ∈ l.take 50, ¬ holdsAt t (raises taskOf task t) j = true :=
      fun j hj hraise => hnot ⟨j, hj, hraise⟩
    have hsilent := Bool.eq_false_iff.mpr (hquiet e he)
    rcases hready e (page_listed hl e he) hp hsilent hr with hearlier | ⟨j, hj, hraise, hfew⟩
    · exact absurd (hl.before_lt he) (Nat.not_lt.mpr hearlier)
    · exact absurd (hl.count_of_avoids hquiet hj hraise) (Nat.not_le.mpr hfew)
  · obtain ⟨hraises, j, hj, hp, hfew⟩ := hshows hexists
    refine ⟨fun i hi hraise => ?_, ?_⟩
    · exact absurd (hl.before_lt hi) (Nat.not_lt.mpr (hraises i (page_listed hl i hi) hraise))
    · by_contra hnot
      push Not at hnot
      exact absurd (hl.count_of_avoids hnot hj hp) (Nat.not_le.mpr hfew)

end

/-- What is listed agrees with what can be claimed, whatever rows the query returns. -/
theorem listing_agrees_iff (env : Env) (taskOf : Json → PayloadTask) (t : Tables) (user : UserId)
    (task : Option String) :
    (∀ ids, Picks 50 (scheduledFor t) (listed t user) ids → Agrees taskOf task t env user ids) ↔
      HidesRetryReady taskOf task t user ∧ ShowsTask taskOf task t user := by
  rw [agrees_picks_iff]
  constructor
  · intro hagrees
    exact ⟨hidesRetryReady_of_agrees hagrees, showsTask_of_agrees hagrees⟩
  · rintro ⟨hready, hshows⟩ l hl
    exact agrees_of_hides_shows hready hshows hl

/-! ## Fifty older rows -/

/-- The cues 1 and 2 of user 1, for the tasks `a` and `b`. -/
def taskCue (name : String) : Cue :=
  { cueRow 1 { (workerCreate ⟨some .recurring, some "* * * * *", none, "UTC"⟩) with
      payload := ⟨name, false⟩ } 60000000 0 with name := name }

/-- Fifty pending executions for the task `a`, and then one for `b`. -/
def fiftyOlder : Tables where
  executions := insertNew ((List.range 50).foldl (fun t i =>
    insertNew t i { cueId := 1, scheduledFor := i, createdAt := 0, updatedAt := 0 }) ∅) 50
    { cueId := 2, scheduledFor := 50, createdAt := 0, updatedAt := 0 }
  cues := insertNew (insertNew ∅ 1 (taskCue "a")) 2 (taskCue "b")

/-- The execution for `b` can be claimed, and a listing for `b` shows nothing. -/
theorem older_rows_hide : ¬ ∀ (env : Env) (taskOf : Json → PayloadTask) (t : Tables) (user : UserId)
    (task : Option String) (ids : List ExecId), Picks 50 (scheduledFor t) (listed t user) ids →
      Agrees taskOf task t env user ids := by
  intro hall
  let taskOf : Json → PayloadTask := fun payload => .text payload.dumps
  have hn : (listed fiftyOlder 1).Nodup := keysWhere_nodup _ _
  obtain ⟨l, hl, hgood⟩ : ∃ l, Permitted (scheduledFor fiftyOlder) (listed fiftyOlder 1) l ∧
      ∀ i ∈ l.take 50, ¬ holdsAt fiftyOlder (passes taskOf (some "b") fiftyOlder) i = true :=
    exists_avoiding_iff.mpr (by decide +kernel)
  have hagrees := hall plainEnv taskOf fiftyOlder 1 (some "b") _ ((picks_iff hn).mpr ⟨l, hl, rfl⟩)
  have hsub : ∀ i ∈ l.take 50, i ∈ listed fiftyOlder 1 := fun i hi =>
    hl.perm.subset (List.mem_of_mem_take hi)
  obtain ⟨-, j, hj, hp⟩ := ((agrees_iff hsub).mp hagrees).2
    ⟨50, by decide +kernel, by decide +kernel, by decide +kernel⟩
  exact hgood j hj hp

end CueApi.Claimable
