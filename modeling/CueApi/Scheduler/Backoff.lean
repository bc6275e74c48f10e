import CueApi.Scheduler.Alone
import CueApi.Scheduler.Attempts

/-! The schedule of retries: `_handle_failure` and `recover_stale_executions` index the
same list of the cue, each in its own way. Both run alone here; a row that makes the
batch raise takes the other rows with it. -/

namespace CueApi.Scheduler

open ReadCommitted Interleaving Prog

variable {env : Env} {p : Pid} {t : Tables} {now : Time} {h : History} {w : World}

/-! ## The law -/

/-- Minutes from the `n`-th attempt to the next one: `backoff[min(n - 1, len - 1)]`, and 1 for
the empty list. -/
def backoffMinutes (backoff : List Int) (n : Nat) : Int := (backoffAt backoff (n - 1)).getD 1

/-- A claim of `e`, and whether a worker daemon makes it. -/
def Write.claims (e : ExecId) : Write → Option Bool
  | .updateExecution e' (.workerClaim _ _ _ _) => if e' = e then some true else none
  | .updateExecution e' (.claim _ _ _) => if e' = e then some false else none
  | _ => none

/-- The last claim of `e` is one of a worker daemon. -/
def heldByDaemon (e : ExecId) : History → Bool
  | [] => false
  | .commit _ _ ws :: h => (ws.findSome? (Write.claims e)).getD (heldByDaemon e h)
  | _ :: h => heldByDaemon e h

/-- The number of the attempt that `e` is in: a daemon counts it when it claims, a delivery
job when the attempt has ended. -/
def attemptInFlight (h : History) (e : ExecId) (r : Execution) : Nat :=
  if heldByDaemon e h then r.attempts else r.attempts + 1

def backoffOf (t : Tables) (c : CueId) : List Int :=
  ((t.cue c).map Cue.retryBackoffMinutes).getD [1, 5, 15]

/-- `_handle_failure` after attempt `n + 1` does not raise, and puts the retry where the law
says. -/
def FailureLaw (p : Pid) (e : ExecId) (c : CueId) (http : Option Nat) (error : String)
    (n maxAttempts : Nat) (backoff : List Int) (w : World) : Prop :=
  Surely False (fun _ w' => n + 1 < maxAttempts → ∀ next r,
      plusMinutes w.clock (backoffMinutes backoff (n + 1)) = some next →
      w'.tables.execution e = some r → r.status = .retrying ∧ r.nextRetry = some next)
    (handleFailure p e c http error (n + 1) maxAttempts backoff) w

def staleAt (env : Env) (now : Time) (r : Execution) : Bool :=
  staleBefore (now - seconds env.settings.executionStaleAfterSeconds) r

/-- `recover_stale_executions` does not raise, whichever stale rows it takes, and puts each
retry where the law says. -/
def RecoveryLaw (env : Env) (p : Pid) (w : World) : Prop :=
  Surely False (fun _ w' => ∀ e r r' next, w.tables.execution e = some r →
      staleAt env w.clock r = true → r.attempts < maxAttemptsOf w.tables r.cueId →
      plusMinutes w.clock (backoffMinutes (backoffOf w.tables r.cueId)
        (attemptInFlight w.history e r)) = some next →
      w'.tables.execution e = some r' → r' ≠ r →
      r'.status = .retrying ∧ r'.nextRetry = some next)
    (recoverStaleExecutions env p) w

/-! ## One failed attempt -/

/-- `handleExhausted` after its UPDATE of the execution. -/
def closeExhausted (p : Pid) (c : CueId) (now : Time) : Program Unit := do
  updateCue p c (.ran now)
  let cue? ← select p fun t => t.cue c
  match cue? with
  | none => commit p
  | some cue =>
      if cue.scheduleType = .once then
        updateCue p c (.finish .failed now)
        commit p
      else if cue.onFailure.pause then
        updateCue p c (.pause now)
        commit p
      else commit p

theorem closeExhausted_surely {B : List Write} {c : CueId} {w' : World} {h' : History}
    (hw : Alone p B t now h' w') :
    Surely False (fun _ _ => True) (closeExhausted p c now) w' := by
  have done : ∀ {B w'} {h : History}, Alone p B t now h w' →
      Surely False (fun _ _ => True) (commit p) w' := fun hw' =>
    surely_commit (k := pure) hw' fun _ _ => trivial
  refine surely_write hw fun w₁ hw₁ => surely_select hw₁ ?_
  split
  · exact done hw₁
  split
  · exact surely_write hw₁ fun _ => done
  split
  · exact surely_write hw₁ fun _ => done
  · exact done hw₁

theorem handleExhausted_surely {B : List Write} {e : ExecId} {c : CueId} {http : Option Nat}
    {error : String} {attempt : Nat} (hw : Alone p B t now h w) :
    Surely False (fun _ _ => True) (handleExhausted p e c http error attempt now) w :=
  surely_updateExecutionById hw (fun _ _ _ => closeExhausted_surely)
    fun _ _ => closeExhausted_surely

/-- `_handle_failure` raises exactly when it retries at an instant that no `datetime` holds. -/
theorem failureLaw_iff {e : ExecId} {c : CueId} {http : Option Nat} {error : String}
    {n maxAttempts : Nat} {backoff : List Int} (hw : ∀ k, w.store.Free p k) :
    FailureLaw p e c http error n maxAttempts backoff w ↔ (n + 1 < maxAttempts →
      (plusMinutes w.clock (backoffMinutes backoff (n + 1))).isSome) := by
  have ha : Alone p (w.store.buf p) w.tables w.clock w.history w := ⟨hw, rfl, rfl, rfl, rfl⟩
  unfold FailureLaw handleFailure
  constructor
  · intro hs hlt
    have hs := sure_of_clock hs
    rw [if_pos hlt] at hs
    cases hp : plusMinutes w.clock (backoffMinutes backoff (n + 1)) with
    | some next => rfl
    | none =>
      simp only [backoffMinutes] at hp
      simp only [hp] at hs
      exact False.elim hs
  · intro hcond
    refine surely_clock ha ?_
    split
    · rename_i hlt
      obtain ⟨next, hnext⟩ := Option.isSome_iff_exists.mp (hcond hlt)
      have hcode : plusMinutes w.clock ((backoffAt backoff (n + 1 - 1)).getD 1) = some next := hnext
      simp only [hcode]
      refine surely_updateExecutionById ha (fun w₁ r hr hw₁ => ?_) fun w₁ hr hw₁ => ?_
      · refine surely_commit (k := pure) hw₁ fun w₂ hw₂ => ?_
        rintro - next' r' heq hr'
        rw [hnext] at heq
        cases heq
        rw [hw₂.tables, Schema.applyAll_cons, schema_apply, Tables.execution_apply] at hr'
        simp only [if_true, hr, Option.map_some, Option.some.injEq] at hr'
        subst hr'
        exact ⟨rfl, rfl⟩
      · refine surely_commit (k := pure) hw₁ fun w₂ hw₂ => ?_
        rintro - next' r' - hr'
        rw [hw₂.tables, hr] at hr'
        cases hr'
    · rename_i hge
      exact (handleExhausted_surely ha).mono fun _ _ _ hlt => absurd hlt hge

/-! ## The batch of stale executions -/

/-- The columns that `recover_stale_executions` reads of a cue. -/
def Cue.retryColumns (cue : Cue) : Nat × List Int × ScheduleType :=
  (cue.retryMaxAttempts, cue.retryBackoffMinutes, cue.scheduleType)

/-- What becomes of a stale row; `none` is an exception. -/
def recovery (env : Env) (t : Tables) (now : Time) (r : Execution) : Option ExecUpdate :=
  if r.attempts < maxAttemptsOf t r.cueId then
    ((backoffAt (backoffOf t r.cueId) r.attempts).bind (plusMinutes now)).map fun next =>
      .recovered env.settings.executionStaleAfterSeconds next now
  else some (.stuck env.settings.executionStaleAfterSeconds now)

/-- The part of `recover_stale_executions` after its SELECT. -/
def recoverBatch (env : Env) (p : Pid) (stale : List (ExecId × Execution)) : Program Reply := do
  let now ← clock
  let escalations ← Prog.mapEach (recoverOne env p now) stale
  commit p
  let _ ← Prog.mapEach (runOnFailureEscalation p) (escalations.filterMap id)
  return .count stale.length

theorem recoverStaleExecutions_eq (env : Env) (p : Pid) : recoverStaleExecutions env p =
    clock >>= fun now => selectRowsForUpdate p Tables.executions .execution
      (fun _ r => staleAt env now r) (fun _ => 0) 100 >>= recoverBatch env p := rfl

/-- In the loop: the rows done have their update, the others are as they were. -/
structure Recovering (env : Env) (p : Pid) (t : Tables) (now : Time) (h : History)
    (done todo : List (ExecId × Execution)) (w : World) : Prop where
  alone : Alone p (w.store.buf p) t now h w
  cues : ∀ c, ((w.view p).cue c).map Cue.retryColumns = (t.cue c).map Cue.retryColumns
  nodup : ((done ++ todo).map Prod.fst).Nodup
  rows : ∀ x ∈ todo, t.execution x.1 = some x.2
  recovered : ∀ x ∈ done, ∃ u, recovery env t now x.2 = some u ∧
    (w.view p).execution x.1 = some (u.set x.2)
  same : ∀ e, e ∉ done.map Prod.fst → (w.view p).execution e = t.execution e

variable {done todo : List (ExecId × Execution)} {x : ExecId × Execution}

theorem Recovering.view (hj : Recovering env p t now h done todo w) :
    w.view p = schema.applyAll (w.store.buf p) t := hj.alone.view

/-- What the loop reads of the cue of a row is what the tables say. -/
theorem Recovering.reads (hj : Recovering env p t now h done todo w) (c : CueId) :
    (((w.view p).cue c).map Cue.retryMaxAttempts).getD 3 = maxAttemptsOf t c ∧
    (((w.view p).cue c).map Cue.retryBackoffMinutes).getD [1, 5, 15] = backoffOf t c := by
  have hc := hj.cues c
  unfold maxAttemptsOf backoffOf
  cases hv : (w.view p).cue c with
  | none =>
    rw [hv, Option.map_none, eq_comm, Option.map_eq_none_iff] at hc
    simp [hc]
  | some cue =>
    rw [hv, Option.map_some, eq_comm, Option.map_eq_some_iff] at hc
    obtain ⟨cue', hcue', heq⟩ := hc
    simp only [Cue.retryColumns, Prod.mk.injEq] at heq
    simp [hcue', heq.1, heq.2.1]

section CueUpdates

variable (us : List (CueId × CueUpdate)) (t : Tables)

theorem execution_cueUpdates (e : ExecId) :
    (schema.applyAll (us.map fun v => Write.updateCue v.1 v.2) t).execution e =
      t.execution e := by
  induction us with
  | nil => rfl
  | cons v us ih =>
    rw [List.map_cons, Schema.applyAll_cons, schema_apply, Tables.execution_apply]
    exact ih

theorem retryColumns_cueUpdates (c : CueId) :
    ((schema.applyAll (us.map fun v => Write.updateCue v.1 v.2) t).cue c).map Cue.retryColumns =
      (t.cue c).map Cue.retryColumns := by
  induction us with
  | nil => rfl
  | cons v us ih =>
    rw [List.map_cons, Schema.applyAll_cons, schema_apply, Tables.cue_apply]
    simp only
    split
    · rw [Option.map_map, ← ih]
      congr 1
      funext cue
      have hf := v.2.set_fixed cue
      simp [Cue.retryColumns, hf.retryMaxAttempts, hf.retryBackoffMinutes, hf.scheduleType]
    · exact ih

end CueUpdates

theorem Recovering.notDone (hj : Recovering env p t now h done (x :: todo) w) :
    x.1 ∉ done.map Prod.fst := by
  have hn := hj.nodup
  rw [List.map_append, List.map_cons] at hn
  exact fun hm => (List.disjoint_of_nodup_append hn) hm (by simp)

/-- The UPDATE of row `x`, and the cue UPDATEs that follow it, are one turn of the loop. -/
theorem Recovering.next (hj : Recovering env p t now h done (x :: todo) w) {u : ExecUpdate}
    (hu : recovery env t now x.2 = some u) {w' : World} (us : List (CueId × CueUpdate))
    (hw' : Alone p (us.map (fun v => Write.updateCue v.1 v.2) ++
      .updateExecution x.1 u :: w.store.buf p) t now h w') :
    Recovering env p t now h (done ++ [x]) todo w' := by
  have hmem := hj.notDone
  have hexec : ∀ e, (w'.view p).execution e =
      if e = x.1 then ((w.view p).execution e).map u.set else (w.view p).execution e := by
    intro e
    rw [hw'.view, hj.view, Schema.applyAll_append, execution_cueUpdates, Schema.applyAll_cons,
      schema_apply, Tables.execution_apply]
  have hcue : ∀ c, ((w'.view p).cue c).map Cue.retryColumns =
      ((w.view p).cue c).map Cue.retryColumns := by
    intro c
    rw [hw'.view, hj.view, Schema.applyAll_append, retryColumns_cueUpdates, Schema.applyAll_cons,
      schema_apply, Tables.cue_apply]
  have hrow := hj.rows x (by simp)
  refine ⟨⟨hw'.free, rfl, hw'.tables, hw'.clock, hw'.history⟩, fun c => (hcue c).trans (hj.cues c),
    by simpa using hj.nodup, fun y hy => hj.rows y (by simp [hy]), fun y hy => ?_, fun e he => ?_⟩
  · rcases List.mem_append.mp hy with hy | hy
    · obtain ⟨u', hu', hv⟩ := hj.recovered y hy
      have hne : y.1 ≠ x.1 := fun heq => hmem (heq ▸ List.mem_map_of_mem hy)
      exact ⟨u', hu', by rw [hexec, if_neg hne, hv]⟩
    · rw [List.mem_singleton] at hy
      subst hy
      exact ⟨u, hu, by rw [hexec, if_pos rfl, hj.same _ hmem, hrow]; rfl⟩
  · have hne : e ≠ x.1 := fun heq => he (by simp [heq])
    rw [hexec, if_neg hne]
    exact hj.same e fun hm => he (by simp [hm])

/-- The row of `x` is there for its UPDATE. -/
theorem Recovering.row (hj : Recovering env p t now h done (x :: todo) w) :
    (schema.applyAll (w.store.buf p) t).execution x.1 = some x.2 := by
  rw [← hj.view, hj.same _ hj.notDone]
  exact hj.rows x (by simp)

theorem surely_recoverOne (hj : Recovering env p t now h done (x :: todo) w)
    (hok : (recovery env t now x.2).isSome) :
    Surely False (fun _ w' => Recovering env p t now h (done ++ [x]) todo w')
      (recoverOne env p now x) w := by
  obtain ⟨u, hu⟩ := Option.isSome_iff_exists.mp hok
  obtain ⟨hmax, hback⟩ := hj.reads x.2.cueId
  have hcode := hu
  unfold recovery at hcode
  refine surely_select hj.alone ?_
  rw [← hj.view, hmax, hback]
  simp only
  split
  · rename_i hlt
    rw [if_pos hlt, Option.map_eq_some_iff] at hcode
    obtain ⟨next, hnext, rfl⟩ := hcode
    simp only [hnext]
    refine surely_updateExecutionById hj.alone (fun w₁ r _ hw₁ => hj.next hu [] hw₁) ?_
    intro w₁ hno
    rw [hj.row] at hno
    cases hno
  · rename_i hge
    rw [if_neg hge] at hcode
    cases hcode
    refine surely_updateExecutionById hj.alone (fun w₁ r _ hw₁ => ?_) ?_
    · split
      · exact surely_write hw₁ fun w₂ hw₂ => hj.next hu [(x.2.cueId, .finish .failed now)] hw₂
      · exact hj.next hu [] hw₁
    · intro w₁ hno
      rw [hj.row] at hno
      cases hno

/-- A row with no retry instant raises. -/
theorem recoverOne_raises (hj : Recovering env p t now h done (x :: todo) w)
    (hbad : recovery env t now x.2 = none) {Q : Option CueId → World → Prop} :
    ¬ Surely False Q (recoverOne env p now x) w := by
  intro hs
  obtain ⟨hmax, hback⟩ := hj.reads x.2.cueId
  have hs := sure_of_select hs
  rw [hmax, hback] at hs
  unfold recovery at hbad
  split at hbad
  · rename_i hlt
    rw [Option.map_eq_none_iff] at hbad
    simp only [if_pos hlt, hbad] at hs
    exact hs
  · cases hbad

theorem surely_escalations {cs : List CueId} {P : (ExecId → Option Execution) → Prop}
    (hw : Alone p [] t now h w) (hp : P t.execution) :
    Surely False (fun _ w' => P w'.tables.execution)
      (Prog.mapEach (runOnFailureEscalation p) cs) w := by
  refine (Surely.mapEach
    (J := fun _ _ w => ∃ t h, Alone p [] t now h w ∧ P t.execution) ?_ [] ⟨t, h, hw, hp⟩).mono ?_
  · rintro _ c _ w ⟨t, h, hw, hp⟩
    refine surely_select hw ?_
    split
    · exact ⟨t, h, hw, hp⟩
    split
    · refine surely_clock hw (surely_write hw fun w₁ hw₁ => ?_)
      refine surely_commit (k := pure) hw₁ fun w₂ hw₂ => ⟨_, _, hw₂, ?_⟩
      have heq : (schema.applyAll [.updateCue c (.pause now)] t).execution = t.execution :=
        funext fun e => execution_cueUpdates [(c, .pause now)] t e
      rw [heq]
      exact hp
    · exact ⟨t, h, hw, hp⟩
  · rintro _ w' ⟨t', h', hw', hp'⟩
    rw [hw'.tables]
    exact hp'

theorem Recovering.start {xs : List (ExecId × Execution)} (hw : Alone p [] t now h w)
    (hn : (xs.map Prod.fst).Nodup) (hrows : ∀ x ∈ xs, t.execution x.1 = some x.2) :
    Recovering env p t now h [] xs w := by
  have hview : w.view p = t := hw.view
  exact ⟨by rw [hw.buf]; exact hw, fun c => by rw [hview], by simpa using hn, hrows, by simp,
    fun e _ => by rw [hview]⟩

/-- Each row of the batch has its update, and the others are as they were. -/
def Recovered (env : Env) (t : Tables) (now : Time) (xs : List (ExecId × Execution))
    (row : ExecId → Option Execution) : Prop :=
  (∀ x ∈ xs, ∃ u, recovery env t now x.2 = some u ∧ row x.1 = some (u.set x.2)) ∧
  ∀ e, e ∉ xs.map Prod.fst → row e = t.execution e

theorem surely_recoverBatch {xs : List (ExecId × Execution)} (hw : Alone p [] t now h w)
    (hn : (xs.map Prod.fst).Nodup) (hrows : ∀ x ∈ xs, t.execution x.1 = some x.2)
    (hok : ∀ x ∈ xs, (recovery env t now x.2).isSome) :
    Surely False (fun _ w' => Recovered env t now xs w'.tables.execution) (recoverBatch env p xs) w := by
  refine surely_clock hw (surely_bind.mpr ((Surely.mapEach
    (J := fun done todo w => (∀ x ∈ todo, (recovery env t now x.2).isSome) ∧
      Recovering env p t now h done todo w) ?_ [] ⟨hok, .start hw hn hrows⟩).mono ?_))
  · rintro done x todo w ⟨hok, hj⟩
    exact (surely_recoverOne hj (hok x (by simp))).mono fun _ _ hj' =>
      ⟨fun y hy => hok y (by simp [hy]), hj'⟩
  · rintro escalations w₁ ⟨-, hj⟩
    refine surely_commit hj.alone fun w₂ hw₂ => surely_bind.mpr ?_
    refine (surely_escalations (P := Recovered env t now xs) hw₂ ?_).mono fun _ _ hr => hr
    rw [← hj.view]
    exact ⟨hj.recovered, hj.same⟩

/-- One bad row makes the whole batch raise. -/
theorem recoverBatch_raises {xs : List (ExecId × Execution)} (hw : Alone p [] t now h w)
    (hn : (xs.map Prod.fst).Nodup) (hrows : ∀ x ∈ xs, t.execution x.1 = some x.2)
    (hx : x ∈ xs) (hbad : recovery env t now x.2 = none) {Q : Reply → World → Prop} :
    ¬ Surely False Q (recoverBatch env p xs) w := by
  have loop : ∀ (todo done : List (ExecId × Execution)) (w : World)
      {Q : List (Option CueId) → World → Prop}, x ∈ todo →
      Recovering env p t now h done todo w →
      ¬ Surely False Q (Prog.mapEach (recoverOne env p now) todo) w := by
    intro todo
    induction todo with
    | nil => intro _ _ _ hm; cases hm
    | cons y todo ih =>
      intro done w Q hm hj hs
      have hs := surely_bind.mp hs
      cases hy : recovery env t now y.2 with
      | none => exact recoverOne_raises hj hy hs
      | some u =>
        have hne : x ≠ y := by
          rintro rfl
          rw [hbad] at hy
          cases hy
        -- the rows before the bad one go through, and the loop comes to it
        obtain ⟨_, w', hj', hs'⟩ :=
          ((surely_recoverOne hj (by rw [hy]; rfl)).and hs).ends
        exact ih _ w' ((List.mem_cons.mp hm).resolve_left hne) hj' (surely_bind.mp hs')
  intro hs
  have hs := sure_of_clock hs
  rw [hw.clock] at hs
  exact loop xs [] w hx (.start hw hn hrows) (surely_bind.mp hs)

/-! ## When both keep the law -/

/-- The list has an entry for the attempt, its instant is a `datetime`, and where a daemon has
counted the attempt already the next entry gives the same instant. -/
structure Schedulable (t : Tables) (now : Time) (h : History) (e : ExecId)
    (r : Execution) : Prop where
  nonempty : backoffOf t r.cueId ≠ []
  datetime : (plusMinutes now ((backoffAt (backoffOf t r.cueId) r.attempts).getD 1)).isSome
  counted : heldByDaemon e h = true →
    ∀ next, plusMinutes now (backoffMinutes (backoffOf t r.cueId) r.attempts) = some next →
    plusMinutes now ((backoffAt (backoffOf t r.cueId) r.attempts).getD 1) = some next

theorem backoffAt_isSome {backoff : List Int} (hb : backoff ≠ []) (i : Nat) :
    ∃ m, backoffAt backoff i = some m := by
  have hlen := List.length_pos_of_ne_nil hb
  exact ⟨_, List.getElem?_eq_getElem (show min i (backoff.length - 1) < backoff.length by omega)⟩

/-- A row with attempts left has a retry instant exactly when the list is not empty and the
instant is a `datetime`. -/
theorem recovery_eq {r : Execution} (hlt : r.attempts < maxAttemptsOf t r.cueId) :
    recovery env t now r =
      if backoffOf t r.cueId = [] then none
      else (plusMinutes now ((backoffAt (backoffOf t r.cueId) r.attempts).getD 1)).map fun next =>
        .recovered env.settings.executionStaleAfterSeconds next now := by
  unfold recovery
  rw [if_pos hlt]
  split
  · rename_i hnil
    simp [hnil, backoffAt]
  · rename_i hne
    obtain ⟨m, hm⟩ := backoffAt_isSome hne r.attempts
    simp [hm]

theorem recovery_isSome {r : Execution}
    (hs : r.attempts < maxAttemptsOf t r.cueId → ∃ e h, Schedulable t now h e r) :
    (recovery env t now r).isSome := by
  by_cases hlt : r.attempts < maxAttemptsOf t r.cueId
  · obtain ⟨e, h, hs⟩ := hs hlt
    rw [recovery_eq hlt, if_neg hs.nonempty, Option.isSome_map]
    exact hs.datetime
  · simp [recovery, hlt]

theorem orderBy_zero {V : Type} (tbl : Table Nat V) : orderBy tbl (fun _ => 0) = fun _ => 0 := by
  funext i
  unfold orderBy
  cases tbl.lookup i <;> rfl

/-- The rows that the SELECT returns for `ids`. -/
theorem staleRows {ids : List Nat} (hp : Picks 100 (orderBy t.executions fun _ => 0)
      (rowsWhere t Tables.executions fun _ r => staleAt env now r) ids) :
    ((rowsAt t.executions ids).map Prod.fst).Nodup ∧
    ∀ x ∈ rowsAt t.executions ids, t.execution x.1 = some x.2 ∧ staleAt env now x.2 = true := by
  refine ⟨rowsAt_nodup _ hp.1, fun x hx => ?_⟩
  obtain ⟨hid, hl⟩ := mem_rowsAt hx
  obtain ⟨v, hv, hst⟩ := (mem_keysWhere _ _ _).mp (hp.2.1 x.1 hid)
  rw [hl] at hv
  cases hv
  exact ⟨hl, hst⟩

theorem recoveryLaw_of_schedulable (hw : Alone p [] t now h w)
    (hs : ∀ e r, t.execution e = some r → staleAt env now r = true →
      r.attempts < maxAttemptsOf t r.cueId → Schedulable t now h e r) : RecoveryLaw env p w := by
  unfold RecoveryLaw
  rw [recoverStaleExecutions_eq, hw.tables, hw.clock, hw.history]
  refine surely_clock hw (surely_selectRowsForUpdate hw fun w₁ ids hw₁ hp => ?_)
  obtain ⟨hn, hrows⟩ := staleRows hp
  refine (surely_recoverBatch hw₁ hn (fun x hx => (hrows x hx).1) fun x hx =>
    recovery_isSome fun hlt => ⟨_, _, hs _ _ (hrows x hx).1 (hrows x hx).2 hlt⟩).mono ?_
  rintro _ w₂ ⟨hdone, hsame⟩ e r r' next hr hst hlt hnext hr' hne
  by_cases hm : e ∈ (rowsAt t.executions ids).map Prod.fst
  · obtain ⟨⟨e, r₀⟩, hx, rfl⟩ := List.mem_map.mp hm
    have hr₀ : t.execution e = some r₀ := (hrows _ hx).1
    rw [show t.execution e = some r from hr] at hr₀
    cases hr₀
    obtain ⟨u, hu, hrow⟩ := hdone _ hx
    have hok := hs _ _ hr hst hlt
    rw [recovery_eq hlt, if_neg hok.nonempty, Option.map_eq_some_iff] at hu
    obtain ⟨next', hnext', rfl⟩ := hu
    rw [hrow] at hr'
    cases hr'
    refine ⟨rfl, ?_⟩
    unfold attemptInFlight at hnext
    split at hnext
    · rename_i hheld
      exact hnext'.symm.trans (hok.counted hheld next hnext)
    · exact hnext'.symm.trans hnext
  · rw [hsame e hm, hr] at hr'
    cases hr'
    exact absurd rfl hne

theorem schedulable_of_recoveryLaw (hw : Alone p [] t now h w) (hl : RecoveryLaw env p w)
    {e : ExecId} {r : Execution} (hr : t.execution e = some r) (hst : staleAt env now r = true)
    (hlt : r.attempts < maxAttemptsOf t r.cueId) : Schedulable t now h e r := by
  unfold RecoveryLaw at hl
  rw [recoverStaleExecutions_eq, hw.tables, hw.clock, hw.history] at hl
  have hl := sure_of_clock hl
  rw [hw.clock] at hl
  -- the SELECT may well return the row of `e`
  have hmem : e ∈ rowsWhere t Tables.executions fun _ r => staleAt env now r :=
    (mem_keysWhere _ _ _).mpr ⟨r, hr, hst⟩
  obtain ⟨ids, hp, hid⟩ := picks_containing 100 (by decide) (keysWhere_nodup _ _) hmem
  rw [← orderBy_zero t.executions] at hp
  obtain ⟨w₁, hw₁, hs⟩ := sure_of_selectRowsForUpdate hw hp hl
  obtain ⟨hn, hrows⟩ := staleRows hp
  have hx : (e, r) ∈ rowsAt t.executions ids :=
    List.mem_filterMap.mpr ⟨e, hid, by rw [show t.executions.lookup e = some r from hr]; rfl⟩
  have hok : ∀ x ∈ rowsAt t.executions ids, (recovery env t now x.2).isSome := by
    intro x hx
    rw [← Option.ne_none_iff_isSome]
    intro hbad
    exact recoverBatch_raises hw₁ hn (fun y hy => (hrows y hy).1) hx hbad hs
  have hrec := hok _ hx
  rw [recovery_eq hlt] at hrec
  have hne : backoffOf t r.cueId ≠ [] := by
    intro hnil
    simp [hnil] at hrec
  rw [if_neg hne, Option.isSome_map] at hrec
  refine ⟨hne, hrec, fun hheld next hnext => ?_⟩
  obtain ⟨_, w₂, ⟨hdone, -⟩, hlaw⟩ :=
    ((surely_recoverBatch hw₁ hn (fun y hy => (hrows y hy).1) hok).and hs).ends
  obtain ⟨u, hu, hrow⟩ := hdone _ hx
  rw [recovery_eq hlt, if_neg hne, Option.map_eq_some_iff] at hu
  obtain ⟨next', hnext', rfl⟩ := hu
  have hchanged : (ExecUpdate.recovered env.settings.executionStaleAfterSeconds next' now).set r
      ≠ r := by
    intro heq
    have hstatus := congrArg Execution.status heq
    simp only [staleAt, staleBefore, Bool.and_eq_true, decide_eq_true_eq] at hst
    rw [hst.1] at hstatus
    cases hstatus
  have hflight : attemptInFlight h e r = r.attempts := if_pos hheld
  have hret := (hlaw e r _ next hr hst hlt (by rw [hflight]; exact hnext) hrow hchanged).2
  exact hnext'.trans hret

/-- Both functions keep the law exactly on these inputs: a retry instant that is a `datetime`,
and for the batch a non-empty list in the cue of every stale row with attempts left. -/
theorem backoff_law_iff (env : Env) (p : Pid) (w : World) (hfree : ∀ k, w.store.Free p k) :
    (∀ e c http error n maxAttempts backoff,
      FailureLaw p e c http error n maxAttempts backoff w ↔ (n + 1 < maxAttempts →
        (plusMinutes w.clock (backoffMinutes backoff (n + 1))).isSome)) ∧
    (w.store.buf p = [] → (RecoveryLaw env p w ↔ ∀ e r, w.tables.execution e = some r →
      staleAt env w.clock r = true → r.attempts < maxAttemptsOf w.tables r.cueId →
      Schedulable w.tables w.clock w.history e r)) := by
  refine ⟨fun e c http error n maxAttempts backoff => failureLaw_iff hfree, fun hbuf => ?_⟩
  have hw : Alone p [] w.tables w.clock w.history w := ⟨hfree, hbuf, rfl, rfl, rfl⟩
  constructor
  · intro hl e r hr hst hlt
    exact schedulable_of_recoveryLaw hw hl hr hst hlt
  · exact recoveryLaw_of_schedulable hw

/-- A schema-valid configuration: no backoff at all. -/
def noBackoffCue : CueCreate := { webhookCue with retry := { RetryConfig.default with backoffMinutes := [] } }

/-- The worker of the first attempt dies, and the claim gets stale. -/
def crashFirst (data : CueCreate) : List Action :=
  fireWebhookCue data ++ dispatchRowOf 3 1 ++ claimSteps 4 (firedJob data) ++
  [.crash 4, .tick 301000000]

theorem empty_backoff_poisons : ∃ s, Reachable plainEnv s ∧ s.shared.store.buf 5 = [] ∧
    ¬ RecoveryLaw plainEnv 5 s.shared := by
  obtain ⟨s, hs, hv⟩ := reachable_of_run plainEnv 0 (crashFirst noBackoffCue)
    (fun s => (s.shared.store.buf 5, ((recoverStaleExecutions plainEnv 5).follow s.shared
      [.go, .rows [1], .go, .go]).any fun x => x.1.failed)) ([], true) (by decide +kernel)
  simp only [Prod.mk.injEq] at hv
  exact ⟨s, hs, hv.1, not_surely_of_follow hv.2⟩

def plainlySchedulable (w : World) (e : ExecId) (r : Execution) : Bool :=
  !heldByDaemon e w.history && decide (backoffOf w.tables r.cueId ≠ []) &&
    (plusMinutes w.clock ((backoffAt (backoffOf w.tables r.cueId) r.attempts).getD 1)).isSome

/-- No stale row of the tables is in the way. -/
def allSchedulable (env : Env) (w : World) : Bool :=
  (keysWhere w.tables.executions fun e r =>
    staleAt env w.clock r && !plainlySchedulable w e r).isEmpty

theorem schedulable_of_all (ha : allSchedulable env w = true) {e : ExecId} {r : Execution}
    (hr : w.tables.execution e = some r) (hst : staleAt env w.clock r = true) :
    Schedulable w.tables w.clock w.history e r := by
  have hrow : plainlySchedulable w e r = true := by
    by_contra hno
    have hmem := (mem_keysWhere w.tables.executions (fun e r =>
      staleAt env w.clock r && !plainlySchedulable w e r) e).mpr ⟨r, hr, by simp [hst, hno]⟩
    rw [List.isEmpty_iff.mp ha] at hmem
    cases hmem
  simp only [plainlySchedulable, Bool.and_eq_true, Bool.not_eq_true', decide_eq_true_eq] at hrow
  refine ⟨hrow.1.2, hrow.2, fun hheld => ?_⟩
  rw [hrow.1.1] at hheld
  cases hheld

/-- With the default list the claim is recovered, and a failure retried. -/
theorem backoff_law_default : ∃ s r, Reachable plainEnv s ∧
    s.shared.tables.execution 1 = some r ∧ staleAt plainEnv s.shared.clock r = true ∧
    RecoveryLaw plainEnv 5 s.shared.closed ∧
    FailureLaw 5 1 7 none "timeout" 0 3 [1, 5, 15] s.shared.closed := by
  obtain ⟨s, hs, hv⟩ := reachable_of_run plainEnv 0 (crashFirst webhookCue)
    (fun s => ((s.shared.tables.execution 1).map (staleAt plainEnv s.shared.clock),
      allSchedulable plainEnv s.shared,
      (plusMinutes s.shared.clock (backoffMinutes [1, 5, 15] 1)).isSome))
    (some true, true, true) (by decide +kernel)
  simp only [Prod.mk.injEq, Option.map_eq_some_iff] at hv
  obtain ⟨⟨r, hr, hst⟩, hall, hsome⟩ := hv
  have hlaw := backoff_law_iff plainEnv 5 s.shared.closed (alone_closed 5 s.shared).free
  refine ⟨s, r, hs, hr, hst, (hlaw.2 rfl).mpr fun e r hr hst _ => ?_,
    (hlaw.1 1 7 none "timeout" 0 3 [1, 5, 15]).mpr fun _ => hsome⟩
  exact schedulable_of_all hall hr hst

end CueApi.Scheduler
