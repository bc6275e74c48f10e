import CueApi.Scheduler.Transport

/-! What the status of an execution can do. Several UPDATEs of `executions` name
the row by id alone, after an earlier read or claim; as long as each of them
finds the status its process last saw, a success is final, a claimed execution is
not missed and a recorded outcome stays. -/

namespace CueApi.Scheduler

open ReadCommitted Interleaving Trace

variable {env : Env} {h : History} {s s' : Sys}

/-! ## UPDATEs by id -/

/-- The status in which the process that issues the UPDATE last saw the row: at
its own SELECT, at its own claim, or, when a job gives up before its claim, the
status of a new execution. `none` where the UPDATE tests the status itself or the
row has been locked since the SELECT. -/
def ExecUpdate.readStatus : ExecUpdate → Option ExecStatus
  | .limitReached _ => some .pending
  | .delivered _ _ _ _ | .retryLater _ _ _ _ _ | .exhausted _ _ _ _ => some .delivering
  | .resetClaim seen _ | .missed seen _ => some seen.status
  | .workerClaim .claimNextExecution _ _ _ => some .pending
  | _ => none

def Write.findsAsRead (t : Tables) : Write → Bool
  | .updateExecution e u =>
      match u.readStatus, t.execution e with
      | some status, some r => r.status = status
      | _, _ => true
  | _ => true

/-- Every UPDATE by id finds the status that its process last saw. -/
def FindsAsRead (h : History) (ev : Event) : Prop :=
  ∀ w ∈ ev.writes, w.findsAsRead (replay h) = true

instance (h : History) (ev : Event) : Decidable (FindsAsRead h ev) :=
  inferInstanceAs (Decidable (∀ w ∈ _, _))

/-- The statuses of an execution that is still to be delivered. -/
def openStatus : ExecStatus → Bool
  | .pending | .delivering | .retrying | .retryReady => true
  | _ => false

theorem status_of_findsAsRead {t : Tables} {e : ExecId} {u : ExecUpdate} {r : Execution}
    {status : ExecStatus} (hf : Write.findsAsRead t (.updateExecution e u) = true)
    (hr : t.execution e = some r) (hu : u.readStatus = some status) : r.status = status := by
  simpa [Write.findsAsRead, hr, hu] using hf

/-- An UPDATE that finds the status its process saw meets an open execution, or is
a heartbeat or an outcome. -/
theorem Updates.meets_open {p : Pid} {time : Time} {ws : List Write} {e : ExecId}
    {r : Execution} {call : Call} {u : ExecUpdate} (hu : Updates env h p time ws e r call u)
    (hr : (replay h).execution e = some r)
    (hf : Write.findsAsRead (replay h) (.updateExecution e u) = true) :
    openStatus r.status = true ∨ (∃ now, u = .heartbeat now) ∨
    ∃ transport mode body now, u = .outcome transport mode body now ∧
      r.outcomeRecordedAt = none ∧ transportOf (replay h) r.cueId = some transport := by
  have found : ∀ {status : ExecStatus}, u.readStatus = some status → r.status = status :=
    fun hu => status_of_findsAsRead hf hr hu
  cases hu with
  | claim j began now _ _ hs _ =>
    left
    rw [hs]
    cases j.task <;> rfl
  | limitReached j now _ _ _ =>
    left
    rw [found rfl]
    rfl
  | finished j attempts u _ _ hc =>
    left
    cases hc <;> rw [found rfl] <;> rfl
  | retryReady now began n cue cue' _ hdue _ _ _ _ =>
    left
    simp only [retryDue, Bool.and_eq_true, decide_eq_true_eq] at hdue
    rw [hdue.1]
    rfl
  | recovered next now _ hstale _ =>
    left
    simp only [staleBefore, Bool.and_eq_true, decide_eq_true_eq] at hstale
    rw [hstale.1]
    rfl
  | stuck now _ hstale _ =>
    left
    simp only [staleBefore, Bool.and_eq_true, decide_eq_true_eq] at hstale
    rw [hstale.1]
    rfl
  | resetClaim seen now _ _ hexp =>
    left
    simp only [claimExpired, Bool.and_eq_true, decide_eq_true_eq] at hexp
    rw [found rfl, hexp.1.1.1]
    rfl
  | missed seen now _ _ hexp =>
    left
    simp only [unclaimedSince, Bool.and_eq_true, decide_eq_true_eq] at hexp
    rw [found rfl, hexp.1.1.1]
    rfl
  | workerClaim call endpoint worker began now _ _ _ hs _ =>
    left
    cases endpoint with
    | claimNextExecution =>
      rw [found rfl]
      rfl
    | claimExecution =>
      rw [hs rfl]
      rfl
  | heartbeat user xWorkerId now _ _ _ => exact .inr (.inl ⟨now, rfl⟩)
  | outcome user body transport mode now _ hnone ht _ =>
    exact .inr (.inr ⟨transport, mode, body, now, rfl, hnone, ht⟩)

/-! ## Success is final -/

/-- A worker execution succeeds by its outcome only. -/
theorem success_recorded (hl : Legal env h) (hc : Along SparesWorkers h) {e : ExecId}
    {r : Execution} (hr : (replay h).execution e = some r)
    (hw : transportOfExecution (replay h) e = some .worker) (hs : r.status = .success) :
    r.outcomeRecordedAt ≠ none := by
  revert e r
  refine Along.invariant (J := fun h => ∀ {e r}, (replay h).execution e = some r →
    transportOfExecution (replay h) e = some .worker → r.status = .success →
    r.outcomeRecordedAt ≠ none) (fun hr => by simp [replay, Tables.execution] at hr) ?_
    (Along.and hl hc)
  intro h ev hlh hev ih e r hr hw hs
  obtain ⟨ha, hspare⟩ := hev
  have hl' : Legal env h := hlh.mono fun _ _ hb => hb.1
  have hp : Pulled h := pulled_of_spares hl' (hlh.mono fun _ _ hb => hb.2)
  cases exec_step ha e with
  | same _ heq _ =>
    rw [heq] at hr
    exact ih hr ((transportOfExecution_grows hl' (List.suffix_cons ev h) hr).symm.trans hw) hs
  | created p time ws call row _ _ hrow _ _ hcr =>
    rw [hrow] at hr
    cases hr
    rw [hcr.fresh.status] at hs
    cases hs
  | updated p time ws call u r₀ _ hr₀ hrow _ hu =>
    rw [hrow] at hr
    cases hr
    have hw₀ := (transportOfExecution_grows hl' (List.suffix_cons _ h) hr₀).symm.trans hw
    have ih₀ := ih hr₀ hw₀
    cases hu with
    | claim j began now he ho _ _ => exact absurd he.symm (hp.no_job hl' hw₀ (began_mem_of_own ho))
    | limitReached j now he ho _ => exact absurd he.symm (hp.no_job hl' hw₀ (began_mem_of_own ho))
    | finished j attempts u he ha _ => exact absurd he.symm (hp.no_job hl' hw₀ ha.began_mem)
    | retryReady now began n cue cue' _ _ _ _ _ _ => cases hs
    | recovered next now _ _ _ => cases hs
    | stuck now _ _ _ => cases hs
    | resetClaim seen now _ _ _ => cases hs
    | missed seen now _ _ _ => cases hs
    | workerClaim call endpoint worker began now _ _ _ _ _ => cases hs
    | heartbeat user xWorkerId now _ _ _ => exact ih₀ hs
    | outcome user body transport mode now _ _ _ _ => simp

theorem success_kept (hl : Legal env h) (hfind : Along FindsAsRead h)
    (hspare : Along SparesWorkers h) {h₀ : History} (hsuf : h₀ <:+ h) {e : ExecId}
    (hs : ∃ r, (replay h₀).execution e = some r ∧ r.status = .success) :
    ∃ r, (replay h).execution e = some r ∧ r.status = .success := by
  refine Along.invariant_from (J := fun h => ∃ r, (replay h).execution e = some r ∧
    r.status = .success) hs ?_ hsuf ((hl.and hfind).and hspare)
  intro h ev _ hlh hev ih
  obtain ⟨⟨ha, hfind⟩, -⟩ := hev
  obtain ⟨r, hr, hsr⟩ := ih
  have hl' : Legal env h := hlh.mono fun _ _ hb => hb.1.1
  have hc' : Along SparesWorkers h := hlh.mono fun _ _ hb => hb.2
  rcases exec_kept_or_updated ha hr with hsame | ⟨p, time, ws, call, u, rfl, -, hm, hrow, hu⟩
  · exact ⟨r, hsame, hsr⟩
  · refine ⟨u.set r, hrow, ?_⟩
    rcases hu.meets_open hr (hfind _ hm) with hopen | ⟨now, rfl⟩ |
      ⟨transport, mode, body, now, rfl, hnone, ht⟩
    · rw [hsr] at hopen
      cases hopen
    · exact hsr
    · rw [ExecUpdate.outcome_status]
      cases transport with
      | webhook => exact hsr
      | worker =>
        have hw : transportOfExecution (replay h) e = some .worker :=
          (transportOfExecution_eq hr).trans ht
        exact absurd hnone (success_recorded hl' hc' hr hw hsr)

/-- In every run whose UPDATEs by id find the status their process saw, and whose
stale sweep leaves worker executions alone, a success stays. -/
theorem success_is_final (hr : Reachable env s) {as : List Action}
    (hrun : run env s as = some s') (hfind : Along FindsAsRead s'.shared.history)
    (hspare : Along SparesWorkers s'.shared.history) {e : ExecId} {r : Execution}
    (he : s.shared.tables.execution e = some r) (hs : r.status = .success) :
    ∃ r', s'.shared.tables.execution e = some r' ∧ r'.status = .success := by
  have hr' := hr.run hrun
  rw [hr.tables_eq] at he
  rw [hr'.tables_eq]
  exact success_kept hr'.legal hfind hspare (hr.sysInv.run_history hrun) ⟨r, he, hs⟩

/-- A worker claims and finishes the execution after the sweep for unclaimed ones
has selected it. -/
def finishUnderSweep : List Action :=
  fireWorkerCue ++ [.tick 901000000] ++
  play 3 .failUnclaimedWorkerExecutions [.go, .rows [1]] ++
  claimIt 4 "w" ++ playAll 5 (.recordOutcome 1 1 { success := true }) (gos 6)

/-- The sweep's UPDATE names the row by id alone. -/
theorem success_is_overwritten : ∃ s s' as r r', Reachable plainEnv s ∧
    run plainEnv s as = some s' ∧ s.shared.tables.execution 1 = some r ∧ r.status = .success ∧
    s'.shared.tables.execution 1 = some r' ∧ r'.status = .missed := by
  obtain ⟨s, s', hs, hrun, hv⟩ := reachable_run_of_run plainEnv 0 finishUnderSweep
    ((gos 4).map (.advance 3))
    (fun s s' => ((s.shared.tables.execution 1).map (·.status),
      (s'.shared.tables.execution 1).map (·.status)))
    (some .success, some .missed) (by decide +kernel)
  simp only [Prod.mk.injEq, Option.map_eq_some_iff] at hv
  obtain ⟨⟨r, hr, hsr⟩, r', hr', hsr'⟩ := hv
  exact ⟨s, s', _, r, r', hs, hrun, hr, hsr, hr', hsr'⟩

theorem success_is_final_outcome : ∃ s s' as r, Reachable plainEnv s ∧
    run plainEnv s as = some s' ∧ s.shared.tables.execution 1 = some r ∧ r.status = .success ∧
    ∃ r', s'.shared.tables.execution 1 = some r' ∧ r'.status = .success := by
  obtain ⟨s, s', hs, hrun, hv⟩ := reachable_run_of_run plainEnv 0
    (fireWorkerCue ++ claimIt 4 "w" ++ playAll 5 (.recordOutcome 1 1 { success := true }) (gos 6))
    (playAll 6 (.recordOutcome 1 1 { success := false }) [.go])
    (fun s s' => ((s.shared.tables.execution 1).map (·.status),
      decide (Along FindsAsRead s'.shared.history), decide (Along SparesWorkers s'.shared.history)))
    (some .success, true, true) (by decide +kernel)
  simp only [Prod.mk.injEq, Option.map_eq_some_iff, decide_eq_true_eq] at hv
  obtain ⟨⟨r, hr, hsr⟩, hfind, hspare⟩ := hv
  exact ⟨s, s', _, r, hs, hrun, hr, hsr, success_is_final hs hrun hfind hspare hr hsr⟩

/-! ## Claims and outcomes are not lost -/

/-- The commit resets the claim of `e`. -/
def Event.resets (e : ExecId) : Event → Bool
  | .commit _ _ ws => ws.any fun w => match w with
      | .updateExecution e' (.resetClaim _ _) => e' = e
      | _ => false
  | _ => false

theorem ExecUpdate.claimedByWorker_set {u : ExecUpdate} {r : Execution}
    (hne : ∀ seen now, u ≠ .resetClaim seen now) (hr : r.claimedByWorker ≠ none) :
    (u.set r).claimedByWorker ≠ none := by
  cases u <;> try exact hr
  case resetClaim seen now => exact absurd rfl (hne seen now)
  case workerClaim endpoint worker began now => exact Option.some_ne_none worker
  case outcome transport mode body now => simpa using hr

/-- Only a reset makes an execution pending again, and it clears the claim. -/
theorem pending_unclaimed (hl : Legal env h) {e : ExecId} {r : Execution}
    (hr : (replay h).execution e = some r) (hs : r.status = .pending) :
    r.claimedByWorker = none := by
  revert e r
  refine Along.invariant (J := fun h => ∀ {e r}, (replay h).execution e = some r →
    r.status = .pending → r.claimedByWorker = none)
    (fun hr => by simp [replay, Tables.execution] at hr) ?_ hl
  intro h ev _ ha ih e r hr hs
  cases exec_step ha e with
  | same _ heq _ => exact ih (heq ▸ hr) hs
  | created p time ws call row _ _ hrow _ _ hcr =>
    rw [hrow] at hr
    cases hr
    exact hcr.fresh.claimedByWorker
  | updated p time ws call u r₀ _ hr₀ hrow _ _ =>
    rw [hrow] at hr
    cases hr
    cases u with
    | resetClaim seen now => rfl
    | heartbeat now => exact (ih hr₀ hs : r₀.claimedByWorker = none)
    | outcome transport mode body now =>
      rw [ExecUpdate.outcome_status] at hs
      cases transport with
      | webhook => simpa using ih hr₀ hs
      | worker => cases hb : body.success <;> simp [hb] at hs
    | _ => cases hs

/-- A claim lasts until a reset. -/
theorem claimed_until_reset {h₀ post : History} {p : Pid} {time : Time}
    {e : ExecId} {endpoint : ClaimEndpoint} {worker : WorkerId} {began now : Time}
    (hl : Legal env (post ++
      .commit p time [.updateExecution e (.workerClaim endpoint worker began now)] :: h₀))
    (hpost : ∀ ev ∈ post, ev.resets e = false) :
    ∃ r, (replay (post ++
      .commit p time [.updateExecution e (.workerClaim endpoint worker began now)] :: h₀)).execution
        e = some r ∧ r.claimedByWorker ≠ none := by
  induction post with
  | nil =>
    obtain ⟨call, r, -, -, hrow, -⟩ := updates_of_mem hl.1 (List.mem_singleton_self _)
    exact ⟨_, hrow, Option.some_ne_none worker⟩
  | cons ev post ih =>
    rw [List.cons_append] at hl ⊢
    obtain ⟨r, hr, hc⟩ := ih hl.2 fun ev' hev => hpost ev' (by simp [hev])
    have hreset := hpost ev (by simp)
    rcases exec_kept_or_updated hl.1 hr with hsame | ⟨q, t, ws, call, u, rfl, -, hm, hrow, -⟩
    · exact ⟨r, hsame, hc⟩
    · refine ⟨_, hrow, ExecUpdate.claimedByWorker_set (fun seen now heq => ?_) hc⟩
      subst heq
      simp only [Event.resets, List.any_eq_false] at hreset
      exact hreset _ hm (by simp)

/-- The status of a worker execution is the one its outcome reported. -/
def OutcomeStands (r : Execution) : Prop :=
  (r.outcomeSuccess = some true ∧ r.status = .success) ∨
  (r.outcomeSuccess = some false ∧ r.status = .failed)

theorem outcome_stands (hl : Legal env h) (hfind : Along FindsAsRead h) {e : ExecId}
    {r : Execution} (hr : (replay h).execution e = some r)
    (hw : transportOfExecution (replay h) e = some .worker)
    (hrec : r.outcomeRecordedAt ≠ none) : OutcomeStands r := by
  revert e r
  refine Along.invariant (J := fun h => ∀ {e r}, (replay h).execution e = some r →
    transportOfExecution (replay h) e = some .worker → r.outcomeRecordedAt ≠ none →
    OutcomeStands r) (fun hr => by simp [replay, Tables.execution] at hr) ?_ (hl.and hfind)
  intro h ev hlh hev ih e r hr hw hrec
  obtain ⟨ha, hfind⟩ := hev
  have hl' : Legal env h := hlh.mono fun _ _ hb => hb.1
  cases exec_step ha e with
  | same _ heq _ =>
    rw [heq] at hr
    exact ih hr ((transportOfExecution_grows hl' (List.suffix_cons ev h) hr).symm.trans hw) hrec
  | created p time ws call row _ _ hrow _ _ hcr =>
    rw [hrow] at hr
    cases hr
    exact absurd hcr.fresh.outcomeRecordedAt hrec
  | updated p time ws call u r₀ _ hr₀ hrow hws hu =>
    rw [hrow] at hr
    cases hr
    have hw₀ := (transportOfExecution_grows hl' (List.suffix_cons _ h) hr₀).symm.trans hw
    have hopen := hu.meets_open hr₀ (hfind _ (mem_of_writesOn_eq hws))
    by_cases hout : ∃ transport mode body now, u = .outcome transport mode body now
    · obtain ⟨transport, mode, body, now, rfl⟩ := hout
      cases hu with
      | outcome user _ _ _ _ _ _ ht _ =>
        rw [transportOfExecution_eq hr₀, ht] at hw₀
        cases hw₀
        unfold OutcomeStands
        cases hb : body.success <;> simp [hb]
      | finished j attempts _ _ _ hcomp => cases hcomp
    · have hne : ∀ transport mode body now, u ≠ .outcome transport mode body now :=
        fun transport mode body now heq => hout ⟨transport, mode, body, now, heq⟩
      have hcol := ExecUpdate.outcomeColumns_set r₀ hne
      simp only [Execution.outcomeColumns, Prod.mk.injEq] at hcol
      rw [hcol.2.2.2.2] at hrec
      have hst := ih hr₀ hw₀ hrec
      rcases hopen with hopen | ⟨now, rfl⟩ | ⟨transport, mode, body, now, rfl, -⟩
      · rcases hst with ⟨-, hs⟩ | ⟨-, hs⟩ <;> rw [hs] at hopen <;> cases hopen
      · exact hst
      · exact absurd rfl (hne transport mode body now)

/-- An execution whose claim committed and was not reset is not moved to `missed`,
and a worker execution with an outcome has the status of that outcome. -/
def ClaimsAndOutcomesKept (s : Sys) (e : ExecId) : Prop :=
  (∀ p time ws post q time' endpoint worker began now h₀,
    .commit p time ws :: (post ++
      .commit q time' [.updateExecution e (.workerClaim endpoint worker began now)] :: h₀) <:+
        s.shared.history →
    (∀ ev ∈ post, ev.resets e = false) → ∀ seen now', .updateExecution e (.missed seen now') ∉ ws) ∧
  ∀ r, s.shared.tables.execution e = some r →
    transportOfExecution s.shared.tables e = some .worker → r.outcomeRecordedAt ≠ none →
    OutcomeStands r

/-- So it is in every run whose UPDATEs by id find the status their process saw. -/
theorem claims_and_outcomes_kept (hr : Reachable env s)
    (hfind : Along FindsAsRead s.shared.history) (e : ExecId) : ClaimsAndOutcomesKept s e := by
  constructor
  · intro p time ws post q time' endpoint worker began now h₀ hsuf hpost seen now' hm
    have hl := Along.suffix hr.legal hsuf
    obtain ⟨r, hrow, hc⟩ := claimed_until_reset hl.2 hpost
    have hfound := hfind.at hsuf _ hm
    obtain ⟨call, r₀, -, hr₀, -, hu⟩ := updates_of_mem hl.1 hm
    rw [hrow] at hr₀
    cases hr₀
    cases hu with
    | missed _ _ _ _ hexp =>
      simp only [unclaimedSince, Bool.and_eq_true, decide_eq_true_eq] at hexp
      have hs : r.status = .pending :=
        (status_of_findsAsRead hfound hrow rfl).trans hexp.1.1.1
      exact hc (pending_unclaimed hl.2 hrow hs)
    | finished j attempts _ _ _ hcomp => cases hcomp
  · intro r hrow hw hrec
    rw [hr.tables_eq] at hrow hw
    exact outcome_stands hr.legal hfind hrow hw hrec

/-- The sweep for unclaimed executions overwrites a claim, and an outcome. -/
theorem claims_and_outcomes_lost :
    (∃ s s' as r r', Reachable plainEnv s ∧ run plainEnv s as = some s' ∧
      s.shared.tables.execution 1 = some r ∧ r.status = .delivering ∧
      r.claimedByWorker = some "w" ∧
      s'.shared.tables.execution 1 = some r' ∧ r'.status = .missed) ∧
    ∃ s, Reachable plainEnv s ∧ ¬ ClaimsAndOutcomesKept s 1 := by
  constructor
  · obtain ⟨s, s', hs, hrun, hv⟩ := reachable_run_of_run plainEnv 0
      (fireWorkerCue ++ [.tick 901000000] ++
        play 3 .failUnclaimedWorkerExecutions [.go, .rows [1]] ++ claimIt 4 "w")
      ((gos 4).map (.advance 3))
      (fun s s' => ((s.shared.tables.execution 1).map fun r => (r.status, r.claimedByWorker),
        (s'.shared.tables.execution 1).map (·.status)))
      (some (.delivering, some "w"), some .missed) (by decide +kernel)
    simp only [Prod.mk.injEq, Option.map_eq_some_iff] at hv
    obtain ⟨⟨r, hr, hsr, hcr⟩, r', hr', hsr'⟩ := hv
    exact ⟨s, s', _, r, r', hs, hrun, hr, hsr, hcr, hr', hsr'⟩
  · obtain ⟨s, hs, hv⟩ := reachable_of_run plainEnv 0
      (finishUnderSweep ++ (gos 4).map (.advance 3))
      (fun s => (transportOfExecution s.shared.tables 1, (s.shared.tables.execution 1).map fun r =>
        (r.status, r.outcomeRecordedAt.isSome)))
      (some .worker, some (.missed, true)) (by decide +kernel)
    simp only [Prod.mk.injEq, Option.map_eq_some_iff] at hv
    obtain ⟨hw, r, hr, hst, hrec⟩ := hv
    refine ⟨s, hs, fun hk => ?_⟩
    have hstands := hk.2 r hr hw (by rw [Option.isSome_iff_ne_none] at hrec; exact hrec)
    rcases hstands with ⟨-, h⟩ | ⟨-, h⟩ <;> rw [hst] at h <;> cases h

/-- Of two executions the sweep fails the one that nobody has claimed; the worker of the other reports
its outcome between the sweep's SELECT and its UPDATE. -/
def reportBesideSweep : List Action :=
  playAll 1 (.createCue 1 workerCue) (gos 4 ++ [.fresh 7, .go]) ++
  playAll 2 (.createCue 1 { workerCue with name := "invoice" }) (gos 4 ++ [.fresh 8, .go]) ++
  [.tick 2000000] ++
  playAll 3 .processCueBatch (gos 2 ++ [.rows [7, 8], .fresh 1] ++ gos 2 ++ [.fresh 2] ++ gos 3) ++
  [.tick 901000000] ++ claimIt 4 "w" ++
  play 5 .failUnclaimedWorkerExecutions [.go, .rows [2]] ++
  playAll 6 (.recordOutcome 1 1 { success := true }) (gos 6) ++ (gos 5).map (.advance 5) ++
  [.finish 5]

theorem claims_and_outcomes_kept_beside_sweep : ∃ s r r', Reachable plainEnv s ∧
    s.shared.tables.execution 1 = some r ∧ r.outcomeRecordedAt ≠ none ∧ r.status = .success ∧
    s.shared.tables.execution 2 = some r' ∧ r'.status = .missed ∧
    ∀ e, ClaimsAndOutcomesKept s e := by
  obtain ⟨s, hs, hv⟩ := reachable_of_run plainEnv 0 reportBesideSweep
    (fun s => ((s.shared.tables.execution 1).map fun r => (r.outcomeRecordedAt.isSome, r.status),
      (s.shared.tables.execution 2).map (·.status), decide (Along FindsAsRead s.shared.history)))
    (some (true, .success), some .missed, true) (by decide +kernel)
  simp only [Prod.mk.injEq, Option.map_eq_some_iff, decide_eq_true_eq] at hv
  obtain ⟨⟨r, hr, hrec, hst⟩, ⟨r', hr', hst'⟩, hfind⟩ := hv
  rw [Option.isSome_iff_ne_none] at hrec
  exact ⟨s, r, r', hs, hr, hrec, hst, hr', hst', claims_and_outcomes_kept hs hfind⟩

end CueApi.Scheduler
