import CueApi.Scheduler.Refinement

/-! Worker executions are pulled, not pushed. A poller that never sends an
execution of a worker cue back to `retrying` keeps the outbox and the delivery
jobs to webhook executions; `recover_stale_executions` as written does not look
at the transport. -/

namespace CueApi.Scheduler

open ReadCommitted Interleaving Trace

variable {env : Env} {h : History} {s : Sys}

/-- The transport of the cue an execution belongs to. -/
def transportOfExecution (t : Tables) (e : ExecId) : Option Transport :=
  (t.execution e).bind fun r => transportOf t r.cueId

/-- The statuses that a worker can claim or finish. -/
def pulledStatus : ExecStatus → Bool
  | .pending | .delivering | .success | .failed | .missed => true
  | _ => false

theorem transportOfExecution_eq {t : Tables} {e : ExecId} {r : Execution}
    (hr : t.execution e = some r) : transportOfExecution t e = transportOf t r.cueId := by
  simp [transportOfExecution, hr]

/-- The transport of an execution never changes. -/
theorem transportOfExecution_grows (hl : Legal env h) {h' : History} (hs : h <:+ h') {e : ExecId}
    {r : Execution} (hr : (replay h).execution e = some r) :
    transportOfExecution (replay h') e = transportOfExecution (replay h) e := by
  have hg := Tables.Grows.replay_suffix hs
  obtain ⟨cue, hcue⟩ := cue_of_execution hl hr
  obtain ⟨r', hr', hf⟩ := hg.execution hr
  have ht : transportOf (replay h) r.cueId = some cue.callbackTransport := by
    simp [transportOf, hcue]
  rw [transportOfExecution_eq hr, transportOfExecution_eq hr', hf.cueId, ht]
  exact hg.transportOf ht

/-- The write does not send an execution of a worker cue back to `retrying`. -/
def Write.sparesWorkers (t : Tables) : Write → Bool
  | .updateExecution e (.recovered _ _ _) => transportOfExecution t e ≠ some .worker
  | _ => true

/-- `recover_stale_executions` leaves worker executions out. -/
def SparesWorkers (h : History) (ev : Event) : Prop :=
  ∀ w ∈ ev.writes, w.sparesWorkers (replay h) = true

instance (h : History) (ev : Event) : Decidable (SparesWorkers h ev) :=
  inferInstanceAs (Decidable (∀ w ∈ _, _))

/-- Nothing pushes the executions of worker cues. -/
def Pulled (h : History) : Prop :=
  ∀ e, transportOfExecution (replay h) e = some .worker →
    (∀ n o, (replay h).outboxRow n = some o → o.executionId ≠ e) ∧
    ∀ r, (replay h).execution e = some r → pulledStatus r.status = true

theorem Pulled.no_job (hp : Pulled h) (hl : Legal env h) {e : ExecId}
    (hw : transportOfExecution (replay h) e = some .worker) {p : Pid} {j : Job}
    (hj : .began p (.job j) ∈ h) : j.payload.executionId ≠ e := by
  obtain ⟨n, o, ho, rfl⟩ := (jobs_sourced hl).2 p j hj
  rw [(outbox_rowOf hl ho).payload]
  exact (hp e hw).1 n o ho

theorem began_mem_of_own {p : Pid} {call : Call} (ho : own p h = [.began p call]) :
    .began p call ∈ h := (mem_own rfl).mp (by rw [ho]; simp)

theorem Answered.began_mem {p : Pid} {j : Job} {attempts : Nat} (ha : Answered p j attempts h) :
    .began p (.job j) ∈ h := by
  obtain ⟨sent, time, began, now, ho⟩ := ha
  exact (mem_own rfl).mp (by rw [ho]; simp)

/-- A webhook cue's outbox row: the execution it inserts belongs to that cue. -/
theorem Puts.webhook {ws : List Write} {o : OutboxRow} {p : Pid} {time : Time}
    (ha : Allowed env h (.commit p time ws)) (hp : Puts env h ws o) :
    transportOfExecution (replay (.commit p time ws :: h)) o.executionId = some .webhook ∨
    ∃ r, (replay h).execution o.executionId = some r ∧ r.status = .retrying := by
  have hg := Tables.Grows.replay_cons (.commit p time ws) h
  cases hp with
  | fired now began i e n hok hins hws =>
    have hm := hws (.insertExecution e (firedExecution i.c i.scheduledFor began))
      (by simp [BatchItem.writes, hins])
    have hworker : i.cue.callbackTransport = .webhook := by
      have hiff := ((hok.fresh e (some n) hins).2.2.1).not.mp (by simp)
      cases ht : i.cue.callbackTransport with
      | webhook => rfl
      | worker => exact absurd ht hiff
    refine .inl ((transportOfExecution_eq (execution_of_insert ha hm)).trans ?_)
    exact hg.transportOf (by simp [transportOf, firedExecution, hok.row, hworker])
  | triggered user c source e cue cue' s began scheduledAt metadata _ hcue hf hworker hm =>
    refine .inl ((transportOfExecution_eq (execution_of_insert ha hm)).trans ?_)
    exact hg.transportOf
      (by simp [transportOf, triggeredExecution, hcue, hf.callbackTransport, hworker])
  | retry now began e r cue cue' hr hdue _ _ =>
    simp only [retryDue, Bool.and_eq_true, decide_eq_true_eq] at hdue
    exact .inr ⟨r, hr, hdue.1⟩

/-- The UPDATEs of a worker execution keep it in a pulled status. -/
theorem Updates.pulled {p : Pid} {time : Time} {ws : List Write} {e : ExecId} {r : Execution}
    {call : Call} {u : ExecUpdate} (hu : Updates env h p time ws e r call u) (hl : Legal env h)
    (hp : Pulled h) (hw : transportOfExecution (replay h) e = some .worker)
    (hr : (replay h).execution e = some r)
    (hspare : Write.sparesWorkers (replay h) (.updateExecution e u) = true) :
    pulledStatus (u.set r).status = true := by
  have hs := (hp e hw).2 r hr
  cases hu with
  | claim j began now he ho _ _ => exact absurd he.symm (hp.no_job hl hw (began_mem_of_own ho))
  | limitReached j now he ho _ => exact absurd he.symm (hp.no_job hl hw (began_mem_of_own ho))
  | finished j attempts u he ha _ => exact absurd he.symm (hp.no_job hl hw ha.began_mem)
  | retryReady now began n cue cue' _ hdue _ _ _ _ =>
    simp only [retryDue, Bool.and_eq_true, decide_eq_true_eq] at hdue
    rw [hdue.1] at hs
    exact hs
  | recovered next now _ _ _ => simp [Write.sparesWorkers, hw] at hspare
  | stuck now _ _ _ => rfl
  | resetClaim seen now _ _ _ => rfl
  | missed seen now _ _ _ => rfl
  | workerClaim call endpoint worker began now _ _ _ _ _ => rfl
  | heartbeat user xWorkerId now _ _ _ => exact hs
  | outcome user body transport mode now _ _ _ _ =>
    rw [ExecUpdate.outcome_status]
    cases transport with
    | webhook => exact hs
    | worker => cases body.success <;> rfl

theorem pulled_of_spares (hl : Legal env h) (hc : Along SparesWorkers h) : Pulled h := by
  refine Along.invariant (J := Pulled) (fun e he => by
    simp [transportOfExecution, replay, Tables.execution] at he) ?_ (Along.and hl hc)
  rintro h ev hlh ⟨ha, hspare⟩ ih e he
  have hl' : Legal env h := hlh.mono fun _ _ hb => hb.1
  have hold : ∀ {r}, (replay h).execution e = some r →
      transportOfExecution (replay h) e = some .worker := fun hr =>
    (transportOfExecution_grows hl' (List.suffix_cons ev h) hr).symm.trans he
  refine ⟨fun n o ho heq => ?_, fun r hr => ?_⟩
  · cases outbox_step ha n with
    | same _ hsame =>
      rw [hsame] at ho
      obtain ⟨r, -, hr, -⟩ := (outbox_rowOf hl' ho).execution
      rw [heq] at hr
      exact (ih e (hold hr)).1 n o ho heq
    | created p time ws o' _ ho' _ hput =>
      rw [ho'] at ho
      cases ho
      rcases hput.webhook ha with hweb | ⟨r, hr, hretry⟩
      · rw [heq, he] at hweb
        cases hweb
      · rw [heq] at hr
        have hs := (ih e (hold hr)).2 r hr
        simp [hretry, pulledStatus] at hs
    | marked p time ws o₀ o' ho₀ ho' hf _ =>
      rw [ho'] at ho
      cases ho
      obtain ⟨r, -, hr, -⟩ := (outbox_rowOf hl' ho₀).execution
      rw [← hf.executionId, heq] at hr
      exact (ih e (hold hr)).1 n o₀ ho₀ (hf.executionId.symm.trans heq)
  · cases exec_step ha e with
    | same _ hsame _ =>
      rw [hsame] at hr
      exact (ih e (hold hr)).2 r hr
    | created p time ws call row _ _ hrow _ _ hcr =>
      rw [hrow] at hr
      cases hr
      simp [hcr.fresh.status, pulledStatus]
    | updated p time ws call u r₀ _ hr₀ hrow hws hu =>
      rw [hrow] at hr
      cases hr
      exact hu.pulled hl' ih (hold hr₀) hr₀ (hspare _ (mem_of_writesOn_eq hws))

/-- No outbox row and no delivery job is one of a worker execution, and its status
stays among those a worker can claim or finish. -/
def WorkersPulled (s : Sys) : Prop :=
  ∀ e, transportOfExecution s.shared.tables e = some .worker →
    (∀ n o, s.shared.tables.outboxRow n = some o → o.executionId ≠ e) ∧
    (∀ p j, .began p (.job j) ∈ s.shared.history → j.payload.executionId ≠ e) ∧
    ∀ r, s.shared.tables.execution e = some r → pulledStatus r.status = true

/-- So it is in every run in which `recover_stale_executions` sends no execution of
a worker cue back to `retrying`. -/
theorem workers_pulled_of_spares (hr : Reachable env s)
    (hc : Along SparesWorkers s.shared.history) : WorkersPulled s := by
  intro e hw
  have hp := pulled_of_spares hr.legal hc
  rw [hr.tables_eq] at hw ⊢
  exact ⟨(hp e hw).1, fun p j hj => hp.no_job hr.legal hw hj, (hp e hw).2⟩

/-! ## A worker execution that is pushed -/

def workerCue : CueCreate where
  name := "report"
  schedule := { type := some .once, at? := some ⟨1000000, true⟩ }
  transport := .worker

/-- A worker cue with its one execution, at two seconds. -/
def fireWorkerCue : List Action :=
  playAll 1 (.createCue 1 workerCue) (gos 4 ++ [.fresh 7, .go]) ++ [.tick 2000000] ++
  playAll 2 .processCueBatch (gos 2 ++ [.rows [7], .fresh 1] ++ gos 3)

def claimIt (p : Pid) (worker : WorkerId) : List Action :=
  playAll p (.claimExecution 1 1 worker) (gos 4)

/-- The claim is five minutes old: the stale sweep takes it, and a minute later
the retry poller writes an outbox row for it. -/
def recoverAndRetry : List Action :=
  [.tick 301000000] ++
  playAll 4 .recoverStaleExecutions ([.go, .rows [1]] ++ gos 4) ++ [.tick 301000000] ++
  playAll 5 .pollRetries (gos 2 ++ [.rows [1]] ++ gos 2 ++ [.fresh 1] ++ gos 2)

theorem workers_pulled_fails : ∃ s, Reachable plainEnv s ∧ ¬ WorkersPulled s := by
  obtain ⟨s, hs, hv⟩ := reachable_of_run plainEnv 0
    (fireWorkerCue ++ claimIt 3 "w" ++ recoverAndRetry)
    (fun s => (transportOfExecution s.shared.tables 1,
      (s.shared.tables.outboxRow 1).map fun o => (o.executionId, o.taskType)))
    (some .worker, some (1, .retry)) (by decide +kernel)
  refine ⟨s, hs, fun hp => ?_⟩
  simp only [Prod.mk.injEq, Option.map_eq_some_iff] at hv
  obtain ⟨hw, o, ho, he, -⟩ := hv
  exact (hp 1 hw).1 1 o ho he

theorem workers_pulled_claimed : ∃ s, Reachable plainEnv s ∧
    transportOfExecution s.shared.tables 1 = some .worker ∧ WorkersPulled s := by
  obtain ⟨s, hs, hv⟩ := reachable_of_run plainEnv 0
    (fireWorkerCue ++ claimIt 3 "w")
    (fun s => (transportOfExecution s.shared.tables 1,
      decide (Along SparesWorkers s.shared.history)))
    (some .worker, true) (by decide +kernel)
  simp only [Prod.mk.injEq, decide_eq_true_eq] at hv
  exact ⟨s, hs, hv.1, workers_pulled_of_spares hs hv.2⟩

end CueApi.Scheduler
