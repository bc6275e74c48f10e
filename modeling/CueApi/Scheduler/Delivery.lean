import CueApi.Scheduler.Cues
import CueApi.Scheduler.Transport

/-! Delivery of webhook executions: the outbox row, the job and the status of an
execution keep track of each other, so that none is forgotten. The one gap is a
job that raises before its claim: arq drops it, and the row is dispatched. -/

namespace CueApi.Scheduler

open ReadCommitted Interleaving Trace

variable {env : Env} {h : History} {s : Sys} {e : ExecId} {task : TaskType}

/-! ## Jobs before their claim -/

/-- The job of a process that has not decided its claim yet. -/
def unclaimedJob (p : Pid) (h : History) : Option Job :=
  match own p h with
  | [.began _ (.job j)] => some j
  | _ => none

theorem unclaimedJob_eq {p : Pid} {j : Job} :
    unclaimedJob p h = some j ↔ own p h = [.began p (.job j)] := by
  unfold unclaimedJob
  constructor
  · intro hj
    split at hj
    · rename_i q j' ho
      cases hj
      have hm : .began q (.job j) ∈ own p h := by simp [ho]
      have hq : q = p := by simpa [own, Event.pid] using (List.mem_filter.mp hm).2
      rw [ho, hq]
    · cases hj
  · intro ho
    rw [ho]

theorem callOf_of_own {p : Pid} {call : Call} (ho : own p h = [.began p call]) :
    callOf p h = some call := by
  rw [← callOf_own, ho]
  simp [callOf]

/-- The first commit of a job claims its execution or fails it over the limit. -/
theorem unclaimed_commit {p : Pid} {time : Time} {ws : List Write} {j : Job}
    (ha : Allowed env h (.commit p time ws)) (ho : own p h = [.began p (.job j)]) :
    ∃ u, ws = [.updateExecution j.payload.executionId u] ∧
      ((∃ began now, u = .claim j.task.expected began now) ∨ ∃ now, u = .limitReached now) := by
  obtain ⟨⟨call, hcall, hc⟩, -⟩ := ha
  rw [callOf_of_own ho] at hcall
  cases hcall
  cases hc with
  | nothing _ hne => exact absurd ho (hne j rfl)
  | triggered _ user c source e n cue cue' s began scheduledAt metadata ht _ _ _ _ _ => cases ht
  | escalated _ c now hesc => cases hesc
  | claimed _ r began now _ _ _ => exact ⟨_, rfl, .inl ⟨began, now, rfl⟩⟩
  | limited _ r now _ _ _ => exact ⟨_, rfl, .inr ⟨now, rfl⟩⟩
  | finished _ r attempts u tail began hans _ _ _ =>
    obtain ⟨sent, time, began, now, ho'⟩ := hans
    rw [ho] at ho'
    simp at ho'
  | workerClaimed _ endpoint worker e r began now hfor _ _ _ _ => cases hfor

/-! ## Outbox rows and jobs of an execution -/

/-- An outbox row of the task waits for its first dispatch. -/
def Waiting (task : TaskType) (e : ExecId) (h : History) : Prop :=
  ∃ n o, (replay h).outboxRow n = some o ∧ o.executionId = e ∧ o.taskType = task ∧
    ∀ p j, .enqueued p n j ∉ h

/-- A job of the task is queued, or runs and has not decided its claim. -/
def Handed (task : TaskType) (e : ExecId) (h : History) : Prop :=
  ∃ j, j.task = task ∧ j.payload.executionId = e ∧
    (j ∈ queued h ∨ ∃ p, unclaimedJob p h = some j)

theorem queued_cons {j : Job} (hj : j ∈ queued h) (ev : Event) :
    j ∈ queued (ev :: h) ∨ ∃ p, ev = .began p (.job j) := by
  cases ev with
  | began p call =>
    cases call with
    | job j' =>
      by_cases hjj : j = j'
      · subst hjj
        exact .inr ⟨p, rfl⟩
      · exact .inl ((List.mem_erase_of_ne hjj).mpr hj)
    | _ => exact .inl hj
  | enqueued p n j' => exact .inl (List.mem_cons_of_mem _ hj)
  | duplicated j' => exact .inl (List.mem_cons_of_mem _ hj)
  | ended p how =>
    cases how with
    | crashed =>
      left
      simp only [queued]
      split
      · exact List.mem_cons_of_mem _ hj
      · exact hj
    | _ => exact .inl hj
  | _ => exact .inl hj

theorem Waiting.cons {ev : Event} (hw : Waiting task e h) (hl : Legal env h)
    (ha : Allowed env h ev) : Waiting task e (ev :: h) ∨ Handed task e (ev :: h) := by
  obtain ⟨n, o, ho, he, ht, hno⟩ := hw
  by_cases hev : ∃ p j, ev = .enqueued p n j
  · obtain ⟨p, j, rfl⟩ := hev
    obtain ⟨-, o', ho', -, rfl⟩ := ha
    rw [ho] at ho'
    cases ho'
    refine .inr ⟨⟨o.taskType, o.payload⟩, ht, (outbox_rowOf hl ho).payload.trans he, .inl ?_⟩
    exact List.mem_cons_self ..
  · obtain ⟨o', ho', hf⟩ := (Tables.Grows.replay_cons ev h).outboxRow ho
    refine .inl ⟨n, o', ho', hf.executionId.trans he, hf.taskType.trans ht, fun p j hm => ?_⟩
    rcases List.mem_cons.mp hm with rfl | hm
    · exact hev ⟨p, j, rfl⟩
    · exact hno p j hm

/-- A job that raises has decided its claim before. -/
def RaisesAfterClaim (h : History) : Event → Prop
  | .ended p .raised => unclaimedJob p h = none
  | _ => True

instance (h : History) (ev : Event) : Decidable (RaisesAfterClaim h ev) := by
  unfold RaisesAfterClaim
  split <;> infer_instance

/-- The steps of a job before its claim is decided. -/
theorem unclaimed_event {ev : Event} {p : Pid} {j : Job} (ha : Allowed env h ev)
    (ho : own p h = [.began p (.job j)]) (hpid : ev.pid = some p) :
    (∃ time ws, ev = .commit p time ws) ∨
    (∃ u, ev = .unmatched p j.payload.executionId u ∧
      ∀ r, (replay h).execution j.payload.executionId = some r → r.status ≠ j.task.expected) ∨
    ev = .ended p .crashed ∨ ev = .ended p .raised := by
  cases ev with
  | began q call =>
    cases hpid
    rw [ha.1] at ho
    cases ho
  | commit q time ws =>
    cases hpid
    exact .inl ⟨time, ws, rfl⟩
  | unmatched q e' u =>
    cases hpid
    obtain ⟨rfl, hne⟩ := ha j ho
    exact .inr (.inl ⟨u, rfl, hne⟩)
  | attempted q e' n =>
    cases hpid
    obtain ⟨j', time, began, now, -, ho', -⟩ := ha
    rw [ho] at ho'
    simp at ho'
  | posted q e' n sent =>
    cases hpid
    obtain ⟨j', attempts, time, began, now, -, -, ho'⟩ := ha
    rw [ho] at ho'
    simp at ho'
  | enqueued q n j' =>
    cases hpid
    have hcall := ha.1
    rw [callOf_of_own ho] at hcall
    cases hcall
  | duplicated j' => cases hpid
  | ended q how =>
    cases hpid
    cases how with
    | returned reply =>
      obtain ⟨call, hcall, hret⟩ := ha
      rw [callOf_of_own ho] at hcall
      cases hcall
      exact absurd ho (hret.job j rfl)
    | crashed => exact .inr (.inr (.inl rfl))
    | raised => exact .inr (.inr (.inr rfl))

/-- A job stays queued or running until its own first commit. -/
theorem Handed.cons {ev : Event} (hh : Handed task e h) (ha : Allowed env h ev)
    (hc : RaisesAfterClaim h ev)
    (hs : ∃ r, (replay h).execution e = some r ∧ r.status = task.expected) :
    Handed task e (ev :: h) ∨ ∃ p time ws j, ev = .commit p time ws ∧
      own p h = [.began p (.job j)] ∧ j.payload.executionId = e := by
  obtain ⟨j, ht, he, hq | ⟨p, hp⟩⟩ := hh
  · rcases queued_cons hq ev with hq | ⟨p, rfl⟩
    · exact .inl ⟨j, ht, he, .inl hq⟩
    · refine .inl ⟨j, ht, he, .inr ⟨p, unclaimedJob_eq.mpr ?_⟩⟩
      rw [own_cons_of_pid rfl, ha.1]
  · have ho := unclaimedJob_eq.mp hp
    by_cases hpid : ev.pid = some p
    · rcases unclaimed_event ha ho hpid with ⟨time, ws, rfl⟩ | ⟨u, rfl, hne⟩ | rfl | rfl
      · exact .inr ⟨p, time, ws, j, rfl, ho, he⟩
      · obtain ⟨r, hr, hst⟩ := hs
        rw [← he] at hr
        exact absurd (ht ▸ hst) (hne r hr)
      · refine .inl ⟨j, ht, he, .inl ?_⟩
        simp [queued, callOf_of_own ho]
      · have hnone : unclaimedJob p h = none := hc
        rw [hp] at hnone
        cases hnone
    · refine .inl ⟨j, ht, he, .inr ⟨p, ?_⟩⟩
      unfold unclaimedJob at hp ⊢
      rw [own_cons_of_ne hpid]
      exact hp

/-! ## Claimable executions are known to the outbox or to arq -/

/-- A committed INSERT into the outbox is in the tables, under a new key. -/
theorem outboxRow_of_insert {p : Pid} {time : Time} {ws : List Write} {n : OutboxId}
    {o : OutboxRow} (ha : Allowed env h (.commit p time ws)) (hm : .insertOutbox n o ∈ ws) :
    (replay h).outboxRow n = none ∧ (replay (.commit p time ws :: h)).outboxRow n = some o := by
  have hm' : .insertOutbox n o ∈ writesOn (.outbox n) ws := mem_writesOn.mpr ⟨hm, rfl⟩
  have hreplay : replay (.commit p time ws :: h) = schema.applyAll ws (replay h) := rfl
  obtain ⟨⟨call, -, hc⟩, -⟩ := ha
  cases hc.on_outbox n with
  | untouched hw => simp [hw] at hm'
  | inserted o' hw hn _ =>
    simp only [hw, List.mem_singleton, Write.insertOutbox.injEq, true_and] at hm'
    subst hm'
    refine ⟨hn, ?_⟩
    rw [hreplay, Tables.outboxRow_applyAll, hw]
    simp [Tables.outboxRow_apply, hn]
  | marked _ hw =>
    obtain ⟨u, heq, -⟩ := hw _ hm'
    cases heq

/-- Nobody has enqueued a row that is just inserted. -/
theorem waiting_of_insert {p : Pid} {time : Time} {ws : List Write} {n : OutboxId} {o : OutboxRow}
    (hl : Legal env h) (ha : Allowed env h (.commit p time ws)) (hm : .insertOutbox n o ∈ ws) :
    Waiting o.taskType o.executionId (.commit p time ws :: h) := by
  obtain ⟨hn, ho⟩ := outboxRow_of_insert ha hm
  refine ⟨n, o, ho, rfl, rfl, fun q j hq => ?_⟩
  obtain ⟨o', ho', -⟩ := enqueued_sourced hl (List.mem_of_ne_of_mem (by simp) hq)
  rw [hn] at ho'
  cases ho'

/-- A new webhook execution comes with its outbox row. -/
theorem Creates.waiting {p : Pid} {time : Time} {ws : List Write} {call : Call} {row : Execution}
    (hcr : Creates env h ws e call row) (hl : Legal env h) (ha : Allowed env h (.commit p time ws))
    (hw : transportOf (replay h) row.cueId = some .webhook) :
    Waiting .deliver e (.commit p time ws :: h) := by
  cases hcr with
  | fired now began i n? hok hins hws =>
    have ht : i.cue.callbackTransport = .webhook := by
      simpa [transportOf, firedExecution, hok.row] using hw
    obtain ⟨-, -, hiff, -⟩ := hok.fresh e n? hins
    cases n? with
    | none =>
      rw [hiff.mp rfl] at ht
      cases ht
    | some n =>
      have hm := hws (.insertOutbox n (firedOutbox env i.c i.cue e i.scheduledFor began))
        (by simp [BatchItem.writes, hins])
      exact waiting_of_insert hl ha hm
  | triggered _ user c source n cue cue' scheduledFor began scheduledAt metadata _ hcue hf hn =>
    have ht : cue'.callbackTransport = .webhook := by
      simpa [transportOf, triggeredExecution, hcue] using hw
    have hurl := (cue_ok hl hcue).url ht
    rw [hf.callbackTransport] at ht
    rw [hf.callbackUrl] at hurl
    exact waiting_of_insert hl ha (hn ht hurl).2

/-- Every claimable webhook execution waits in the outbox or is with arq. -/
def Known (h : History) : Prop :=
  ∀ e r task, (replay h).execution e = some r →
    transportOfExecution (replay h) e = some .webhook → r.status = task.expected →
    Waiting task e h ∨ Handed task e h

theorem TaskType.expected_inj {t t' : TaskType} (ht : t.expected = t'.expected) : t = t' := by
  cases t <;> cases t' <;> first | rfl | cases ht

theorem TaskType.expected_eq_pending {t : TaskType} (ht : ExecStatus.pending = t.expected) :
    t = .deliver := TaskType.expected_inj (ht.symm : t.expected = TaskType.deliver.expected)

theorem TaskType.expected_eq_retryReady {t : TaskType} (ht : ExecStatus.retryReady = t.expected) :
    t = .retry := TaskType.expected_inj (ht.symm : t.expected = TaskType.retry.expected)

/-- What a claimable execution has is kept by every event but the first commit of
one of its jobs, which writes the execution. -/
theorem Known.kept {ev : Event} {r : Execution} (hk : Known h) (hl : Legal env h)
    (ha : Allowed env h ev) (hc : RaisesAfterClaim h ev) (hr : (replay h).execution e = some r)
    (hw : transportOfExecution (replay h) e = some .webhook) (hs : r.status = task.expected) :
    (Waiting task e (ev :: h) ∨ Handed task e (ev :: h)) ∨ ∃ p time j u,
      ev = .commit p time [.updateExecution e u] ∧ own p h = [.began p (.job j)] := by
  rcases hk e r task hr hw hs with hwait | hhand
  · exact .inl (hwait.cons hl ha)
  · rcases hhand.cons ha hc ⟨r, hr, hs⟩ with hhand | ⟨p, time, ws, j, rfl, ho, rfl⟩
    · exact .inl (.inr hhand)
    · obtain ⟨u, rfl, -⟩ := unclaimed_commit ha ho
      exact .inr ⟨p, time, j, u, rfl, ho⟩

theorem Updates.known {p : Pid} {time : Time} {ws : List Write} {r : Execution} {call : Call}
    {u : ExecUpdate} (hu : Updates env h p time ws e r call u) (hk : Known h) (hl : Legal env h)
    (ha : Allowed env h (.commit p time ws)) (hr : (replay h).execution e = some r)
    (hw : transportOfExecution (replay h) e = some .webhook)
    (hs : (u.set r).status = task.expected) :
    Waiting task e (.commit p time ws :: h) ∨ Handed task e (.commit p time ws :: h) := by
  have kept : r.status = task.expected → (∀ j, own p h ≠ [.began p (.job j)]) →
      Waiting task e (.commit p time ws :: h) ∨ Handed task e (.commit p time ws :: h) := by
    intro hst hjob
    rcases hk.kept hl ha trivial hr hw hst with hgood | ⟨q, t, j, v, heq, ho⟩
    · exact hgood
    · cases heq
      exact absurd ho (hjob j)
  cases hu with
  | claim j began now _ _ _ _ => cases task <;> cases hs
  | limitReached j now _ _ _ => cases task <;> cases hs
  | finished j attempts u _ _ hcomp => cases hcomp <;> cases task <;> cases hs
  | retryReady now began n cue cue' _ _ _ _ _ hm =>
    obtain rfl := TaskType.expected_eq_retryReady hs
    exact .inl (waiting_of_insert hl ha hm)
  | recovered next now _ _ _ => cases task <;> cases hs
  | stuck now _ _ _ => cases task <;> cases hs
  | resetClaim seen now _ hcue hexp =>
    simp only [claimExpired, Bool.and_eq_true, decide_eq_true_eq, ← hcue] at hexp
    rw [transportOfExecution_eq hr, hexp.1.1.2] at hw
    cases hw
  | missed seen now _ _ _ => cases task <;> cases hs
  | workerClaim call endpoint worker began now _ _ _ _ _ => cases task <;> cases hs
  | heartbeat user xWorkerId now _ ho _ =>
    exact kept hs fun j => by simp [ho]
  | outcome user body transport mode now ho _ ht _ =>
    rw [transportOfExecution_eq hr, ht] at hw
    cases hw
    rw [ExecUpdate.outcome_status] at hs
    exact kept hs fun j => by simp [ho]

theorem known_of_raisesAfterClaim (hl : Legal env h) (hc : Along RaisesAfterClaim h) :
    Known h := by
  refine Along.invariant (J := Known) (fun e r task hr => by
    simp [replay, Tables.execution] at hr) ?_ (Along.and hl hc)
  rintro h ev hlh ⟨ha, hraise⟩ ih e r task hr hw hs
  have hl' : Legal env h := hlh.mono fun _ _ hb => hb.1
  have hold : ∀ {r}, (replay h).execution e = some r →
      transportOfExecution (replay h) e = some .webhook := fun hr =>
    (transportOfExecution_grows hl' (List.suffix_cons ev h) hr).symm.trans hw
  cases exec_step ha e with
  | same _ hsame hws =>
    rw [hsame] at hr
    rcases ih.kept hl' ha hraise hr (hold hr) hs with hgood | ⟨p, time, j, u, rfl, -⟩
    · exact hgood
    · simpa [writesOn_cons, Write.target] using hws p time _ rfl
  | created p time ws call row _ _ hrow _ _ hcr =>
    rw [hrow] at hr
    cases hr
    rw [hcr.fresh.status] at hs
    obtain rfl := TaskType.expected_eq_pending hs
    obtain ⟨cue, hcue⟩ := hcr.cue
    have ht : transportOf (replay h) r.cueId = some cue.callbackTransport := by
      simp [transportOf, hcue]
    have hg := (Tables.Grows.replay_cons (.commit p time ws) h).transportOf ht
    rw [transportOfExecution_eq hrow, hg] at hw
    exact .inl (hcr.waiting hl' ha (ht.trans hw))
  | updated p time ws call u r₀ _ hr₀ hrow _ hu =>
    rw [hrow] at hr
    cases hr
    exact hu.known ih hl' ha hr₀ (hold hr₀) hs

/-! ## No webhook execution is stuck -/

/-- The statuses of webhook executions. -/
def deliveryStatus : ExecStatus → Bool
  | .pending | .delivering | .success | .failed | .retrying | .retryReady => true
  | _ => false

/-- A webhook execution has one of the delivery statuses, and `next_retry` when it
is retrying. -/
structure InDelivery (r : Execution) : Prop where
  status : deliveryStatus r.status = true
  nextRetry : r.status = .retrying → r.nextRetry.isSome

theorem Updates.inDelivery {p : Pid} {time : Time} {ws : List Write} {r : Execution}
    {call : Call} {u : ExecUpdate} (hu : Updates env h p time ws e r call u)
    (hw : transportOf (replay h) r.cueId = some .webhook) (hd : InDelivery r) :
    InDelivery (u.set r) := by
  cases hu with
  | claim j began now _ _ _ _ => exact ⟨rfl, by simp [ExecUpdate.set]⟩
  | limitReached j now _ _ _ => exact ⟨rfl, by simp [ExecUpdate.set]⟩
  | finished j attempts u _ _ hcomp => cases hcomp <;> exact ⟨rfl, by simp [ExecUpdate.set]⟩
  | retryReady now began n cue cue' _ _ _ _ _ _ => exact ⟨rfl, by simp [ExecUpdate.set]⟩
  | recovered next now _ _ _ => exact ⟨rfl, by simp [ExecUpdate.set]⟩
  | stuck now _ _ _ => exact ⟨rfl, by simp [ExecUpdate.set]⟩
  | resetClaim seen now _ _ _ => exact ⟨rfl, by simp [ExecUpdate.set]⟩
  | missed seen now _ hcue hexp =>
    simp only [unclaimedSince, Bool.and_eq_true, decide_eq_true_eq, ← hcue] at hexp
    rw [hw] at hexp
    cases hexp.1.1.2
  | workerClaim call endpoint worker began now _ _ _ _ _ => exact ⟨rfl, by simp [ExecUpdate.set]⟩
  | heartbeat user xWorkerId now _ _ _ => exact ⟨hd.status, hd.nextRetry⟩
  | outcome user body transport mode now _ _ ht _ =>
    rw [hw] at ht
    cases ht
    exact ⟨by simpa using hd.status, by simpa using hd.nextRetry⟩

theorem webhook_inDelivery (hl : Legal env h) {r : Execution}
    (hr : (replay h).execution e = some r)
    (hw : transportOfExecution (replay h) e = some .webhook) : InDelivery r := by
  revert e r
  refine Along.invariant (J := fun h => ∀ {e r}, (replay h).execution e = some r →
    transportOfExecution (replay h) e = some .webhook → InDelivery r)
    (fun hr => by simp [replay, Tables.execution] at hr) ?_ hl
  intro h ev hlh ha ih e r hr hw
  cases exec_step ha e with
  | same _ heq _ =>
    rw [heq] at hr
    exact ih hr ((transportOfExecution_grows hlh (List.suffix_cons ev h) hr).symm.trans hw)
  | created p time ws call row _ _ hrow _ _ hcr =>
    rw [hrow] at hr
    cases hr
    exact ⟨by simp [hcr.fresh.status, deliveryStatus], by simp [hcr.fresh.status]⟩
  | updated p time ws call u r₀ _ hr₀ hrow _ hu =>
    rw [hrow] at hr
    cases hr
    have hw₀ := (transportOfExecution_grows hlh (List.suffix_cons _ h) hr₀).symm.trans hw
    exact hu.inDelivery ((transportOfExecution_eq hr₀).symm.trans hw₀) (ih hr₀ hw₀)

/-- Some part of the scheduler will still look at the execution: an undispatched
outbox row, a job of arq, or a sweep at the present or a later time. -/
inductive Covered (env : Env) (s : Sys) (e : ExecId) (r : Execution) : Prop
  | undispatched (n : OutboxId) (o : OutboxRow) : s.shared.tables.outboxRow n = some o →
      o.executionId = e → o.dispatched = false → Covered env s e r
  | queued (j : Job) : j.payload.executionId = e → j ∈ Scheduler.queued s.shared.history →
      Covered env s e r
  | running (j : Job) (p : Pid) : j.payload.executionId = e →
      .began p (.job j) ∈ s.shared.history → (∀ how, .ended p how ∉ s.shared.history) →
      Covered env s e r
  | retry (now : Time) : s.shared.clock ≤ now → retryDue now r = true → Covered env s e r
  | recovery (now : Time) : s.shared.clock ≤ now →
      staleBefore (now - seconds env.settings.executionStaleAfterSeconds) r = true →
      Covered env s e r

def NoneStuck (env : Env) (s : Sys) : Prop :=
  ∀ e r, s.shared.tables.execution e = some r →
    transportOfExecution s.shared.tables e = some .webhook →
    r.status ≠ .success → r.status ≠ .failed → Covered env s e r

/-- A row that is marked dispatched has been enqueued. -/
theorem enqueued_of_dispatched (hl : Legal env h) {n : OutboxId} {o : OutboxRow}
    (ho : (replay h).outboxRow n = some o) (hd : o.dispatched = true) :
    ∃ p j, .enqueued p n j ∈ h := by
  revert n o
  refine Along.invariant (J := fun h => ∀ {n o}, (replay h).outboxRow n = some o →
    o.dispatched = true → ∃ p j, .enqueued p n j ∈ h)
    (fun ho => by simp [replay, Tables.outboxRow] at ho) ?_ hl
  intro h ev _ ha ih n o ho hd
  have later : (∃ p j, .enqueued p n j ∈ h) → ∃ p j, .enqueued p n j ∈ ev :: h := by
    rintro ⟨p, j, hm⟩
    exact ⟨p, j, List.mem_cons_of_mem _ hm⟩
  cases outbox_step ha n with
  | same _ heq => exact later (ih (heq ▸ ho) hd)
  | created p time ws o' _ ho' _ hput =>
    rw [ho'] at ho
    cases ho
    cases hput <;> cases hd
  | marked p time ws o₀ o' ho₀ ho' _ hmark =>
    rw [ho'] at ho
    cases ho
    rcases hmark hd with hd₀ | ⟨j, hm⟩
    · exact later (ih ho₀ hd₀)
    · exact later ⟨p, j, hm⟩

theorem Known.covered {r : Execution} (hr : Reachable env s) (hk : Known s.shared.history)
    (he : (replay s.shared.history).execution e = some r)
    (hw : transportOfExecution (replay s.shared.history) e = some .webhook)
    (hs : r.status = task.expected) : Covered env s e r := by
  rcases hk e r task he hw hs with ⟨n, o, ho, heq, -, hno⟩ | ⟨j, -, heq, hq | ⟨p, hp⟩⟩
  · refine .undispatched n o (by rw [hr.tables_eq]; exact ho) heq ?_
    by_contra hd
    obtain ⟨p, j, hm⟩ := enqueued_of_dispatched hr.legal ho (by simpa using hd)
    exact hno p j hm
  · exact .queued j heq hq
  · have ho := unclaimedJob_eq.mp hp
    refine .running j p heq (began_mem_of_own ho) fun how hm => ?_
    have hm' : .ended p how ∈ own p s.shared.history := (mem_own rfl).mpr hm
    rw [ho] at hm'
    simp at hm'

/-- In every run in which no job raises before its claim is decided, no webhook
execution is stuck. -/
theorem none_stuck (hr : Reachable env s) (hc : Along RaisesAfterClaim s.shared.history) :
    NoneStuck env s := by
  intro e r he hw hsucc hfail
  rw [hr.tables_eq] at he hw
  have hk := known_of_raisesAfterClaim hr.legal hc
  have hd := webhook_inDelivery hr.legal he hw
  cases hst : r.status with
  | pending => exact hk.covered hr he hw (show r.status = TaskType.deliver.expected from hst)
  | retryReady => exact hk.covered hr he hw (show r.status = TaskType.retry.expected from hst)
  | delivering =>
    refine .recovery (max s.shared.clock (r.updatedAt +
      seconds env.settings.executionStaleAfterSeconds + 1)) (Int.le_max_left ..) ?_
    simp only [staleBefore, hst, decide_true, Bool.true_and, decide_eq_true_eq]
    unfold Time
    omega
  | retrying =>
    obtain ⟨next, hnext⟩ := Option.isSome_iff_exists.mp (hd.nextRetry hst)
    refine .retry (max s.shared.clock next) (Int.le_max_left ..) ?_
    simp only [retryDue, hst, hnext, dueBy, decide_true, Bool.true_and, decide_eq_true_eq]
    exact Int.le_max_right ..
  | success => exact absurd hst hsucc
  | failed => exact absurd hst hfail
  | missed => exact absurd hd.status (by simp [hst, deliveryStatus])
  | pendingOutcome => exact absurd hd.status (by simp [hst, deliveryStatus])
  | outcomeTimeout => exact absurd hd.status (by simp [hst, deliveryStatus])

/-! ## A job that raises -/

def webhookCue : CueCreate where
  name := "ping"
  schedule := { type := some .once, at? := some ⟨1000000, true⟩ }
  callbackUrl := some "https://example.com/hook"
  transport := .webhook

/-- A webhook cue with its one execution, at two seconds. -/
def fireWebhookCue (data : CueCreate) : List Action :=
  playAll 1 (.createCue 1 data) (gos 4 ++ [.fresh 7, .go]) ++ [.tick 2000000] ++
  playAll 2 .processCueBatch (gos 2 ++ [.rows [7], .fresh 1, .go, .fresh 1] ++ gos 2)

def dispatchRowOf (p : Pid) (n : OutboxId) : List Action :=
  playAll p .dispatchOutbox ([.go, .rows [n]] ++ gos 3)

/-- The delivery job of that execution. -/
def firedJob (data : CueCreate) : Job :=
  ⟨.deliver, (firedOutbox plainEnv 7 (cueRow 1 data 1000000 0) 1 1000000 2000000).payload⟩

/-- The execution is pending, everything is dispatched, and arq has no job. -/
def forgotten (s : Sys) (e : ExecId) : Bool :=
  (s.shared.tables.execution e).any (fun r => r.status = .pending) &&
  transportOfExecution s.shared.tables e = some .webhook &&
  keysWhere s.shared.tables.outbox (fun _ o => !o.dispatched) = [] &&
  (Scheduler.queued s.shared.history).isEmpty &&
  s.shared.history.all fun ev => match ev with
    | .began p (.job _) => (endings s.shared.history).any fun q => q.1 = p
    | _ => true

theorem stuck_of_forgotten (hf : forgotten s e = true) : ¬ NoneStuck env s := by
  intro hn
  simp only [forgotten, Bool.and_eq_true, Option.any_eq_true, decide_eq_true_eq] at hf
  obtain ⟨⟨⟨⟨⟨r, hr, hs⟩, hw⟩, hrows⟩, hqueue⟩, hjobs⟩ := hf
  cases hn e r hr hw (by simp [hs]) (by simp [hs]) with
  | undispatched n o ho _ hd =>
    have hm : n ∈ keysWhere s.shared.tables.outbox fun _ o => !o.dispatched :=
      (mem_keysWhere _ _ n).mpr ⟨o, ho, by simp [hd]⟩
    rw [hrows] at hm
    cases hm
  | queued j _ hj =>
    rw [List.isEmpty_iff.mp hqueue] at hj
    cases hj
  | running j p _ hb hno =>
    obtain ⟨⟨q, how⟩, hm, hq⟩ := List.any_eq_true.mp (List.all_eq_true.mp hjobs _ hb)
    rw [decide_eq_true_eq] at hq
    exact hno how (hq ▸ mem_endings.mp hm)
  | retry now _ hdue => simp [retryDue, hs] at hdue
  | recovery now _ hstale => simp [staleBefore, hs] at hstale

/-- A job that raises before its claim loses the execution. -/
theorem execution_stuck : ∃ s, Reachable plainEnv s ∧ ¬ NoneStuck plainEnv s := by
  obtain ⟨s, hs, hv⟩ := reachable_of_run plainEnv 0
    (fireWebhookCue webhookCue ++ dispatchRowOf 3 1 ++
      [.start 4 (.job (firedJob webhookCue)), .raise 4])
    (fun s => forgotten s 1) true (by decide +kernel)
  exact ⟨s, hs, stuck_of_forgotten hv⟩

/-- A worker that dies is no loss: the job is queued again. -/
theorem none_stuck_crashed : ∃ s, Reachable plainEnv s ∧
    .ended 4 .crashed ∈ s.shared.history ∧ NoneStuck plainEnv s := by
  obtain ⟨s, hs, hv⟩ := reachable_of_run plainEnv 0
    (fireWebhookCue webhookCue ++ dispatchRowOf 3 1 ++
      [.start 4 (.job (firedJob webhookCue)), .crash 4])
    (fun s => (decide ((4, .crashed) ∈ endings s.shared.history),
      decide (Along RaisesAfterClaim s.shared.history))) (true, true) (by decide +kernel)
  simp only [Prod.mk.injEq, decide_eq_true_eq] at hv
  exact ⟨s, hs, mem_endings.mp hv.1, none_stuck hs hv.2⟩

end CueApi.Scheduler
