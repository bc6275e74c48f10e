import CueApi.Scheduler.Cues
import CueApi.Scheduler.Transport

/-! Outcomes are written once: the row lock that `record_outcome` takes with its
first SELECT is held until its commit, so its test of `outcome_recorded_at` is
still true when it writes. -/

namespace CueApi.Scheduler

open ReadCommitted Interleaving Trace

variable {env : Env} {h : History} {s : Sys} {e : ExecId} {c : CueId}

/-! ## One outcome for an execution -/

/-- The transaction records an outcome of `e`. -/
def Records (e : ExecId) (ws : List Write) : Prop :=
  ∃ transport mode body now, .updateExecution e (.outcome transport mode body now) ∈ ws

/-- `record_outcome` meets an execution without an outcome and leaves it one. -/
theorem Records.step {p : Pid} {time : Time} {ws : List Write}
    (ha : Allowed env h (.commit p time ws)) (hrec : Records e ws) :
    (∃ r, (replay h).execution e = some r ∧ r.outcomeRecordedAt = none) ∧
    ∃ r, (replay (.commit p time ws :: h)).execution e = some r ∧ r.outcomeRecordedAt ≠ none := by
  obtain ⟨transport, mode, body, now, hm⟩ := hrec
  obtain ⟨call, r, -, hr, hrow, hu⟩ := updates_of_mem ha hm
  refine ⟨⟨r, hr, ?_⟩, _, hrow, by simp⟩
  cases hu with
  | outcome user _ _ _ _ _ hnone _ _ => exact hnone
  | finished j attempts _ _ _ hcomp => cases hcomp

/-- The outcome columns of a recorded execution stay as they are. -/
theorem outcomeColumns_kept (hl : Legal env h) {h₀ : History} (hs : h₀ <:+ h) {r₀ : Execution}
    (hr₀ : (replay h₀).execution e = some r₀) (hrec : r₀.outcomeRecordedAt ≠ none) :
    ∃ r, (replay h).execution e = some r ∧ r.outcomeColumns = r₀.outcomeColumns := by
  refine Along.invariant_from (J := fun h => ∃ r, (replay h).execution e = some r ∧
    r.outcomeColumns = r₀.outcomeColumns) ⟨r₀, hr₀, rfl⟩ ?_ hs hl
  rintro h ev - - ha ⟨r, hr, hcol⟩
  have hat : r.outcomeRecordedAt = r₀.outcomeRecordedAt := by
    simp only [Execution.outcomeColumns, Prod.mk.injEq] at hcol
    exact hcol.2.2.2.2
  rcases exec_kept_or_updated ha hr with hsame | ⟨p, time, ws, call, u, rfl, -, -, hrow, hu⟩
  · exact ⟨r, hsame, hcol⟩
  · refine ⟨_, hrow, (ExecUpdate.outcomeColumns_set r ?_).trans hcol⟩
    rintro transport mode body now rfl
    cases hu with
    | outcome user _ _ _ _ _ hnone _ _ => exact hrec (hat.symm.trans hnone)
    | finished j attempts _ _ _ hcomp => cases hcomp

/-- Two transactions that record an outcome of `e` are one. -/
theorem records_once (hl : Legal env h) {p q : Pid} {time time' : Time} {ws ws' : List Write}
    (hp : .commit p time ws ∈ h) (hq : .commit q time' ws' ∈ h) (hrp : Records e ws)
    (hrq : Records e ws') : p = q := by
  -- a recorded outcome leaves no room for a second one
  have later : ∀ {p q time time' ws ws' h₁ h₂}, .commit q time' ws' :: h₂ <:+ h →
      .commit p time ws :: h₁ <:+ h₂ → Records e ws → Records e ws' → False := by
    intro p q time time' ws ws' h₁ h₂ hs hs' hrp hrq
    have hl₂ := Along.suffix hl ((List.suffix_cons _ h₂).trans hs)
    obtain ⟨-, r, hr, hrec⟩ := hrp.step (Along.at hl₂ hs')
    obtain ⟨⟨r', hr', hnone⟩, -⟩ := hrq.step (Along.at hl hs)
    obtain ⟨r'', hr'', hcol⟩ := outcomeColumns_kept hl₂ hs' hr hrec
    rw [hr'] at hr''
    cases hr''
    simp only [Execution.outcomeColumns, Prod.mk.injEq] at hcol
    exact hrec (hcol.2.2.2.2.symm.trans hnone)
  obtain ⟨h₁, hs₁⟩ := mem_split hp
  obtain ⟨h₂, hs₂⟩ := mem_split hq
  rcases suffix_cases hs₁ hs₂ with heq | hsuf | hsuf
  · cases heq
    rfl
  · exact (later hs₂ hsuf hrp hrq).elim
  · exact (later hs₁ hsuf hrq hrp).elim

/-! ## The replies of `record_outcome` -/

theorem outcome_reply (hl : Legal env h) {p : Pid} {user : UserId} {body : OutcomeRequest}
    {state : OutcomeState} (hb : .began p (.recordOutcome user e body) ∈ h)
    (hm : .ended p (.returned (.outcome state)) ∈ h) :
    ∃ time ws, .commit p time ws ∈ h ∧ Records e ws := by
  obtain ⟨h', hs⟩ := mem_split hm
  obtain ⟨call, hcall, hret⟩ := Along.at hl hs
  have hs' := (List.suffix_cons _ h').trans hs
  have heq := (callOf_later hl hs' hcall).symm.trans (callOf_of_began hl hb)
  cases heq
  rcases hret.outcome user e body rfl with ⟨error, herr, -⟩ |
    ⟨state', time, ws, transport, mode, now, -, hc, hu⟩
  · cases herr
  · exact ⟨time, ws, hs'.mem hc, transport, mode, body, now, hu⟩

/-- A call that returns an error has written nothing, and writes nothing later. -/
theorem error_reply (hl : Legal env h) {p : Pid} {user : UserId} {body : OutcomeRequest}
    {error : ApiError} (hb : .began p (.recordOutcome user e body) ∈ h)
    (hm : .ended p (.returned (.error error)) ∈ h) {time : Time} {ws : List Write}
    (hc : .commit p time ws ∈ h) : ws = [] := by
  obtain ⟨h', hs⟩ := mem_split hm
  obtain ⟨call, hcall, hret⟩ := Along.at hl hs
  have hs' := (List.suffix_cons _ h').trans hs
  have heq := (callOf_later hl hs' hcall).symm.trans (callOf_of_began hl hb)
  cases heq
  have hown : own p h' = [.began p (.recordOutcome user e body)] := by
    rcases hret.outcome user e body rfl with ⟨_, _, ho⟩ | ⟨_, _, _, _, _, _, hrep, _⟩
    · exact ho
    · cases hrep
  obtain ⟨h₂, hs₂⟩ := mem_split hc
  obtain ⟨⟨call, hcall₂, hcm⟩, -⟩ := Along.at hl hs₂
  have hs₂' := (List.suffix_cons _ h₂).trans hs₂
  have heq := (callOf_later hl hs₂' hcall₂).symm.trans (callOf_of_began hl hb)
  cases heq
  cases hcm with
  | nothing _ _ => rfl
  | triggered _ user' c source e' n cue cue' s began scheduledAt metadata ht _ _ _ _ _ => cases ht
  | escalated _ c now hesc => cases hesc
  | workerClaimed _ endpoint worker e' r began now hfor _ _ _ _ => cases hfor
  | outcome _ _ _ r cue cue' mode now ho _ _ _ _ =>
    -- the commit would lie before the reply, where the process has not committed
    exfalso
    rcases suffix_cases hs hs₂ with heq | hsuf | hsuf
    · cases heq
    · have hmem : .ended p (.returned (.error error)) ∈ own p h₂ :=
        (mem_own rfl).mpr (hsuf.mem (List.mem_cons_self ..))
      rw [ho] at hmem
      simp at hmem
    · have hmem := (mem_own (p := p) rfl).mpr (hsuf.mem (List.mem_cons_self ..))
      rw [hown] at hmem
      simp at hmem

/-! ## Runs are counted once -/

/-- The executions of `c` with a recorded outcome. -/
def recordedOf (c : CueId) (t : Tables) : List ExecId :=
  keysWhere t.executions fun _ r => r.cueId = c && r.outcomeRecordedAt.isSome

theorem mem_recordedOf {t : Tables} : e ∈ recordedOf c t ↔
    ∃ r, t.execution e = some r ∧ r.cueId = c ∧ r.outcomeRecordedAt ≠ none := by
  simp [recordedOf, mem_keysWhere, Tables.execution, Option.isSome_iff_ne_none]

theorem recordedOf_nodup (c : CueId) (t : Tables) : (recordedOf c t).Nodup :=
  (List.filter_sublist.map Sigma.fst).nodup t.executions.nodupKeys

/-- How often delivery jobs have counted a run of `c`. -/
def Write.jobRuns (c : CueId) : Write → Nat
  | .updateCue c' (.incrementRun _) => if c' = c then 1 else 0
  | _ => 0

def Event.jobRuns (c : CueId) : Event → Nat
  | .commit _ _ ws => (ws.map (Write.jobRuns c)).sum
  | _ => 0

def jobRuns (c : CueId) (h : History) : Nat := (h.map (Event.jobRuns c)).sum

/-- The write counts a run or records an outcome. -/
def Write.counts : Write → Bool
  | .updateCue _ (.incrementRun _) | .updateCue _ (.outcomeRun _) => true
  | .updateExecution _ (.outcome _ _ _ _) => true
  | _ => false

theorem Write.runs_of_not_counts {w : Write} (hw : w.counts = false) (c : CueId) :
    w.runs c = 0 ∧ w.jobRuns c = 0 := by
  cases w with
  | updateCue c' u =>
    cases u with
    | incrementRun began => cases hw
    | outcomeRun now => cases hw
    | _ => simp [Write.runs, Write.jobRuns, CueUpdate.runs]
  | _ => exact ⟨rfl, rfl⟩

theorem runs_of_not_counts {ws : List Write} (hws : ∀ w ∈ ws, w.counts = false) (c : CueId) :
    runsOn c ws = 0 ∧ (ws.map (Write.jobRuns c)).sum = 0 := by
  unfold runsOn
  induction ws with
  | nil => exact ⟨rfl, rfl⟩
  | cons w ws ih =>
    obtain ⟨h1, h2⟩ := Write.runs_of_not_counts (hws w (by simp)) c
    obtain ⟨ih1, ih2⟩ := ih fun w' hw' => hws w' (by simp [hw'])
    simp [h1, h2, ih1, ih2]

theorem not_records_of_not_counts {ws : List Write} (hws : ∀ w ∈ ws, w.counts = false)
    (e : ExecId) : ¬ Records e ws := by
  rintro ⟨transport, mode, body, now, hm⟩
  cases hws _ hm

/-- A transaction counts runs for a job, for the outcome of a worker execution, or
not at all. -/
inductive Counts (env : Env) (h : History) (p : Pid) (ws : List Write) : Prop
  | silent : (∀ w ∈ ws, w.counts = false) → Counts env h p ws
  | job (j : Job) : .began p (.job j) ∈ h → (∀ e, ¬ Records e ws) →
      (∀ c, runsOn c ws = if j.payload.cueId = c then 1 else 0) →
      (∀ c, (ws.map (Write.jobRuns c)).sum = runsOn c ws) → Counts env h p ws
  | outcome (e : ExecId) (r : Execution) : (replay h).execution e = some r →
      (∀ e', Records e' ws ↔ e' = e) → (∀ c, (ws.map (Write.jobRuns c)).sum = 0) →
      (∀ c, runsOn c ws = if r.cueId = c ∧ transportOf (replay h) c = some .worker then 1 else 0) →
      Counts env h p ws

/-- A loop that counts nothing. -/
theorem Counts.loop {α : Type} {p : Pid} {items : List α} {f : α → List Write}
    (hf : ∀ i ∈ items, ∀ w ∈ f i, w.counts = false) : Counts env h p (items.flatMap f) := by
  refine .silent fun w hw => ?_
  obtain ⟨i, hi, hw⟩ := List.mem_flatMap.mp hw
  exact hf i hi w hw

theorem BatchItem.not_counts (now began : Time) (i : BatchItem) :
    ∀ w ∈ i.writes env now began, w.counts = false := by
  obtain ⟨c, cue, s, inserted, next⟩ := i
  rcases inserted with _ | ⟨e, _ | n⟩ <;> simp [BatchItem.writes, Write.counts]

theorem RecoverItem.not_counts (now : Time) (i : RecoverItem) :
    ∀ w ∈ i.writes env now, w.counts = false := by
  obtain ⟨e, r, next, once⟩ := i
  cases next <;> cases once <;> simp [RecoverItem.writes, Write.counts]

theorem SweepItem.not_counts (now : Time) (i : SweepItem) :
    (∀ w ∈ i.resetWrites now, w.counts = false) ∧ ∀ w ∈ i.missWrites now, w.counts = false := by
  obtain ⟨e, seen, once⟩ := i
  cases once <;> simp [SweepItem.resetWrites, SweepItem.missWrites, Write.counts]

theorem CueTail.not_counts {c' : CueId} {tail : List Write} (ht : CueTail c' tail) :
    ∀ w ∈ tail, w.counts = false := by
  cases ht <;> simp [Write.counts]

theorem Commits.counts {p : Pid} {time : Time} {call : Call} {ws : List Write}
    (hc : Commits env h p time call ws) : Counts env h p ws := by
  cases hc with
  | triggered _ user c source e n cue cue' s began scheduledAt metadata _ _ _ _ _ _ =>
    refine .silent fun w hw => ?_
    rw [List.mem_append, List.mem_singleton] at hw
    rcases hw with hw | rfl
    · split at hw
      · rw [List.mem_singleton] at hw
        subst hw
        rfl
      · cases hw
    · rfl
  | batch now began items _ _ _ _ _ => exact .loop fun i _ => i.not_counts now began
  | retries now began items _ _ _ _ =>
    exact .loop fun i _ => by simp [RetryItem.writes, Write.counts]
  | dispatched rows _ =>
    refine .silent fun w hw => ?_
    obtain ⟨x, -, rfl⟩ := List.mem_map.mp hw
    rfl
  | recovered now items _ _ _ => exact .loop fun i _ => i.not_counts now
  | reset now items _ _ _ => exact .loop fun i _ => (i.not_counts now).1
  | missed now items _ _ _ => exact .loop fun i _ => (i.not_counts now).2
  | finished j r attempts u tail began hans _ hcomp htail =>
    have htail' := htail.not_counts
    obtain ⟨hruns, hjobs⟩ := runs_of_not_counts htail' j.payload.cueId
    refine .job j hans.began_mem ?_ (fun c => ?_) fun c => ?_
    · rintro e ⟨transport, mode, body, now, hm⟩
      simp only [List.mem_append, List.mem_cons, Write.updateExecution.injEq, reduceCtorEq,
        List.not_mem_nil, or_false] at hm
      rcases hm with hm | ⟨-, rfl⟩
      · cases htail' _ hm
      · cases hcomp
    · have hzero := (runs_of_not_counts htail' c).1
      unfold runsOn at hzero ⊢
      simp [hzero, Write.runs, CueUpdate.runs]
    · have hzero := runs_of_not_counts htail' c
      unfold runsOn at hzero ⊢
      simp [hzero.1, hzero.2, Write.runs, Write.jobRuns, CueUpdate.runs]
  | outcome user e body r cue cue' mode now _ hr _ hcue hf =>
    have ht : transportOf (replay h) r.cueId = some cue.callbackTransport := by
      simp [transportOf, hcue, hf.callbackTransport]
    refine .outcome e r hr (fun e' => ?_) (fun c => ?_) fun c => ?_
    · constructor
      · rintro ⟨transport, mode', body', now', hm⟩
        simp only [List.mem_append, List.mem_singleton, Write.updateExecution.injEq] at hm
        rcases hm with (hm | hm) | hm
        · split at hm <;> simp at hm
        · split at hm <;> simp at hm
        · exact hm.1
      · rintro rfl
        exact ⟨cue.callbackTransport, mode, body, now, by simp⟩
    · cases htr : cue.callbackTransport <;> cases hsc : cue.scheduleType <;>
        simp [Write.jobRuns]
    · by_cases hcc : r.cueId = c
      · subst hcc
        cases htr : cue.callbackTransport <;> cases hsc : cue.scheduleType <;>
          simp [runsOn, Write.runs, CueUpdate.runs, ht, htr]
      · cases htr : cue.callbackTransport <;> cases hsc : cue.scheduleType <;>
          simp [runsOn, Write.runs, hcc]
  | _ => exact .silent (by simp [Write.counts])

/-- Only an outcome makes an execution recorded. -/
theorem mem_recordedOf_cons {p : Pid} {time : Time} {ws : List Write}
    (ha : Allowed env h (.commit p time ws)) (hno : ¬ Records e ws) :
    e ∈ recordedOf c (replay (.commit p time ws :: h)) ↔ e ∈ recordedOf c (replay h) := by
  simp only [mem_recordedOf]
  cases exec_step ha e with
  | same _ heq _ => rw [heq]
  | created _ _ _ call row _ hnone hrow _ _ hcr =>
    rw [hrow, hnone]
    simp [hcr.fresh.outcomeRecordedAt]
  | updated _ _ _ call u r _ hr hrow hws _ =>
    have hcol := ExecUpdate.outcomeColumns_set (u := u) r (by
      rintro transport mode body now rfl
      exact hno ⟨transport, mode, body, now, mem_of_writesOn_eq hws⟩)
    simp only [Execution.outcomeColumns, Prod.mk.injEq] at hcol
    rw [hrow, hr]
    simp [hcol.2.2.2.2]

theorem recordedOf_same {p : Pid} {time : Time} {ws : List Write}
    (ha : Allowed env h (.commit p time ws)) (hno : ∀ e, ¬ Records e ws) (c : CueId) :
    (recordedOf c (replay (.commit p time ws :: h))).length = (recordedOf c (replay h)).length :=
  ((List.perm_ext_iff_of_nodup (recordedOf_nodup c _) (recordedOf_nodup c _)).mpr fun e =>
    mem_recordedOf_cons ha (hno e)).length_eq

/-- The outcome of `e` adds `e` to the recorded executions of its cue. -/
theorem recordedOf_outcome {p : Pid} {time : Time} {ws : List Write} {r : Execution}
    (ha : Allowed env h (.commit p time ws)) (hr : (replay h).execution e = some r)
    (hrec : ∀ e', Records e' ws ↔ e' = e) (c : CueId) :
    (recordedOf c (replay (.commit p time ws :: h))).length =
      (recordedOf c (replay h)).length + if r.cueId = c then 1 else 0 := by
  obtain ⟨⟨r₀, hr₀, hnone⟩, r', hr', hsome⟩ := Records.step ha ((hrec e).mpr rfl)
  obtain ⟨r'', hr'', hfix⟩ := (Tables.Grows.replay_cons (.commit p time ws) h).execution hr
  rw [hr'] at hr''
  cases hr''
  rw [hr] at hr₀
  cases hr₀
  have hold : e ∉ recordedOf c (replay h) := by
    rw [mem_recordedOf]
    rintro ⟨r₁, hr₁, -, hrec₁⟩
    rw [hr] at hr₁
    cases hr₁
    exact hrec₁ hnone
  have hother : ∀ x, x ≠ e → (x ∈ recordedOf c (replay (.commit p time ws :: h)) ↔
      x ∈ recordedOf c (replay h)) := fun x hx => mem_recordedOf_cons ha fun h => hx ((hrec x).mp h)
  have hself : e ∈ recordedOf c (replay (.commit p time ws :: h)) ↔ r.cueId = c := by
    rw [mem_recordedOf, hr']
    simp [hsome, hfix.cueId]
  by_cases hc : r.cueId = c
  · rw [if_pos hc, ← List.length_cons (a := e)]
    refine ((List.perm_ext_iff_of_nodup (recordedOf_nodup c _)
      (List.nodup_cons.mpr ⟨hold, recordedOf_nodup c _⟩)).mpr fun x => ?_).length_eq
    by_cases hx : x = e
    · subst hx
      simp [hself, hc]
    · simp [hother x hx, hx]
  · rw [if_neg hc, Nat.add_zero]
    refine ((List.perm_ext_iff_of_nodup (recordedOf_nodup c _)
      (recordedOf_nodup c _)).mpr fun x => ?_).length_eq
    by_cases hx : x = e
    · subst hx
      simp [hself, hc, hold]
    · exact hother x hx

/-- The cue and the execution of a job are there. -/
theorem job_cue (hl : Legal env h) {p : Pid} {j : Job} (hj : .began p (.job j) ∈ h) :
    ∃ r cue, (replay h).execution j.payload.executionId = some r ∧
      r.cueId = j.payload.cueId ∧ (replay h).cue j.payload.cueId = some cue := by
  obtain ⟨n, o, ho, rfl⟩ := (jobs_sourced hl).2 p j hj
  have hrow := outbox_rowOf hl ho
  obtain ⟨r, cue, hr, hcue, hid, -⟩ := hrow.execution
  refine ⟨r, cue, ?_, hid.symm, hid ▸ hcue⟩
  rw [← hrow.payload] at hr
  exact hr

theorem jobRuns_cons (ev : Event) : jobRuns c (ev :: h) = ev.jobRuns c + jobRuns c h := by
  simp [jobRuns]

/-- An event counts a job's run of `c` only where a job of `c` has begun. -/
theorem Allowed.jobRuns_eq_zero {ev : Event} (ha : Allowed env h ev)
    (hno : ∀ p j, .began p (.job j) ∈ h → j.payload.cueId ≠ c) : ev.jobRuns c = 0 := by
  cases ev with
  | commit p time ws =>
    obtain ⟨⟨call, -, hcm⟩, -⟩ := ha
    cases hcm.counts with
    | silent hws => exact (runs_of_not_counts hws c).2
    | job j hj _ hruns hjobs => simp [Event.jobRuns, hjobs c, hruns c, hno p j hj]
    | outcome e r _ _ hjobs _ => exact hjobs c
  | _ => rfl

/-- No job has run for a cue that is not there. -/
theorem jobRuns_absent (hl : Legal env h) (hn : (replay h).cue c = none) : jobRuns c h = 0 := by
  revert hn
  refine Along.invariant (J := fun h => (replay h).cue c = none → jobRuns c h = 0)
    (fun _ => rfl) ?_ hl
  intro h ev hlh ha ih hn
  have hn₀ := (Tables.Grows.replay_cons ev h).cue_none hn
  rw [jobRuns_cons, ih hn₀]
  refine ha.jobRuns_eq_zero ?_
  rintro p j hj rfl
  obtain ⟨r, cue, -, -, hcue⟩ := job_cue hlh hj
  rw [hn₀] at hcue
  cases hcue

/-- What a commit adds to the recorded executions and to the runs of jobs. -/
theorem recorded_jobRuns_cons {p : Pid} {time : Time} {ws : List Write} {cue : Cue}
    (ha : Allowed env h (.commit p time ws)) (hc : (replay h).cue c = some cue)
    (hw : cue.callbackTransport = .worker) :
    (recordedOf c (replay (.commit p time ws :: h))).length + jobRuns c (.commit p time ws :: h) =
      (recordedOf c (replay h)).length + jobRuns c h + runsOn c ws := by
  have hj : (Event.commit p time ws).jobRuns c = (ws.map (Write.jobRuns c)).sum := rfl
  rw [jobRuns_cons, hj]
  obtain ⟨⟨call, -, hcm⟩, -⟩ := id ha
  cases hcm.counts with
  | silent hws =>
    obtain ⟨h1, h2⟩ := runs_of_not_counts hws c
    rw [recordedOf_same ha (not_records_of_not_counts hws), h1, h2]
    omega
  | job j _ hno _ hjobs =>
    rw [recordedOf_same ha hno, hjobs c]
    omega
  | outcome e r hr hrec hjobs hruns =>
    have ht : transportOf (replay h) c = some .worker := by simp [transportOf, hc, hw]
    rw [recordedOf_outcome ha hr hrec, hjobs c, hruns c]
    simp only [ht, and_true]
    omega

theorem recordedOf_absent (hl : Legal env h) (hn : (replay h).cue c = none) :
    recordedOf c (replay h) = [] := by
  refine List.eq_nil_iff_forall_not_mem.mpr fun e he => ?_
  obtain ⟨r, hr, rfl, -⟩ := mem_recordedOf.mp he
  obtain ⟨cue, hcue⟩ := cue_of_execution hl hr
  rw [hn] at hcue
  cases hcue

/-- `run_count` of a worker cue: one for each recorded outcome, and what delivery
jobs have added. -/
theorem runCount_eq (hl : Legal env h) {cue : Cue} (hc : (replay h).cue c = some cue)
    (hw : cue.callbackTransport = .worker) :
    cue.runCount = (recordedOf c (replay h)).length + jobRuns c h := by
  revert cue
  refine Along.invariant (J := fun h => ∀ {cue}, (replay h).cue c = some cue →
    cue.callbackTransport = .worker → cue.runCount = (recordedOf c (replay h)).length + jobRuns c h)
    (fun hc => by simp [replay, Tables.cue] at hc) ?_ hl
  intro h ev hlh ha ih cue hc hw
  cases cue_step ha c with
  | silent _ hsil =>
    have hsame := replay_silent (h := h) hsil
    rw [hsame] at hc ⊢
    rw [ih hc hw, jobRuns_cons]
    cases ev with
    | commit p time ws => exact absurd rfl (hsil p time ws)
    | _ => simp [Event.jobRuns]
  | absent p time ws _ hn =>
    rw [hn] at hc
    cases hc
  | created p time user data nextRun began now hn _ =>
    rw [replay_insertCue hn] at hc
    cases hc
    have hno : ∀ w ∈ [Write.insertCue c (cueRow user data nextRun began)], w.counts = false := by
      simp [Write.counts]
    rw [recordedOf_same ha (not_records_of_not_counts hno), recordedOf_absent hlh hn,
      jobRuns_cons, jobRuns_absent hlh hn]
    rfl
  | fired p time ws now began i cue' hok hic _ hc' hf _ hrun _ hzero =>
    rw [hc'] at hc
    cases hc
    rw [hf.callbackTransport] at hw
    have hrow : (replay h).cue c = some i.cue := hic ▸ hok.row
    rw [recorded_jobRuns_cons ha hrow hw, hrun, ih hrow hw, hzero]
    rfl
  | quiet p time ws cue₀ cue' hc₀ hc' hq _ =>
    rw [hc'] at hc
    cases hc
    rw [hq.fixed.callbackTransport] at hw
    rw [recorded_jobRuns_cons ha hc₀ hw, hq.runCount, ih hc₀ hw]

/-- Where the stale sweep leaves worker executions alone, no job counts a run of a
worker cue. -/
theorem jobRuns_spared (hl : Legal env h) (hspare : Along SparesWorkers h)
    (hw : transportOf (replay h) c = some .worker) : jobRuns c h = 0 := by
  revert hw
  refine Along.invariant (J := fun h => transportOf (replay h) c = some .worker →
    jobRuns c h = 0) (fun _ => rfl) ?_ (Along.and hl hspare)
  rintro h ev hlh ⟨ha, -⟩ ih hw
  have hl' : Legal env h := hlh.mono fun _ _ hb => hb.1
  have hp : Pulled h := pulled_of_spares hl' (hlh.mono fun _ _ hb => hb.2)
  have hg := Tables.Grows.replay_cons ev h
  have hold : jobRuns c h = 0 := by
    cases hc : (replay h).cue c with
    | none => exact jobRuns_absent hl' hc
    | some cue =>
      have ht : transportOf (replay h) c = some cue.callbackTransport := by simp [transportOf, hc]
      exact ih (by rw [ht, ← hg.transportOf ht, hw])
  rw [jobRuns_cons, hold]
  refine ha.jobRuns_eq_zero ?_
  rintro p j hj rfl
  obtain ⟨r, cue, hr, hid, hcue⟩ := job_cue hl' hj
  have ht : transportOf (replay h) j.payload.cueId = some cue.callbackTransport := by
    simp [transportOf, hcue]
  have hworker := (transportOfExecution_eq hr).trans (hid ▸ ht)
  rw [← hg.transportOf ht, hw] at hworker
  exact hp.no_job hl' hworker hj rfl

/-- The outcome of a worker execution counts one run of its cue. -/
theorem Records.counts_run {p : Pid} {time : Time} {ws : List Write} {r : Execution} {cue : Cue}
    (hrec : Records e ws) (ha : Allowed env h (.commit p time ws))
    (hr : (replay h).execution e = some r) (hc : (replay h).cue r.cueId = some cue)
    (hw : cue.callbackTransport = .worker) :
    ∃ cue', (replay (.commit p time ws :: h)).cue r.cueId = some cue' ∧
      cue'.runCount = cue.runCount + 1 := by
  have hone : runsOn r.cueId ws = 1 := by
    obtain ⟨⟨call, -, hcm⟩, -⟩ := id ha
    cases hcm.counts with
    | silent hws => exact absurd hrec (not_records_of_not_counts hws e)
    | job j _ hno _ _ => exact absurd hrec (hno e)
    | outcome e' r' hr' hiff _ hruns =>
      obtain rfl := (hiff e).mp hrec
      rw [hr] at hr'
      cases hr'
      simp [hruns, transportOf, hc, hw]
  cases cue_step ha r.cueId with
  | silent _ hsil => exact absurd rfl (hsil p time ws)
  | absent _ _ _ hn _ =>
    rw [hn] at hc
    cases hc
  | created _ _ user data nextRun began now hn _ =>
    rw [hn] at hc
    cases hc
  | fired _ _ _ now began i cue' _ _ _ _ _ _ _ _ hzero =>
    rw [hone] at hzero
    cases hzero
  | quiet _ _ _ cue₀ cue' hc₀ hc' hq _ =>
    rw [hc] at hc₀
    cases hc₀
    exact ⟨cue', hc', by rw [hq.runCount, hone]⟩

/-- Outcomes are written once. At most one call on `e` returns an outcome, and it
has committed it; the columns it wrote stay; a refused call has written nothing;
the outcome of a worker execution counts one run of its cue, so that the cue has
one run for each of its recorded executions, next to the runs of delivery jobs:
none, unless the stale sweep pushed one of its executions. -/
structure OutcomeOnce (s : Sys) (e : ExecId) : Prop where
  one : ∀ {p q user user' body body' state state'},
    .began p (.recordOutcome user e body) ∈ s.shared.history →
    .began q (.recordOutcome user' e body') ∈ s.shared.history →
    .ended p (.returned (.outcome state)) ∈ s.shared.history →
    .ended q (.returned (.outcome state')) ∈ s.shared.history → p = q
  committed : ∀ {p user body state}, .began p (.recordOutcome user e body) ∈ s.shared.history →
    .ended p (.returned (.outcome state)) ∈ s.shared.history →
    ∃ time ws, .commit p time ws ∈ s.shared.history ∧ Records e ws
  kept : ∀ {p time ws h₁ h₂}, .commit p time ws :: h₁ <:+ h₂ → h₂ <:+ s.shared.history →
    Records e ws → ((replay h₂).execution e).map Execution.outcomeColumns =
      ((replay (.commit p time ws :: h₁)).execution e).map Execution.outcomeColumns
  refused : ∀ {p user body error time ws},
    .began p (.recordOutcome user e body) ∈ s.shared.history →
    .ended p (.returned (.error error)) ∈ s.shared.history →
    .commit p time ws ∈ s.shared.history → ws = []
  counted : ∀ {p time ws h₁ r cue}, .commit p time ws :: h₁ <:+ s.shared.history →
    Records e ws → (replay h₁).execution e = some r → (replay h₁).cue r.cueId = some cue →
    cue.callbackTransport = .worker → ∃ cue',
      (replay (.commit p time ws :: h₁)).cue r.cueId = some cue' ∧
      cue'.runCount = cue.runCount + 1
  runs : ∀ {c cue}, s.shared.tables.cue c = some cue → cue.callbackTransport = .worker →
    cue.runCount = (recordedOf c s.shared.tables).length + jobRuns c s.shared.history ∧
    (Along SparesWorkers s.shared.history → jobRuns c s.shared.history = 0)

theorem outcome_once (hr : Reachable env s) (e : ExecId) : OutcomeOnce s e where
  one hb hb' hm hm' := by
    obtain ⟨time, ws, hc, hrec⟩ := outcome_reply hr.legal hb hm
    obtain ⟨time', ws', hc', hrec'⟩ := outcome_reply hr.legal hb' hm'
    exact records_once hr.legal hc hc' hrec hrec'
  committed hb hm := outcome_reply hr.legal hb hm
  kept hs hs' hrec := by
    have hl := Along.suffix hr.legal hs'
    obtain ⟨-, r, hrow, hsome⟩ := hrec.step (Along.at hl hs)
    obtain ⟨r', hrow', hcol⟩ := outcomeColumns_kept hl hs hrow hsome
    rw [hrow, hrow', Option.map_some, Option.map_some, hcol]
  refused hb hm hc := error_reply hr.legal hb hm hc
  counted hs hrec hrow hc hw := hrec.counts_run (Along.at hr.legal hs) hrow hc hw
  runs hc hw := by
    rw [hr.tables_eq] at hc ⊢
    exact ⟨runCount_eq hr.legal hc hw, fun hspare =>
      jobRuns_spared hr.legal hspare (by simp [transportOf, hc, hw])⟩

/-- Two reports at once: the second waits for the lock and is refused. -/
def reportTwice : List Action :=
  fireWorkerCue ++ claimIt 3 "w" ++
  play 4 (.recordOutcome 1 1 { success := true }) (gos 2) ++
  (gos 4).map (.advance 4) ++ [.finish 4] ++
  playAll 5 (.recordOutcome 1 1 { success := false }) [.go]

theorem outcome_once_reported : ∃ s cue, Reachable plainEnv s ∧
    s.shared.tables.cue 7 = some cue ∧ cue.runCount = 1 ∧ OutcomeOnce s 1 := by
  obtain ⟨s, hs, hv⟩ := reachable_of_run plainEnv 0 reportTwice
    (fun s => (s.shared.tables.cue 7).map (·.runCount)) (some 1) (by decide +kernel)
  obtain ⟨cue, hcue, hrun⟩ := Option.map_eq_some_iff.mp hv
  exact ⟨s, cue, hs, hcue, hrun, outcome_once hs 1⟩

end CueApi.Scheduler
