import CueApi.Scheduler.Footprint
import CueApi.Scheduler.Delivery

/-! The execution limit of a user who is told no: which jobs ask before they send. The limit
travels in the payload of the outbox row, and only the cron poller puts it there. -/

namespace CueApi.Scheduler

open ReadCommitted Interleaving Prog Trace

variable {env : Env} {s s' : Sys} {user : UserId}

/-- The user whose cue the execution belongs to. -/
def ownerOf (t : Tables) (e : ExecId) : Option UserId :=
  (t.execution e).bind fun r => (t.cue r.cueId).map Cue.userId

def Call.jobExecution : Call → Option ExecId
  | .job j => some j.payload.executionId
  | _ => none

/-- `p` runs a job for an execution of the user. -/
def runsFor (user : UserId) (s : Sys) (p : Pid) : Bool :=
  ((callOf p s.shared.history).bind Call.jobExecution).any fun e =>
    ownerOf s.shared.tables e = some user

/-- The condition on every step of a run. -/
def alongRun (env : Env) (P : Sys → Action → Bool) (s : Sys) : List Action → Bool
  | [] => true
  | a :: as => P s a && (step env s a).all fun s' => alongRun env P s' as

/-- `check_execution_limit` does not allow the user. -/
def refuses (user : UserId) (s : Sys) : Action → Bool
  | .advance p (.bool true) => !runsFor user s p
  | _ => true

/-- The jobs that begin for the user ask before they send: first deliveries whose payload
carries a positive limit. -/
def asksFirst (user : UserId) (s : Sys) : Action → Bool
  | .start _ (.job j) => decide (ownerOf s.shared.tables j.payload.executionId = some user →
      j.task = .deliver ∧ limitApplies j.payload = true)
  | _ => true

/-- The last event is a request that is sent for an execution of the user. -/
def sendsFor (user : UserId) (s s' : Sys) : Bool :=
  match s'.shared.history with
  | .posted _ e _ true :: h => h.length = s.shared.history.length &&
      ownerOf s'.shared.tables e = some user
  | _ => false

def sendsNothing (env : Env) (user : UserId) (s : Sys) (a : Action) : Bool :=
  (step env s a).all fun s' => !sendsFor user s s'

/-! ## Owners -/

theorem ownerOf_grows {t t' : Tables} {e : ExecId} (hg : t.Grows t')
    (ho : ownerOf t e = some user) : ownerOf t' e = some user := by
  obtain ⟨r, hr, huser⟩ := Option.bind_eq_some_iff.mp ho
  obtain ⟨cue, hcue, rfl⟩ := Option.map_eq_some_iff.mp huser
  obtain ⟨r', hr', hf⟩ := hg.execution hr
  obtain ⟨cue', hcue', hf'⟩ := hg.cue hcue
  simp [ownerOf, hr', hf.cueId, hcue', hf'.userId]

/-- The execution of a job has an owner. -/
theorem job_owner {h : History} (hl : Legal env h) {p : Pid} {j : Job}
    (hb : .began p (.job j) ∈ h) : ∃ user, ownerOf (replay h) j.payload.executionId = some user := by
  obtain ⟨n, o, ho, rfl⟩ := (jobs_sourced hl).2 p j hb
  have hrow := outbox_rowOf hl ho
  obtain ⟨r, cue, hr, hcue, -⟩ := hrow.execution
  exact ⟨cue.userId, by simp [ownerOf, hrow.payload, hr, hcue]⟩

theorem runsFor_eq_true {p : Pid} : runsFor user s p = true ↔
    ∃ j, callOf p s.shared.history = some (.job j) ∧
      ownerOf s.shared.tables j.payload.executionId = some user := by
  unfold runsFor
  cases hc : callOf p s.shared.history with
  | none => simp
  | some call => cases call <;> simp [Call.jobExecution]

/-- What a process runs does not change, nor does the owner. -/
theorem runsFor_later {p : Pid} (hr : Reachable env s) {as : List Action}
    (hrun : run env s as = some s') (hc : (callOf p s.shared.history).isSome) :
    runsFor user s' p = runsFor user s p := by
  have hr' := hr.run hrun
  have hsuf := hr.sysInv.run_history hrun
  have hgrow := Tables.Grows.replay_suffix hsuf
  obtain ⟨call, hc⟩ := Option.isSome_iff_exists.mp hc
  have hc' := callOf_later hr'.legal hsuf hc
  rw [Bool.eq_iff_iff, runsFor_eq_true, runsFor_eq_true, hc, hc', hr.tables_eq, hr'.tables_eq]
  refine exists_congr fun j => and_congr_right fun hj => ?_
  cases hj
  obtain ⟨user', howner⟩ := job_owner hr.legal (callOf_mem hc)
  rw [ownerOf_grows hgrow howner, howner]

/-! ## Jobs that ask first -/

/-- The step logs no request that is sent. -/
def Silent (w w' : World) : Prop :=
  ∀ ev, w'.history = ev :: w.history → ∀ p e attempt, ev ≠ .posted p e attempt true

theorem silent_of_same {w w' : World} (hh : w'.history = w.history) : Silent w w' := by
  intro ev heq
  rw [hh] at heq
  exact absurd heq.symm (List.cons_ne_self ev _)

theorem silent_of_log {w : World} {ev : Event} (hev : ∀ p e attempt, ev ≠ .posted p e attempt true)
    {w' : World} (hh : w'.history = ev :: w.history) : Silent w w' := by
  intro ev' heq
  rw [hh] at heq
  cases heq
  exact hev

/-- A first delivery that asks, and is told no, sends nothing. -/
theorem always_deliver_refused {p : Pid} {pl : DeliveryPayload} (hl : limitApplies pl = true) :
    (deliverWebhookTask p pl).Always (· ≠ .bool true) Silent := by
  unfold deliverWebhookTask
  rw [if_pos hl]
  refine Always.step_bind fun w a allowed w' ha hs => ?_
  split at hs
  · cases hs
    refine ⟨silent_of_same rfl, ?_⟩
    cases allowed with
    | true => exact absurd rfl ha
    | false =>
      refine Always.bind (Always.step fun w _ _ _ _ hs => ?_) fun now => ?_
      · cases hs
        exact silent_of_same rfl
      · refine Always.bind (Always.step fun w _ _ _ _ hs => ?_) fun _ => ?_
        · split at hs
          · split at hs
            · obtain ⟨st, -, heq⟩ := Option.map_eq_some_iff.mp hs
              cases heq
              exact silent_of_same rfl
            · cases hs
              exact silent_of_log (by simp) rfl
          · cases hs
            exact silent_of_log (by simp) rfl
        · refine Always.bind (Always.step fun w _ _ _ _ hs => ?_) fun _ => trivial
          cases hs
          exact silent_of_log (by simp) rfl
  · cases hs

/-- Every running job of the user has asked, or will. -/
def AllAsk (user : UserId) (s : Sys) : Prop :=
  ∀ p m, s.procs p = some m → runsFor user s p = true → m.Always (· ≠ .bool true) Silent

/-- Processes that go on, or leave, still ask. -/
theorem AllAsk.kept (hr : Reachable env s) (ha : AllAsk user s) {a : Action}
    (hs : step env s a = some s') {p : Pid} {m : Program Reply} (hm : s.procs p = some m)
    (hrf : runsFor user s' p = true) : m.Always (· ≠ .bool true) Silent := by
  have hrun : run env s [a] = some s' := by simp [run, hs]
  have hc := hr.sysInv.called p (by simp [hm])
  exact ha p m hm (by rw [← runsFor_later hr hrun hc]; exact hrf)

theorem stmt_posted {p q : Pid} {W : Write → Prop} {w w' : World} {e : ExecId} {attempt : Nat}
    {sent : Bool} (hs : Stmt p W w w')
    (hh : w'.history = .posted q e attempt sent :: w.history) : q = p := by
  cases hs with
  | read => exact absurd hh.symm (List.cons_ne_self _ _)
  | locked ks s _ => exact absurd hh.symm (List.cons_ne_self _ _)
  | wrote wr s _ _ => exact absurd hh.symm (List.cons_ne_self _ _)
  | logged ev hp _ _ _ _ =>
    cases hh
    exact Option.some.inj hp
  | committed => cases hh

/-- A request that is logged is one of the running job. -/
theorem posted_runsFor {p : Pid} {e : ExecId} {attempt : Nat} {sent : Bool} (hr : Reachable env s')
    {h : History} (hh : s'.shared.history = .posted p e attempt sent :: h)
    (ho : ownerOf s'.shared.tables e = some user) : runsFor user s' p = true := by
  have hl := hr.legal
  rw [hh] at hl
  obtain ⟨j, attempts, time, began, now, -, rfl, hown⟩ := hl.1
  refine runsFor_eq_true.mpr ⟨j, ?_, ho⟩
  rw [← callOf_own, hh, own_cons_of_pid rfl, hown]
  simp [callOf]

/-- The running jobs ask after the step, which sends no request of the user's. -/
structure AsksOn (user : UserId) (s s' : Sys) : Prop where
  asks : AllAsk user s'
  unsent : ∀ p e attempt, s'.shared.history = .posted p e attempt true :: s.shared.history →
    ownerOf s'.shared.tables e ≠ some user

/-- A step that starts nothing and logs no request. -/
theorem AllAsk.quiet (hr : Reachable env s) (ha : AllAsk user s) {a : Action}
    (hs : step env s a = some s') (hprocs : ∀ p m, s'.procs p = some m → s.procs p = some m)
    (hpost : ∀ p e attempt, s'.shared.history ≠ .posted p e attempt true :: s.shared.history) :
    AsksOn user s s' where
  asks p m hm hrf := ha.kept hr hs (hprocs p m hm) hrf
  unsent p e attempt hh := absurd hh (hpost p e attempt)

theorem AllAsk.leave (hr : Reachable env s) (ha : AllAsk user s) {a : Action} {p : Pid}
    {how : Ending} (hs : step env s a = some (leave s p how)) : AsksOn user s (leave s p how) := by
  refine ha.quiet hr hs (fun q m hm => ?_) fun q e attempt hh => by cases hh
  by_cases hq : q = p
  · subst hq
    simp [Scheduler.leave, Config.put] at hm
  · simpa [Scheduler.leave, Config.put, hq] using hm

/-- A first delivery that starts will ask. -/
theorem AllAsk.start (hr : Reachable env s) (ha : AllAsk user s) {p : Pid} {call : Call}
    (hs : step env s (.start p call) = some s') (hask : asksFirst user s (.start p call) = true) :
    AsksOn user s s' := by
  have hs₀ := hs
  simp only [Scheduler.step] at hs
  split at hs
  · cases hs
    refine ⟨fun q m hm hrf => ?_, fun q e attempt hh => by cases hh⟩
    by_cases hq : q = p
    · subst hq
      obtain rfl : programOf env q call = m := by simpa [Config.put] using hm
      obtain ⟨j, hj, howner⟩ := runsFor_eq_true.mp hrf
      obtain rfl : call = .job j := by simpa [Config.put, World.log, callOf] using hj
      obtain ⟨htask, hlimit⟩ := of_decide_eq_true hask howner
      simp only [programOf, runJob, htask]
      exact always_deliver_refused hlimit
    · exact ha.kept hr hs₀ (by simpa [Config.put, hq] using hm) hrf
  · cases hs

/-- A statement of a job of the user's is not told to go on; a request of another job is another
user's. -/
theorem AllAsk.advance (hr : Reachable env s) (ha : AllAsk user s) {p : Pid} {a : Answer}
    (hs : step env s (.advance p a) = some s') (hno : refuses user s (.advance p a) = true) :
    AsksOn user s s' := by
  have hrun : run env s [.advance p a] = some s' := by simp [run, hs]
  obtain ⟨hstmt, -, hsome, -, hother⟩ := Config.advance_always hs trivial (hr.idleFree.stmts p)
  have hcalled := hr.sysInv.called p hsome
  have hothers : ∀ q m, q ≠ p → s'.procs q = some m → runsFor user s' q = true →
      m.Always (· ≠ .bool true) Silent := fun q m hqp hq hrf =>
    ha.kept hr hs (by rw [← hother q hqp]; exact hq) hrf
  cases hrf : runsFor user s p with
  | true =>
    have ha' : a ≠ .bool true := by
      rintro rfl
      simp [refuses, hrf] at hno
    obtain ⟨hsilent, hm, -, -, -⟩ := Config.advance_always hs ha' fun m hm => ha p m hm hrf
    refine ⟨fun q m hq hrf' => ?_, fun q e attempt hh => absurd rfl (hsilent _ hh q e attempt)⟩
    by_cases hqp : q = p
    · subst hqp
      exact hm m hq
    · exact hothers q m hqp hq hrf'
  | false =>
    have hrf' : runsFor user s' p = false := (runsFor_later hr hrun hcalled).trans hrf
    refine ⟨fun q m hq hq' => ?_, fun q e attempt hh ho => ?_⟩
    · by_cases hqp : q = p
      · subst hqp
        rw [hrf'] at hq'
        cases hq'
      · exact hothers q m hqp hq hq'
    · have hq := posted_runsFor (hr.run hrun) hh ho
      rw [stmt_posted hstmt hh, hrf'] at hq
      cases hq

theorem AllAsk.step (hr : Reachable env s) (ha : AllAsk user s) {a : Action}
    (hs : step env s a = some s') (hno : refuses user s a = true)
    (hask : asksFirst user s a = true) : AsksOn user s s' := by
  cases a with
  | start p call => exact ha.start hr hs hask
  | advance p a => exact ha.advance hr hs hno
  | finish p =>
    have hs₀ := hs
    simp only [Scheduler.step] at hs
    split at hs
    · cases hs
      exact ha.leave hr hs₀
    · cases hs
  | crash p =>
    have hs₀ := hs
    obtain ⟨m, -, rfl⟩ := Option.map_eq_some_iff.mp hs
    exact ha.leave hr hs₀
  | raise p =>
    have hs₀ := hs
    obtain ⟨m, -, rfl⟩ := Option.map_eq_some_iff.mp hs
    exact ha.leave hr hs₀
  | duplicate j =>
    have hs₀ := hs
    simp only [Scheduler.step] at hs
    split at hs
    · cases hs
      exact ha.quiet hr hs₀ (fun _ _ hm => hm) fun q e attempt hh => by cases hh
    · cases hs
  | tick d =>
    have hs₀ := hs
    cases hs
    exact ha.quiet hr hs₀ (fun _ _ hm => hm) fun q e attempt hh =>
      absurd hh.symm (List.cons_ne_self _ _)

theorem posted_of_sendsFor (hr : Reachable env s) {a : Action} (hs : step env s a = some s')
    (hsend : sendsFor user s s' = true) : ∃ p e attempt,
    s'.shared.history = .posted p e attempt true :: s.shared.history ∧
      ownerOf s'.shared.tables e = some user := by
  unfold sendsFor at hsend
  split at hsend
  · rename_i p e attempt h hh
    simp only [Bool.and_eq_true, decide_eq_true_eq] at hsend
    have hsuf := hr.sysInv.step_history hs
    rw [hh] at hsuf
    rcases List.suffix_cons_iff.mp hsuf with heq | hsuf
    · rw [heq, List.length_cons] at hsend
      omega
    · rw [hsuf.eq_of_length hsend.1.symm]
      exact ⟨p, e, attempt, hh, hsend.2⟩
  · cases hsend

/-- While the limit check refuses a user, no request leaves for an execution of theirs, in
every run in which the jobs that begin for them ask first and none of theirs is on its way. -/
theorem limit_enforced (hr : Reachable env s) (hidle : ∀ p, (s.procs p).isSome →
    runsFor user s p = false) {as : List Action}
    (hno : alongRun env (refuses user) s as = true)
    (hask : alongRun env (asksFirst user) s as = true) :
    alongRun env (sendsNothing env user) s as = true := by
  have ha : AllAsk user s := fun p m hm hrf => by
    rw [hidle p (by simp [hm])] at hrf
    cases hrf
  clear hidle
  induction as generalizing s with
  | nil => rfl
  | cons a as ih =>
    cases hs : step env s a with
    | none => simp [alongRun, sendsNothing, hs]
    | some s₁ =>
      simp only [alongRun, hs, Option.all_some, Bool.and_eq_true] at hno hask ⊢
      obtain ⟨ha₁, hpost⟩ := ha.step hr hs hno.1 hask.1
      have hr₁ : Reachable env s₁ := hr.run (show run env s [a] = some s₁ by simp [run, hs])
      refine ⟨?_, ih hr₁ hno.2 hask.2 ha₁⟩
      simp only [sendsNothing, hs, Option.all_some, Bool.not_eq_true']
      cases hsend : sendsFor user s s₁ with
      | false => rfl
      | true =>
        obtain ⟨p, e, attempt, hh, ho⟩ := posted_of_sendsFor hr hs hsend
        exact absurd ho (hpost p e attempt hh)

/-- A webhook cue that is fired by hand, dispatched and delivered. -/
def fireByHand : List Action :=
  playAll 1 (.createCue 1 webhookCue) (gos 4 ++ [.fresh 7, .go]) ++
  playAll 2 (.fireCue 1 7 none) (gos 3 ++ [.bool false, .fresh 1, .fresh 1, .go]) ++
  dispatchRowOf 3 1 ++
  play 4 (.job ⟨.deliver, (triggeredOutbox plainEnv 1 7 (cueRow 1 webhookCue 1000000 0) 1 0 0
    none).payload⟩) (gos 5 ++ [.http (.response 200 "ok")])

/-- Nobody asks, and the request leaves. -/
theorem sent_while_refused : (run plainEnv (init 0) fireByHand).isSome ∧
    alongRun plainEnv (refuses 1) (init 0) fireByHand = true ∧
    alongRun plainEnv (sendsNothing plainEnv 1) (init 0) fireByHand = false := by
  refine ⟨?_, ?_, ?_⟩ <;> decide +kernel

def limitedEnv : Env :=
  { plainEnv with user := fun u => if u = 1 then some { monthlyExecutionLimit := 300 } else none }

/-- The cron poller fires a webhook cue, and its job asks. -/
def fireByCron : List Action :=
  fireWebhookCue webhookCue ++ dispatchRowOf 3 1 ++
  play 4 (.job ⟨.deliver, (firedOutbox limitedEnv 7 (cueRow 1 webhookCue 1000000 0) 1 1000000
    2000000).payload⟩) (.bool false :: gos 3)

theorem limit_enforced_cron : ((run limitedEnv (init 0) fireByCron).bind fun s =>
      (s.shared.tables.execution 1).map (·.status)) = some .failed ∧
    alongRun limitedEnv (sendsNothing limitedEnv 1) (init 0) fireByCron = true :=
  ⟨by decide +kernel, limit_enforced ⟨0, [], rfl⟩ (by simp [init]) (by decide +kernel)
    (by decide +kernel)⟩

end CueApi.Scheduler
