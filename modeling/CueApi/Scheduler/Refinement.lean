import CueApi.Scheduler.SweepProofs

/-! Every run of the scheduler is a legal history: whatever the interleaving, the
crashes and the duplicated jobs, each commit is one of the transactions of
`Commits`, and the committed tables are the replay of the commits. -/

namespace CueApi.Scheduler

open ReadCommitted Interleaving Trace

variable {env : Env} {p : Pid} {w w' : World} {s s' : Sys}

theorem runs_programOf {call : Call} (hw : At p [] [.began p call] w) :
    Runs env p (Justified env p) (programOf env p call) w := by
  cases call with
  | createCue user data => exact runs_createCue hw
  | fireCue user c sendAt => exact runs_fireCue hw
  | replayExecution user e => exact runs_replayExecution hw
  | claimNextExecution user worker => exact runs_claimNextExecution hw
  | claimExecution user e worker => exact runs_claimExecution hw
  | executionHeartbeat user e xWorkerId => exact runs_executionHeartbeat hw
  | recordOutcome user e body => exact runs_recordOutcome hw
  | heartbeat user worker handlers => exact runs_heartbeat hw
  | deleteWorker user worker => exact runs_deleteWorker hw
  | processCueBatch => exact runs_processCueBatch hw
  | pollRetries => exact runs_pollRetries hw
  | dispatchOutbox => exact runs_dispatchOutbox hw
  | recoverStaleExecutions => exact runs_recoverStaleExecutions hw
  | recoverStaleWorkerClaims => exact runs_recoverStaleWorkerClaims hw
  | failUnclaimedWorkerExecutions => exact runs_failUnclaimedWorkerExecutions hw
  | job j => exact runs_runJob hw

theorem Returns.later {h h' : History} {call : Call} {reply : Reply}
    (hr : Returns env h p call reply) (hs : h <:+ h') (ho : own p h' = own p h) :
    Returns env h' p call reply where
  claimed e lease heq := by
    obtain ⟨hl, endpoint, worker, time, began, now, hfor, hm⟩ := hr.claimed e lease heq
    exact ⟨hl, endpoint, worker, time, began, now, hfor, hs.mem hm⟩
  extended until? heq := by
    obtain ⟨user, e, xWorkerId, time, now, hc, hu, hm⟩ := hr.extended until? heq
    exact ⟨user, e, xWorkerId, time, now, hc, hu, hs.mem hm⟩
  job j hc := by
    rw [ho]
    exact hr.job j hc
  outcome user e body hc := by
    rcases hr.outcome user e body hc with
      ⟨error, heq, hown⟩ | ⟨state, time, ws, transport, mode, now, heq, hm, hu⟩
    · exact .inl ⟨error, heq, ho.trans hown⟩
    · exact .inr ⟨state, time, ws, transport, mode, now, heq, hs.mem hm, hu⟩

theorem justified_rely {reply : Reply} (hr : Rely p w w') (hj : Justified env p reply w) :
    Justified env p reply w' := by
  obtain ⟨call, hc, hret⟩ := hj
  refine ⟨call, ?_, hret.later hr.history hr.own⟩
  rw [← callOf_own, hr.own, callOf_own]
  exact hc

private theorem rely_trans (p : Pid) {a b c : World} (h : Rely p a b) (h' : Rely p b c) :
    Rely p a c := h.trans h'

private theorem justified_stable (p : Pid) (reply : Reply) (w w' : World) (hr : Rely p w w')
    (hj : Justified env p reply w) : Justified env p reply w' := justified_rely hr hj

/-- The invariant of the whole system. -/
structure SysInv (env : Env) (s : Sys) : Prop where
  good : Good (Inv env) Rely (Justified env) s
  called : ∀ p, (s.procs p).isSome → (callOf p s.shared.history).isSome

theorem Inv.leave (hi : Inv env w) {how : Ending}
    (ha : Allowed env w.history (.ended p how)) :
    Inv env { w with store := w.store.rollback p, history := .ended p how :: w.history } where
  tables := hi.tables
  legal := ⟨ha, hi.legal⟩
  clock q time ws hm := by
    rcases List.mem_cons.mp hm with heq | hm
    · cases heq
    · exact hi.clock q time ws hm

theorem SysInv.leave (h : SysInv env s) {how : Ending}
    (ha : Allowed env s.shared.history (.ended p how)) : SysInv env (leave s p how) where
  good := by
    refine h.good.put rely_trans justified_stable
      (h.good.1.leave ha) (fun q hq => ⟨Store.rollback_kept _ hq, own_cons_of_ne ?_ _,
        List.suffix_cons _ _, Int.le_refl _⟩) (by simp)
    exact fun heq => hq (Option.some.inj heq).symm
  called q hq := by
    refine callOf_cons_isSome _ (h.called q ?_)
    by_cases hqp : q = p
    · subst hqp
      simp [Scheduler.leave, Config.put] at hq
    · simpa [Scheduler.leave, Config.put, hqp] using hq

theorem SysInv.start (h : SysInv env s) {call : Call} (hown : own p s.shared.history = [])
    (hbuf : s.shared.store.buf p = []) (hstart : startable s.shared.history call = true) :
    SysInv env (s.put (s.shared.log (.began p call)) p (some (programOf env p call))) where
  good := by
    refine h.good.put rely_trans justified_stable
      (h.good.1.log (.began p call) ⟨hown, hstart⟩ (by simp)) (fun q hq => .log _ ?_) ?_
    · exact fun heq => hq (Option.some.inj heq).symm
    · rintro m ⟨⟩
      exact runs_programOf ⟨hbuf, (own_cons_of_pid rfl _).trans (by rw [hown])⟩
  called q hq := by
    by_cases hqp : q = p
    · subst hqp
      simp [Config.put, World.log, callOf]
    · exact callOf_cons_isSome _ (h.called q (by simpa [Config.put, hqp] using hq))

theorem SysInv.advance (h : SysInv env s) {a : Answer} (hs : s.advance p a = some s') :
    SysInv env s' where
  good := h.good.advance rely_trans Rely.refl justified_stable hs
  called q hq := by
    unfold Config.advance at hs
    split at hs
    · rename_i act k hp
      obtain ⟨⟨r, w⟩, hact, rfl⟩ := Option.map_eq_some_iff.mp hs
      obtain ⟨-, hR, -⟩ := h.good.2 p _ hp s.shared (.refl p _) h.good.1 a r w hact
      have hsuf := (hR (p + 1) (Nat.succ_ne_self p)).history
      refine callOf_suffix_isSome hsuf (h.called q ?_)
      by_cases hqp : q = p
      · simp [hqp, hp]
      · simpa [hqp] using hq
    · cases hs

theorem SysInv.drift (h : SysInv env s) (hi : Inv env w) (hr : ∀ q, Rely q s.shared w) :
    SysInv env { s with shared := w } where
  good := h.good.drift rely_trans justified_stable hi hr
  called q hq := callOf_suffix_isSome (hr q).history (h.called q hq)

theorem SysInv.step (h : SysInv env s) {a : Action} (hs : step env s a = some s') :
    SysInv env s' := by
  have left : ∀ {p : Pid} {how : Ending}, (∀ reply, how ≠ .returned reply) →
      ((s.procs p).map fun _ => Scheduler.leave s p how) = some s' → SysInv env s' := by
    intro p how hhow heq
    obtain ⟨prog, hp, rfl⟩ := Option.map_eq_some_iff.mp heq
    refine h.leave ?_
    obtain ⟨call, hc⟩ := Option.isSome_iff_exists.mp (h.called p (by simp [hp]))
    cases how with
    | returned reply => exact absurd rfl (hhow reply)
    | crashed => exact ⟨call, hc⟩
    | raised => exact ⟨call, hc⟩
  cases a with
  | start p call =>
    simp only [Scheduler.step] at hs
    split at hs
    · rename_i hcond
      cases hs
      exact h.start hcond.1 hcond.2.1 hcond.2.2
    · cases hs
  | advance p a => exact h.advance hs
  | finish p =>
    simp only [Scheduler.step] at hs
    split at hs
    · rename_i reply hp
      cases hs
      exact h.leave (h.good.2 p _ hp)
    · cases hs
  | crash p => exact left (by simp) hs
  | raise p => exact left (by simp) hs
  | duplicate j =>
    simp only [Scheduler.step] at hs
    split at hs
    · rename_i hj
      cases hs
      refine h.drift (h.good.1.log _ ?_ (by simp)) fun q => .log _ (by simp [Event.pid])
      obtain ⟨ev, hm, hev⟩ := List.any_eq_true.mp hj
      cases ev <;> simp only [Bool.false_eq_true] at hev
      case enqueued q n j' =>
        simp only [decide_eq_true_eq] at hev
        subst hev
        exact ⟨q, n, hm⟩
    · cases hs
  | tick d =>
    cases hs
    have hle : s.shared.clock ≤ s.shared.clock + d :=
      Int.le_add_of_nonneg_right (Int.natCast_nonneg d)
    refine h.drift ⟨h.good.1.tables, h.good.1.legal, fun q time ws hm => ?_⟩ fun q =>
      ⟨.refl q _, rfl, List.suffix_refl _, hle⟩
    exact Int.le_trans (h.good.1.clock q time ws hm) hle

theorem sysInv_init (env : Env) (t : Time) : SysInv env (init t) where
  good := ⟨⟨rfl, trivial, by simp [init]⟩, by simp [init]⟩
  called := by simp [init]

theorem SysInv.run (h : SysInv env s) {as : List Action} (hr : run env s as = some s') :
    SysInv env s' := by
  induction as generalizing s with
  | nil =>
    cases hr
    exact h
  | cons a as ih =>
    obtain ⟨s₁, hs, hr⟩ := Option.bind_eq_some_iff.mp hr
    exact ih (h.step hs) hr

theorem Reachable.sysInv (hr : Reachable env s) : SysInv env s := by
  obtain ⟨t, as, hrun⟩ := hr
  exact (sysInv_init env t).run hrun

/-- Refinement: the reachable states are described by legal histories. -/
theorem Reachable.legal (hr : Reachable env s) : Legal env s.shared.history :=
  hr.sysInv.good.1.legal

theorem Reachable.tables_eq (hr : Reachable env s) :
    s.shared.tables = replay s.shared.history := hr.sysInv.good.1.tables

/-- A step only adds to the history. -/
theorem SysInv.step_history (h : SysInv env s) {a : Action}
    (hs : Scheduler.step env s a = some s') :
    s.shared.history <:+ s'.shared.history := by
  cases a with
  | start p call =>
    simp only [Scheduler.step] at hs
    split at hs
    · cases hs
      exact List.suffix_cons _ _
    · cases hs
  | advance p a =>
    simp only [Scheduler.step] at hs
    unfold Config.advance at hs
    split at hs
    · rename_i act k hp
      obtain ⟨⟨r, w⟩, hact, rfl⟩ := Option.map_eq_some_iff.mp hs
      obtain ⟨-, hR, -⟩ := h.good.2 p _ hp s.shared (.refl p _) h.good.1 a r w hact
      exact (hR (p + 1) (Nat.succ_ne_self p)).history
    · cases hs
  | finish p =>
    simp only [Scheduler.step] at hs
    split at hs
    · cases hs
      exact List.suffix_cons _ _
    · cases hs
  | crash p =>
    obtain ⟨prog, -, rfl⟩ := Option.map_eq_some_iff.mp hs
    exact List.suffix_cons _ _
  | raise p =>
    obtain ⟨prog, -, rfl⟩ := Option.map_eq_some_iff.mp hs
    exact List.suffix_cons _ _
  | duplicate j =>
    simp only [Scheduler.step] at hs
    split at hs
    · cases hs
      exact List.suffix_cons _ _
    · cases hs
  | tick d =>
    cases hs
    exact List.suffix_refl _

theorem SysInv.run_history (h : SysInv env s) {as : List Action}
    (hr : Scheduler.run env s as = some s') : s.shared.history <:+ s'.shared.history := by
  induction as generalizing s with
  | nil =>
    cases hr
    exact List.suffix_refl _
  | cons a as ih =>
    obtain ⟨s₁, hs, hr⟩ := Option.bind_eq_some_iff.mp hr
    exact (h.step_history hs).trans (ih (h.step hs) hr)

theorem Reachable.run (hr : Reachable env s) {as : List Action}
    (hrun : Scheduler.run env s as = some s') : Reachable env s' := by
  obtain ⟨t, bs, hbs⟩ := hr
  exact ⟨t, bs ++ as, by rw [run_append, hbs]; exact hrun⟩

/-! ## Concrete runs -/

/-- Surroundings for concrete runs: one user, every check passes, cron is every
minute. -/
def plainEnv : Env where
  user u := if u = 1 then some {} else none
  validateCallbackUrl _ := none
  validateTimezone _ := true
  validateCron _ := true
  cronNext _ _ t := some ((t / 60000000 + 1) * 60000000)

/-- Start `p` on `call` and give its statements these answers. -/
def play (p : Pid) (call : Call) (answers : List Answer) : List Action :=
  .start p call :: answers.map (.advance p)

/-- The same to the end. -/
def playAll (p : Pid) (call : Call) (answers : List Answer) : List Action :=
  play p call answers ++ [.finish p]

def gos (n : Nat) : List Answer := List.replicate n .go

/-- Who has ended, and how. -/
def endings (h : History) : List (Pid × Ending) :=
  h.filterMap fun ev => match ev with
    | .ended p how => some (p, how)
    | _ => none

theorem mem_endings {h : History} {p : Pid} {how : Ending} :
    (p, how) ∈ endings h ↔ .ended p how ∈ h := by
  unfold endings
  rw [List.mem_filterMap]
  constructor
  · rintro ⟨ev, hm, hev⟩
    split at hev
    · cases hev
      exact hm
    · cases hev
  · intro hm
    exact ⟨_, hm, rfl⟩

theorem reachable_of_run (env : Env) (t : Time) (as : List Action) {α : Type} (f : Sys → α)
    (v : α) (h : (run env (init t) as).map f = some v) : ∃ s, Reachable env s ∧ f s = v := by
  obtain ⟨s, hs, hv⟩ := Option.map_eq_some_iff.mp h
  exact ⟨s, ⟨t, as, hs⟩, hv⟩

theorem reachable_run_of_run (env : Env) (t : Time) (as bs : List Action) {α : Type}
    (f : Sys → Sys → α) (v : α)
    (h : ((run env (init t) as).bind fun s => (run env s bs).map (f s)) = some v) :
    ∃ s s', Reachable env s ∧ run env s bs = some s' ∧ f s s' = v := by
  obtain ⟨s, hs, h⟩ := Option.bind_eq_some_iff.mp h
  obtain ⟨s', hs', hv⟩ := Option.map_eq_some_iff.mp h
  exact ⟨s, s', ⟨t, as, hs⟩, hs', hv⟩

end CueApi.Scheduler
