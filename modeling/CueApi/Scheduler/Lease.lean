import CueApi.Scheduler.Status

/-! Worker claims: who holds an execution, and for how long the sweeps leave it to
its holder. -/

namespace CueApi.Scheduler

open ReadCommitted Interleaving Trace

variable {env : Env} {h : History} {s : Sys} {e : ExecId}

/-! ## Exclusive claims -/

/-- The UPDATE of `claim_next_execution` finds the row pending, as its subquery did. -/
def Write.claimsPending (t : Tables) : Write → Bool
  | .updateExecution e (.workerClaim .claimNextExecution _ _ _) =>
      (t.execution e).all fun r => r.status = .pending
  | _ => true

def NextFindsPending (h : History) (ev : Event) : Prop :=
  ∀ w ∈ ev.writes, w.claimsPending (replay h) = true

instance (h : History) (ev : Event) : Decidable (NextFindsPending h ev) :=
  inferInstanceAs (Decidable (∀ w ∈ _, _))

def pendingAt (e : ExecId) (h : History) : Prop :=
  ∃ r, (replay h).execution e = some r ∧ r.status = .pending

/-- The transaction grants `e` to a worker. -/
def Grants (e : ExecId) (worker : WorkerId) (ws : List Write) : Prop :=
  ∃ endpoint began now, .updateExecution e (.workerClaim endpoint worker began now) ∈ ws

/-- A grant meets a pending execution. -/
theorem granted_pending {p : Pid} {time : Time} {ws : List Write} {worker : WorkerId}
    (ha : Allowed env h (.commit p time ws)) (hc : NextFindsPending h (.commit p time ws))
    (hg : Grants e worker ws) : pendingAt e h := by
  obtain ⟨endpoint, began, now, hm⟩ := hg
  obtain ⟨call, r, -, hr, -, hu⟩ := updates_of_mem ha hm
  refine ⟨r, hr, ?_⟩
  cases hu with
  | workerClaim _ _ _ _ _ _ _ _ hs _ =>
    cases endpoint with
    | claimExecution => exact hs rfl
    | claimNextExecution => simpa [Write.claimsPending, hr] using hc _ hm
  | finished j attempts _ _ _ hcomp => cases hcomp

/-- From one grant of `e` on, and as long as `e` is not pending again, it belongs
to the worker of the grant; a second grant needs a pending moment in between; and
who is told `claimed` has committed a grant. -/
structure ExclusiveClaim (h : History) (e : ExecId) : Prop where
  once : ∀ {p q time time' ws ws' h₁ h₂ worker worker'}, .commit q time' ws' :: h₂ <:+ h →
    .commit p time ws :: h₁ <:+ h₂ → Grants e worker ws → Grants e worker' ws' →
    ∃ h', .commit p time ws :: h₁ <:+ h' ∧ h' <:+ h₂ ∧ pendingAt e h'
  holder : ∀ {p time ws h₁ h₂ worker}, .commit p time ws :: h₁ <:+ h₂ → h₂ <:+ h →
    Grants e worker ws →
    (∀ h', .commit p time ws :: h₁ <:+ h' → h' <:+ h₂ → ¬ pendingAt e h') →
    ∃ r, (replay h₂).execution e = some r ∧ r.claimedByWorker = some worker
  told : ∀ {p lease}, .ended p (.returned (.claimed e lease)) ∈ h →
    ∃ call endpoint worker time ws, .began p call ∈ h ∧ ClaimsFor call endpoint worker e ∧
      .commit p time ws ∈ h ∧ Grants e worker ws

theorem claimed_told (hl : Legal env h) {p : Pid} {lease : Nat}
    (hm : .ended p (.returned (.claimed e lease)) ∈ h) :
    lease = env.settings.workerClaimTimeoutSeconds ∧
    ∃ call endpoint worker time began now, .began p call ∈ h ∧ ClaimsFor call endpoint worker e ∧
      .commit p time [.updateExecution e (.workerClaim endpoint worker began now)] ∈ h := by
  obtain ⟨h', hs⟩ := mem_split hm
  obtain ⟨call, hcall, hret⟩ := Along.at hl hs
  obtain ⟨hlease, endpoint, worker, time, began, now, hfor, hc⟩ := hret.claimed e lease rfl
  have hs' := (List.suffix_cons _ h').trans hs
  exact ⟨hlease, call, endpoint, worker, time, began, now, hs'.mem (callOf_mem hcall), hfor,
    hs'.mem hc⟩

/-- Only a grant and a reset write `claimed_by_worker`. -/
theorem ExecUpdate.claimedByWorker_eq {u : ExecUpdate} (r : Execution)
    (hr : ∀ seen now, u ≠ .resetClaim seen now)
    (hg : ∀ endpoint worker began now, u ≠ .workerClaim endpoint worker began now) :
    (u.set r).claimedByWorker = r.claimedByWorker ∧ (u.set r).claimedAt = r.claimedAt := by
  cases u <;> try exact ⟨rfl, rfl⟩
  case resetClaim seen now => exact absurd rfl (hr seen now)
  case workerClaim endpoint worker began now => exact absurd rfl (hg endpoint worker began now)
  case outcome transport mode body now => simp

theorem holder_kept (hl : Legal env h) (hc : Along NextFindsPending h) {h₁ : History} {p : Pid}
    {time : Time} {ws : List Write} {worker : WorkerId} (hsuf : .commit p time ws :: h₁ <:+ h)
    (hg : Grants e worker ws) :
    (∃ h', .commit p time ws :: h₁ <:+ h' ∧ h' <:+ h ∧ pendingAt e h') ∨
    ∃ r, (replay h).execution e = some r ∧ r.claimedByWorker = some worker := by
  have hbase := Along.at hl hsuf
  refine Along.invariant_from (J := fun h => (∃ h', .commit p time ws :: h₁ <:+ h' ∧ h' <:+ h ∧
    pendingAt e h') ∨ ∃ r, (replay h).execution e = some r ∧ r.claimedByWorker = some worker)
    ?_ ?_ hsuf (hl.and hc)
  · obtain ⟨endpoint, began, now, hm⟩ := hg
    obtain ⟨call, r, -, -, hrow, -⟩ := updates_of_mem hbase hm
    exact .inr ⟨_, hrow, rfl⟩
  · intro h ev hsuf' _ hev ih
    obtain ⟨ha, hnext⟩ := hev
    rcases ih with ⟨h', hs, hs', hp⟩ | ⟨r, hr, hw⟩
    · exact .inl ⟨h', hs, hs'.trans (List.suffix_cons ev h), hp⟩
    rcases exec_kept_or_updated ha hr with hsame | ⟨q, t, us, call, u, rfl, -, hm, hrow, hu⟩
    · exact .inr ⟨r, hsame, hw⟩
    · by_cases hreset : ∃ seen now, u = .resetClaim seen now
      · obtain ⟨seen, now, rfl⟩ := hreset
        exact .inl ⟨_, hsuf'.trans (List.suffix_cons _ h), List.suffix_refl _, _, hrow, rfl⟩
      by_cases hgrant : ∃ endpoint worker began now, u = .workerClaim endpoint worker began now
      · obtain ⟨endpoint, worker', began, now, rfl⟩ := hgrant
        exact .inl ⟨h, hsuf', List.suffix_cons _ h, granted_pending ha hnext
          ⟨endpoint, began, now, hm⟩⟩
      · refine .inr ⟨_, hrow, ?_⟩
        rw [(ExecUpdate.claimedByWorker_eq r (fun seen now heq => hreset ⟨seen, now, heq⟩)
          fun endpoint worker began now heq => hgrant ⟨endpoint, worker, began, now, heq⟩).1]
        exact hw

/-- So it is in every run in which the UPDATE of `claim_next_execution` finds the
row pending, as its subquery did. -/
theorem exclusive_claim (hr : Reachable env s) (hc : Along NextFindsPending s.shared.history)
    (e : ExecId) : ExclusiveClaim s.shared.history e where
  once hq hp hgp hgq :=
    ⟨_, hp, List.suffix_refl _, granted_pending (Along.at hr.legal hq) (hc.at hq) hgq⟩
  holder hp hh hg hno := by
    have hl := Along.suffix hr.legal hh
    rcases holder_kept hl (hc.suffix hh) hp hg with ⟨h', hs, hs', hpend⟩ | hw
    · exact absurd hpend (hno h' hs hs')
    · exact hw
  told hm := by
    obtain ⟨-, call, endpoint, worker, time, began, now, hb, hfor, hcm⟩ := claimed_told hr.legal hm
    exact ⟨call, endpoint, worker, time, _, hb, hfor, hcm, endpoint, began, now,
      List.mem_singleton_self _⟩

/-- Two workers ask for the next execution; both subqueries return it before either
UPDATE runs. -/
def claimNextTwice : List Action :=
  fireWorkerCue ++
  play 3 (.claimNextExecution 1 "a") (gos 2 ++ [.rows [1]]) ++
  play 4 (.claimNextExecution 1 "b") (gos 2 ++ [.rows [1]]) ++
  (gos 2).map (.advance 3) ++ (gos 2).map (.advance 4)

/-- The commit grants `e` to some worker. -/
def grantsSome (e : ExecId) (ws : List Write) : Bool :=
  ws.any fun w => match w with
    | .updateExecution e' (.workerClaim _ _ _ _) => e' = e
    | _ => false

theorem grants_of_grantsSome {ws : List Write} (hg : grantsSome e ws = true) :
    ∃ worker, Grants e worker ws := by
  obtain ⟨w, hw, hm⟩ := List.any_eq_true.mp hg
  split at hm
  · rename_i e' endpoint worker began now
    rw [decide_eq_true_eq] at hm
    subst hm
    exact ⟨worker, endpoint, began, now, hw⟩
  · cases hm

/-- The last two commits both grant `e`, which is not pending between them. -/
def grantedTwice (e : ExecId) : History → Bool
  | .commit _ _ ws' :: .commit p t ws :: h =>
      grantsSome e ws' && grantsSome e ws &&
        ((replay (.commit p t ws :: h)).execution e).all fun r => r.status ≠ .pending
  | _ => false

theorem not_exclusive_of_grantedTwice {h' : History} (hg : grantedTwice e h' = true)
    (hs : h' <:+ h) : ¬ ExclusiveClaim h e := by
  intro hx
  unfold grantedTwice at hg
  split at hg
  · rename_i q t' ws' p t ws h₁
    simp only [Bool.and_eq_true] at hg
    obtain ⟨worker', hg'⟩ := grants_of_grantsSome hg.1.1
    obtain ⟨worker, hg₁⟩ := grants_of_grantsSome hg.1.2
    obtain ⟨h₂, hs₁, hs₂, r, hr, hp⟩ := hx.once hs (List.suffix_refl _) hg₁ hg'
    rw [← hs₁.eq_of_length (Nat.le_antisymm hs₁.length_le hs₂.length_le)] at hr
    simp [hr, hp] at hg
  · cases hg

theorem claim_granted_twice : ∃ s, Reachable plainEnv s ∧
    .ended 3 (.returned (.claimed 1 900)) ∈ s.shared.history ∧
    .ended 4 (.returned (.claimed 1 900)) ∈ s.shared.history ∧
    ¬ ExclusiveClaim s.shared.history 1 := by
  obtain ⟨s, hs, hv⟩ := reachable_of_run plainEnv 0
    (claimNextTwice ++ [.finish 3, .finish 4])
    (fun s => (decide ((3, .returned (.claimed 1 900)) ∈ endings s.shared.history),
      decide ((4, .returned (.claimed 1 900)) ∈ endings s.shared.history),
      grantedTwice 1 (s.shared.history.drop 2))) (true, true, true) (by decide +kernel)
  simp only [Prod.mk.injEq, decide_eq_true_eq] at hv
  exact ⟨s, hs, mem_endings.mp hv.1, mem_endings.mp hv.2.1,
    not_exclusive_of_grantedTwice hv.2.2 (List.drop_suffix 2 _)⟩

/-- The request of `b` for this very execution comes while that of `a` is between its subquery and its
commit, and goes on afterwards. -/
def claimMeanwhile : List Action :=
  fireWorkerCue ++
  play 3 (.claimNextExecution 1 "a") (gos 2 ++ [.rows [1]]) ++
  play 4 (.claimExecution 1 1 "b") (gos 2) ++
  (gos 2).map (.advance 3) ++ [.finish 3, .advance 4 .go, .finish 4]

def refusedClaim : Ending := .returned (claimFailed "Execution not available for claiming")

theorem exclusive_claim_meanwhile : ∃ s, Reachable plainEnv s ∧
    .ended 3 (.returned (.claimed 1 900)) ∈ s.shared.history ∧
    .ended 4 refusedClaim ∈ s.shared.history ∧ ExclusiveClaim s.shared.history 1 := by
  obtain ⟨s, hs, hv⟩ := reachable_of_run plainEnv 0 claimMeanwhile
    (fun s => (decide ((3, .returned (.claimed 1 900)) ∈ endings s.shared.history),
      decide ((4, refusedClaim) ∈ endings s.shared.history),
      decide (Along NextFindsPending s.shared.history))) (true, true, true) (by decide +kernel)
  simp only [Prod.mk.injEq, decide_eq_true_eq] at hv
  exact ⟨s, hs, mem_endings.mp hv.1, mem_endings.mp hv.2.1, exclusive_claim hs hv.2.2 1⟩


/-! ## Leases -/

/-- The time from which the UPDATE grants or extends a lease. -/
def ExecUpdate.leaseFrom : ExecUpdate → Option Time
  | .workerClaim _ _ _ now | .heartbeat now => some now
  | _ => none

def Call.sweeps : Call → Bool
  | .recoverStaleExecutions | .recoverStaleWorkerClaims | .failUnclaimedWorkerExecutions
  | .pollRetries => true
  | _ => false

def Execution.claimColumns (r : Execution) : ExecStatus × Option WorkerId × Option Time :=
  (r.status, r.claimedByWorker, r.claimedAt)

def claimColumnsOf (e : ExecId) (h : History) :
    Option (ExecStatus × Option WorkerId × Option Time) :=
  ((replay h).execution e).map Execution.claimColumns

/-- What a lease needs of a write. The stale sweep leaves worker executions alone;
the sweep of worker claims finds the claim it selected and no heartbeat within
the lease; the sweep of unclaimed executions and `claim_next_execution` find the
status they selected; a heartbeat is one of a worker execution that is still
`delivering`, and not older than the last one. -/
def Write.keepsLease (env : Env) (t : Tables) : Write → Bool
  | .updateExecution e u =>
      (t.execution e).all fun r =>
        match u with
        | .recovered _ _ _ | .stuck _ _ => transportOf t r.cueId ≠ some .worker
        | .resetClaim seen now => r.claimedAt = seen.claimedAt && r.lastHeartbeatAt.all fun beat =>
            decide (beat + seconds env.settings.workerClaimTimeoutSeconds ≤ now)
        | .missed seen _ => r.status = seen.status
        | .workerClaim .claimNextExecution _ _ _ => r.status = .pending
        | .heartbeat now => r.status = .delivering && transportOf t r.cueId = some .worker &&
            r.lastHeartbeatAt.all fun beat => decide (beat ≤ now)
        | _ => true
  | _ => true

def KeepsLease (env : Env) (h : History) (ev : Event) : Prop :=
  ∀ w ∈ ev.writes, w.keepsLease env (replay h) = true

instance (h : History) (ev : Event) : Decidable (KeepsLease env h ev) :=
  inferInstanceAs (Decidable (∀ w ∈ _, _))

/-- No sweep changes `e` before a lease on it has run out, and workers are told of
leases that were committed. -/
structure LeaseKept (env : Env) (h : History) (e : ExecId) : Prop where
  kept : ∀ {p q time time' ws ws' h₁ h₂ u from? call}, .commit q time' ws' :: h₂ <:+ h →
    .commit p time ws :: h₁ <:+ h₂ → .updateExecution e u ∈ ws → u.leaseFrom = some from? →
    callOf q h₂ = some call → call.sweeps = true →
    claimColumnsOf e (.commit q time' ws' :: h₂) ≠ claimColumnsOf e h₂ →
    from? + seconds env.settings.workerClaimTimeoutSeconds ≤ time'
  claimed : ∀ {p lease}, .ended p (.returned (.claimed e lease)) ∈ h →
    lease = env.settings.workerClaimTimeoutSeconds ∧ ∃ time endpoint worker began now,
      .commit p time [.updateExecution e (.workerClaim endpoint worker began now)] ∈ h
  extended : ∀ {p user xWorkerId until?}, .began p (.executionHeartbeat user e xWorkerId) ∈ h →
    .ended p (.returned (.leaseExtended until?)) ∈ h →
    ∃ time now, until? = now + seconds env.settings.workerClaimTimeoutSeconds ∧
      .commit p time [.updateExecution e (.heartbeat now)] ∈ h

/-- A commit comes no earlier than the commits before it. -/
theorem commit_time_le {p q : Pid} {time time' : Time} {ws ws' : List Write}
    (ha : Allowed env h (.commit q time' ws')) (hm : .commit p time ws ∈ h) : time ≤ time' :=
  ha.2 p time ws hm

theorem KeepsLease.sparesWorkers {ev : Event} (hk : KeepsLease env h ev) : SparesWorkers h ev := by
  intro w hw
  have hkeep := hk w hw
  unfold Write.sparesWorkers
  split
  · rename_i e stale next now
    cases hr : (replay h).execution e with
    | none => simp [transportOfExecution, hr]
    | some r => simpa [Write.keepsLease, transportOfExecution, hr] using hkeep
  · rfl

/-- The lease from `start` on `e` is in the row, or its time is over. -/
def Leased (env : Env) (start : Time) (e : ExecId) (h : History) : Prop :=
  (∃ r, (replay h).execution e = some r ∧ transportOf (replay h) r.cueId = some .worker ∧
    r.status ≠ .pending ∧ (r.claimedAt = some start ∨ ∃ beat, r.lastHeartbeatAt = some beat ∧
      start ≤ beat)) ∨
  ∃ p time ws, .commit p time ws ∈ h ∧
    start + seconds env.settings.workerClaimTimeoutSeconds ≤ time

/-- The writes that a lease meets while it runs. -/
theorem Updates.leased {p : Pid} {time : Time} {ws : List Write} {r : Execution} {call : Call}
    {u : ExecUpdate} {start : Time} (hu : Updates env h p time ws e r call u)
    (hr : (replay h).execution e = some r) (hl : Legal env h) (hp : Pulled h)
    (hk : Write.keepsLease env (replay h) (.updateExecution e u) = true)
    (hw : transportOf (replay h) r.cueId = some .worker) (hs : r.status ≠ .pending)
    (hlease : r.claimedAt = some start ∨ ∃ beat, r.lastHeartbeatAt = some beat ∧ start ≤ beat) :
    start + seconds env.settings.workerClaimTimeoutSeconds ≤ time ∨
    (call.sweeps = false ∧ (u.set r).status ≠ .pending ∧ ((u.set r).claimedAt = some start ∨
      ∃ beat, (u.set r).lastHeartbeatAt = some beat ∧ start ≤ beat)) := by
  have hwe : transportOfExecution (replay h) e = some .worker :=
    (transportOfExecution_eq hr).trans hw
  simp only [Write.keepsLease, hr, Option.all_some] at hk
  cases hu with
  | claim j began now he ho _ _ => exact absurd he.symm (hp.no_job hl hwe (began_mem_of_own ho))
  | limitReached j now he ho _ => exact absurd he.symm (hp.no_job hl hwe (began_mem_of_own ho))
  | finished j attempts u he ha _ => exact absurd he.symm (hp.no_job hl hwe ha.began_mem)
  | retryReady now began n cue cue' _ hdue _ _ _ _ =>
    simp only [retryDue, Bool.and_eq_true, decide_eq_true_eq] at hdue
    have hpull := (hp e hwe).2 r hr
    simp [hdue.1, pulledStatus] at hpull
  | recovered next now _ _ _ => simp [hw] at hk
  | stuck now _ _ _ => simp [hw] at hk
  | resetClaim seen now hnow _ hexp =>
    left
    simp only [Bool.and_eq_true, decide_eq_true_eq] at hk
    rcases hlease with hclaim | ⟨beat, hbeat, hle⟩
    · simp only [claimExpired, ← hk.1, hclaim, before, Bool.and_eq_true, decide_eq_true_eq] at hexp
      unfold Time at *
      omega
    · simp only [hbeat, Option.all_some, decide_eq_true_eq] at hk
      unfold Time at *
      omega
  | missed seen now _ _ hexp =>
    simp only [unclaimedSince, Bool.and_eq_true, decide_eq_true_eq] at hexp hk
    exact absurd (hk.trans hexp.1.1.1) hs
  | workerClaim call endpoint worker began now _ _ _ hpend _ =>
    cases endpoint with
    | claimExecution => exact absurd (hpend rfl) hs
    | claimNextExecution => exact absurd (of_decide_eq_true hk) hs
  | heartbeat user xWorkerId now _ _ _ =>
    refine .inr ⟨rfl, hs, ?_⟩
    rcases hlease with hclaim | ⟨beat, hbeat, hle⟩
    · exact .inl hclaim
    · simp only [hbeat, Option.all_some, Bool.and_eq_true, decide_eq_true_eq] at hk
      exact .inr ⟨now, rfl, Int.le_trans hle hk.2⟩
  | outcome user body transport mode now _ _ _ _ =>
    refine .inr ⟨rfl, ?_, by simpa using hlease⟩
    rw [ExecUpdate.outcome_status]
    cases transport with
    | webhook => exact hs
    | worker => cases body.success <;> simp

theorem leased_from {p : Pid} {time start : Time} {ws : List Write} {u : ExecUpdate}
    (ha : Allowed env h (.commit p time ws)) (hk : KeepsLease env h (.commit p time ws))
    (hm : .updateExecution e u ∈ ws) (hu : u.leaseFrom = some start) :
    Leased env start e (.commit p time ws :: h) := by
  obtain ⟨call, r, -, hr, hrow, hupd⟩ := updates_of_mem ha hm
  have hg := Tables.Grows.replay_cons (.commit p time ws) h
  have hkeep := hk _ hm
  simp only [Write.keepsLease, hr, Option.all_some] at hkeep
  left
  refine ⟨_, hrow, ?_⟩
  cases hupd with
  | workerClaim call endpoint worker began now _ _ hw _ _ =>
    cases hu
    exact ⟨by simpa using hg.transportOf hw, by simp [ExecUpdate.set], .inl rfl⟩
  | heartbeat user xWorkerId now _ _ _ =>
    cases hu
    simp only [Bool.and_eq_true, decide_eq_true_eq] at hkeep
    refine ⟨by simpa using hg.transportOf hkeep.1.2, ?_, .inr ⟨_, rfl, Int.le_refl _⟩⟩
    simp [ExecUpdate.set, hkeep.1.1]
  | finished j attempts u _ _ hc => cases hc <;> cases hu
  | _ => cases hu

theorem Leased.step {ev : Event} {start : Time} (hl : Leased env start e h) (hlh : Legal env h)
    (hp : Pulled h) (ha : Allowed env h ev) (hk : KeepsLease env h ev) :
    Leased env start e (ev :: h) := by
  rcases hl with ⟨r, hr, hw, hs, hlease⟩ | ⟨q, time, ws, hm, hle⟩
  · have hg := Tables.Grows.replay_cons ev h
    rcases exec_kept_or_updated ha hr with hsame | ⟨q, time, ws, call, u, rfl, -, hm, hrow, hu⟩
    · exact .inl ⟨r, hsame, hg.transportOf hw, hs, hlease⟩
    · rcases hu.leased hr hlh hp (hk _ hm) hw hs hlease with hle | ⟨-, hs', hlease'⟩
      · exact .inr ⟨q, time, ws, List.mem_cons_self .., hle⟩
      · exact .inl ⟨_, hrow, by simpa using hg.transportOf hw, hs', hlease'⟩
  · exact .inr ⟨q, time, ws, List.mem_cons_of_mem _ hm, hle⟩

theorem leased_later (hl : Legal env h) (hk : Along (KeepsLease env) h) {p : Pid}
    {time start : Time} {ws : List Write} {h₁ : History} {u : ExecUpdate}
    (hsuf : .commit p time ws :: h₁ <:+ h) (hm : .updateExecution e u ∈ ws)
    (hu : u.leaseFrom = some start) : Leased env start e h := by
  refine Along.invariant_from (J := Leased env start e)
    (leased_from (Along.at hl hsuf) (hk.at hsuf) hm hu) ?_ hsuf (hl.and hk)
  intro h ev _ hlh hev ih
  have hl' : Legal env h := hlh.mono fun _ _ hb => hb.1
  have hp : Pulled h := pulled_of_spares hl' (hlh.mono fun _ _ hb => hb.2.sparesWorkers)
  exact ih.step hl' hp hev.1 hev.2

/-- A sweep that changes `e` finds every lease on it over. -/
theorem Leased.over {q : Pid} {time start : Time} {ws : List Write} {call : Call}
    (hlease : Leased env start e h) (hl : Legal env h) (hp : Pulled h)
    (ha : Allowed env h (.commit q time ws)) (hk : KeepsLease env h (.commit q time ws))
    (hcall : callOf q h = some call) (hsweep : call.sweeps = true)
    (hne : claimColumnsOf e (.commit q time ws :: h) ≠ claimColumnsOf e h) :
    start + seconds env.settings.workerClaimTimeoutSeconds ≤ time := by
  rcases hlease with ⟨r, hr, hw, hs, hlease⟩ | ⟨p, time', us, hm, hle⟩
  · rcases exec_kept_or_updated ha hr with hsame | ⟨_, _, _, call', u, heq, hcall', hm, -, hu⟩
    · simp [claimColumnsOf, hsame, hr] at hne
    · cases heq
      rw [hcall] at hcall'
      cases hcall'
      rcases hu.leased hr hl hp (hk _ hm) hw hs hlease with hle | ⟨hno, -⟩
      · exact hle
      · rw [hsweep] at hno
        cases hno
  · exact Int.le_trans hle (commit_time_le ha hm)

/-- Leases are kept in every run whose writes meet `KeepsLease`. -/
theorem lease_kept (hr : Reachable env s) (hk : Along (KeepsLease env) s.shared.history)
    (e : ExecId) : LeaseKept env s.shared.history e where
  kept {p q time time' ws ws' h₁ h₂ u from? call} hq hp hm hu hcall hsweep hne := by
    have hs := (List.suffix_cons (.commit q time' ws') h₂).trans hq
    have hl := Along.suffix hr.legal hs
    have hk' := hk.suffix hs
    have hpull := pulled_of_spares hl (hk'.mono fun _ _ hb => hb.sparesWorkers)
    exact (leased_later hl hk' hp hm hu).over hl hpull (Along.at hr.legal hq) (hk.at hq) hcall
      hsweep hne
  claimed hm := by
    obtain ⟨hlease, call, endpoint, worker, time, began, now, -, -, hc⟩ :=
      claimed_told hr.legal hm
    exact ⟨hlease, time, endpoint, worker, began, now, hc⟩
  extended {p user xWorkerId until?} hb hm := by
    obtain ⟨h', hs⟩ := mem_split hm
    obtain ⟨call, hcall, hret⟩ := Along.at hr.legal hs
    obtain ⟨user', e', xWorkerId', time, now, rfl, hu, hc⟩ := hret.extended until? rfl
    have hs' := (List.suffix_cons _ h').trans hs
    have heq := (callOf_later hr.legal hs' hcall).symm.trans (callOf_of_began hr.legal hb)
    cases heq
    exact ⟨time, now, hu, hs'.mem hc⟩

/-- The last commit is one of a sweep that changes `e` within a lease. -/
def leaseBroken (env : Env) (e : ExecId) : History → Bool
  | .commit q time ws :: h =>
      (callOf q h).any Call.sweeps &&
      decide (claimColumnsOf e (.commit q time ws :: h) ≠ claimColumnsOf e h) &&
      h.any fun ev => match ev with
        | .commit _ _ us => us.any fun w => match w with
            | .updateExecution e' u => e' = e && u.leaseFrom.any fun start =>
                decide (time < start + seconds env.settings.workerClaimTimeoutSeconds)
            | _ => false
        | _ => false
  | _ => false

theorem not_kept_of_leaseBroken (hb : leaseBroken env e h = true) : ¬ LeaseKept env h e := by
  intro hk
  unfold leaseBroken at hb
  split at hb
  · rename_i q time ws h₂
    simp only [Bool.and_eq_true, decide_eq_true_eq, Option.any_eq_true] at hb
    obtain ⟨⟨⟨call, hcall, hsweep⟩, hne⟩, hany⟩ := hb
    obtain ⟨ev, hm, hev⟩ := List.any_eq_true.mp hany
    split at hev
    · rename_i p t us
      obtain ⟨w, hw, hwu⟩ := List.any_eq_true.mp hev
      split at hwu
      · rename_i e' u
        simp only [Bool.and_eq_true, decide_eq_true_eq, Option.any_eq_true] at hwu
        obtain ⟨rfl, start, hu, hlt⟩ := hwu
        obtain ⟨h₁, hs⟩ := mem_split hm
        exact absurd (hk.kept (List.suffix_refl _) hs hw hu hcall hsweep hne) (Int.not_le.mpr hlt)
      · cases hwu
    · cases hev
  · cases hb

/-- A claim of 900 seconds is taken back after 301. -/
theorem lease_broken : ∃ s, Reachable plainEnv s ∧
    .ended 3 (.returned (.claimed 1 900)) ∈ s.shared.history ∧
    ¬ LeaseKept plainEnv s.shared.history 1 := by
  obtain ⟨s, hs, hv⟩ := reachable_of_run plainEnv 0
    (fireWorkerCue ++ claimIt 3 "w" ++ [.tick 301000000] ++
      play 4 .recoverStaleExecutions ([.go, .rows [1]] ++ gos 4))
    (fun s => (decide ((3, .returned (.claimed 1 900)) ∈ endings s.shared.history),
      leaseBroken plainEnv 1 s.shared.history)) (true, true) (by decide +kernel)
  simp only [Prod.mk.injEq, decide_eq_true_eq] at hv
  exact ⟨s, hs, mem_endings.mp hv.1, not_kept_of_leaseBroken hv.2⟩

/-- The claim runs out, and the sweep of worker claims resets it. -/
theorem lease_kept_reset : ∃ s r, Reachable plainEnv s ∧
    .ended 3 (.returned (.claimed 1 900)) ∈ s.shared.history ∧
    s.shared.tables.execution 1 = some r ∧ r.status = .pending ∧
    LeaseKept plainEnv s.shared.history 1 := by
  obtain ⟨s, hs, hv⟩ := reachable_of_run plainEnv 0
    (fireWorkerCue ++ claimIt 3 "w" ++ [.tick 901000000] ++
      playAll 4 .recoverStaleWorkerClaims ([.go, .rows [1]] ++ gos 3))
    (fun s => (decide ((3, .returned (.claimed 1 900)) ∈ endings s.shared.history),
      (s.shared.tables.execution 1).map (·.status),
      decide (Along (KeepsLease plainEnv) s.shared.history)))
    (true, some .pending, true) (by decide +kernel)
  simp only [Prod.mk.injEq, decide_eq_true_eq, Option.map_eq_some_iff] at hv
  obtain ⟨hreply, ⟨r, hr, hst⟩, hk⟩ := hv
  exact ⟨s, r, hs, mem_endings.mp hreply, hr, hst, lease_kept hs hk 1⟩

end CueApi.Scheduler
