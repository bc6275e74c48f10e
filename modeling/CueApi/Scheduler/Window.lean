import CueApi.Library.Solo
import CueApi.Scheduler.Footprint
import CueApi.Scheduler.Lease

/-! How long a worker execution stays open to claims: after the sweep of stale claims has
released it, and from the time a scheduled fire asks for. -/

namespace CueApi.Scheduler

open ReadCommitted Interleaving Prog Trace

variable {env : Env} {h : History} {s : Sys} {e : ExecId}

/-- The WHERE clause of `claim_execution` holds for some user. -/
def Claimable (t : Tables) (e : ExecId) : Prop :=
  ∃ r user, t.execution e = some r ∧ r.status = .pending ∧ ownedWorkerCue t user r.cueId = true

theorem ownedWorkerCue_of_transportOf {t : Tables} {c : CueId}
    (hc : transportOf t c = some .worker) : ∃ user, ownedWorkerCue t user c = true := by
  obtain ⟨cue, hcue, hw⟩ := Option.map_eq_some_iff.mp hc
  exact ⟨cue.userId, by simp [ownedWorkerCue, hcue, hw]⟩

/-- The UPDATE takes a pending execution out of `pending`. -/
def ExecUpdate.takes : ExecUpdate → Bool
  | .resetClaim _ _ | .heartbeat _ => false
  | _ => true

/-- A transaction after `h₀` takes `e`. -/
def TakenSince (h₀ : History) (e : ExecId) (h : History) : Prop :=
  ∃ p time ws h' u, .commit p time ws :: h' <:+ h ∧ h₀ <:+ h' ∧ .updateExecution e u ∈ ws ∧
    u.takes = true

theorem TakenSince.cons {h₀ : History} (ht : TakenSince h₀ e h) (ev : Event) :
    TakenSince h₀ e (ev :: h) := by
  obtain ⟨p, time, ws, h', u, hp, h₀', hu, ht⟩ := ht
  exact ⟨p, time, ws, h', u, hp.trans (List.suffix_cons ev h), h₀', hu, ht⟩

/-! ## After a release -/

/-- The sweep of unclaimed executions meets a row that nothing has written for the whole
window, and no UPDATE sets `updated_at` back. -/
def Write.keepsWindow (env : Env) (t : Tables) : Write → Bool
  | .updateExecution e u =>
      (t.execution e).all fun r => decide (r.updatedAt ≤ (u.set r).updatedAt) &&
        match u with
        | .missed _ now =>
            decide (r.updatedAt + seconds env.settings.workerUnclaimedTimeoutSeconds ≤ now)
        | _ => true
  | _ => true

def KeepsWindow (env : Env) (h : History) (ev : Event) : Prop :=
  ∀ w ∈ ev.writes, w.keepsWindow env (replay h) = true

instance (h : History) (ev : Event) : Decidable (KeepsWindow env h ev) :=
  inferInstanceAs (Decidable (∀ w ∈ _, _))

/-- An execution that is released at `now` is not missed before the window is over, and it
is claimable until an UPDATE takes it. -/
structure FreshWindow (env : Env) (h : History) (e : ExecId) : Prop where
  kept : ∀ {p q time time' ws ws' h₁ h₂ seen seen' now now'}, .commit q time' ws' :: h₂ <:+ h →
    .commit p time ws :: h₁ <:+ h₂ → .updateExecution e (.resetClaim seen now) ∈ ws →
    .updateExecution e (.missed seen' now') ∈ ws' →
    now + seconds env.settings.workerUnclaimedTimeoutSeconds ≤ now'
  claimable : ∀ {p time ws h₁ h₂ seen now}, .commit p time ws :: h₁ <:+ h₂ → h₂ <:+ h →
    .updateExecution e (.resetClaim seen now) ∈ ws →
    Claimable (replay h₂) e ∨ TakenSince (.commit p time ws :: h₁) e h₂

theorem keepsWindow_of_mem {p : Pid} {time : Time} {ws : List Write} {u : ExecUpdate}
    {r : Execution} (hk : KeepsWindow env h (.commit p time ws))
    (hm : .updateExecution e u ∈ ws) (hr : (replay h).execution e = some r) :
    r.updatedAt ≤ (u.set r).updatedAt ∧ ∀ seen now, u = .missed seen now →
      r.updatedAt + seconds env.settings.workerUnclaimedTimeoutSeconds ≤ now := by
  have hkeep := hk _ hm
  simp only [Write.keepsWindow, hr, Option.all_some, Bool.and_eq_true, decide_eq_true_eq] at hkeep
  refine ⟨hkeep.1, ?_⟩
  rintro seen now rfl
  simpa using hkeep.2

section Released

variable {h₁ : History} {p : Pid} {time now : Time} {ws : List Write} {seen : Execution}

/-- The row is no older than the release. -/
theorem updatedAt_after_release (hl : Legal env h) (hc : Along (KeepsWindow env) h)
    (hs : .commit p time ws :: h₁ <:+ h) (hm : .updateExecution e (.resetClaim seen now) ∈ ws) :
    ∃ r, (replay h).execution e = some r ∧ now ≤ r.updatedAt := by
  refine Along.invariant_from (J := fun h => ∃ r, (replay h).execution e = some r ∧
    now ≤ r.updatedAt) ?_ ?_ hs (hl.and hc)
  · obtain ⟨call, r, -, -, hrow, -⟩ := updates_of_mem (Along.at hl hs) hm
    exact ⟨_, hrow, Int.le_refl _⟩
  · rintro h ev - - ⟨ha, hk⟩ ⟨r, hr, hle⟩
    rcases exec_kept_or_updated ha hr with hsame | ⟨q, t, us, call, u, rfl, -, hu, hrow, -⟩
    · exact ⟨r, hsame, hle⟩
    · exact ⟨_, hrow, Int.le_trans hle (keepsWindow_of_mem hk hu hr).1⟩

/-- What is not taken stays claimable. -/
theorem claimable_after_release (hl : Legal env h) (hs : .commit p time ws :: h₁ <:+ h)
    (hm : .updateExecution e (.resetClaim seen now) ∈ ws) :
    Claimable (replay h) e ∨ TakenSince (.commit p time ws :: h₁) e h := by
  have hbase := Along.at hl hs
  suffices hj : (∃ r, (replay h).execution e = some r ∧ r.status = .pending ∧
      transportOf (replay h) r.cueId = some .worker) ∨
      TakenSince (.commit p time ws :: h₁) e h by
    refine hj.imp (fun ⟨r, hr, hst, hw⟩ => ?_) id
    obtain ⟨user, hown⟩ := ownedWorkerCue_of_transportOf hw
    exact ⟨r, user, hr, hst, hown⟩
  refine Along.invariant_from (P := Allowed env) (J := fun h => (∃ r,
    (replay h).execution e = some r ∧ r.status = .pending ∧
      transportOf (replay h) r.cueId = some .worker) ∨
    TakenSince (.commit p time ws :: h₁) e h) ?_ ?_ hs hl
  · obtain ⟨call, r, -, hr, hrow, hu⟩ := updates_of_mem hbase hm
    refine .inl ⟨_, hrow, rfl, ?_⟩
    cases hu with
    | resetClaim _ _ _ hcue hexp =>
      simp only [claimExpired, Bool.and_eq_true, decide_eq_true_eq] at hexp
      have hw := hexp.1.1.2
      rw [← hcue] at hw
      exact (Tables.Grows.replay_cons _ _).transportOf hw
    | finished j attempts _ _ _ hcomp => cases hcomp
  · rintro h ev hsuf - ha ih
    rcases ih with ⟨r, hr, hst, hw⟩ | htaken
    · have hgrow := Tables.Grows.replay_cons ev h
      rcases exec_kept_or_updated ha hr with hsame | ⟨q, t, us, call, u, rfl, -, hu, hrow, -⟩
      · exact .inl ⟨r, hsame, hst, hgrow.transportOf hw⟩
      · by_cases ht : u.takes = true
        · exact .inr ⟨q, t, us, h, u, List.suffix_refl _, hsuf, hu, ht⟩
        · refine .inl ⟨_, hrow, ?_, by rw [ExecUpdate.set_cueId]; exact hgrow.transportOf hw⟩
          cases u with
          | resetClaim seen now => rfl
          | heartbeat now => exact hst
          | _ => exact absurd rfl ht
    · exact .inr (htaken.cons ev)

end Released

/-- So it is in every run in which the sweep of unclaimed executions meets only rows that
have been left alone for the window. -/
theorem fresh_window (hr : Reachable env s) (hc : Along (KeepsWindow env) s.shared.history)
    (e : ExecId) : FreshWindow env s.shared.history e where
  kept hq hp hreset hmiss := by
    have hq' := (List.suffix_cons _ _).trans hq
    obtain ⟨r, hrow, hle⟩ := updatedAt_after_release (Along.suffix hr.legal hq') (hc.suffix hq')
      hp hreset
    have hold := (keepsWindow_of_mem (hc.at hq) hmiss hrow).2 _ _ rfl
    exact Int.le_trans (Int.add_le_add_right hle _) hold
  claimable hp hh hreset := claimable_after_release (Along.suffix hr.legal hh) hp hreset

/-- When the write releases or misses `e`. -/
def Write.releasedAt (e : ExecId) : Write → Option Time
  | .updateExecution e' (.resetClaim _ now) => if e' = e then some now else none
  | _ => none

def Write.missedAt (e : ExecId) : Write → Option Time
  | .updateExecution e' (.missed _ now) => if e' = e then some now else none
  | _ => none

theorem of_releasedAt {w : Write} {now : Time} (hw : w.releasedAt e = some now) :
    ∃ seen, w = .updateExecution e (.resetClaim seen now) := by
  unfold Write.releasedAt at hw
  split at hw
  · rename_i e' seen now'
    split at hw
    · rename_i he
      cases hw
      exact ⟨seen, by rw [he]⟩
    · cases hw
  · cases hw

theorem of_missedAt {w : Write} {now : Time} (hw : w.missedAt e = some now) :
    ∃ seen, w = .updateExecution e (.missed seen now) := by
  unfold Write.missedAt at hw
  split at hw
  · rename_i e' seen now'
    split at hw
    · rename_i he
      cases hw
      exact ⟨seen, by rw [he]⟩
    · cases hw
  · cases hw

/-- The last commit misses `e` within the window of an earlier release. -/
def missedEarly (env : Env) (e : ExecId) : History → Bool
  | .commit _ _ ws' :: h => (ws'.filterMap (Write.missedAt e)).any fun now' =>
      h.any fun ev => (ev.writes.filterMap (Write.releasedAt e)).any fun now =>
        decide (now' < now + seconds env.settings.workerUnclaimedTimeoutSeconds)
  | _ => false

theorem not_fresh_of_missedEarly {h' : History} (hb : missedEarly env e h' = true)
    (hs : h' <:+ h) : ¬ FreshWindow env h e := by
  intro hf
  unfold missedEarly at hb
  split at hb
  · rename_i q time' ws' h₂
    obtain ⟨now', hnow', hany⟩ := List.any_eq_true.mp hb
    obtain ⟨ev, hev, hany⟩ := List.any_eq_true.mp hany
    obtain ⟨now, hnow, hlt⟩ := List.any_eq_true.mp hany
    obtain ⟨w', hw', hmiss⟩ := List.mem_filterMap.mp hnow'
    obtain ⟨seen', rfl⟩ := of_missedAt hmiss
    obtain ⟨w, hw, hreset⟩ := List.mem_filterMap.mp hnow
    obtain ⟨seen, rfl⟩ := of_releasedAt hreset
    cases ev with
    | commit p time ws =>
      obtain ⟨h₁, hp⟩ := mem_split hev
      exact absurd (hf.kept hs hp hw hw') (Int.not_le.mpr (by simpa using hlt))
    | _ => cases hw
  · cases hb

def releaseIt (p : Pid) : List Action :=
  playAll p .recoverStaleWorkerClaims ([.go, .rows [1]] ++ gos 3)

def missIt (p : Pid) : List Action :=
  playAll p .failUnclaimedWorkerExecutions ([.go, .rows [1]] ++ gos 5)

/-- The claim has run out; one poller cycle releases the execution and misses it. -/
theorem released_and_missed : ∃ s, Reachable plainEnv s ∧
    ¬ FreshWindow plainEnv s.shared.history 1 := by
  obtain ⟨s, hs, hv⟩ := reachable_of_run plainEnv 0
    (fireWorkerCue ++ claimIt 3 "w" ++ [.tick 901000000] ++ releaseIt 4 ++ missIt 5)
    (fun s => missedEarly plainEnv 1 (s.shared.history.drop 1)) true (by decide +kernel)
  exact ⟨s, hs, not_fresh_of_missedEarly hv (List.drop_suffix 1 _)⟩

/-- The next sweep of unclaimed executions is after the window. -/
theorem fresh_window_missed_late : ∃ s r, Reachable plainEnv s ∧
    s.shared.tables.execution 1 = some r ∧ r.status = .missed ∧
    FreshWindow plainEnv s.shared.history 1 := by
  obtain ⟨s, hs, hv⟩ := reachable_of_run plainEnv 0
    (fireWorkerCue ++ claimIt 3 "w" ++ [.tick 901000000] ++ releaseIt 4 ++
      [.tick 901000000] ++ missIt 5)
    (fun s => ((s.shared.tables.execution 1).map (·.status),
      decide (Along (KeepsWindow plainEnv) s.shared.history)))
    (some .missed, true) (by decide +kernel)
  simp only [Prod.mk.injEq, decide_eq_true_eq, Option.map_eq_some_iff] at hv
  obtain ⟨⟨r, hr, hst⟩, hk⟩ := hv
  exact ⟨s, r, hs, hr, hst, fresh_window hs hk 1⟩

/-! ## Scheduled fires -/

/-- What a fire for `due` promises of its execution `e`, in a state reached from it. Nobody is
shown or given the execution before, nor is it missed; and then it is claimable for the window,
until somebody takes it. -/
structure HeldUntilDue (env : Env) (h₀ : History) (e : ExecId) (due : Time) (s : Sys) : Prop where
  unlisted : s.shared.clock < due → ∀ taskOf p user task ids w items, s.shared.store.buf p = [] →
    (getClaimable taskOf p user task).follow s.shared [.rows ids] = some (.ret items, w) →
    e ∉ items.map ClaimableExecution.executionId
  unclaimed : ∀ p time ws worker, .commit p time ws ∈ s.shared.history → time < due →
    ¬ Grants e worker ws
  notMissed : ∀ p time ws seen now, .commit p time ws ∈ s.shared.history → time < due →
    .updateExecution e (.missed seen now) ∉ ws
  window : due ≤ s.shared.clock →
    s.shared.clock < due + seconds env.settings.workerUnclaimedTimeoutSeconds →
    Claimable s.shared.tables e ∨ TakenSince h₀ e s.shared.history

/-- In `s` the fire of a worker cue for a later time has just committed. -/
structure FiredFor (s : Sys) (e : ExecId) (due : Time) : Prop where
  committed : ∃ p ws h row, s.shared.history = .commit p s.shared.clock ws :: h ∧
    (∃ user c sendAt, callOf p h = some (.fireCue user c sendAt)) ∧
    .insertExecution e row ∈ ws ∧ row.scheduledFor = due ∧
    transportOf s.shared.tables row.cueId = some .worker
  later : s.shared.clock < due

/-- Let `p` take its statements alone. -/
theorem run_follow (env : Env) {p : Pid} {m m' : Program Reply} {w : World} {answers : List Answer}
    (hp : s.procs p = some m) (hf : m.follow s.shared answers = some (m', w)) :
    run env s (answers.map (.advance p)) = some (s.put w p (some m')) := by
  induction answers generalizing s m with
  | nil =>
    simp only [Prog.follow, Option.some.injEq, Prod.mk.injEq] at hf
    obtain ⟨rfl, rfl⟩ := hf
    simp only [List.map_nil, run, Config.put, Option.some.injEq]
    rw [← hp, Function.update_eq_self]
  | cons a answers ih =>
    cases m with
    | atomic act k =>
      obtain ⟨⟨r, w₁⟩, hs, hk⟩ := Option.bind_eq_some_iff.mp hf
      have hadv : step env s (.advance p a) = some (s.put w₁ p (some (k r))) := by
        simp only [step, Config.advance, hp, hs, Option.map_some]
        rfl
      simp only [List.map_cons, run, hadv, Option.bind_some]
      rw [ih (m := k r) (by simp [Config.put]) hk]
      simp [Config.put]
    | ret a => cases hf
    | fail => cases hf

/-- A free pending execution is claimed at once. -/
theorem follow_claimExecution (env : Env) {w : World} {q : Pid} {user : UserId}
    (worker : WorkerId) {r : Execution} (hbuf : w.store.buf q = [])
    (hlock : w.store.locks (.execution e) = none)
    (hr : w.tables.execution e = some r) (hst : r.status = .pending)
    (hown : ownedWorkerCue w.tables user r.cueId = true) : ∃ m w',
    (claimExecution env q user e worker).follow w (gos 4) = some (m, w') ∧ w'.clock = w.clock ∧
      .commit q w.clock [.updateExecution e (.workerClaim .claimExecution worker w.clock w.clock)] ∈
        w'.history := by
  have hview : w.view q = w.tables := by
    unfold World.view Store.view
    rw [hbuf]
    rfl
  have hfree : ∀ k ∈ schema.keys (.updateExecution e
      (.workerClaim .claimExecution worker w.clock w.clock)), w.store.Free q k := by
    intro k hk
    obtain rfl : k = .execution e := by simpa [schema, Write.keys] using hk
    exact .inl hlock
  obtain ⟨st, hst'⟩ : ∃ st, w.store.write q (.updateExecution e
      (.workerClaim .claimExecution worker w.clock w.clock)) = some st := by
    unfold Store.write
    rw [dif_pos hfree]
    exact ⟨_, rfl⟩
  obtain ⟨-, hb, -⟩ := Store.write_eq hst'
  have hclaim : (decide (r.status = .pending) && ownedWorkerCue w.tables user r.cueId) = true := by
    simp [hst, hown]
  refine ⟨.ret (.claimed e env.settings.workerClaimTimeoutSeconds), { w with
    store := st.commit q
    history := .commit q w.clock (st.buf q) :: w.history }, ?_, rfl, ?_⟩
  · simp only [claimExecution, clock, updateExecution, commit, gos, List.replicate,
      follow_step_bind, hview, hr, hclaim, if_true, hst', Option.map_some, Option.bind_some]
    rfl
  · rw [hb, Function.update_self, hbuf]
    exact List.mem_cons_self ..

/-- Whoever holds the row may die, and then the execution is claimed before its time. -/
theorem claimed_before_due {r : Execution} (hr : Reachable env s)
    (hrow : s.shared.tables.execution e = some r) (hst : r.status = .pending)
    (hw : transportOf s.shared.tables r.cueId = some .worker) : ∃ as s' p worker ws,
    run env s as = some s' ∧ .commit p s.shared.clock ws ∈ s'.shared.history ∧
      Grants e worker ws := by
  obtain ⟨user, hown⟩ := ownedWorkerCue_of_transportOf hw
  obtain ⟨q, hq⟩ := exists_unborn s.shared.history
  -- a state in which nobody holds the row
  obtain ⟨as, s₁, hrun, htables, hclock, hlock, hq₁⟩ : ∃ as s₁, run env s as = some s₁ ∧
      s₁.shared.tables = s.shared.tables ∧ s₁.shared.clock = s.shared.clock ∧
      s₁.shared.store.locks (.execution e) = none ∧ own q s₁.shared.history = [] := by
    cases hl : s.shared.store.locks (.execution e) with
    | none => exact ⟨[], s, rfl, rfl, rfl, hl, hq⟩
    | some p =>
      obtain ⟨m, hm⟩ : ∃ m, s.procs p = some m := by
        cases hp : s.procs p with
        | none => exact absurd hl ((hr.idleFree.idle p hp).2 _)
        | some m => exact ⟨m, rfl⟩
      have hpq : p ≠ q := by
        rintro rfl
        obtain ⟨call, hcall⟩ := Option.isSome_iff_exists.mp (hr.sysInv.called p (by simp [hm]))
        have hmem := (mem_own rfl).mpr (callOf_mem hcall)
        rw [hq] at hmem
        cases hmem
      refine ⟨[.crash p], leave s p .crashed, ?_, rfl, rfl, ?_, ?_⟩
      · simp [run, step, hm]
      · simp [leave, Config.put, Store.rollback, hl]
      · refine (own_cons_of_ne ?_ _).trans hq
        exact fun heq => hpq (Option.some.inj heq)
  have hr₁ := hr.run hrun
  have hnone : s₁.procs q = none := by
    cases hp : s₁.procs q with
    | none => rfl
    | some m =>
      obtain ⟨call, hcall⟩ := Option.isSome_iff_exists.mp (hr₁.sysInv.called q (by simp [hp]))
      have hmem := (mem_own rfl).mpr (callOf_mem hcall)
      rw [hq₁] at hmem
      cases hmem
  have hbuf := (hr₁.idleFree.idle q hnone).1
  let s₂ := s₁.put (s₁.shared.log (.began q (.claimExecution user e "w"))) q
    (some (programOf env q (.claimExecution user e "w")))
  have hstart : step env s₁ (.start q (.claimExecution user e "w")) = some s₂ := by
    simp [step, hq₁, hbuf, startable, s₂]
  obtain ⟨m, w, hf, -, hmem⟩ := follow_claimExecution env (w := s₂.shared) (q := q) "w"
    hbuf hlock (htables ▸ hrow) hst (htables ▸ hown)
  have hadv := run_follow env (s := s₂) (p := q) (by simp [s₂, Config.put, programOf]) hf
  refine ⟨as ++ .start q (.claimExecution user e "w") :: (gos 4).map (.advance q),
    s₂.put w q (some m), q, "w", [.updateExecution e (.workerClaim .claimExecution "w"
      s₂.shared.clock s₂.shared.clock)], ?_, ?_, .claimExecution, _, _, List.mem_singleton_self _⟩
  · rw [run_append, hrun, Option.bind_some, run, hstart]
    exact hadv
  · rw [← hclock]
    exact hmem

/-- No fire of a worker cue for a later time is held until then. -/
theorem scheduled_fire_not_held {due : Time} (hr : Reachable env s) (hf : FiredFor s e due) :
    ¬ ∀ as s', run env s as = some s' → HeldUntilDue env s.shared.history e due s' := by
  obtain ⟨⟨p, ws, h, row, hh, -, hm, -, hw⟩, hlt⟩ := hf
  have hl := hr.legal
  rw [hh] at hl
  have hrow : s.shared.tables.execution e = some row ∧ row.status = .pending := by
    rw [hr.tables_eq, hh]
    have hm' : .insertExecution e row ∈ writesOn (.execution e) ws := mem_writesOn.mpr ⟨hm, rfl⟩
    cases exec_step hl.1 e with
    | same _ _ hws => simp [hws p _ ws rfl] at hm'
    | updated _ _ _ _ u r _ _ _ hws _ => simp [hws] at hm'
    | created _ _ _ call row' _ _ hrow hws _ hc =>
      simp only [hws, List.mem_singleton, Write.insertExecution.injEq, true_and] at hm'
      subst hm'
      exact ⟨hrow, (hc.fresh).status⟩
  intro hheld
  obtain ⟨as, s', q, worker, us, hrun, hmem, hg⟩ := claimed_before_due hr hrow.1 hrow.2 hw
  exact (hheld as s' hrun).unclaimed q _ us worker hmem hlt hg

def Call.fires : Call → Bool
  | .fireCue _ _ _ => true
  | _ => false

def Write.firesFor (t : Tables) (e : ExecId) (due : Time) : Write → Bool
  | .insertExecution e' row =>
      e' = e && row.scheduledFor = due && transportOf t row.cueId = some .worker
  | _ => false

/-- `FiredFor`, as a check. -/
def justFired (s : Sys) (e : ExecId) (due : Time) : Bool :=
  decide (s.shared.clock < due) && match s.shared.history with
    | .commit p time ws :: h => decide (time = s.shared.clock) && (callOf p h).any Call.fires &&
        ws.any (Write.firesFor s.shared.tables e due)
    | _ => false

theorem firedFor_of_justFired {due : Time} (hj : justFired s e due = true) : FiredFor s e due := by
  simp only [justFired, Bool.and_eq_true, decide_eq_true_eq] at hj
  obtain ⟨hlt, hj⟩ := hj
  split at hj
  · rename_i p time ws h hh
    simp only [Bool.and_eq_true, decide_eq_true_eq] at hj
    obtain ⟨⟨rfl, hcall⟩, hws⟩ := hj
    obtain ⟨call, hcall, hfire⟩ := (Option.any_eq_true _ _).mp hcall
    obtain ⟨w, hw, hfor⟩ := List.any_eq_true.mp hws
    refine ⟨⟨p, ws, h, ?_⟩, hlt⟩
    cases call with
    | fireCue user c sendAt =>
      cases w with
      | insertExecution e' row =>
        simp only [Write.firesFor, Bool.and_eq_true, decide_eq_true_eq] at hfor
        obtain ⟨⟨rfl, hdue⟩, htr⟩ := hfor
        exact ⟨row, hh, ⟨user, c, sendAt, hcall⟩, hw, hdue, htr⟩
      | _ => cases hfor
    | _ => cases hfire
  · cases hj

/-- A worker cue that is fired for an hour later, up to the commit. -/
def fireForLater : List Action :=
  playAll 1 (.createCue 1 workerCue) (gos 4 ++ [.fresh 7, .go]) ++
  play 2 (.fireCue 1 7 (some ⟨3600000000, true⟩)) (gos 3 ++ [.bool false, .fresh 1, .go])

/-- The executions that a list of claimable ones shows. -/
def shownIds : Program (List ClaimableExecution) → List ExecId
  | .ret items => items.map ClaimableExecution.executionId
  | _ => []

/-- The execution is in the list of claimable ones at once. -/
theorem scheduled_fire_listed : ∃ s, Reachable plainEnv s ∧ FiredFor s 1 3600000000 ∧
    ¬ ∀ as s', run plainEnv s as = some s' →
      HeldUntilDue plainEnv s.shared.history 1 3600000000 s' := by
  obtain ⟨s, hs, hv⟩ := reachable_of_run plainEnv 0 fireForLater
    (fun s => (justFired s 1 3600000000, s.shared.store.buf 9,
      ((getClaimable (fun _ => none) 9 1 none).follow s.shared [.rows [1]]).map fun x =>
        shownIds x.1)) (true, [], some [1]) (by decide +kernel)
  simp only [Prod.mk.injEq, Option.map_eq_some_iff] at hv
  obtain ⟨hfired, hbuf, ⟨m, w⟩, hf, hitems⟩ := hv
  have hfor := firedFor_of_justFired hfired
  refine ⟨s, hs, hfor, fun hheld => ?_⟩
  cases m with
  | ret items =>
    refine (hheld [] s rfl).unlisted hfor.later (fun _ => none) 9 1 none [1] w items hbuf hf ?_
    change items.map _ = [1] at hitems
    rw [hitems]
    exact List.mem_singleton_self 1
  | fail => cases hitems
  | atomic act k => cases hitems

theorem scheduled_fire_not_held_hour : ∃ s, Reachable plainEnv s ∧ FiredFor s 1 3600000000 ∧
    ¬ ∀ as s', run plainEnv s as = some s' →
      HeldUntilDue plainEnv s.shared.history 1 3600000000 s' := by
  obtain ⟨s, hs, hv⟩ := reachable_of_run plainEnv 0 fireForLater
    (fun s => justFired s 1 3600000000) true (by decide +kernel)
  have hfor := firedFor_of_justFired hv
  exact ⟨s, hs, hfor, scheduled_fire_not_held hs hfor⟩

end CueApi.Scheduler
