import Mathlib.Data.Fintype.EquivFin
import CueApi.Library.Always
import CueApi.Scheduler.System

/-! The footprint of the programs: a statement of `p` reads, logs, locks for `p`, adds to the
buffer of `p` or commits it, and each call issues only the writes of its own list. -/

namespace CueApi.Scheduler

open ReadCommitted Interleaving Prog

/-! ## Kinds of writes -/

inductive WriteKind
  | insertExecution | insertCue | insertOutbox | updateOutbox | putWorker | deleteWorker
  | claim | limitReached | delivered | retryLater | exhausted | retryReady | recovered | stuck
  | resetClaim | missed | workerClaim | heartbeat | outcome
  | incrementFired | advance | incrementRun | ran | outcomeRun | finish | pause
  deriving DecidableEq, Repr

def Write.kind : Write → WriteKind
  | .insertExecution _ _ => .insertExecution
  | .updateExecution _ (.claim _ _ _) => .claim
  | .updateExecution _ (.limitReached _) => .limitReached
  | .updateExecution _ (.delivered _ _ _ _) => .delivered
  | .updateExecution _ (.retryLater _ _ _ _ _) => .retryLater
  | .updateExecution _ (.exhausted _ _ _ _) => .exhausted
  | .updateExecution _ (.retryReady _) => .retryReady
  | .updateExecution _ (.recovered _ _ _) => .recovered
  | .updateExecution _ (.stuck _ _) => .stuck
  | .updateExecution _ (.resetClaim _ _) => .resetClaim
  | .updateExecution _ (.missed _ _) => .missed
  | .updateExecution _ (.workerClaim _ _ _ _) => .workerClaim
  | .updateExecution _ (.heartbeat _) => .heartbeat
  | .updateExecution _ (.outcome _ _ _ _) => .outcome
  | .insertCue _ _ => .insertCue
  | .updateCue _ (.incrementFired _) => .incrementFired
  | .updateCue _ (.advance _ _) => .advance
  | .updateCue _ (.incrementRun _) => .incrementRun
  | .updateCue _ (.ran _) => .ran
  | .updateCue _ (.outcomeRun _) => .outcomeRun
  | .updateCue _ (.finish _ _) => .finish
  | .updateCue _ (.pause _) => .pause
  | .insertOutbox _ _ => .insertOutbox
  | .updateOutbox _ _ => .updateOutbox
  | .putWorker _ _ => .putWorker
  | .deleteWorker _ => .deleteWorker

def Call.kinds : Call → List WriteKind
  | .createCue _ _ => [.insertCue]
  | .fireCue _ _ _ | .replayExecution _ _ => [.insertExecution, .insertOutbox]
  | .claimNextExecution _ _ | .claimExecution _ _ _ => [.workerClaim]
  | .executionHeartbeat _ _ _ => [.heartbeat]
  | .recordOutcome _ _ _ => [.outcome, .outcomeRun, .finish]
  | .heartbeat _ _ _ => [.putWorker]
  | .deleteWorker _ _ => [.deleteWorker]
  | .processCueBatch => [.insertExecution, .incrementFired, .insertOutbox, .advance]
  | .pollRetries => [.insertOutbox, .retryReady]
  | .dispatchOutbox => [.updateOutbox]
  | .recoverStaleExecutions => [.recovered, .stuck, .finish, .pause]
  | .recoverStaleWorkerClaims => [.resetClaim]
  | .failUnclaimedWorkerExecutions => [.missed, .finish, .pause]
  | .job _ => [.limitReached, .claim, .incrementRun, .delivered, .retryLater, .exhausted, .ran,
      .finish, .pause]

/-- The write is of the call's list, a new row is as INSERTs make them, and a cue is finished
as completed or failed. -/
def Call.issues (call : Call) (wr : Write) : Prop :=
  wr.kind ∈ call.kinds ∧ match wr with
    | .insertCue _ row => row.status = .active ∧ row.nextRun.isSome
    | .insertExecution _ row => row.status = .pending
    | .updateCue _ (.finish status _) => status = .completed ∨ status = .failed
    | _ => True

/-! ## Statements -/

/-- One statement of `p`, with the writes `W`. -/
inductive Stmt (p : Pid) (W : Write → Prop) (w : World) : World → Prop
  | read : Stmt p W w w
  | logged (ev : Event) : ev.pid = some p → (∀ q call, ev ≠ .began q call) →
      (∀ q time ws, ev ≠ .commit q time ws) → (∀ q how, ev ≠ .ended q how) →
      (∀ q n j, ev = .enqueued q n j → W (.updateOutbox n .dispatched)) → Stmt p W w (w.log ev)
  | locked (ks : List Key) (s : Store schema Pid) : w.store.lock p ks = some s →
      Stmt p W w { w with store := s }
  | wrote (wr : Write) (s : Store schema Pid) : W wr → w.store.write p wr = some s →
      Stmt p W w { w with store := s }
  | committed : Stmt p W w { w with
      store := w.store.commit p
      history := .commit p w.clock (w.store.buf p) :: w.history }

theorem Stmt.mono {p : Pid} {W W' : Write → Prop} {w w' : World} (hs : Stmt p W w w')
    (hW : ∀ wr, W wr → W' wr) : Stmt p W' w w' := by
  cases hs with
  | read => exact .read
  | logged ev hp hb hc he hn =>
    exact .logged ev hp hb hc he fun q n j heq => hW _ (hn q n j heq)
  | locked ks s hl => exact .locked ks s hl
  | wrote wr s hwr hs => exact .wrote wr s (hW wr hwr) hs
  | committed => exact .committed

/-- The locks and the buffer of another process. -/
theorem Stmt.others {p q : Pid} {W : Write → Prop} {w w' : World} (hs : Stmt p W w w')
    (hq : q ≠ p) : w'.store.buf q = w.store.buf q ∧
      ∀ k, w'.store.locks k = some q → w.store.locks k = some q := by
  cases hs with
  | read => exact ⟨rfl, fun _ hk => hk⟩
  | logged ev _ _ _ _ _ => exact ⟨rfl, fun _ hk => hk⟩
  | locked ks s hl =>
    obtain ⟨-, hb, hlocks, -⟩ := Store.lock_eq hl
    refine ⟨by rw [hb], fun k hk => ?_⟩
    rw [hlocks] at hk
    split at hk
    · exact absurd (Option.some.inj hk).symm hq
    · exact hk
  | wrote wr s _ hwr =>
    obtain ⟨-, hb, hlocks, -⟩ := Store.write_eq hwr
    refine ⟨by rw [hb, Function.update_of_ne hq], fun k hk => ?_⟩
    rw [hlocks] at hk
    split at hk
    · exact absurd (Option.some.inj hk).symm hq
    · exact hk
  | committed =>
    refine ⟨Function.update_of_ne hq _ _, fun k hk => ?_⟩
    by_cases hp : w.store.locks k = some p
    · simp [Store.commit, hp] at hk
    · simpa [Store.commit, hp] using hk

/-- Each statement of the program is one of `p` with the writes `W`. -/
abbrev Stmts {α : Type} (p : Pid) (W : Write → Prop) (m : Program α) : Prop :=
  m.Always (fun _ => True) (Stmt p W)

section Rules

variable {p : Pid} {W : Write → Prop}

theorem stmts_clock : Stmts p W clock := Always.step fun w _ _ _ _ hs => by
  cases hs
  exact .read

theorem stmts_select {β : Type} (q : Tables → β) : Stmts p W (select p q) :=
  Always.step fun w _ _ _ _ hs => by
    cases hs
    exact .read

theorem stmts_selectRows {V : Type} (tbl : Tables → Table Nat V) (wh : Tables → V → Bool)
    (order : V → Time) (limit : Nat) : Stmts p W (selectRows p tbl wh order limit) :=
  Always.step fun w a _ _ _ hs => by
    split at hs
    · dsimp only at hs
      split at hs
      · cases hs
        exact .read
      · cases hs
    · cases hs

theorem stmts_selectRowsForUpdate {V : Type} (tbl : Tables → Table Nat V) (key : Nat → Key)
    (wh : Tables → V → Bool) (order : V → Time) (limit : Nat) :
    Stmts p W (selectRowsForUpdate p tbl key wh order limit) :=
  Always.step fun w a _ _ _ hs => by
    split at hs
    · dsimp only at hs
      split at hs
      · obtain ⟨s, hl, heq⟩ := Option.map_eq_some_iff.mp hs
        cases heq
        exact .locked _ s hl
      · cases hs
    · cases hs

theorem stmts_write {wr : Write} (hw : W wr) : Stmts p W (write p wr) :=
  Always.step fun w _ _ _ _ hs => by
    obtain ⟨s, hwr, heq⟩ := Option.map_eq_some_iff.mp hs
    cases heq
    exact .wrote wr s hw hwr

theorem stmts_updateExecution {e : ExecId} {u : ExecUpdate} (wh : Tables → Execution → Bool)
    (hw : W (.updateExecution e u)) : Stmts p W (updateExecution p e wh u) :=
  Always.step fun w _ _ _ _ hs => by
    split at hs
    · split at hs
      · obtain ⟨s, hwr, heq⟩ := Option.map_eq_some_iff.mp hs
        cases heq
        exact .wrote _ s hw hwr
      · cases hs
        exact .logged _ rfl (by simp) (by simp) (by simp) (by simp)
    · cases hs
      exact .logged _ rfl (by simp) (by simp) (by simp) (by simp)

theorem stmts_updateExecutionById {e : ExecId} {u : ExecUpdate} (hw : W (.updateExecution e u)) :
    Stmts p W (updateExecutionById p e u) := stmts_updateExecution _ hw

theorem stmts_updateCue {c : CueId} {u : CueUpdate} (hw : W (.updateCue c u)) :
    Stmts p W (updateCue p c u) := stmts_write hw

theorem stmts_insertExecution {row : Execution} (hw : ∀ e, W (.insertExecution e row)) :
    Stmts p W (insertExecution p row) :=
  Always.step fun w a _ _ _ hs => by
    split at hs
    · dsimp only at hs
      split at hs
      · split at hs
        · cases hs
          exact .read
        · obtain ⟨s, hwr, heq⟩ := Option.map_eq_some_iff.mp hs
          cases heq
          exact .wrote _ s (hw _) hwr
      · cases hs
    · cases hs

theorem stmts_insertCue {row : Cue} (hw : ∀ c, W (.insertCue c row)) :
    Stmts p W (insertCue p row) :=
  Always.step fun w a _ _ _ hs => by
    split at hs
    · dsimp only at hs
      split at hs
      · split at hs
        · cases hs
          exact .read
        · obtain ⟨s, hwr, heq⟩ := Option.map_eq_some_iff.mp hs
          cases heq
          exact .wrote _ s (hw _) hwr
      · cases hs
    · cases hs

theorem stmts_insertOutbox {row : OutboxRow} (hw : ∀ n, W (.insertOutbox n row)) :
    Stmts p W (insertOutbox p row) :=
  Always.step fun w a _ _ _ hs => by
    split at hs
    · split at hs
      · obtain ⟨s, hwr, heq⟩ := Option.map_eq_some_iff.mp hs
        cases heq
        exact .wrote _ s (hw _) hwr
      · cases hs
    · cases hs

theorem stmts_commit : Stmts p W (commit p) := Always.step fun w _ _ _ _ hs => by
  cases hs
  exact .committed

theorem stmts_fetchAttempts (e : ExecId) : Stmts p W (fetchAttempts p e) :=
  Always.step fun w _ _ _ _ hs => by
    cases hs
    exact .logged _ rfl (by simp) (by simp) (by simp) (by simp)

theorem stmts_enqueueJob {n : OutboxId} (hw : W (.updateOutbox n .dispatched)) (j : Job) :
    Stmts p W (enqueueJob p n j) :=
  Always.step fun w a _ _ _ hs => by
    split at hs
    · cases hs
      exact .logged _ rfl (by simp) (by simp) (by simp) fun _ _ _ heq => by
        cases heq
        exact hw
    · cases hs
      exact .read
    · cases hs

theorem stmts_checkExecutionLimit : Stmts p W checkExecutionLimit :=
  Always.step fun w a _ _ _ hs => by
    split at hs
    · cases hs
      exact .read
    · cases hs

theorem stmts_deliverWebhook (e : ExecId) (attempt : Nat) :
    Stmts p W (deliverWebhook p e attempt) :=
  Always.step fun w a _ _ _ hs => by
    split at hs
    · cases hs
      exact .logged _ rfl (by simp) (by simp) (by simp) (by simp)
    · cases hs
      exact .logged _ rfl (by simp) (by simp) (by simp) (by simp)
    · cases hs

theorem stmts_buildIpcDeliveryMetadata : Stmts p W buildIpcDeliveryMetadata :=
  Always.step fun w a _ _ _ hs => by
    split at hs
    · cases hs
      exact .read
    · cases hs
      exact .read
    · cases hs

theorem stmts_selectForOutcome (user : UserId) (e : ExecId) :
    Stmts p W (selectForOutcome p user e) :=
  Always.step fun w _ _ _ _ hs => by
    split at hs
    · cases hs
      exact .read
    · obtain ⟨s, hl, heq⟩ := Option.map_eq_some_iff.mp hs
      cases heq
      exact .locked _ s hl

end Rules

/-! ## Programs -/

section Programs

variable {env : Env} {p : Pid}

attribute [local simp] Write.kind Call.kinds

theorem stmts_createCue {user : UserId} {data : CueCreate} :
    Stmts p (Call.createCue user data).issues (createCue env p user data) := by
  refine stmts_clock.bind fun began => (stmts_select _).bind fun named => ?_
  split
  · trivial
  · refine (stmts_select _).bind fun activeCount => ?_
    dsimp only
    split
    · trivial
    · refine stmts_clock.bind fun now => ?_
      split
      · trivial
      · trivial
      · refine (stmts_insertCue fun c => ⟨by simp, rfl, rfl⟩).bind
          fun inserted => ?_
        split
        · trivial
        · exact stmts_commit.bind fun _ => trivial

theorem stmts_trigger {W : Write → Prop} {user : UserId} {c : CueId} {cue : Cue}
    {source : Trigger} {s began : Time} {scheduledAt : Option Time} {metadata : Option Json}
    (he : ∀ e, W (.insertExecution e (triggeredExecution c source s began metadata)))
    (hn : ∀ n e, W (.insertOutbox n (triggeredOutbox env user c cue e s began scheduledAt))) :
    Stmts p W (trigger env p user c cue source s began scheduledAt metadata) := by
  refine (stmts_insertExecution he).bind fun inserted => ?_
  split
  · trivial
  · rename_i e
    split
    · refine (stmts_insertOutbox fun n => hn n e).bind fun _ => ?_
      exact stmts_commit.bind fun _ => trivial
    · exact stmts_commit.bind fun _ => trivial

theorem stmts_fireCue {user : UserId} {c : CueId} {sendAt : Option DateTime} :
    Stmts p (Call.fireCue user c sendAt).issues (fireCue env p user c sendAt) := by
  refine stmts_clock.bind fun began => (stmts_select _).bind fun cue? => ?_
  split
  · trivial
  · refine stmts_clock.bind fun now => ?_
    split
    · split
      · exact stmts_buildIpcDeliveryMetadata.bind fun metadata => stmts_trigger
          (fun e => ⟨by simp, rfl⟩)
          fun n e => ⟨by simp, trivial⟩
      · trivial
    · exact stmts_buildIpcDeliveryMetadata.bind fun metadata => stmts_trigger
        (fun e => ⟨by simp, rfl⟩)
        fun n e => ⟨by simp, trivial⟩

theorem stmts_replayExecution {user : UserId} {e : ExecId} :
    Stmts p (Call.replayExecution user e).issues (replayExecution env p user e) := by
  refine stmts_clock.bind fun began => (stmts_select _).bind fun row? => ?_
  split
  · trivial
  · split
    · exact stmts_clock.bind fun now => stmts_trigger
        (fun e => ⟨by simp, rfl⟩)
        fun n e => ⟨by simp, trivial⟩
    · trivial

theorem stmts_claimNextExecution {user : UserId} {worker : WorkerId} :
    Stmts p (Call.claimNextExecution user worker).issues
      (claimNextExecution env p user worker) := by
  refine stmts_clock.bind fun began => stmts_clock.bind fun now => ?_
  refine (stmts_selectRows _ _ _ _).bind fun picked => ?_
  split
  · trivial
  · refine (stmts_updateExecutionById
      ⟨by simp, trivial⟩).bind fun claimed => ?_
    split
    · exact stmts_commit.bind fun _ => trivial
    · trivial

theorem stmts_claimExecution {user : UserId} {e : ExecId} {worker : WorkerId} :
    Stmts p (Call.claimExecution user e worker).issues (claimExecution env p user e worker) := by
  refine stmts_clock.bind fun began => stmts_clock.bind fun now => ?_
  refine (stmts_updateExecution _
    ⟨by simp, trivial⟩).bind fun claimed => ?_
  split
  · exact stmts_commit.bind fun _ => trivial
  · trivial

theorem stmts_executionHeartbeat {user : UserId} {e : ExecId} {xWorkerId : Option WorkerId} :
    Stmts p (Call.executionHeartbeat user e xWorkerId).issues
      (executionHeartbeat env p user e xWorkerId) := by
  refine (stmts_select _).bind fun row? => ?_
  split
  · trivial
  · split
    · trivial
    · refine stmts_clock.bind fun now => ?_
      refine (stmts_updateExecutionById
        ⟨by simp, trivial⟩).bind fun _ => ?_
      exact stmts_commit.bind fun _ => trivial

theorem stmts_recordOutcome {user : UserId} {e : ExecId} {body : OutcomeRequest} :
    Stmts p (Call.recordOutcome user e body).issues (recordOutcome p user e body) := by
  refine (stmts_selectForOutcome user e).bind fun row? => ?_
  split
  · trivial
  · split
    · trivial
    · split
      · trivial
      · refine stmts_clock.bind fun now => ?_
        refine (stmts_updateExecutionById
          ⟨by simp, trivial⟩).bind fun _ => ?_
        split
        · refine (stmts_updateCue ⟨by simp, trivial⟩).bind fun _ => ?_
          split
          · refine (stmts_updateCue ⟨by simp, ?_⟩).bind fun _ => ?_
            · exact stmts_commit.bind fun _ => trivial
            · cases body.success
              · exact .inr rfl
              · exact .inl rfl
          · exact stmts_commit.bind fun _ => trivial
        · exact stmts_commit.bind fun _ => trivial

theorem stmts_heartbeat {user : UserId} {worker : WorkerId} {handlers : Option (List String)} :
    Stmts p (Call.heartbeat user worker handlers).issues (heartbeat p user worker handlers) := by
  refine stmts_clock.bind fun now => ?_
  refine (stmts_write ⟨by simp, trivial⟩).bind fun _ => ?_
  exact stmts_commit.bind fun _ => trivial

theorem stmts_deleteWorker {user : UserId} {worker : WorkerId} :
    Stmts p (Call.deleteWorker user worker).issues (deleteWorker p user worker) := by
  refine (stmts_select _).bind fun found => ?_
  split
  · refine (stmts_write ⟨by simp, trivial⟩).bind fun _ => ?_
    exact stmts_commit.bind fun _ => trivial
  · trivial

/-- The end of an iteration of `_process_cue_batch`. -/
def moveOn (env : Env) (p : Pid) (now : Time) (c : CueId) (cue : Cue) (s : Time) : Program Unit :=
  match nextRunAfter env cue s with
  | none => .fail
  | some next => updateCue p c (.advance next now)

theorem stmts_moveOn {W : Write → Prop} {now s : Time} {c : CueId} {cue : Cue}
    (ha : ∀ next, W (.updateCue c (.advance next now))) :
    Stmts p W (moveOn env p now c cue s) := by
  unfold moveOn
  split
  · trivial
  · exact stmts_updateCue (ha _)

theorem stmts_processCue {W : Write → Prop} {now began : Time} {c : CueId} {cue : Cue}
    (he : ∀ e s, W (.insertExecution e (firedExecution c s began)))
    (hf : W (.updateCue c (.incrementFired began)))
    (hn : ∀ n e s, W (.insertOutbox n (firedOutbox env c cue e s began)))
    (ha : ∀ next, W (.updateCue c (.advance next now))) :
    Stmts p W (processCue env p now began (c, cue)) := by
  unfold processCue
  dsimp only
  split
  · trivial
  · rename_i s hs
    have move : Stmts p W (moveOn env p now c cue s) := stmts_moveOn ha
    refine (stmts_insertExecution fun e => he e s).bind fun inserted => ?_
    split
    · rename_i e
      refine (stmts_updateCue hf).bind fun _ => ?_
      split
      · exact move
      · exact (stmts_insertOutbox fun n => hn n e s).bind fun _ => move
    · exact move

theorem stmts_processCueBatch :
    Stmts p Call.processCueBatch.issues (processCueBatch env p) := by
  refine stmts_clock.bind fun now => stmts_clock.bind fun began => ?_
  refine (stmts_selectRowsForUpdate _ _ _ _ _).bind fun dueCues => ?_
  refine (Always.mapEach (fun x => ?_) dueCues).bind fun done => ?_
  · exact stmts_processCue (fun _ _ => ⟨by simp, rfl⟩) ⟨by simp, trivial⟩
      (fun _ _ _ => ⟨by simp, trivial⟩) fun _ => ⟨by simp, trivial⟩
  · exact stmts_commit.bind fun _ => trivial

theorem stmts_pollRetries : Stmts p Call.pollRetries.issues (pollRetries env p) := by
  refine stmts_clock.bind fun now => stmts_clock.bind fun began => ?_
  refine (stmts_selectRowsForUpdate _ _ _ _ _).bind fun retries => ?_
  refine Always.bind (Always.mapEach (fun x => ?_) retries) fun counts => ?_
  · refine (stmts_select _).bind fun cue? => ?_
    split
    · trivial
    · refine (stmts_select _).bind fun row? => ?_
      split
      · trivial
      · refine (stmts_insertOutbox fun n => ⟨by simp, trivial⟩).bind fun _ => ?_
        exact (stmts_updateExecutionById ⟨by simp, trivial⟩).bind fun _ => trivial
  · exact stmts_commit.bind fun _ => trivial

theorem stmts_dispatchOutbox : Stmts p Call.dispatchOutbox.issues (dispatchOutbox env p) := by
  refine stmts_clock.bind fun now => ?_
  refine (stmts_selectRowsForUpdate _ _ _ _ _).bind fun rows => ?_
  refine Always.bind (Always.mapEach (fun x => ?_) rows) fun counts => ?_
  · refine (stmts_enqueueJob ⟨by simp, trivial⟩ _).bind fun failed => ?_
    split
    · exact (stmts_write ⟨by simp, trivial⟩).bind fun _ => trivial
    · exact (stmts_write ⟨by simp, trivial⟩).bind fun _ => trivial
  · exact stmts_commit.bind fun _ => trivial

theorem stmts_runOnFailureEscalation {W : Write → Prop}
    (hw : ∀ c now, W (.updateCue c (.pause now))) (c : CueId) :
    Stmts p W (runOnFailureEscalation p c) := by
  refine (stmts_select _).bind fun cue? => ?_
  split
  · trivial
  · split
    · refine stmts_clock.bind fun now => (stmts_updateCue (hw c now)).bind fun _ => ?_
      exact stmts_commit
    · trivial

theorem stmts_recoverStaleExecutions :
    Stmts p Call.recoverStaleExecutions.issues (recoverStaleExecutions env p) := by
  refine stmts_clock.bind fun t => (stmts_selectRowsForUpdate _ _ _ _ _).bind fun stale => ?_
  refine stmts_clock.bind fun now => ?_
  refine Always.bind (Always.mapEach (fun x => ?_) stale) fun escalations => ?_
  · refine (stmts_select _).bind fun cue? => ?_
    dsimp only
    split
    · split
      · trivial
      · exact (stmts_updateExecutionById ⟨by simp, trivial⟩).bind fun _ => trivial
    · refine (stmts_updateExecutionById ⟨by simp, trivial⟩).bind fun _ => ?_
      split
      · exact (stmts_updateCue ⟨by simp, .inr rfl⟩).bind fun _ => trivial
      · trivial
  · refine stmts_commit.bind fun _ => ?_
    refine (Always.mapEach (stmts_runOnFailureEscalation fun c now => ?_) _).bind fun _ => trivial
    exact ⟨by simp, trivial⟩

theorem stmts_recoverStaleWorkerClaims :
    Stmts p Call.recoverStaleWorkerClaims.issues (recoverStaleWorkerClaims env p) := by
  refine stmts_clock.bind fun now => (stmts_selectRows _ _ _ _).bind fun stale => ?_
  refine Always.bind (Always.mapEach (fun x => ?_) stale) fun counts => ?_
  · refine (stmts_select _).bind fun worker? => ?_
    dsimp only
    split
    · exact (stmts_updateExecutionById ⟨by simp, trivial⟩).bind fun _ => trivial
    · trivial
  · exact stmts_commit.bind fun _ => trivial

theorem stmts_failUnclaimedWorkerExecutions :
    Stmts p Call.failUnclaimedWorkerExecutions.issues (failUnclaimedWorkerExecutions env p) := by
  refine stmts_clock.bind fun now => (stmts_selectRows _ _ _ _).bind fun unclaimed => ?_
  refine Always.bind (Always.mapEach (fun x => ?_) unclaimed) fun escalations => ?_
  · refine (stmts_updateExecutionById ⟨by simp, trivial⟩).bind fun _ => ?_
    refine (stmts_select _).bind fun cue? => ?_
    split
    · exact (stmts_updateCue ⟨by simp, .inr rfl⟩).bind fun _ => trivial
    · trivial
  · refine stmts_commit.bind fun _ => ?_
    refine (Always.mapEach (stmts_runOnFailureEscalation fun c now => ?_) _).bind fun _ => trivial
    exact ⟨by simp, trivial⟩

theorem stmts_handleSuccess {j : Job} {e : ExecId} {c : CueId} {http : Option Nat}
    {body : Option String} {attempt : Nat} :
    Stmts p (Call.job j).issues (handleSuccess p e c http body attempt) := by
  refine stmts_clock.bind fun now => ?_
  refine (stmts_updateExecutionById ⟨by simp, trivial⟩).bind fun _ => ?_
  refine (stmts_updateCue ⟨by simp, trivial⟩).bind fun _ => (stmts_select _).bind fun cue? => ?_
  split
  · exact (stmts_updateCue ⟨by simp, .inl rfl⟩).bind fun _ => stmts_commit
  · exact stmts_commit

theorem stmts_handleFailure {j : Job} {e : ExecId} {c : CueId} {http : Option Nat}
    {error : String} {attempt maxAttempts : Nat} {backoff : List Int} :
    Stmts p (Call.job j).issues
      (handleFailure p e c http error attempt maxAttempts backoff) := by
  refine stmts_clock.bind fun now => ?_
  split
  · split
    · trivial
    · exact (stmts_updateExecutionById ⟨by simp, trivial⟩).bind fun _ => stmts_commit
  · refine (stmts_updateExecutionById ⟨by simp, trivial⟩).bind fun _ => ?_
    refine (stmts_updateCue ⟨by simp, trivial⟩).bind fun _ => (stmts_select _).bind fun cue? => ?_
    split
    · exact stmts_commit
    · split
      · exact (stmts_updateCue ⟨by simp, .inr rfl⟩).bind fun _ => stmts_commit
      · split
        · exact (stmts_updateCue ⟨by simp, trivial⟩).bind fun _ => stmts_commit
        · exact stmts_commit

theorem stmts_claimAndDeliver {j : Job} {task : TaskType} {pl : DeliveryPayload} :
    Stmts p (Call.job j).issues (claimAndDeliver p task pl) := by
  refine Always.bind ?_ fun claimed => ?_
  · refine stmts_clock.bind fun began => stmts_clock.bind fun now => ?_
    refine (stmts_updateExecution _ ⟨by simp, trivial⟩).bind fun claimed => ?_
    exact stmts_commit.bind fun _ => trivial
  · split
    · refine Always.bind ?_ fun _ => trivial
      refine (stmts_fetchAttempts _).bind fun attempts => ?_
      refine (stmts_deliverWebhook _ _).bind fun result => stmts_clock.bind fun began => ?_
      refine (stmts_updateCue ⟨by simp, trivial⟩).bind fun _ => ?_
      split
      · exact stmts_handleSuccess
      · exact stmts_handleFailure
    · trivial

theorem stmts_runJob {j : Job} : Stmts p (Call.job j).issues (runJob p j) := by
  unfold runJob
  split
  · unfold deliverWebhookTask
    split
    · refine stmts_checkExecutionLimit.bind fun allowed => ?_
      split
      · exact stmts_claimAndDeliver
      · refine stmts_clock.bind fun now => ?_
        refine (stmts_updateExecutionById ⟨by simp, trivial⟩).bind fun _ => ?_
        exact stmts_commit.bind fun _ => trivial
    · exact stmts_claimAndDeliver
  · exact stmts_claimAndDeliver

theorem stmts_programOf (env : Env) (p : Pid) (call : Call) :
    Stmts p call.issues (programOf env p call) := by
  cases call with
  | createCue user data => exact stmts_createCue
  | fireCue user c sendAt => exact stmts_fireCue
  | replayExecution user e => exact stmts_replayExecution
  | claimNextExecution user worker => exact stmts_claimNextExecution
  | claimExecution user e worker => exact stmts_claimExecution
  | executionHeartbeat user e xWorkerId => exact stmts_executionHeartbeat
  | recordOutcome user e body => exact stmts_recordOutcome
  | heartbeat user worker handlers => exact stmts_heartbeat
  | deleteWorker user worker => exact stmts_deleteWorker
  | processCueBatch => exact stmts_processCueBatch
  | pollRetries => exact stmts_pollRetries
  | dispatchOutbox => exact stmts_dispatchOutbox
  | recoverStaleExecutions => exact stmts_recoverStaleExecutions
  | recoverStaleWorkerClaims => exact stmts_recoverStaleWorkerClaims
  | failUnclaimedWorkerExecutions => exact stmts_failUnclaimedWorkerExecutions
  | job j => exact stmts_runJob

end Programs

/-! ## Idle processes -/

variable {env : Env} {s : Sys}

/-- Only running processes hold locks and buffered writes. -/
structure IdleFree (s : Sys) : Prop where
  stmts : ∀ p m, s.procs p = some m → Stmts p (fun _ => True) m
  idle : ∀ p, s.procs p = none → s.shared.store.buf p = [] ∧ ∀ k, s.shared.store.locks k ≠ some p

theorem IdleFree.leave (hi : IdleFree s) (p : Pid) (how : Ending) : IdleFree (leave s p how) where
  stmts q m hm := by
    by_cases hq : q = p
    · subst hq
      simp [Scheduler.leave, Config.put] at hm
    · exact hi.stmts q m (by simpa [Scheduler.leave, Config.put, hq] using hm)
  idle q hn := by
    by_cases hq : q = p
    · subst hq
      refine ⟨Function.update_self _ _ _, fun k hk => ?_⟩
      by_cases hp : s.shared.store.locks k = some q
      · simp [Scheduler.leave, Config.put, Store.rollback, hp] at hk
      · simp [Scheduler.leave, Config.put, Store.rollback, hp] at hk
    · obtain ⟨hb, hl⟩ := hi.idle q (by simpa [Scheduler.leave, Config.put, hq] using hn)
      refine ⟨(Function.update_of_ne hq _ _).trans hb, fun k hk => hl k ?_⟩
      by_cases hp : s.shared.store.locks k = some p
      · simp [Scheduler.leave, Config.put, Store.rollback, hp] at hk
      · simpa [Scheduler.leave, Config.put, Store.rollback, hp] using hk

theorem IdleFree.step (hi : IdleFree s) {a : Action} {s' : Sys}
    (hs : Scheduler.step env s a = some s') : IdleFree s' := by
  cases a with
  | start p call =>
    simp only [Scheduler.step] at hs
    split at hs
    · cases hs
      refine ⟨fun q m hm => ?_, fun q hn => hi.idle q ?_⟩
      · by_cases hq : q = p
        · subst hq
          obtain rfl : programOf env q call = m := by simpa [Config.put] using hm
          exact (stmts_programOf env q call).mono fun w w' hw => hw.mono fun _ _ => trivial
        · exact hi.stmts q m (by simpa [Config.put, hq] using hm)
      · by_cases hq : q = p
        · subst hq
          simp [Config.put] at hn
        · simpa [Config.put, hq] using hn
    · cases hs
  | advance p a =>
    obtain ⟨hstmt, hm, -, hsome, hother⟩ := Config.advance_always hs trivial (hi.stmts p)
    refine ⟨fun q m hq => ?_, fun q hn => ?_⟩
    · by_cases hqp : q = p
      · subst hqp
        exact hm m hq
      · exact hi.stmts q m (by rw [← hother q hqp]; exact hq)
    · have hqp : q ≠ p := by
        rintro rfl
        rw [hn] at hsome
        cases hsome
      obtain ⟨hb, hl⟩ := hi.idle q (by rw [← hother q hqp]; exact hn)
      obtain ⟨hb', hl'⟩ := hstmt.others hqp
      exact ⟨hb'.trans hb, fun k hk => hl k (hl' k hk)⟩
  | finish p =>
    simp only [Scheduler.step] at hs
    split at hs
    · cases hs
      exact hi.leave p _
    · cases hs
  | crash p =>
    obtain ⟨m, -, rfl⟩ := Option.map_eq_some_iff.mp hs
    exact hi.leave p _
  | raise p =>
    obtain ⟨m, -, rfl⟩ := Option.map_eq_some_iff.mp hs
    exact hi.leave p _
  | duplicate j =>
    simp only [Scheduler.step] at hs
    split at hs
    · cases hs
      exact ⟨hi.stmts, hi.idle⟩
    · cases hs
  | tick d =>
    cases hs
    exact ⟨hi.stmts, hi.idle⟩

theorem Reachable.idleFree (hr : Reachable env s) : IdleFree s := by
  obtain ⟨t, as, hrun⟩ := hr
  have hinit : IdleFree (init t) := ⟨by simp [init], fun p _ => ⟨rfl, by simp [init, Store.start]⟩⟩
  generalize init t = s₀ at hrun hinit
  induction as generalizing s₀ with
  | nil =>
    cases hrun
    exact hinit
  | cons a as ih =>
    obtain ⟨s₁, hs, hrun⟩ := Option.bind_eq_some_iff.mp hrun
    exact ih s₁ hrun (hinit.step hs)

/-- Some process has not begun. -/
theorem exists_unborn (h : History) : ∃ p, own p h = [] := by
  obtain ⟨p, hp⟩ := Infinite.exists_notMem_finset (h.filterMap Event.pid).toFinset
  refine ⟨p, List.filter_eq_nil_iff.mpr fun ev hev hpid => hp ?_⟩
  rw [List.mem_toFinset]
  exact List.mem_filterMap.mpr ⟨ev, hev, of_decide_eq_true hpid⟩

end CueApi.Scheduler
