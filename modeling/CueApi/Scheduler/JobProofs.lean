import CueApi.Scheduler.Statements

/-! The delivery jobs keep to the transactions of `Commits`. A job's own events
tell how far it is: claim, attempt count, request, completion. -/

namespace CueApi.Scheduler

open ReadCommitted Interleaving Trace

variable {env : Env} {p : Pid} {B : List Write} {E : History} {w : World}

/-- The history allows `p` to return `reply`. -/
def Justified (env : Env) (p : Pid) (reply : Reply) (w : World) : Prop :=
  Allowed env w.history (.ended p (.returned reply))

theorem justified_of (call : Call) {reply : Reply} (hw : At p B E w)
    (hc : callOf p E = some call) (hr : Returns env w.history p call reply) :
    Justified env p reply w := ⟨call, by rw [hw.callOf_eq, hc], hr⟩

/-- The job has decided its claim. -/
def Decided (p : Pid) (j : Job) (w : World) : Prop :=
  ∃ E, At p [] E w ∧ callOf p E = some (.job j) ∧ E ≠ [.began p (.job j)]

theorem Decided.justified {j : Job} (h : Decided p j w) : Justified env p .acknowledged w := by
  obtain ⟨E, hw, hc, hE⟩ := h
  refine justified_of _ hw hc ⟨by simp, by simp, ?_, by simp⟩
  rintro _ ⟨⟩
  rw [hw.own]
  exact hE

/-- The events of a job that claimed its execution. -/
def claimedBy (p : Pid) (j : Job) (time began now : Time) : History :=
  [.commit p time [.updateExecution j.payload.executionId (.claim j.task.expected began now)],
    .began p (.job j)]

theorem runs_claimForDelivery {j : Job} (hw : At p [] [.began p (.job j)] w) :
    Runs env p (fun claimed w' =>
      (claimed = true → ∃ time began now, At p [] (claimedBy p j time began now) w' ∧
        ∃ r, (replay w'.history).execution j.payload.executionId = some r) ∧
      (claimed = false → Decided p j w'))
      (claimForDelivery p j.payload.executionId j.task.expected) w := by
  refine runs_clock hw fun w hl hw hi => runs_clock hw fun w' hl' hw' hi' => ?_
  refine runs_updateExecution hw' (fun w₁ r _ hw₁ hi₁ hr hs => ?_) fun w₁ _ hw₁ hi₁ hno => ?_
  · simp only [Schema.applyAll_nil, decide_eq_true_eq] at hr hs
    refine runs_commit hw₁ fun w₂ hl₂ hw₂ hi₂ => ⟨⟨.job j, by simp [callOf], ?_⟩, ?_⟩
    · have hrow := hl₂.rows (.execution j.payload.executionId)
        (hw₁.locked (List.mem_singleton_self _) (by simp [Write.keys]))
      have hr₂ : (replay w₂.history).execution j.payload.executionId = some r := by
        rw [← hi₂.tables, ← hr, ← hi₁.tables]
        exact hrow
      exact .claimed j r _ _ hw₂.own hr₂ hs
    · intro w₃ hw₃ _ hsuf
      refine ⟨fun _ => ⟨_, _, _, hw₃, ?_⟩, fun h => by cases h⟩
      obtain ⟨r', hr', -⟩ := (Tables.Grows.replay_suffix (hl₂.history.trans hsuf)).execution hr
      exact ⟨r', hr'⟩
  · refine ⟨fun j' hj' => ?_, fun w₂ hw₂ _ _ => ?_⟩
    · rw [hw₁.own] at hj'
      cases hj'
      exact ⟨rfl, fun r hr => by simpa using hno r hr⟩
    · refine runs_commit hw₂ fun w₃ _ hw₃ _ => ⟨⟨.job j, by simp [callOf], .nothing _ ?_⟩, ?_⟩
      · intro _ _
        rw [hw₃.own]
        simp
      · intro w₄ hw₄ _ _
        exact ⟨fun h => absurd h (by simp), fun _ => ⟨_, hw₄, by simp [callOf], by simp⟩⟩

/-- The events of a job that heard from its endpoint. -/
def Heard (p : Pid) (j : Job) (attempts : Nat) (E : History) : Prop :=
  ∃ sent time began now, E = .posted p j.payload.executionId (attempts + 1) sent ::
    .attempted p j.payload.executionId attempts :: claimedBy p j time began now

theorem Heard.callOf_eq {j : Job} {attempts : Nat} (hE : Heard p j attempts E) :
    callOf p E = some (.job j) := by
  obtain ⟨sent, time, began, now, rfl⟩ := hE
  simp [claimedBy, callOf]

/-- The row of the execution exists; it may have changed since the claim. -/
def HasRow (e : ExecId) (w : World) : Prop := ∃ r, (replay w.history).execution e = some r

theorem HasRow.mono {e : ExecId} {w w' : World} (h : HasRow e w)
    (hs : w.history <:+ w'.history) : HasRow e w' := by
  obtain ⟨r, hr⟩ := h
  obtain ⟨r', hr', -⟩ := (Tables.Grows.replay_suffix hs).execution hr
  exact ⟨r', hr'⟩

/-- The last commit of a job. -/
theorem runs_finish {j : Job} {attempts : Nat} {u : ExecUpdate} {tail : List Write}
    {began : Time} (hE : Heard p j attempts E)
    (hw : At p (tail ++ [.updateExecution j.payload.executionId u,
      .updateCue j.payload.cueId (.incrementRun began)]) E w)
    (hrow : HasRow j.payload.executionId w)
    (hcomp : Completion (j.payload.retryMaxAttempts.getD 3) (attempts + 1) u)
    (htail : CueTail j.payload.cueId tail) :
    Runs env p (fun _ w => Decided p j w) (commit p) w := by
  change Runs env p _ (commit p >>= pure) w
  refine runs_commit hw fun w' hl hw' hi' => ⟨⟨.job j, hE.callOf_eq, ?_⟩, fun w'' hw'' _ _ => ?_⟩
  · obtain ⟨r, hr⟩ := hrow.mono hl.history
    obtain ⟨sent, time, began', now, rfl⟩ := hE
    exact .finished j r attempts u tail began ⟨sent, time, began', now, hw'.own⟩ hr hcomp htail
  · refine ⟨_, hw'', ?_, ?_⟩
    · obtain ⟨sent, time, began', now, rfl⟩ := hE
      simp [claimedBy, callOf]
    · obtain ⟨sent, time, began', now, rfl⟩ := hE
      simp [claimedBy]

variable {j : Job} {attempts : Nat} {began : Time}

theorem runs_handleSuccess {httpStatus : Option Nat} {body : Option String}
    (hE : Heard p j attempts E)
    (hw : At p [.updateCue j.payload.cueId (.incrementRun began)] E w)
    (hrow : HasRow j.payload.executionId w) :
    Runs env p (fun _ w => Decided p j w)
      (handleSuccess p j.payload.executionId j.payload.cueId httpStatus body (attempts + 1)) w := by
  refine runs_clock hw fun w₁ hl₁ hw₁ _ => ?_
  have hrow₁ := hrow.mono hl₁.history
  refine runs_updateExecutionById hw₁ hrow₁ fun w₂ _ hl₂ hw₂ _ _ => ?_
  have hrow₂ := hrow₁.mono hl₂.history
  refine runs_write hw₂ fun w₃ hl₃ hw₃ _ => ?_
  have hrow₃ := hrow₂.mono hl₃.history
  refine runs_select hw₃ fun w₄ hl₄ hw₄ _ => ?_
  have hrow₄ := hrow₃.mono hl₄.history
  split
  · refine runs_write hw₄ fun w₅ hl₅ hw₅ _ => ?_
    exact runs_finish hE hw₅ (hrow₄.mono hl₅.history) (.delivered _ _ _) (.finished _ _)
  · exact runs_finish hE hw₄ hrow₄ (.delivered _ _ _) (.ran _)

theorem runs_handleExhausted {httpStatus : Option Nat} {error : String} {now : Time}
    (hE : Heard p j attempts E)
    (hw : At p [.updateCue j.payload.cueId (.incrementRun began)] E w)
    (hrow : HasRow j.payload.executionId w)
    (hmax : ¬ attempts + 1 < j.payload.retryMaxAttempts.getD 3) :
    Runs env p (fun _ w => Decided p j w)
      (handleExhausted p j.payload.executionId j.payload.cueId httpStatus error (attempts + 1)
        now) w := by
  refine runs_updateExecutionById hw hrow fun w₂ _ hl₂ hw₂ _ _ => ?_
  have hrow₂ := hrow.mono hl₂.history
  refine runs_write hw₂ fun w₃ hl₃ hw₃ _ => ?_
  have hrow₃ := hrow₂.mono hl₃.history
  refine runs_select hw₃ fun w₄ hl₄ hw₄ _ => ?_
  have hrow₄ := hrow₃.mono hl₄.history
  split
  · exact runs_finish hE hw₄ hrow₄ (.exhausted _ _ _ hmax) (.ran _)
  · split
    · refine runs_write hw₄ fun w₅ hl₅ hw₅ _ => ?_
      exact runs_finish hE hw₅ (hrow₄.mono hl₅.history) (.exhausted _ _ _ hmax) (.finished _ _)
    · split
      · refine runs_write hw₄ fun w₅ hl₅ hw₅ _ => ?_
        exact runs_finish hE hw₅ (hrow₄.mono hl₅.history) (.exhausted _ _ _ hmax) (.paused _)
      · exact runs_finish hE hw₄ hrow₄ (.exhausted _ _ _ hmax) (.ran _)

theorem runs_handleFailure {httpStatus : Option Nat} {error : String} {backoff : List Int}
    (hE : Heard p j attempts E)
    (hw : At p [.updateCue j.payload.cueId (.incrementRun began)] E w)
    (hrow : HasRow j.payload.executionId w) :
    Runs env p (fun _ w => Decided p j w)
      (handleFailure p j.payload.executionId j.payload.cueId httpStatus error (attempts + 1)
        (j.payload.retryMaxAttempts.getD 3) backoff) w := by
  refine runs_clock hw fun w₁ hl₁ hw₁ _ => ?_
  have hrow₁ := hrow.mono hl₁.history
  split
  · rename_i hmax
    split
    · trivial
    · refine runs_updateExecutionById hw₁ hrow₁ fun w₂ _ hl₂ hw₂ _ _ => ?_
      exact runs_finish hE hw₂ (hrow₁.mono hl₂.history) (.retryLater _ _ _ _ hmax) .none
  · rename_i hmax
    exact runs_handleExhausted hE hw₁ hrow₁ hmax

theorem runs_deliverClaimed {time began' now : Time}
    (hw : At p [] (claimedBy p j time began' now) w) (hrow : HasRow j.payload.executionId w) :
    Runs env p (fun _ w => Decided p j w) (deliverClaimed p j.payload) w := by
  refine runs_fetchAttempts hw fun w₁ hl₁ hw₁ hi₁ attempts hat => ⟨?_, fun w₂ hw₂ _ hs₂ => ?_⟩
  · exact ⟨j, time, began', now, rfl, hw₁.own, hat⟩
  have hrow₂ := hrow.mono (hl₁.history.trans hs₂)
  refine runs_deliverWebhook hw₂ fun w₃ sent hl₃ hw₃ _ => ⟨?_, fun w₄ result hw₄ _ hs₄ => ?_⟩
  · exact ⟨j, attempts, time, began', now, rfl, rfl, hw₃.own⟩
  have hrow₄ := hrow₂.mono (hl₃.history.trans hs₄)
  have hE : Heard p j attempts (.posted p j.payload.executionId (attempts + 1) sent ::
    .attempted p j.payload.executionId attempts :: claimedBy p j time began' now) :=
    ⟨sent, time, began', now, rfl⟩
  refine runs_clock hw₄ fun w₅ hl₅ hw₅ _ => runs_write hw₅ fun w₆ hl₆ hw₆ _ => ?_
  have hrow₆ := hrow₄.mono (hl₅.history.trans hl₆.history)
  split
  · exact runs_handleSuccess hE hw₆ hrow₆
  · exact runs_handleFailure hE hw₆ hrow₆

theorem runs_claimAndDeliver (hw : At p [] [.began p (.job j)] w) :
    Runs env p (fun reply w => reply = .acknowledged ∧ Decided p j w)
      (claimAndDeliver p j.task j.payload) w := by
  refine Safe.bind (runs_claimForDelivery hw) fun claimed w' h => ?_
  cases claimed with
  | true =>
    obtain ⟨time, began, now, hw', hrow⟩ := h.1 rfl
    exact Safe.bind (runs_deliverClaimed hw' hrow) fun _ _ hd => ⟨rfl, hd⟩
  | false => exact ⟨rfl, h.2 rfl⟩

/-- A job over its execution limit fails the execution without a claim. -/
theorem runs_limitReached (hj : j.task = .deliver) (hw : At p [] [.began p (.job j)] w) :
    Runs env p (fun reply w => reply = .acknowledged ∧ Decided p j w) (do
      let now ← clock
      let _ ← updateExecutionById p j.payload.executionId (.limitReached now)
      commit p
      return Reply.acknowledged) w := by
  refine runs_clock hw fun w₁ _ hw₁ _ => ?_
  refine runs_updateExecution hw₁ (fun w₂ r _ hw₂ _ hr _ => ?_) fun w₂ _ hw₂ _ hno => ?_
  · refine runs_commit hw₂ fun w₃ hl₃ hw₃ _ => ⟨⟨.job j, by simp [callOf], ?_⟩, ?_⟩
    · obtain ⟨r', hr'⟩ := HasRow.mono ⟨r, hr⟩ hl₃.history
      exact .limited j r' _ hw₃.own hj hr'
    · exact fun w₄ hw₄ _ _ => ⟨rfl, _, hw₄, by simp [callOf], by simp⟩
  · refine ⟨fun j' hj' => ?_, fun w₃ hw₃ _ _ => ?_⟩
    · rw [hw₂.own] at hj'
      cases hj'
      exact ⟨rfl, fun r hr => absurd (hno r hr) (by simp)⟩
    · refine runs_commit hw₃ fun w₄ _ hw₄ _ => ⟨⟨.job j, by simp [callOf], .nothing _ ?_⟩, ?_⟩
      · intro _ _
        rw [hw₄.own]
        simp
      · exact fun w₅ hw₅ _ _ => ⟨rfl, _, hw₅, by simp [callOf], by simp⟩

theorem runs_runJob (hw : At p [] [.began p (.job j)] w) :
    Runs env p (Justified env p) (runJob p j) w := by
  refine Safe.weaken (Q := fun reply w => reply = .acknowledged ∧ Decided p j w) ?_ ?_
  rotate_left
  · rintro _ w ⟨rfl, hd⟩
    exact hd.justified
  have hclaim : Runs env p _ _ w := runs_claimAndDeliver hw
  unfold runJob
  cases hj : j.task with
  | deliver =>
    rw [hj] at hclaim
    simp only [deliverWebhookTask]
    split
    · refine runs_checkExecutionLimit hw fun w₁ allowed _ hw₁ _ => ?_
      have hclaim₁ : Runs env p _ _ w₁ := runs_claimAndDeliver hw₁
      rw [hj] at hclaim₁
      split
      · exact hclaim₁
      · exact runs_limitReached hj hw₁
    · exact hclaim
  | retry =>
    rw [hj] at hclaim
    exact hclaim

end CueApi.Scheduler
