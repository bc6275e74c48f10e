import CueApi.Scheduler.JobProofs

/-! The API requests keep to the transactions of `Commits`, and their replies say
what they committed. -/

namespace CueApi.Scheduler

open ReadCommitted Interleaving Trace

variable {env : Env} {p : Pid} {w : World} {call : Call}

theorem justified_began {B : List Write} {reply : Reply} (hw : At p B [.began p call] w)
    (hr : Returns env w.history p call reply) : Justified env p reply w :=
  justified_of call hw (by simp [callOf]) hr

theorem runs_createCue {user : UserId} {data : CueCreate}
    (hw : At p [] [.began p (.createCue user data)] w) :
    Runs env p (Justified env p) (createCue env p user data) w := by
  refine runs_clock hw fun w₁ _ hw₁ _ => runs_select hw₁ fun w₂ _ hw₂ _ => ?_
  split
  · exact justified_began hw₂ (.plain rfl)
  refine runs_select hw₂ fun w₃ _ hw₃ _ => ?_
  dsimp only
  split
  · exact justified_began hw₃ (.plain rfl)
  refine runs_clock hw₃ fun w₄ _ hw₄ _ => ?_
  split
  · trivial
  · exact justified_began hw₄ (.plain rfl)
  · rename_i nextRun hvalid
    refine runs_insertCue hw₄ (fun w₅ _ hw₅ _ => justified_began hw₅ (.plain rfl)) ?_
    intro w₅ c _ hw₅ hi₅ hnone hname
    refine runs_commit hw₅ fun w₆ hl₆ hw₆ hi₆ => ⟨⟨.createCue user data, by simp [callOf], ?_⟩, ?_⟩
    · have hcue : (replay w₆.history).cue c = (replay w₅.history).cue c :=
        hl₆.frozen hi₅ hi₆ (k := .cue c) (hw₅.locked_head (by simp [Write.keys]))
      have hfree : (replay w₆.history).NameTaken user data.name =
          (replay w₅.history).NameTaken user data.name :=
        hl₆.frozen hi₅ hi₆ (k := .cueName user data.name)
          (hw₅.locked_head (by simp [Write.keys, cueRow]))
      exact .created user data c nextRun _ _ (hcue.trans hnone) (hfree ▸ hname) hvalid
    · intro w₇ hw₇ _ _
      exact justified_of (.createCue user data) hw₇ (by simp [callOf]) (.plain rfl)

theorem runs_trigger {user : UserId} {c : CueId} {cue : Cue} {source : Trigger}
    {scheduledFor began : Time} {scheduledAt : Option Time} {metadata : Option Json}
    (ht : Triggers call user c source) (hw : At p [] [.began p call] w)
    (hcue : ∃ cue', (replay w.history).cue c = some cue' ∧ CueFixed cue cue') :
    Runs env p (Justified env p)
      (trigger env p user c cue source scheduledFor began scheduledAt metadata) w := by
  have hreturns : ∀ (h : History) (e : ExecId), Returns env h p call (.fired e scheduledFor) := by
    intro h e
    cases ht <;> exact .plain rfl
  refine runs_insertExecution hw (fun _ _ _ _ _ => trivial) ?_
  intro w₁ e hl₁ hw₁ hi₁ hnone hslot
  obtain ⟨cue₀, hcue₀, hf₀⟩ := hcue
  obtain ⟨cue₁, hcue₁, hf₁⟩ := hl₁.grows.cue hcue₀
  have frozen : ∀ {w₂ : World}, Later p w₁ w₂ → Inv env w₂ →
      (replay w₂.history).execution e = none ∧ ¬ (replay w₂.history).SlotTaken c scheduledFor := by
    intro w₂ hl₂ hi₂
    have he : (replay w₂.history).execution e = (replay w₁.history).execution e :=
      hl₂.frozen hi₁ hi₂ (k := .execution e) (hw₁.locked_head (by simp [Write.keys]))
    have hs : (replay w₂.history).SlotTaken c scheduledFor =
        (replay w₁.history).SlotTaken c scheduledFor :=
      hl₂.frozen hi₁ hi₂ (k := .slot c scheduledFor)
        (hw₁.locked_head (by simp [Write.keys, triggeredExecution]))
    exact ⟨he.trans hnone, hs ▸ hslot⟩
  simp only
  split
  · rename_i hb
    refine runs_insertOutbox hw₁ fun w₂ n hl₂ hw₂ hi₂ hn => ?_
    refine runs_commit hw₂ fun w₃ hl₃ hw₃ hi₃ => ⟨⟨call, by simp [callOf], ?_⟩, ?_⟩
    · obtain ⟨he, hs⟩ := frozen (hl₂.trans hl₃) hi₃
      obtain ⟨cue₃, hcue₃, hf₃⟩ := (hl₂.trans hl₃).grows.cue hcue₁
      have hn₂ : (replay w₂.history).outboxRow n = none :=
        (Tables.Grows.applyAll _ _).outboxRow_none hn
      have hn₃ : (replay w₃.history).outboxRow n = (replay w₂.history).outboxRow n :=
        hl₃.frozen hi₂ hi₃ (k := .outbox n) (hw₂.locked_head (by simp [Write.keys]))
      have hc : Commits env w₃.history p w₃.clock call _ := .triggered call user c source e n
        cue cue₃ scheduledFor began scheduledAt metadata ht he hs hcue₃ (hf₀.trans (hf₁.trans hf₃))
        (fun _ _ => hn₃.trans hn₂)
      simpa only [hb, if_true, List.singleton_append] using hc
    · intro w₄ hw₄ _ _
      exact justified_of call hw₄ (by simp [callOf]) (hreturns _ _)
  · rename_i hb
    refine runs_commit hw₁ fun w₃ hl₃ hw₃ hi₃ => ⟨⟨call, by simp [callOf], ?_⟩, ?_⟩
    · obtain ⟨he, hs⟩ := frozen hl₃ hi₃
      obtain ⟨cue₃, hcue₃, hf₃⟩ := hl₃.grows.cue hcue₁
      have hc : Commits env w₃.history p w₃.clock call _ := .triggered call user c source e 0
        cue cue₃ scheduledFor began scheduledAt metadata ht he hs hcue₃ (hf₀.trans (hf₁.trans hf₃))
        (fun hw hu => absurd (by simp [hw, hu]) hb)
      simpa only [hb, if_false, List.nil_append, Bool.false_eq_true] using hc
    · intro w₄ hw₄ _ _
      exact justified_of call hw₄ (by simp [callOf]) (hreturns _ _)

theorem runs_fireCue {user : UserId} {c : CueId} {sendAt : Option DateTime}
    (hw : At p [] [.began p (.fireCue user c sendAt)] w) :
    Runs env p (Justified env p) (fireCue env p user c sendAt) w := by
  refine runs_clock hw fun w₁ _ hw₁ _ => runs_select hw₁ fun w₂ _ hw₂ _ => ?_
  split
  · exact justified_began hw₂ (.plain rfl)
  rename_i cue hcue
  have hcue₂ : (replay w₂.history).cue c = some cue := (Option.filter_eq_some_iff.mp hcue).1
  refine runs_clock hw₂ fun w₃ hl₃ hw₃ _ => ?_
  split
  · split
    · exact runs_buildIpcDeliveryMetadata hw₃ fun w₄ m hl₄ hw₄ _ =>
        runs_trigger (.fire user c _) hw₄ ((hl₃.trans hl₄).grows.cue hcue₂)
    · trivial
  · exact runs_buildIpcDeliveryMetadata hw₃ fun w₄ m hl₄ hw₄ _ =>
      runs_trigger (.fire user c none) hw₄ ((hl₃.trans hl₄).grows.cue hcue₂)

theorem ownedExecution_eq {t : Tables} {user : UserId} {e : ExecId} {r : Execution} {cue : Cue}
    (h : ownedExecution t user e = some (r, cue)) :
    t.execution e = some r ∧ t.cue r.cueId = some cue := by
  obtain ⟨r', hr, h⟩ := Option.bind_eq_some_iff.mp h
  obtain ⟨cue', hc, heq⟩ := Option.map_eq_some_iff.mp h
  cases heq
  exact ⟨hr, (Option.filter_eq_some_iff.mp hc).1⟩

theorem runs_replayExecution {user : UserId} {e : ExecId}
    (hw : At p [] [.began p (.replayExecution user e)] w) :
    Runs env p (Justified env p) (replayExecution env p user e) w := by
  refine runs_clock hw fun w₁ _ hw₁ _ => runs_select hw₁ fun w₂ _ hw₂ _ => ?_
  split
  · exact justified_began hw₂ (.plain rfl)
  rename_i r cue hrow
  obtain ⟨-, hcue⟩ := ownedExecution_eq hrow
  split
  · exact runs_clock hw₂ fun w₃ hl₃ hw₃ _ =>
      runs_trigger (.replay user e r.cueId) hw₃ (hl₃.grows.cue hcue)
  · exact justified_began hw₂ (.plain rfl)

theorem transportOf_owned {t : Tables} {user : UserId} {c : CueId}
    (h : ownedWorkerCue t user c = true) : transportOf t c = some .worker := by
  obtain ⟨cue, hc, hb⟩ := (Option.any_eq_true _ _).mp h
  simp only [Bool.and_eq_true, decide_eq_true_eq] at hb
  simp [transportOf, hc, hb.2]

/-! ## Claims -/

theorem returns_error (h : History) {endpoint : ClaimEndpoint} {worker : WorkerId} {e : ExecId}
    (hfor : ClaimsFor call endpoint worker e) (error : ApiError) :
    Returns env h p call (.error error) := by
  cases hfor <;> exact .plain rfl

/-- The commit of a granted claim and its reply. -/
theorem runs_granted {endpoint : ClaimEndpoint} {worker : WorkerId} {e : ExecId} {r : Execution}
    {began now : Time} (hfor : ClaimsFor call endpoint worker e)
    (hw : At p [.updateExecution e (.workerClaim endpoint worker began now)] [.began p call] w)
    (hi : Inv env w) (hr : (replay w.history).execution e = some r)
    (ht : transportOf (replay w.history) r.cueId = some .worker)
    (hs : endpoint = .claimExecution → r.status = .pending) :
    Runs env p (Justified env p) (do
      commit p
      return Reply.claimed e env.settings.workerClaimTimeoutSeconds) w := by
  refine runs_commit hw fun w₁ hl₁ hw₁ hi₁ => ⟨⟨call, by simp [callOf], ?_⟩, ?_⟩
  · have hr₁ : (replay w₁.history).execution e = (replay w.history).execution e :=
      hl₁.frozen hi hi₁ (k := .execution e) (hw.locked_head (by simp [Write.keys]))
    exact .workerClaimed call endpoint worker e r began now hfor hw₁.own (hr₁.trans hr)
      (hl₁.grows.transportOf ht) hs
  · intro w₂ hw₂ _ _
    have hm : .commit p w₁.clock [.updateExecution e (.workerClaim endpoint worker began now)] ∈
        w₂.history := (mem_own rfl).mp (by rw [hw₂.own]; simp)
    refine justified_of call hw₂ (by simp [callOf]) ⟨?_, by simp, ?_, ?_⟩
    · rintro e' lease ⟨⟩
      exact ⟨rfl, endpoint, worker, w₁.clock, began, now, hfor, hm⟩
    · rintro j rfl
      cases hfor
    · rintro user e' body rfl
      cases hfor

theorem runs_claimNextExecution {user : UserId} {worker : WorkerId}
    (hw : At p [] [.began p (.claimNextExecution user worker)] w) :
    Runs env p (Justified env p) (claimNextExecution env p user worker) w := by
  refine runs_clock hw fun w₁ _ hw₁ _ => runs_clock hw₁ fun w₂ _ hw₂ _ => ?_
  refine runs_selectRows hw₂ fun w₃ xs _ hw₃ _ _ hxs => ?_
  split
  · exact justified_began hw₃ (returns_error _ (.next user worker 0) _)
  rename_i e r rest _
  obtain ⟨hr, hwh⟩ := hxs (e, r) (by simp)
  simp only [Bool.and_eq_true] at hwh
  refine runs_updateExecutionById hw₃ ⟨r, hr⟩ fun w₄ r' hl₄ hw₄ hi₄ hr' => ?_
  simp only [if_true]
  refine runs_granted (.next user worker e) hw₄ hi₄ hr' ?_ (by simp)
  obtain ⟨r₄, hr₄, hf⟩ := hl₄.grows.execution hr
  rw [Schema.applyAll_nil, hr₄] at hr'
  cases hr'
  rw [hf.cueId]
  exact hl₄.grows.transportOf (transportOf_owned hwh.1)

theorem runs_claimExecution {user : UserId} {e : ExecId} {worker : WorkerId}
    (hw : At p [] [.began p (.claimExecution user e worker)] w) :
    Runs env p (Justified env p) (claimExecution env p user e worker) w := by
  refine runs_clock hw fun w₁ _ hw₁ _ => runs_clock hw₁ fun w₂ _ hw₂ _ => ?_
  refine runs_updateExecution hw₂ (fun w₃ r _ hw₃ hi₃ hr hwh => ?_) fun w₃ _ hw₃ _ _ => ?_
  · simp only [Bool.and_eq_true, decide_eq_true_eq] at hwh
    simp only [if_true]
    exact runs_granted (.one user worker e) hw₃ hi₃ hr (transportOf_owned hwh.2) fun _ => hwh.1
  · refine ⟨fun j hj => ?_, fun w₄ hw₄ _ _ => ?_⟩
    · rw [hw₃.own] at hj
      cases hj
    · exact justified_of (.claimExecution user e worker) hw₄ (by simp [callOf])
        (returns_error _ (.one user worker e) _)

theorem runs_executionHeartbeat {user : UserId} {e : ExecId} {xWorkerId : Option WorkerId}
    (hw : At p [] [.began p (.executionHeartbeat user e xWorkerId)] w) :
    Runs env p (Justified env p) (executionHeartbeat env p user e xWorkerId) w := by
  have refused : ∀ {w' : World} (error : ApiError),
      At p [] [.began p (.executionHeartbeat user e xWorkerId)] w' →
      Justified env p (.error error) w' :=
    fun error hw' => justified_began hw' (.plain rfl)
  refine runs_select hw fun w₁ _ hw₁ _ => ?_
  split
  · exact refused _ hw₁
  rename_i r cue hrow
  obtain ⟨hr, -⟩ := ownedExecution_eq hrow
  split
  · exact refused _ hw₁
  refine runs_clock hw₁ fun w₂ hl₂ hw₂ _ => ?_
  have hrow₂ : HasRow e w₂ := HasRow.mono ⟨r, hr⟩ hl₂.history
  refine runs_updateExecutionById hw₂ hrow₂ fun w₃ r' hl₃ hw₃ _ hr' => ?_
  refine runs_commit hw₃ fun w₄ hl₄ hw₄ _ =>
    ⟨⟨.executionHeartbeat user e xWorkerId, by simp [callOf], ?_⟩, fun w₅ hw₅ _ _ => ?_⟩
  · obtain ⟨r₄, hr₄⟩ := HasRow.mono ⟨r', hr'⟩ hl₄.history
    exact .beaten user e xWorkerId r₄ _ hw₄.own hr₄ (Int.le_trans hl₃.clock hl₄.clock)
  · refine justified_of (.executionHeartbeat user e xWorkerId) hw₅ (by simp [callOf]) ?_
    refine ⟨by simp, ?_, by simp, by simp⟩
    rintro until? ⟨⟩
    exact ⟨user, e, xWorkerId, w₄.clock, w₂.clock, rfl, rfl,
      (mem_own rfl).mp (by rw [hw₅.own]; simp)⟩

theorem runs_heartbeat {user : UserId} {worker : WorkerId} {handlers : Option (List String)}
    (hw : At p [] [.began p (.heartbeat user worker handlers)] w) :
    Runs env p (Justified env p) (heartbeat p user worker handlers) w := by
  refine runs_clock hw fun w₁ _ hw₁ _ => runs_write hw₁ fun w₂ _ hw₂ _ => ?_
  refine runs_commit hw₂ fun w₃ _ _ _ => ⟨⟨.heartbeat user worker handlers, by simp [callOf],
    .workerSeen ..⟩, ?_⟩
  exact fun w₄ hw₄ _ _ => justified_of (.heartbeat user worker handlers) hw₄
    (by simp [callOf]) (.plain rfl)

theorem runs_deleteWorker {user : UserId} {worker : WorkerId}
    (hw : At p [] [.began p (.deleteWorker user worker)] w) :
    Runs env p (Justified env p) (deleteWorker p user worker) w := by
  refine runs_select hw fun w₁ _ hw₁ _ => ?_
  split
  · refine runs_write hw₁ fun w₂ _ hw₂ _ => ?_
    refine runs_commit hw₂ fun w₃ _ _ _ => ⟨⟨.deleteWorker user worker, by simp [callOf],
      .workerGone ..⟩, ?_⟩
    exact fun w₄ hw₄ _ _ => justified_of (.deleteWorker user worker) hw₄
      (by simp [callOf]) (.plain rfl)
  · exact justified_began hw₁ (.plain rfl)

/-! ## Outcomes -/

/-- The commit of a recorded outcome and its reply. -/
theorem runs_recorded {user : UserId} {e : ExecId} {body : OutcomeRequest} {r : Execution}
    {cue cue' : Cue} {B : List Write} (mode : VerificationMode) (now : Time)
    (hB : B = (if cue.callbackTransport = .worker ∧ cue.scheduleType = .once then
        [.updateCue r.cueId (.finish (if body.success then .completed else .failed) now)]
      else []) ++
      (if cue.callbackTransport = .worker then [.updateCue r.cueId (.outcomeRun now)] else []) ++
      [.updateExecution e (.outcome cue.callbackTransport mode body now)])
    (hw : At p B [.began p (.recordOutcome user e body)] w) (hi : Inv env w)
    (hr : (replay w.history).execution e = some r) (hnone : r.outcomeRecordedAt = none)
    (hcue : (replay w.history).cue r.cueId = some cue') (hf : CueFixed cue cue')
    (state : OutcomeState) :
    Runs env p (Justified env p) (do
      commit p
      return Reply.outcome state) w := by
  have hmem : .updateExecution e (.outcome cue.callbackTransport mode body now) ∈ B := by
    rw [hB]
    simp
  refine runs_commit hw fun w₁ hl₁ hw₁ hi₁ =>
    ⟨⟨.recordOutcome user e body, by simp [callOf], ?_⟩, fun w₂ hw₂ _ _ => ?_⟩
  · have hr₁ : (replay w₁.history).execution e = (replay w.history).execution e :=
      hl₁.frozen hi hi₁ (k := .execution e) (hw.locked hmem (by simp [Write.keys]))
    obtain ⟨cue₁, hcue₁, hf₁⟩ := hl₁.grows.cue hcue
    rw [hB]
    exact .outcome user e body r cue cue₁ mode now hw₁.own (hr₁.trans hr) hnone hcue₁
      (hf.trans hf₁)
  · refine justified_of (.recordOutcome user e body) hw₂ (by simp [callOf])
      ⟨by simp, by simp, by simp, ?_⟩
    rintro _ _ _ ⟨⟩
    exact .inr ⟨state, w₁.clock, B, cue.callbackTransport, mode, now, rfl,
      (mem_own rfl).mp (by rw [hw₂.own]; simp), hmem⟩

theorem runs_recordOutcome {user : UserId} {e : ExecId} {body : OutcomeRequest}
    (hw : At p [] [.began p (.recordOutcome user e body)] w) :
    Runs env p (Justified env p) (recordOutcome p user e body) w := by
  have refused : ∀ {w' : World} (error : ApiError),
      At p [] [.began p (.recordOutcome user e body)] w' →
      Justified env p (.error error) w' :=
    fun error hw' => justified_began hw' ⟨by simp, by simp, by simp, by
      rintro _ _ _ ⟨⟩
      exact .inl ⟨error, rfl, hw'.own⟩⟩
  refine runs_selectForOutcome hw (fun w₁ _ hw₁ _ => refused _ hw₁) ?_
  intro w₁ r cue _ hw₁ hi₁ hr hcue hlock
  simp only
  split
  · exact refused _ hw₁
  rename_i hrec
  split
  · exact refused _ hw₁
  have hnone : r.outcomeRecordedAt = none := by simpa using hrec
  refine runs_clock hw₁ fun w₂ hl₂ hw₂ _ => ?_
  refine runs_updateExecutionById hw₂ (HasRow.mono ⟨r, hr⟩ hl₂.history) ?_
  intro w₃ _ hl₃ hw₃ hi₃ _
  -- the lock taken with the first SELECT keeps the row until the commit
  have held : ∀ {w' : World}, Later p w₁ w' → Inv env w' →
      (replay w'.history).execution e = some r ∧
      ∃ cue', (replay w'.history).cue r.cueId = some cue' ∧ CueFixed cue cue' := by
    intro w' hl hi
    have hr' : (replay w'.history).execution e = (replay w₁.history).execution e :=
      hl.frozen hi₁ hi (k := .execution e) hlock
    exact ⟨hr'.trans hr, hl.grows.cue hcue⟩
  have hl₁₃ := hl₂.trans hl₃
  split
  · rename_i hworker
    refine runs_write hw₃ fun w₄ hl₄ hw₄ hi₄ => ?_
    have hl₁₄ := hl₁₃.trans hl₄
    split
    · rename_i honce
      refine runs_write hw₄ fun w₅ hl₅ hw₅ hi₅ => ?_
      obtain ⟨hr₅, cue₅, hcue₅, hf₅⟩ := held (hl₁₄.trans hl₅) hi₅
      exact runs_recorded (cue.verificationMode.getD .none) w₂.clock (by simp [hworker, honce])
        hw₅ hi₅ hr₅ hnone hcue₅ hf₅ _
    · rename_i honce
      obtain ⟨hr₄, cue₄, hcue₄, hf₄⟩ := held hl₁₄ hi₄
      exact runs_recorded (cue.verificationMode.getD .none) w₂.clock (by simp [hworker, honce])
        hw₄ hi₄ hr₄ hnone hcue₄ hf₄ _
  · rename_i hworker
    obtain ⟨hr₃, cue₃, hcue₃, hf₃⟩ := held hl₁₃ hi₃
    exact runs_recorded (cue.verificationMode.getD .none) w₂.clock (by simp [hworker])
      hw₃ hi₃ hr₃ hnone hcue₃ hf₃ _

end CueApi.Scheduler
