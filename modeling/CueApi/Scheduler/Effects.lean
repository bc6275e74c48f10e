import CueApi.Scheduler.Growth

/-! What one transaction does to one row. A commit leaves an execution alone,
inserts it, or applies exactly one UPDATE to it, and `Updates` says what the code
guarantees of that UPDATE and the version of the row it meets. -/

namespace CueApi.Scheduler

open ReadCommitted Interleaving Trace

/-! ## Writes by row -/

/-- The row a write names. -/
def Write.target : Write → Key
  | .insertExecution e _ | .updateExecution e _ => .execution e
  | .insertCue c _ | .updateCue c _ => .cue c
  | .insertOutbox n _ | .updateOutbox n _ => .outbox n
  | .putWorker k _ | .deleteWorker k => .worker k

/-- The writes on one row, newest first. -/
def writesOn (k : Key) (ws : List Write) : List Write := ws.filter fun w => w.target = k

@[simp] theorem writesOn_nil (k : Key) : writesOn k [] = [] := rfl

theorem writesOn_cons (k : Key) (w : Write) (ws : List Write) :
    writesOn k (w :: ws) = if w.target = k then w :: writesOn k ws else writesOn k ws := by
  by_cases h : w.target = k <;> simp [writesOn, h]

@[simp] theorem writesOn_append (k : Key) (ws us : List Write) :
    writesOn k (ws ++ us) = writesOn k ws ++ writesOn k us := by
  simp [writesOn]

@[simp] theorem writesOn_ite (k : Key) (b : Prop) [Decidable b] (ws us : List Write) :
    writesOn k (if b then ws else us) = if b then writesOn k ws else writesOn k us := by
  split <;> rfl

theorem mem_writesOn {k : Key} {w : Write} {ws : List Write} :
    w ∈ writesOn k ws ↔ w ∈ ws ∧ w.target = k := by
  simp [writesOn]

theorem mem_of_writesOn_eq {k : Key} {w : Write} {ws : List Write} (hws : writesOn k ws = [w]) :
    w ∈ ws := by
  have hm : w ∈ writesOn k ws := by simp [hws]
  exact (mem_writesOn.mp hm).1

/-- A loop over rows with distinct keys writes each row in one iteration. -/
theorem writesOn_flatMap {α κ : Type} {f : α → List Write} {key : α → Option κ} {k : Key}
    {x : κ} {items : List α} (hn : (items.filterMap key).Nodup)
    (hf : ∀ i ∈ items, key i ≠ some x → writesOn k (f i) = []) :
    writesOn k (items.flatMap f) = [] ∨
      ∃ i ∈ items, key i = some x ∧ writesOn k (items.flatMap f) = writesOn k (f i) :=
  filter_flatMap_of_nodup hn hf

theorem Tables.execution_applyAll (ws : List Write) (t : Tables) (e : ExecId) :
    (schema.applyAll ws t).execution e =
      (schema.applyAll (writesOn (.execution e) ws) t).execution e := by
  refine schema.applyAll_filter (f := fun t => t.execution e) (fun w t hw => ?_)
    (fun w t t' h => ?_) ws t
  · change (Tables.apply w t).execution e = _
    rw [execution_apply]
    cases w <;> simp_all [Write.target] <;> exact fun h => absurd h.symm hw
  · change (Tables.apply w t).execution e = (Tables.apply w t').execution e
    simp only [execution_apply, h]

theorem Tables.cue_applyAll (ws : List Write) (t : Tables) (c : CueId) :
    (schema.applyAll ws t).cue c = (schema.applyAll (writesOn (.cue c) ws) t).cue c := by
  refine schema.applyAll_filter (f := fun t => t.cue c) (fun w t hw => ?_)
    (fun w t t' h => ?_) ws t
  · change (Tables.apply w t).cue c = _
    rw [cue_apply]
    cases w <;> simp_all [Write.target] <;> exact fun h => absurd h.symm hw
  · change (Tables.apply w t).cue c = (Tables.apply w t').cue c
    simp only [cue_apply, h]

theorem Tables.outboxRow_applyAll (ws : List Write) (t : Tables) (n : OutboxId) :
    (schema.applyAll ws t).outboxRow n =
      (schema.applyAll (writesOn (.outbox n) ws) t).outboxRow n := by
  refine schema.applyAll_filter (f := fun t => t.outboxRow n) (fun w t hw => ?_)
    (fun w t t' h => ?_) ws t
  · change (Tables.apply w t).outboxRow n = _
    rw [outboxRow_apply]
    cases w <;> simp_all [Write.target] <;> exact fun h => absurd h.symm hw
  · change (Tables.apply w t).outboxRow n = (Tables.apply w t').outboxRow n
    simp only [outboxRow_apply, h]

/-! ## One execution in one transaction -/

/-- The INSERTs of `executions`, each with the rest of its transaction. -/
inductive Creates (env : Env) (h : History) (ws : List Write) (e : ExecId) :
    Call → Execution → Prop
  | fired (now began : Time) (i : BatchItem) (n? : Option OutboxId) :
      i.Ok env (replay h) now → i.inserted = some (e, n?) →
      (∀ w ∈ i.writes env now began, w ∈ ws) →
      Creates env h ws e .processCueBatch (firedExecution i.c i.scheduledFor began)
  | triggered (call : Call) (user : UserId) (c : CueId) (source : Trigger) (n : OutboxId)
      (cue cue' : Cue) (scheduledFor began : Time) (scheduledAt : Option Time)
      (metadata : Option Json) : Triggers call user c source →
      (replay h).cue c = some cue' → CueFixed cue cue' →
      (cue.callbackTransport = .webhook → truthy cue.callbackUrl = true →
        (replay h).outboxRow n = none ∧
        .insertOutbox n (triggeredOutbox env user c cue e scheduledFor began scheduledAt) ∈ ws) →
      Creates env h ws e call (triggeredExecution c source scheduledFor began metadata)

/-- The UPDATEs of `executions`: who issues each, and what holds of the row `r`
it meets. -/
inductive Updates (env : Env) (h : History) (p : Pid) (time : Time) (ws : List Write)
    (e : ExecId) (r : Execution) : Call → ExecUpdate → Prop
  | claim (j : Job) (began now : Time) : e = j.payload.executionId →
      own p h = [.began p (.job j)] → r.status = j.task.expected →
      ws = [.updateExecution e (.claim j.task.expected began now)] →
      Updates env h p time ws e r (.job j) (.claim j.task.expected began now)
  | limitReached (j : Job) (now : Time) : e = j.payload.executionId →
      own p h = [.began p (.job j)] → j.task = .deliver →
      Updates env h p time ws e r (.job j) (.limitReached now)
  | finished (j : Job) (attempts : Nat) (u : ExecUpdate) : e = j.payload.executionId →
      Answered p j attempts h → Completion (j.payload.retryMaxAttempts.getD 3) (attempts + 1) u →
      Updates env h p time ws e r (.job j) u
  | retryReady (now began : Time) (n : OutboxId) (cue cue' : Cue) : now ≤ time →
      retryDue now r = true → (replay h).outboxRow n = none →
      (replay h).cue r.cueId = some cue' → CueFixed cue cue' →
      .insertOutbox n (retryOutbox env e r.cueId cue r.scheduledFor began) ∈ ws →
      Updates env h p time ws e r .pollRetries (.retryReady now)
  | recovered (next now : Time) : now ≤ time →
      staleBefore (now - seconds env.settings.executionStaleAfterSeconds) r = true →
      r.attempts < maxAttemptsOf (replay h) r.cueId →
      Updates env h p time ws e r .recoverStaleExecutions
        (.recovered env.settings.executionStaleAfterSeconds next now)
  | stuck (now : Time) : now ≤ time →
      staleBefore (now - seconds env.settings.executionStaleAfterSeconds) r = true →
      ¬ r.attempts < maxAttemptsOf (replay h) r.cueId →
      Updates env h p time ws e r .recoverStaleExecutions
        (.stuck env.settings.executionStaleAfterSeconds now)
  | resetClaim (seen : Execution) (now : Time) : now ≤ time → r.cueId = seen.cueId →
      claimExpired (now - seconds env.settings.workerClaimTimeoutSeconds) (replay h) seen = true →
      Updates env h p time ws e r .recoverStaleWorkerClaims (.resetClaim seen now)
  | missed (seen : Execution) (now : Time) : now ≤ time → r.cueId = seen.cueId →
      unclaimedSince (now - seconds env.settings.workerUnclaimedTimeoutSeconds) (replay h) seen =
        true →
      Updates env h p time ws e r .failUnclaimedWorkerExecutions (.missed seen now)
  | workerClaim (call : Call) (endpoint : ClaimEndpoint) (worker : WorkerId) (began now : Time) :
      ClaimsFor call endpoint worker e → own p h = [.began p call] →
      transportOf (replay h) r.cueId = some .worker →
      (endpoint = .claimExecution → r.status = .pending) →
      ws = [.updateExecution e (.workerClaim endpoint worker began now)] →
      Updates env h p time ws e r call (.workerClaim endpoint worker began now)
  | heartbeat (user : UserId) (xWorkerId : Option WorkerId) (now : Time) : now ≤ time →
      own p h = [.began p (.executionHeartbeat user e xWorkerId)] →
      ws = [.updateExecution e (.heartbeat now)] →
      Updates env h p time ws e r (.executionHeartbeat user e xWorkerId) (.heartbeat now)
  | outcome (user : UserId) (body : OutcomeRequest) (transport : Transport)
      (mode : VerificationMode) (now : Time) :
      own p h = [.began p (.recordOutcome user e body)] → r.outcomeRecordedAt = none →
      transportOf (replay h) r.cueId = some transport →
      (transport = .worker → .updateCue r.cueId (.outcomeRun now) ∈ ws) →
      Updates env h p time ws e r (.recordOutcome user e body)
        (.outcome transport mode body now)

/-- What a transaction does to the execution `e`. -/
inductive OnExecution (env : Env) (h : History) (p : Pid) (time : Time) (call : Call)
    (ws : List Write) (e : ExecId) : Prop
  | untouched : writesOn (.execution e) ws = [] → OnExecution env h p time call ws e
  | inserted (row : Execution) : writesOn (.execution e) ws = [.insertExecution e row] →
      (replay h).execution e = none → ¬ (replay h).SlotTaken row.cueId row.scheduledFor →
      Creates env h ws e call row → OnExecution env h p time call ws e
  | updated (u : ExecUpdate) (r : Execution) :
      writesOn (.execution e) ws = [.updateExecution e u] → (replay h).execution e = some r →
      Updates env h p time ws e r call u → OnExecution env h p time call ws e

variable {env : Env} {h : History} {p : Pid} {time : Time} {call : Call} {ws : List Write}
variable {e : ExecId}

theorem OnExecution.single {e' : ExecId} {u : ExecUpdate} {r : Execution}
    (hw : writesOn (.execution e) ws = if e' = e then [.updateExecution e' u] else [])
    (hr : (replay h).execution e' = some r) (hu : Updates env h p time ws e' r call u) :
    OnExecution env h p time call ws e := by
  by_cases he : e' = e
  · subst he
    exact .updated u r (by simpa using hw) hr hu
  · exact .untouched (by simpa [he] using hw)

/-- A loop that updates one execution in each iteration. -/
theorem OnExecution.loop {α : Type} {items : List α} {f : α → List Write} {key : α → ExecId}
    {u : α → ExecUpdate} (hn : (items.map key).Nodup)
    (hf : ∀ i, writesOn (.execution e) (f i) =
      if key i = e then [.updateExecution (key i) (u i)] else [])
    (hu : ∀ i ∈ items, ∃ r, (replay h).execution (key i) = some r ∧
      Updates env h p time (items.flatMap f) (key i) r call (u i)) :
    OnExecution env h p time call (items.flatMap f) e := by
  rw [← List.filterMap_eq_map] at hn
  have hskip : ∀ i ∈ items, (some ∘ key) i ≠ some e → writesOn (.execution e) (f i) = [] := by
    intro i _ hi
    rw [hf, if_neg (by simpa using hi)]
  rcases writesOn_flatMap hn hskip with hw | ⟨i, hi, -, hw⟩
  · exact .untouched hw
  · obtain ⟨r, hr, hupd⟩ := hu i hi
    exact .single (hw.trans (hf i)) hr hupd

theorem BatchItem.writesOn_execution (now began : Time) (i : BatchItem) (e : ExecId) :
    writesOn (.execution e) (i.writes env now began) =
      if i.inserted.map Prod.fst = some e then
        [.insertExecution e (firedExecution i.c i.scheduledFor began)] else [] := by
  obtain ⟨c, cue, s, inserted, next⟩ := i
  cases inserted with
  | none => simp [BatchItem.writes, writesOn_cons, Write.target]
  | some x =>
    obtain ⟨e', n?⟩ := x
    by_cases he : e' = e <;> cases n? <;>
      simp [BatchItem.writes, writesOn_cons, Write.target, he]

theorem RetryItem.writesOn_execution (now began : Time) (i : RetryItem) (e : ExecId) :
    writesOn (.execution e) (i.writes env now began) =
      if i.e = e then [.updateExecution i.e (.retryReady now)] else [] := by
  by_cases he : i.e = e <;> simp [RetryItem.writes, writesOn_cons, Write.target, he]

/-- The UPDATE of one iteration of `recover_stale_executions`. -/
def RecoverItem.update (env : Env) (now : Time) (i : RecoverItem) : ExecUpdate :=
  match i.next with
  | some next => .recovered env.settings.executionStaleAfterSeconds next now
  | none => .stuck env.settings.executionStaleAfterSeconds now

theorem RecoverItem.writesOn_execution (now : Time) (i : RecoverItem) (e : ExecId) :
    writesOn (.execution e) (i.writes env now) =
      if i.e = e then [.updateExecution i.e (i.update env now)] else [] := by
  by_cases he : i.e = e <;> cases hn : i.next <;>
    simp [RecoverItem.writes, RecoverItem.update, hn, writesOn_cons, Write.target, he]

theorem RecoverItem.Ok.updates {now : Time} {i : RecoverItem} (hok : i.Ok env (replay h) now)
    (hnow : now ≤ time) :
    Updates env h p time ws i.e i.r .recoverStaleExecutions (i.update env now) := by
  have hb := hok.budget
  unfold RecoverItem.update
  cases hn : i.next with
  | some next => exact .recovered next now hnow hok.stale (hb.mpr (by simp [hn]))
  | none => exact .stuck now hnow hok.stale fun h => by simpa [hn] using hb.mp h

theorem SweepItem.writesOn_reset (now : Time) (i : SweepItem) (e : ExecId) :
    writesOn (.execution e) (i.resetWrites now) =
      if i.e = e then [.updateExecution i.e (.resetClaim i.seen now)] else [] := by
  by_cases he : i.e = e <;> simp [SweepItem.resetWrites, writesOn_cons, Write.target, he]

theorem SweepItem.writesOn_miss (now : Time) (i : SweepItem) (e : ExecId) :
    writesOn (.execution e) (i.missWrites now) =
      if i.e = e then [.updateExecution i.e (.missed i.seen now)] else [] := by
  by_cases he : i.e = e <;> simp [SweepItem.missWrites, writesOn_cons, Write.target, he]

theorem CueTail.writesOn_execution {c : CueId} {tail : List Write} (ht : CueTail c tail)
    (e : ExecId) : writesOn (.execution e) tail = [] := by
  cases ht <;> simp [writesOn_cons, Write.target]

/-- A commit leaves an execution alone, inserts it, or updates it once. -/
theorem Commits.on_execution (hc : Commits env h p time call ws) (e : ExecId) :
    OnExecution env h p time call ws e := by
  cases hc with
  | nothing _ _ => exact .untouched rfl
  | created user data c nextRun began now _ _ _ =>
    exact .untouched (by simp [writesOn_cons, Write.target])
  | triggered _ user c source e' n cue cue' s began scheduledAt metadata ht he hs hcue hf hn =>
    by_cases hee : e' = e
    · subst hee
      refine .inserted _ ?_ he hs (.triggered _ user c source n cue cue' s began scheduledAt
        metadata ht hcue hf fun hw hu => ⟨hn hw hu, by simp [hw, hu]⟩)
      simp [writesOn_cons, Write.target]
    · exact .untouched (by simp [writesOn_cons, Write.target, hee])
  | batch now began items _ hok _ hn _ =>
    rw [List.map_filterMap] at hn
    rcases writesOn_flatMap (f := BatchItem.writes env now began) (k := .execution e) (x := e) hn
      (fun i _ hi => by rw [BatchItem.writesOn_execution, if_neg hi]) with hw | ⟨i, hi, hie, hw⟩
    · exact .untouched hw
    · rw [BatchItem.writesOn_execution, if_pos hie] at hw
      obtain ⟨⟨_, n?⟩, hins, rfl⟩ := Option.map_eq_some_iff.mp hie
      obtain ⟨he, hs, -⟩ := (hok i hi).fresh _ n? hins
      exact .inserted _ hw he hs (.fired now began i n? (hok i hi) hins
        fun w hwi => List.mem_flatMap.mpr ⟨i, hi, hwi⟩)
  | retries now began items hnow hok hn _ =>
    refine .loop hn (fun i => RetryItem.writesOn_execution now began i e) fun i hi => ?_
    obtain ⟨cue, hcue, hf⟩ := (hok i hi).cue
    exact ⟨i.r, (hok i hi).row, .retryReady now began i.n i.cue cue hnow (hok i hi).due
      (hok i hi).fresh hcue hf (List.mem_flatMap.mpr ⟨i, hi, by simp [RetryItem.writes]⟩)⟩
  | dispatched rows _ =>
    refine .untouched (List.filter_eq_nil_iff.mpr fun w hw => ?_)
    obtain ⟨x, -, rfl⟩ := List.mem_map.mp hw
    simp [Write.target]
  | recovered now items hnow hok hn =>
    exact .loop hn (fun i => RecoverItem.writesOn_execution now i e) fun i hi =>
      ⟨i.r, (hok i hi).row, (hok i hi).updates hnow⟩
  | escalated _ c now _ => exact .untouched (by simp [writesOn_cons, Write.target])
  | reset now items hnow hok hn =>
    refine .loop hn (fun i => SweepItem.writesOn_reset now i e) fun i hi => ?_
    obtain ⟨⟨⟨r, hr, hcue⟩, -⟩, hexp⟩ := hok i hi
    exact ⟨r, hr, .resetClaim i.seen now hnow hcue hexp⟩
  | missed now items hnow hok hn =>
    refine .loop hn (fun i => SweepItem.writesOn_miss now i e) fun i hi => ?_
    obtain ⟨⟨⟨r, hr, hcue⟩, -⟩, hexp⟩ := hok i hi
    exact ⟨r, hr, .missed i.seen now hnow hcue hexp⟩
  | claimed j r began now hown hr hs =>
    exact .single (by simp [writesOn_cons, Write.target]) hr (.claim j began now rfl hown hs rfl)
  | limited j r now hown ht hr =>
    exact .single (by simp [writesOn_cons, Write.target]) hr (.limitReached j now rfl hown ht)
  | finished j r attempts u tail began ha hr hcomp htail =>
    refine .single ?_ hr (.finished j attempts u rfl ha hcomp)
    simp [htail.writesOn_execution, writesOn_cons, Write.target]
  | workerClaimed _ endpoint worker e' r began now hfor hown hr ht hs =>
    exact .single (by simp [writesOn_cons, Write.target]) hr
      (.workerClaim _ endpoint worker began now hfor hown ht hs rfl)
  | beaten user e' xWorkerId r now hown hr hnow =>
    exact .single (by simp [writesOn_cons, Write.target]) hr
      (.heartbeat user xWorkerId now hnow hown rfl)
  | outcome user e' body r cue cue' mode now hown hr hnone hcue hf =>
    refine .single ?_ hr (.outcome user body cue.callbackTransport mode now hown hnone ?_ ?_)
    · simp [writesOn_cons, Write.target]
    · simp [transportOf, hcue, hf.callbackTransport]
    · intro hw
      simp [hw]
  | workerSeen user worker handlers row => exact .untouched (by simp [writesOn_cons, Write.target])
  | workerGone user worker => exact .untouched (by simp [writesOn_cons, Write.target])

/-! ## One outbox row in one transaction -/

/-- The INSERTs of `dispatch_outbox`, each with the rest of its transaction. -/
inductive Puts (env : Env) (h : History) (ws : List Write) : OutboxRow → Prop
  | fired (now began : Time) (i : BatchItem) (e : ExecId) (n : OutboxId) :
      i.Ok env (replay h) now → i.inserted = some (e, some n) →
      (∀ w ∈ i.writes env now began, w ∈ ws) →
      Puts env h ws (firedOutbox env i.c i.cue e i.scheduledFor began)
  | triggered (user : UserId) (c : CueId) (source : Trigger) (e : ExecId) (cue cue' : Cue)
      (scheduledFor began : Time) (scheduledAt : Option Time) (metadata : Option Json) :
      (replay h).execution e = none → (replay h).cue c = some cue' → CueFixed cue cue' →
      cue.callbackTransport = .webhook →
      .insertExecution e (triggeredExecution c source scheduledFor began metadata) ∈ ws →
      Puts env h ws (triggeredOutbox env user c cue e scheduledFor began scheduledAt)
  | retry (now began : Time) (e : ExecId) (r : Execution) (cue cue' : Cue) :
      (replay h).execution e = some r → retryDue now r = true →
      (replay h).cue r.cueId = some cue' → CueFixed cue cue' →
      Puts env h ws (retryOutbox env e r.cueId cue r.scheduledFor began)

/-- What a transaction does to the outbox row `n`. -/
inductive OnOutbox (env : Env) (h : History) (p : Pid) (call : Call) (ws : List Write)
    (n : OutboxId) : Prop
  | untouched : writesOn (.outbox n) ws = [] → OnOutbox env h p call ws n
  | inserted (o : OutboxRow) : writesOn (.outbox n) ws = [.insertOutbox n o] →
      (replay h).outboxRow n = none → Puts env h ws o → OnOutbox env h p call ws n
  | marked : call = .dispatchOutbox → (∀ w ∈ writesOn (.outbox n) ws, ∃ u,
      w = .updateOutbox n u ∧ (u = .dispatched → ∃ j, .enqueued p n j ∈ h)) →
      OnOutbox env h p call ws n

theorem BatchItem.writesOn_outbox (now began : Time) (i : BatchItem) (n : OutboxId) :
    writesOn (.outbox n) (i.writes env now began) =
      match i.inserted with
      | some (e, some n') => if n' = n then
          [.insertOutbox n' (firedOutbox env i.c i.cue e i.scheduledFor began)] else []
      | _ => [] := by
  obtain ⟨c, cue, s, inserted, next⟩ := i
  rcases inserted with _ | ⟨e, _ | n'⟩ <;> simp [BatchItem.writes, writesOn_cons, Write.target]

theorem RetryItem.writesOn_outbox (now began : Time) (i : RetryItem) (n : OutboxId) :
    writesOn (.outbox n) (i.writes env now began) =
      if i.n = n then
        [.insertOutbox i.n (retryOutbox env i.e i.r.cueId i.cue i.r.scheduledFor began)]
      else [] := by
  simp [RetryItem.writes, writesOn_cons, Write.target]

theorem RecoverItem.writesOn_outbox (now : Time) (i : RecoverItem) (n : OutboxId) :
    writesOn (.outbox n) (i.writes env now) = [] := by
  cases hn : i.next <;> simp [RecoverItem.writes, hn, writesOn_cons, Write.target]

theorem SweepItem.writesOn_outbox (now : Time) (i : SweepItem) (n : OutboxId) :
    writesOn (.outbox n) (i.resetWrites now) = [] ∧
      writesOn (.outbox n) (i.missWrites now) = [] := by
  simp [SweepItem.resetWrites, SweepItem.missWrites, writesOn_cons, Write.target]

theorem CueTail.writesOn_outbox {c : CueId} {tail : List Write} (ht : CueTail c tail)
    (n : OutboxId) : writesOn (.outbox n) tail = [] := by
  cases ht <;> simp [writesOn_cons, Write.target]

theorem writesOn_flatMap_nil {α : Type} {f : α → List Write} {k : Key} {items : List α}
    (hf : ∀ i ∈ items, writesOn k (f i) = []) : writesOn k (items.flatMap f) = [] := by
  induction items with
  | nil => rfl
  | cons i items ih =>
    rw [List.flatMap_cons, writesOn_append, hf i (by simp), List.nil_append]
    exact ih fun j hj => hf j (by simp [hj])

theorem Commits.on_outbox (hc : Commits env h p time call ws) (n : OutboxId) :
    OnOutbox env h p call ws n := by
  cases hc with
  | triggered _ user c source e n' cue cue' s began scheduledAt metadata ht he hs hcue hf hn =>
    by_cases hb : (cue.callbackTransport = .webhook && truthy cue.callbackUrl) = true
    · simp only [hb, if_true]
      simp only [Bool.and_eq_true, decide_eq_true_eq] at hb
      by_cases hnn : n' = n
      · subst hnn
        exact .inserted _ (by simp [writesOn_cons, Write.target]) (hn hb.1 hb.2)
          (.triggered user c source e cue cue' s began scheduledAt metadata he hcue hf hb.1
            (by simp))
      · exact .untouched (by simp [writesOn_cons, Write.target, hnn])
    · simp only [hb]
      exact .untouched (by simp [writesOn_cons, Write.target])
  | batch now began items _ hok _ _ hn =>
    rw [List.filterMap_filterMap] at hn
    rcases writesOn_flatMap (f := BatchItem.writes env now began) (k := .outbox n) (x := n) hn
      (fun i _ hi => by
        rw [BatchItem.writesOn_outbox]
        rcases hins : i.inserted with _ | ⟨e, _ | n'⟩ <;> simp_all) with hw | ⟨i, hi, hin, hw⟩
    · exact .untouched hw
    · obtain ⟨⟨e, n?⟩, hins, hn?⟩ := Option.bind_eq_some_iff.mp hin
      simp only at hn?
      subst hn?
      rw [BatchItem.writesOn_outbox, hins] at hw
      simp only [if_true] at hw
      exact .inserted _ hw (((hok i hi).fresh e _ hins).2.2.2 n rfl)
        (.fired now began i e n (hok i hi) hins fun w hwi => List.mem_flatMap.mpr ⟨i, hi, hwi⟩)
  | retries now began items _ hok _ hn =>
    rw [← List.filterMap_eq_map] at hn
    rcases writesOn_flatMap (f := RetryItem.writes env now began) (k := .outbox n) (x := n) hn
      (fun i _ hi => by
        rw [RetryItem.writesOn_outbox, if_neg (by simpa using hi)]) with hw | ⟨i, hi, hin, hw⟩
    · exact .untouched hw
    · obtain rfl : i.n = n := by simpa using hin
      obtain ⟨cue, hcue, hf⟩ := (hok i hi).cue
      rw [RetryItem.writesOn_outbox, if_pos rfl] at hw
      exact .inserted _ hw (hok i hi).fresh
        (.retry now began i.e i.r i.cue cue (hok i hi).row (hok i hi).due hcue hf)
  | dispatched rows hrows =>
    refine .marked rfl fun w hw => ?_
    obtain ⟨hw, ht⟩ := mem_writesOn.mp hw
    obtain ⟨x, hx, rfl⟩ := List.mem_map.mp hw
    simp only [Write.target, Key.outbox.injEq] at ht
    subst ht
    exact ⟨x.2, rfl, hrows x hx⟩
  | recovered now items _ _ _ =>
    exact .untouched (writesOn_flatMap_nil fun i _ => i.writesOn_outbox now n)
  | reset now items _ _ _ =>
    exact .untouched (writesOn_flatMap_nil fun i _ => (i.writesOn_outbox now n).1)
  | missed now items _ _ _ =>
    exact .untouched (writesOn_flatMap_nil fun i _ => (i.writesOn_outbox now n).2)
  | finished j r attempts u tail began _ _ _ htail =>
    exact .untouched (by simp [htail.writesOn_outbox, writesOn_cons, Write.target])
  | _ => exact .untouched (by simp [writesOn_cons, Write.target])

end CueApi.Scheduler
