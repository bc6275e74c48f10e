import CueApi.Scheduler.Effects

/-! What one event does to one row, and what follows for every legal history:
executions have cues, outbox rows have executions, jobs come from outbox rows. -/

namespace CueApi.Scheduler

open ReadCommitted Interleaving Trace

variable {env : Env} {h : History} {ev : Event}

/-! ## One event, one row -/

/-- What the event `ev` does to the execution `e`. -/
inductive ExecStep (env : Env) (h : History) (e : ExecId) : Event → Prop
  | same (ev : Event) : (replay (ev :: h)).execution e = (replay h).execution e →
      (∀ p time ws, ev = .commit p time ws → writesOn (.execution e) ws = []) →
      ExecStep env h e ev
  | created (p : Pid) (time : Time) (ws : List Write) (call : Call) (row : Execution) :
      callOf p h = some call → (replay h).execution e = none →
      (replay (.commit p time ws :: h)).execution e = some row →
      writesOn (.execution e) ws = [.insertExecution e row] →
      ¬ (replay h).SlotTaken row.cueId row.scheduledFor → Creates env h ws e call row →
      ExecStep env h e (.commit p time ws)
  | updated (p : Pid) (time : Time) (ws : List Write) (call : Call) (u : ExecUpdate)
      (r : Execution) : callOf p h = some call → (replay h).execution e = some r →
      (replay (.commit p time ws :: h)).execution e = some (u.set r) →
      writesOn (.execution e) ws = [.updateExecution e u] → Updates env h p time ws e r call u →
      ExecStep env h e (.commit p time ws)

theorem exec_step (ha : Allowed env h ev) (e : ExecId) : ExecStep env h e ev := by
  cases ev <;> first | exact .same _ rfl (by simp) | skip
  case commit p time ws =>
    obtain ⟨⟨call, hcall, hc⟩, -⟩ := ha
    have hrow := Tables.execution_applyAll ws (replay h) e
    have hreplay : replay (.commit p time ws :: h) = schema.applyAll ws (replay h) := rfl
    cases hc.on_execution e with
    | untouched hw =>
      refine .same _ ?_ (by rintro _ _ _ ⟨⟩; exact hw)
      rw [hreplay, hrow, hw]
      rfl
    | inserted row hw hnone hslot hcr =>
      refine .created p time ws call row hcall hnone ?_ hw hslot hcr
      rw [hreplay, hrow, hw]
      simp [Tables.execution_apply, hnone]
    | updated u r hw hr hu =>
      refine .updated p time ws call u r hcall hr ?_ hw hu
      rw [hreplay, hrow, hw]
      simp [Tables.execution_apply, hr]

/-- A committed UPDATE of `e`: its row and what the code guarantees of it. -/
theorem updates_of_mem {p : Pid} {time : Time} {ws : List Write} {e : ExecId}
    {u : ExecUpdate} (ha : Allowed env h (.commit p time ws)) (hm : .updateExecution e u ∈ ws) :
    ∃ call r, callOf p h = some call ∧ (replay h).execution e = some r ∧
      (replay (.commit p time ws :: h)).execution e = some (u.set r) ∧
      Updates env h p time ws e r call u := by
  have hm' : .updateExecution e u ∈ writesOn (.execution e) ws := mem_writesOn.mpr ⟨hm, rfl⟩
  cases exec_step ha e with
  | same _ _ hw => simp [hw p time ws rfl] at hm'
  | created _ _ _ call row _ _ _ hw _ _ => simp [hw] at hm'
  | updated _ _ _ call u' r hcall hr hrow hw hu =>
    simp only [hw, List.mem_singleton, Write.updateExecution.injEq, true_and] at hm'
    subst hm'
    exact ⟨call, r, hcall, hr, hrow, hu⟩

/-- An execution stays as it is, or the event is the commit of one UPDATE of it. -/
theorem exec_kept_or_updated (ha : Allowed env h ev) {e : ExecId} {r : Execution}
    (hr : (replay h).execution e = some r) :
    (replay (ev :: h)).execution e = some r ∨
    ∃ p time ws call u, ev = .commit p time ws ∧ callOf p h = some call ∧
      .updateExecution e u ∈ ws ∧ (replay (ev :: h)).execution e = some (u.set r) ∧
      Updates env h p time ws e r call u := by
  cases exec_step ha e with
  | same _ heq _ => exact .inl (heq.trans hr)
  | created _ _ _ _ _ _ hnone _ _ _ _ =>
    rw [hnone] at hr
    cases hr
  | updated p time ws call u r₀ hcall hr₀ hrow hw hu =>
    rw [hr] at hr₀
    cases hr₀
    exact .inr ⟨p, time, ws, call, u, rfl, hcall, mem_of_writesOn_eq hw, hrow, hu⟩

/-- What the event `ev` does to the outbox row `n`. -/
inductive OutboxStep (env : Env) (h : History) (n : OutboxId) : Event → Prop
  | same (ev : Event) : (replay (ev :: h)).outboxRow n = (replay h).outboxRow n →
      OutboxStep env h n ev
  | created (p : Pid) (time : Time) (ws : List Write) (o : OutboxRow) :
      (replay h).outboxRow n = none → (replay (.commit p time ws :: h)).outboxRow n = some o →
      .insertOutbox n o ∈ ws → Puts env h ws o → OutboxStep env h n (.commit p time ws)
  | marked (p : Pid) (time : Time) (ws : List Write) (o o' : OutboxRow) :
      (replay h).outboxRow n = some o → (replay (.commit p time ws :: h)).outboxRow n = some o' →
      OutboxFixed o o' → (o'.dispatched = true → o.dispatched = true ∨ ∃ j, .enqueued p n j ∈ h) →
      OutboxStep env h n (.commit p time ws)

theorem outboxRow_marked {n : OutboxId} {ws : List Write} {t : Tables} {P : Prop}
    (hws : ∀ w ∈ ws, ∃ u, w = .updateOutbox n u ∧ (u = .dispatched → P)) :
    (t.outboxRow n = none → (schema.applyAll ws t).outboxRow n = none) ∧
    ∀ o, t.outboxRow n = some o → ∃ o', (schema.applyAll ws t).outboxRow n = some o' ∧
      OutboxFixed o o' ∧ (o'.dispatched = true → o.dispatched = true ∨ P) := by
  induction ws with
  | nil => exact ⟨id, fun o ho => ⟨o, ho, .refl o, .inl⟩⟩
  | cons w ws ih =>
    obtain ⟨ihn, ihs⟩ := ih fun w' hw' => hws w' (by simp [hw'])
    obtain ⟨u, rfl, hu⟩ := hws w (by simp)
    have happly : (schema.applyAll (.updateOutbox n u :: ws) t).outboxRow n =
        ((schema.applyAll ws t).outboxRow n).map u.set := by
      simp [Tables.outboxRow_apply]
    refine ⟨fun hn => by rw [happly, ihn hn]; rfl, fun o ho => ?_⟩
    obtain ⟨o', ho', hf, hd⟩ := ihs o ho
    refine ⟨u.set o', by rw [happly, ho']; rfl, hf.trans (u.set_fixed o'), fun hset => ?_⟩
    cases u with
    | dispatched => exact .inr (hu rfl)
    | dispatchFailed error => exact hd hset

theorem outbox_step (ha : Allowed env h ev) (n : OutboxId) : OutboxStep env h n ev := by
  cases ev <;> first | exact .same _ rfl | skip
  case commit p time ws =>
    obtain ⟨⟨call, -, hc⟩, -⟩ := ha
    have hrow := Tables.outboxRow_applyAll ws (replay h) n
    have hreplay : replay (.commit p time ws :: h) = schema.applyAll ws (replay h) := rfl
    cases hc.on_outbox n with
    | untouched hw =>
      refine .same _ ?_
      rw [hreplay, hrow, hw]
      rfl
    | inserted o hw hnone hp =>
      refine .created p time ws o hnone ?_ (mem_of_writesOn_eq hw) hp
      rw [hreplay, hrow, hw]
      simp [Tables.outboxRow_apply, hnone]
    | marked _ hw =>
      obtain ⟨hn, hs⟩ := outboxRow_marked (t := replay h) hw
      rw [← hrow] at hn hs
      cases ho : (replay h).outboxRow n with
      | none => exact .same _ ((hn ho).trans ho.symm)
      | some o =>
        obtain ⟨o', ho', hf, hd⟩ := hs o ho
        exact .marked p time ws o o' ho ho' hf hd

/-! ## Executions and their cues -/

/-- The cue of a new execution exists. -/
theorem Creates.cue {e : ExecId} {ws : List Write} {call : Call} {row : Execution}
    (hc : Creates env h ws e call row) : ∃ cue, (replay h).cue row.cueId = some cue := by
  cases hc with
  | fired now began i n? hok _ _ => exact ⟨i.cue, hok.row⟩
  | triggered _ user c source n cue cue' _ _ _ _ _ hcue _ _ => exact ⟨cue', hcue⟩

/-- A new execution is pending, unclaimed and without attempts or outcome. -/
structure Fresh (row : Execution) : Prop where
  status : row.status = .pending
  attempts : row.attempts = 0
  claimedByWorker : row.claimedByWorker = none
  claimedAt : row.claimedAt = none
  lastHeartbeatAt : row.lastHeartbeatAt = none
  outcomeRecordedAt : row.outcomeRecordedAt = none

theorem Creates.fresh {e : ExecId} {ws : List Write} {call : Call} {row : Execution}
    (hc : Creates env h ws e call row) : Fresh row := by
  cases hc <;> exact ⟨rfl, rfl, rfl, rfl, rfl, rfl⟩

theorem cue_of_execution (hl : Legal env h) {e : ExecId} {r : Execution}
    (hr : (replay h).execution e = some r) : ∃ cue, (replay h).cue r.cueId = some cue := by
  revert e r
  refine Along.invariant (J := fun h => ∀ {e r}, (replay h).execution e = some r →
    ∃ cue, (replay h).cue r.cueId = some cue)
    (fun hr => by simp [replay, Tables.execution] at hr) ?_ hl
  intro h ev _ ha ih e r hr
  have hg := Tables.Grows.replay_cons ev h
  cases exec_step ha e with
  | same _ heq _ =>
    obtain ⟨cue, hcue⟩ := ih (heq ▸ hr)
    obtain ⟨cue', hcue', -⟩ := hg.cue hcue
    exact ⟨cue', hcue'⟩
  | created p time ws call row _ _ hrow _ _ hc =>
    rw [hrow] at hr
    cases hr
    obtain ⟨cue, hcue⟩ := hc.cue
    obtain ⟨cue', hcue', -⟩ := hg.cue hcue
    exact ⟨cue', hcue'⟩
  | updated p time ws call u r₀ _ hr₀ hrow _ _ =>
    rw [hrow] at hr
    cases hr
    obtain ⟨cue, hcue⟩ := ih hr₀
    obtain ⟨cue', hcue', -⟩ := hg.cue hcue
    exact ⟨cue', by simpa using hcue'⟩

/-! ## Outbox rows and jobs -/

/-- What an outbox row says of its execution. -/
structure RowOf (t : Tables) (o : OutboxRow) : Prop where
  payload : o.payload.executionId = o.executionId
  execution : ∃ r cue, t.execution o.executionId = some r ∧ t.cue r.cueId = some cue ∧
    o.payload.cueId = r.cueId ∧ o.payload.retryMaxAttempts = some cue.retryMaxAttempts

theorem RowOf.grows {t t' : Tables} {o o' : OutboxRow} (ho : RowOf t o) (hg : t.Grows t')
    (hf : OutboxFixed o o') : RowOf t' o' := by
  obtain ⟨r, cue, hr, hcue, hid, hmax⟩ := ho.execution
  obtain ⟨r', hr', hfr⟩ := hg.execution hr
  obtain ⟨cue', hcue', hfc⟩ := hg.cue hcue
  refine ⟨by rw [hf.payload, hf.executionId]; exact ho.payload, r', cue', ?_, ?_, ?_, ?_⟩
  · rw [hf.executionId]
    exact hr'
  · rw [hfr.cueId]
    exact hcue'
  · rw [hf.payload, hfr.cueId]
    exact hid
  · rw [hf.payload, hfc.retryMaxAttempts]
    exact hmax

/-- The execution a new outbox row refers to is there after the commit. -/
theorem Puts.rowOf {ws : List Write} {o : OutboxRow} (hp : Puts env h ws o)
    (hnew : ∀ e row, .insertExecution e row ∈ ws →
      (schema.applyAll ws (replay h)).execution e = some row) :
    RowOf (schema.applyAll ws (replay h)) o := by
  have hg := Tables.Grows.applyAll ws (replay h)
  cases hp with
  | fired now began i e n hok hins hws =>
    have hm := hws (.insertExecution e (firedExecution i.c i.scheduledFor began))
      (by simp [BatchItem.writes, hins])
    obtain ⟨cue', hcue', hf⟩ := hg.cue hok.row
    exact ⟨rfl, _, cue', hnew _ _ hm, hcue', rfl, congrArg some hf.retryMaxAttempts.symm⟩
  | triggered user c source e cue cue' s began scheduledAt metadata _ hcue hf _ hm =>
    obtain ⟨cue'', hcue'', hf'⟩ := hg.cue hcue
    exact ⟨rfl, _, cue'', hnew _ _ hm, hcue'', rfl,
      congrArg some (hf.trans hf').retryMaxAttempts.symm⟩
  | retry now began e r cue cue' hr _ hcue hf =>
    obtain ⟨r', hr', hfr⟩ := hg.execution hr
    obtain ⟨cue'', hcue'', hf'⟩ := hg.cue hcue
    exact ⟨rfl, r', cue'', hr', by rw [hfr.cueId]; exact hcue'', hfr.cueId.symm,
      congrArg some (hf.trans hf').retryMaxAttempts.symm⟩

/-- A committed INSERT is in the tables. -/
theorem execution_of_insert {p : Pid} {time : Time} {ws : List Write} {e : ExecId}
    {row : Execution} (ha : Allowed env h (.commit p time ws))
    (hm : .insertExecution e row ∈ ws) :
    (replay (.commit p time ws :: h)).execution e = some row := by
  have hm' : .insertExecution e row ∈ writesOn (.execution e) ws := mem_writesOn.mpr ⟨hm, rfl⟩
  cases exec_step ha e with
  | same _ _ hw => simp [hw p time ws rfl] at hm'
  | created _ _ _ call row' _ _ hrow hw _ _ =>
    simp only [hw, List.mem_singleton, Write.insertExecution.injEq, true_and] at hm'
    rw [hrow, hm']
  | updated _ _ _ call u r _ _ _ hw _ => simp [hw] at hm'

theorem outbox_rowOf (hl : Legal env h) {n : OutboxId} {o : OutboxRow}
    (ho : (replay h).outboxRow n = some o) : RowOf (replay h) o := by
  revert n o
  refine Along.invariant (J := fun h => ∀ {n o}, (replay h).outboxRow n = some o →
    RowOf (replay h) o) (fun ho => by simp [replay, Tables.outboxRow] at ho) ?_ hl
  intro h ev _ ha ih n o ho
  have hg := Tables.Grows.replay_cons ev h
  cases outbox_step ha n with
  | same _ heq => exact (ih (heq ▸ ho)).grows hg (.refl o)
  | created p time ws o' _ ho' _ hp =>
    rw [ho'] at ho
    cases ho
    exact hp.rowOf fun e row hm => execution_of_insert ha hm
  | marked p time ws o₀ o' ho₀ ho' hf _ =>
    rw [ho'] at ho
    cases ho
    exact (ih ho₀).grows hg hf

/-- The job is that of an outbox row. -/
def Sourced (t : Tables) (j : Job) : Prop :=
  ∃ n o, t.outboxRow n = some o ∧ j = ⟨o.taskType, o.payload⟩

theorem Sourced.grows {t t' : Tables} {j : Job} (hj : Sourced t j) (hg : t.Grows t') :
    Sourced t' j := by
  obtain ⟨n, o, ho, rfl⟩ := hj
  obtain ⟨o', ho', hf⟩ := hg.outboxRow ho
  exact ⟨n, o', ho', by rw [hf.taskType, hf.payload]⟩

theorem enqueued_sourced (hl : Legal env h) {p : Pid} {n : OutboxId} {j : Job}
    (hm : .enqueued p n j ∈ h) : ∃ o, (replay h).outboxRow n = some o ∧
      j = ⟨o.taskType, o.payload⟩ := by
  obtain ⟨h', hs⟩ := mem_split hm
  obtain ⟨-, o, ho, -, rfl⟩ := Along.at hl hs
  obtain ⟨o', ho', hf⟩ :=
    (Tables.Grows.replay_suffix ((List.suffix_cons _ h').trans hs)).outboxRow ho
  exact ⟨o', ho', by rw [hf.taskType, hf.payload]⟩

theorem callOf_mem {p : Pid} {call : Call} (hc : callOf p h = some call) : .began p call ∈ h := by
  induction h with
  | nil => cases hc
  | cons ev h ih =>
    cases ev <;> simp only [callOf] at hc <;> try exact List.mem_cons_of_mem _ (ih hc)
    case began q c =>
      split at hc
      · rename_i hq
        cases hc
        subst hq
        exact List.mem_cons_self ..
      · exact List.mem_cons_of_mem _ (ih hc)

/-- A process runs one call. -/
theorem callOf_later (hl : Legal env h) {h' : History} (hs : h' <:+ h) {p : Pid} {call : Call}
    (hc : callOf p h' = some call) : callOf p h = some call := by
  refine Along.invariant_from (J := fun h => callOf p h = some call) hc ?_ hs hl
  intro h ev _ _ ha ih
  cases ev <;> try exact ih
  case began q c =>
    by_cases hq : q = p
    · subst hq
      have hm := (mem_own rfl).mpr (callOf_mem ih)
      rw [ha.1] at hm
      cases hm
    · simpa [callOf, hq] using ih

theorem callOf_of_began (hl : Legal env h) {p : Pid} {call : Call} (hm : .began p call ∈ h) :
    callOf p h = some call := by
  obtain ⟨h', hs⟩ := mem_split hm
  exact callOf_later hl hs (by simp [callOf])

/-- Where a queued job comes from. -/
theorem mem_queued_cons {j : Job} (hj : j ∈ queued (ev :: h)) :
    j ∈ queued h ∨ (∃ p n, ev = .enqueued p n j) ∨ ev = .duplicated j ∨
    ∃ p, ev = .ended p .crashed ∧ callOf p h = some (.job j) := by
  cases ev with
  | began p call =>
    cases call with
    | job j' => exact .inl (List.mem_of_mem_erase hj)
    | _ => exact .inl hj
  | enqueued p n j' =>
    rcases List.mem_cons.mp hj with rfl | hj
    · exact .inr (.inl ⟨p, n, rfl⟩)
    · exact .inl hj
  | duplicated j' =>
    rcases List.mem_cons.mp hj with rfl | hj
    · exact .inr (.inr (.inl rfl))
    · exact .inl hj
  | ended p how =>
    cases how with
    | crashed =>
      simp only [queued] at hj
      split at hj
      · rename_i j' hcall
        rcases List.mem_cons.mp hj with rfl | hj
        · exact .inr (.inr (.inr ⟨p, rfl, hcall⟩))
        · exact .inl hj
      · exact .inl hj
    | _ => exact .inl hj
  | _ => exact .inl hj

/-- Every queued and every started job comes from an outbox row. -/
theorem jobs_sourced (hl : Legal env h) : (∀ j ∈ queued h, Sourced (replay h) j) ∧
    ∀ p j, .began p (.job j) ∈ h → Sourced (replay h) j := by
  refine Along.invariant (J := fun h => (∀ j ∈ queued h, Sourced (replay h) j) ∧
    ∀ p j, .began p (.job j) ∈ h → Sourced (replay h) j) (by simp [queued]) ?_ hl
  rintro h ev hlh ha ⟨ihq, ihb⟩
  have hg := Tables.Grows.replay_cons ev h
  have hl' : Legal env (ev :: h) := ⟨ha, hlh⟩
  refine ⟨fun j hj => ?_, fun p j hm => ?_⟩
  · rcases mem_queued_cons hj with hj | ⟨p, n, rfl⟩ | rfl | ⟨p, rfl, hcall⟩
    · exact (ihq j hj).grows hg
    · obtain ⟨o, ho, heq⟩ := enqueued_sourced hl' (List.mem_cons_self ..)
      exact ⟨n, o, ho, heq⟩
    · obtain ⟨p, n, hm⟩ := ha
      obtain ⟨o, ho, heq⟩ := enqueued_sourced hl' (List.mem_cons_of_mem _ hm)
      exact ⟨n, o, ho, heq⟩
    · exact (ihb p j (callOf_mem hcall)).grows hg
  · rcases List.mem_cons.mp hm with rfl | hm
    · have hj : j ∈ queued h := by simpa [startable] using ha.2
      exact (ihq j hj).grows hg
    · exact (ihb p j hm).grows hg

end CueApi.Scheduler
