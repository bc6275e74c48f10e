import CueApi.Scheduler.Delivery

/-! The cron poller: whatever the overlap of the pollers and wherever they crash,
a recurring cue that nobody disturbs is fired once for each of its occurrences, in
order. -/

namespace CueApi.Scheduler

open ReadCommitted Interleaving Trace

variable {env : Env} {h : History} {s : Sys} {c : CueId}

/-! ## Occurrences -/

/-- The runs of a schedule: the first one, and the next one after each. -/
def occurrence (next : Time → Option Time) (first : Time) : Nat → Option Time
  | 0 => some first
  | k + 1 => (occurrence next first k).bind next

theorem occurrence_lt {next : Time → Option Time} {first : Time}
    (hn : ∀ t t', next t = some t' → t < t') {i j : Nat} {t t' : Time} (hij : i < j)
    (hi : occurrence next first i = some t) (hj : occurrence next first j = some t') : t < t' := by
  induction j generalizing t' with
  | zero => exact absurd hij (Nat.not_lt_zero i)
  | succ j ih =>
    obtain ⟨u, hu, hnext⟩ := Option.bind_eq_some_iff.mp hj
    rcases Nat.lt_succ_iff_lt_or_eq.mp hij with hlt | rfl
    · exact Int.lt_trans (ih hlt hu) (hn u t' hnext)
    · rw [hi] at hu
      cases hu
      exact hn _ _ hnext

/-- `_get_next_run_for_cron` on the columns of a cue. -/
def cronOf (env : Env) (cue : Cue) (t : Time) : Option Time :=
  env.cronNext (cue.scheduleCron.getD "") cue.scheduleTimezone t

theorem cronOf_fixed {cue cue' : Cue} (hf : CueFixed cue cue') :
    cronOf env cue' = cronOf env cue := by
  unfold cronOf
  rw [hf.scheduleCron, hf.scheduleTimezone]

/-- `croniter.get_next` returns a later instant. -/
def CronAdvances (env : Env) : Prop :=
  ∀ cron zone t t', env.cronNext cron zone t = some t' → t < t'

theorem nextRunAfter_recurring {cue : Cue} {t : Time} {next : Option Time}
    (ht : cue.scheduleType = .recurring) (hc : truthy cue.scheduleCron = true)
    (hn : nextRunAfter env cue t = some next) :
    ∃ t', next = some t' ∧ cronOf env cue t = some t' := by
  unfold nextRunAfter at hn
  rw [if_pos ⟨ht, hc⟩] at hn
  obtain ⟨t', ht', rfl⟩ := Option.map_eq_some_iff.mp hn
  exact ⟨t', rfl, ht'⟩

/-! ## One execution for a slot, one `deliver` row for an execution -/

theorem insert_creates {p : Pid} {time : Time} {call : Call} {ws : List Write} {e : ExecId}
    {row : Execution} (hc : Commits env h p time call ws) (hm : .insertExecution e row ∈ ws) :
    (replay h).execution e = none ∧ ¬ (replay h).SlotTaken row.cueId row.scheduledFor ∧
      Creates env h ws e call row := by
  have hm' : .insertExecution e row ∈ writesOn (.execution e) ws := mem_writesOn.mpr ⟨hm, rfl⟩
  cases hc.on_execution e with
  | untouched hw => simp [hw] at hm'
  | inserted row' hw hn hs hcr =>
    simp only [hw, List.mem_singleton, Write.insertExecution.injEq, true_and] at hm'
    subst hm'
    exact ⟨hn, hs, hcr⟩
  | updated u r hw _ _ => simp [hw] at hm'

theorem BatchItem.insert_mem {now began : Time} {i : BatchItem} {e : ExecId} {row : Execution}
    (hm : .insertExecution e row ∈ i.writes env now began) :
    ∃ n?, i.inserted = some (e, n?) ∧ row = firedExecution i.c i.scheduledFor began := by
  have hm' := mem_writesOn.mpr ⟨hm, (rfl : Write.target _ = Key.execution e)⟩
  rw [BatchItem.writesOn_execution] at hm'
  split at hm'
  · rename_i hmap
    obtain ⟨⟨e', n?⟩, hins, rfl⟩ := Option.map_eq_some_iff.mp hmap
    simp only [List.mem_singleton, Write.insertExecution.injEq, true_and] at hm'
    exact ⟨n?, hins, hm'⟩
  · cases hm'

theorem Creates.call {e : ExecId} {ws : List Write} {call : Call} {row : Execution}
    (hcr : Creates env h ws e call row) :
    call = .processCueBatch ∨ ∃ user c source, Triggers call user c source := by
  cases hcr with
  | fired now began i n? _ _ _ => exact .inl rfl
  | triggered _ user c source n cue cue' scheduledFor began scheduledAt metadata ht _ _ _ =>
    exact .inr ⟨user, c, source, ht⟩

/-- A transaction adds at most one execution to a cue. -/
theorem Commits.insert_unique {p : Pid} {time : Time} {call : Call} {ws : List Write}
    {e e' : ExecId} {row row' : Execution} (hc : Commits env h p time call ws)
    (hm : .insertExecution e row ∈ ws) (hm' : .insertExecution e' row' ∈ ws)
    (heq : row.cueId = row'.cueId) : e = e' := by
  rcases (insert_creates hc hm).2.2.call with rfl | ⟨user, c, source, ht⟩
  · cases hc with
    | nothing _ _ => cases hm
    | triggered _ user c source e₀ n cue cue' s began scheduledAt metadata ht _ _ _ _ _ => cases ht
    | batch now began items _ _ hn _ _ =>
      obtain ⟨i₁, hi₁, hw₁⟩ := List.mem_flatMap.mp hm
      obtain ⟨i₂, hi₂, hw₂⟩ := List.mem_flatMap.mp hm'
      obtain ⟨n₁, hins₁, rfl⟩ := BatchItem.insert_mem hw₁
      obtain ⟨n₂, hins₂, rfl⟩ := BatchItem.insert_mem hw₂
      obtain rfl := List.inj_on_of_nodup_map hn hi₁ hi₂ heq
      rw [hins₁] at hins₂
      cases hins₂
      rfl
    | escalated _ c now hesc => cases hesc
    | workerClaimed _ endpoint worker e r began now hfor _ _ _ _ => cases hfor
  · cases hc with
    | triggered _ user' c' source' e₀ n cue cue' s began scheduledAt metadata _ _ _ _ _ _ =>
      rw [List.mem_append, List.mem_singleton] at hm hm'
      have hnot : ∀ {x y}, Write.insertExecution x y ∉
          if cue.callbackTransport = .webhook && truthy cue.callbackUrl then
            [Write.insertOutbox n (triggeredOutbox env user' c' cue e₀ s began scheduledAt)]
          else [] := by
        intro x y hxy
        split at hxy <;> simp at hxy
      have he := hm.resolve_left hnot
      have he' := hm'.resolve_left hnot
      cases he
      cases he'
      rfl
    | nothing _ _ => cases hm
    | escalated _ c now hesc => cases ht <;> cases hesc
    | workerClaimed _ endpoint worker e r began now hfor _ _ _ _ => cases ht <;> cases hfor
    | _ => cases ht

/-- An execution after an event was there before, or the event is the commit that
inserted it. -/
theorem execution_old_or_new {ev : Event} {e : ExecId} {r : Execution} (ha : Allowed env h ev)
    (hr : (replay (ev :: h)).execution e = some r) :
    (∃ r₀, (replay h).execution e = some r₀ ∧ ExecFixed r₀ r) ∨
    ∃ p time ws call, ev = .commit p time ws ∧ Commits env h p time call ws ∧
      .insertExecution e r ∈ ws := by
  cases exec_step ha e with
  | same _ heq _ => exact .inl ⟨r, heq ▸ hr, .refl r⟩
  | created p time ws call row hcall _ hrow hws _ _ =>
    rw [hrow] at hr
    cases hr
    obtain ⟨⟨call', -, hc⟩, -⟩ := ha
    exact .inr ⟨p, time, ws, call', rfl, hc, mem_of_writesOn_eq hws⟩
  | updated p time ws call u r₀ _ hr₀ hrow _ _ =>
    rw [hrow] at hr
    cases hr
    exact .inl ⟨r₀, hr₀, u.set_fixed r₀⟩

/-- The unique index of `executions` on `(cue_id, scheduled_for)`. -/
theorem slot_unique (hl : Legal env h) {e e' : ExecId} {r r' : Execution}
    (hr : (replay h).execution e = some r) (hr' : (replay h).execution e' = some r')
    (hc : r.cueId = r'.cueId) (hs : r.scheduledFor = r'.scheduledFor) : e = e' := by
  revert e e' r r'
  refine Along.invariant (J := fun h => ∀ {e e' r r'}, (replay h).execution e = some r →
    (replay h).execution e' = some r' → r.cueId = r'.cueId → r.scheduledFor = r'.scheduledFor →
    e = e') (fun hr => by simp [replay, Tables.execution] at hr) ?_ hl
  intro h ev _ ha ih e e' r r' hr hr' hc hs
  rcases execution_old_or_new ha hr with ⟨r₀, hr₀, hf⟩ | ⟨p, time, ws, call, rfl, hcm, hm⟩
  · rcases execution_old_or_new ha hr' with ⟨r₀', hr₀', hf'⟩ | ⟨p, time, ws, call, rfl, hcm, hm⟩
    · exact ih hr₀ hr₀' (by rw [← hf.cueId, ← hf'.cueId, hc])
        (by rw [← hf.scheduledFor, ← hf'.scheduledFor, hs])
    · refine absurd ⟨e, r₀, hr₀, ?_, ?_⟩ (insert_creates hcm hm).2.1
      · rw [← hf.cueId, hc]
      · rw [← hf.scheduledFor, hs]
  · rcases execution_old_or_new ha hr' with ⟨r₀', hr₀', hf'⟩ | ⟨_, _, _, call', heq, hcm', hm'⟩
    · refine absurd ⟨e', r₀', hr₀', ?_, ?_⟩ (insert_creates hcm hm).2.1
      · rw [← hf'.cueId, hc]
      · rw [← hf'.scheduledFor, hs]
    · cases heq
      exact hcm.insert_unique hm hm' hc

/-- A transaction that inserts a `deliver` row inserts the execution, too. -/
theorem Puts.deliver {ws : List Write} {o : OutboxRow} (hp : Puts env h ws o)
    (ht : o.taskType = .deliver) : (replay h).execution o.executionId = none := by
  cases hp with
  | fired now began i e n hok hins _ => exact (hok.fresh e _ hins).1
  | triggered user c source e cue cue' s began scheduledAt metadata hn _ _ _ _ => exact hn
  | retry now began e r cue cue' _ _ _ _ => cases ht

theorem BatchItem.outbox_mem {now began : Time} {i : BatchItem} {n : OutboxId} {o : OutboxRow}
    (hm : .insertOutbox n o ∈ i.writes env now began) :
    ∃ e, i.inserted = some (e, some n) ∧ o.executionId = e := by
  have hm' := mem_writesOn.mpr ⟨hm, (rfl : Write.target _ = Key.outbox n)⟩
  rw [BatchItem.writesOn_outbox] at hm'
  split at hm'
  · rename_i e n' hins
    split at hm'
    · rename_i hn
      subst hn
      simp only [List.mem_singleton, Write.insertOutbox.injEq, true_and] at hm'
      subst hm'
      exact ⟨e, hins, rfl⟩
    · cases hm'
  · cases hm'

/-- A transaction inserts at most one `deliver` row for an execution. -/
theorem Commits.deliver_unique {p : Pid} {time : Time} {call : Call} {ws : List Write}
    {n n' : OutboxId} {o o' : OutboxRow} (hc : Commits env h p time call ws)
    (hm : .insertOutbox n o ∈ ws) (hm' : .insertOutbox n' o' ∈ ws) (ht : o.taskType = .deliver)
    (heq : o.executionId = o'.executionId) : n = n' := by
  have hno : ∀ {α : Type} {f : α → List Write} {items : List α},
      (∀ i ∈ items, writesOn (.outbox n) (f i) = []) → .insertOutbox n o ∉ items.flatMap f := by
    intro α f items hf hmem
    have hon := mem_writesOn.mpr ⟨hmem, (rfl : Write.target _ = Key.outbox n)⟩
    rw [writesOn_flatMap_nil hf] at hon
    cases hon
  cases hc with
  | triggered _ user c source e n₀ cue cue' s began scheduledAt metadata _ _ _ _ _ _ =>
    split at hm
    · simp only [List.singleton_append, List.mem_cons, Write.insertOutbox.injEq, reduceCtorEq,
        List.not_mem_nil, or_false] at hm
      rename_i hb
      simp only [hb, if_true, List.singleton_append, List.mem_cons, Write.insertOutbox.injEq,
        reduceCtorEq, List.not_mem_nil, or_false] at hm'
      rw [hm.1, hm'.1]
    · simp at hm
  | batch now began items _ _ _ hn _ =>
    obtain ⟨i₁, hi₁, hw₁⟩ := List.mem_flatMap.mp hm
    obtain ⟨i₂, hi₂, hw₂⟩ := List.mem_flatMap.mp hm'
    obtain ⟨e₁, hins₁, he₁⟩ := BatchItem.outbox_mem hw₁
    obtain ⟨e₂, hins₂, he₂⟩ := BatchItem.outbox_mem hw₂
    obtain rfl : e₁ = e₂ := he₁.symm.trans (heq.trans he₂)
    have h1 : (e₁, some n) ∈ items.filterMap BatchItem.inserted :=
      List.mem_filterMap.mpr ⟨i₁, hi₁, hins₁⟩
    have h2 : (e₁, some n') ∈ items.filterMap BatchItem.inserted :=
      List.mem_filterMap.mpr ⟨i₂, hi₂, hins₂⟩
    have hpair := List.inj_on_of_nodup_map hn h1 h2 rfl
    simpa using hpair
  | retries now began items _ _ _ _ =>
    obtain ⟨i, -, hw⟩ := List.mem_flatMap.mp hm
    simp only [RetryItem.writes, List.mem_cons, reduceCtorEq, Write.insertOutbox.injEq,
      List.not_mem_nil, or_false, false_or] at hw
    rw [hw.2] at ht
    cases ht
  | dispatched rows _ => simp at hm
  | recovered now items _ _ _ => exact absurd hm (hno fun i _ => i.writesOn_outbox now n)
  | reset now items _ _ _ => exact absurd hm (hno fun i _ => (i.writesOn_outbox now n).1)
  | missed now items _ _ _ => exact absurd hm (hno fun i _ => (i.writesOn_outbox now n).2)
  | finished j r attempts u tail began _ _ _ htail =>
    have hon := mem_writesOn.mpr ⟨hm, (rfl : Write.target _ = Key.outbox n)⟩
    simp [htail.writesOn_outbox, writesOn_cons, Write.target] at hon
  | outcome user e body r cue cue' mode now _ _ _ _ _ =>
    have hon := mem_writesOn.mpr ⟨hm, (rfl : Write.target _ = Key.outbox n)⟩
    simp [writesOn_cons, Write.target] at hon
  | _ => simp at hm

/-- An outbox row after an event was there before, or the event is the commit that
inserted it. -/
theorem outboxRow_old_or_new {ev : Event} {n : OutboxId} {o : OutboxRow} (ha : Allowed env h ev)
    (ho : (replay (ev :: h)).outboxRow n = some o) :
    (∃ o₀, (replay h).outboxRow n = some o₀ ∧ OutboxFixed o₀ o) ∨
    ∃ p time ws, ev = .commit p time ws ∧ .insertOutbox n o ∈ ws ∧ Puts env h ws o := by
  cases outbox_step ha n with
  | same _ hsame => exact .inl ⟨o, hsame ▸ ho, .refl o⟩
  | created p time ws o₁ _ ho₁ hm hp =>
    rw [ho₁] at ho
    cases ho
    exact .inr ⟨p, time, ws, rfl, hm, hp⟩
  | marked p time ws o₀ o₁ ho₀ ho₁ hf _ =>
    rw [ho₁] at ho
    cases ho
    exact .inl ⟨o₀, ho₀, hf⟩

theorem deliver_row_unique (hl : Legal env h) {n n' : OutboxId} {o o' : OutboxRow}
    (ho : (replay h).outboxRow n = some o) (ho' : (replay h).outboxRow n' = some o')
    (ht : o.taskType = .deliver) (ht' : o'.taskType = .deliver)
    (heq : o.executionId = o'.executionId) : n = n' := by
  revert n n' o o'
  refine Along.invariant (J := fun h => ∀ {n n' o o'}, (replay h).outboxRow n = some o →
    (replay h).outboxRow n' = some o' → o.taskType = .deliver → o'.taskType = .deliver →
    o.executionId = o'.executionId → n = n')
    (fun ho => by simp [replay, Tables.outboxRow] at ho) ?_ hl
  intro h ev hlh ha ih n n' o o' ho ho' ht ht' heq
  -- the execution of an old row is there, so no INSERT of a `deliver` row meets it
  have clash : ∀ {n o₀ o o₁ ws}, (replay h).outboxRow n = some o₀ → OutboxFixed o₀ o →
      Puts env h ws o₁ → o₁.taskType = .deliver → o.executionId = o₁.executionId → False := by
    intro n o₀ o o₁ ws ho₀ hf hp ht heq
    obtain ⟨r, -, hr, -⟩ := (outbox_rowOf hlh ho₀).execution
    rw [← hf.executionId, heq, hp.deliver ht] at hr
    cases hr
  rcases outboxRow_old_or_new ha ho with ⟨o₀, ho₀, hf⟩ | ⟨p, time, ws, rfl, hm, hp⟩
  · rcases outboxRow_old_or_new ha ho' with ⟨o₀', ho₀', hf'⟩ | ⟨p, time, ws, rfl, hm, hp⟩
    · exact ih ho₀ ho₀' (hf.taskType ▸ ht) (hf'.taskType ▸ ht')
        (by rw [← hf.executionId, ← hf'.executionId, heq])
    · exact (clash ho₀ hf hp ht' heq).elim
  · rcases outboxRow_old_or_new ha ho' with ⟨o₀', ho₀', hf'⟩ | ⟨_, _, _, heqv, hm', hp'⟩
    · exact (clash ho₀' hf' hp ht heq.symm).elim
    · cases heqv
      obtain ⟨⟨call, -, hc⟩, -⟩ := ha
      exact hc.deliver_unique hm hm' ht heq

/-! ## An undisturbed cue keeps to its schedule -/

/-- The write adds an execution that the user fired or replayed. -/
def Write.triggers (c : CueId) : Write → Bool
  | .insertExecution _ row => row.cueId = c && row.triggeredBy.isSome
  | _ => false

/-- The cue stays active, and nobody fires or replays it. -/
def Undisturbed (c : CueId) (h : History) (ev : Event) : Prop :=
  (((replay (ev :: h)).cue c).all fun cue => cue.status = .active) = true ∧
  ∀ w ∈ ev.writes, w.triggers c = false

instance (h : History) (ev : Event) : Decidable (Undisturbed c h ev) :=
  inferInstanceAs (Decidable (_ ∧ ∀ w ∈ _, _))

/-- The cue has been fired for its first `k` occurrences, and only for these. -/
structure Scheduled (env : Env) (h : History) (c : CueId) (cue : Cue) (first : Time) (k : Nat) :
    Prop where
  created : ∃ p time row, .commit p time [.insertCue c row] ∈ h ∧ row.nextRun = some first
  next : cue.nextRun = occurrence (cronOf env cue) first k
  due : ∃ t, cue.nextRun = some t
  fired : cue.firedCount = k
  executions : ∀ e r, (replay h).execution e = some r → r.cueId = c →
    ∃ i < k, occurrence (cronOf env cue) first i = some r.scheduledFor
  taken : ∀ i < k, ∀ t, occurrence (cronOf env cue) first i = some t → (replay h).SlotTaken c t

/-- Nothing of the schedule changes when no execution of the cue is added. -/
theorem Scheduled.kept {ev : Event} {cue cue' : Cue} {first : Time} {k : Nat}
    (hs : Scheduled env h c cue first k) (hf : CueFixed cue cue')
    (hn : cue'.nextRun = cue.nextRun) (hfc : cue'.firedCount = cue.firedCount)
    (hold : ∀ e r, (replay (ev :: h)).execution e = some r → r.cueId = c →
      ∃ r₀, (replay h).execution e = some r₀ ∧ ExecFixed r₀ r) :
    Scheduled env (ev :: h) c cue' first k where
  created := by
    obtain ⟨p, time, row, hm, hrow⟩ := hs.created
    exact ⟨p, time, row, List.mem_cons_of_mem _ hm, hrow⟩
  next := by rw [hn, cronOf_fixed hf, hs.next]
  due := by rw [hn]; exact hs.due
  fired := hfc.trans hs.fired
  executions e r hr hc := by
    obtain ⟨r₀, hr₀, hfix⟩ := hold e r hr hc
    rw [cronOf_fixed hf, hfix.scheduledFor]
    exact hs.executions e r₀ hr₀ (hfix.cueId.symm.trans hc)
  taken i hi t ht := by
    rw [cronOf_fixed hf] at ht
    exact (Tables.Grows.replay_cons ev h).slotTaken (hs.taken i hi t ht)

/-- A poller finds the slot of the next occurrence free. -/
theorem Scheduled.slot_free {cue : Cue} {first t : Time} {k : Nat}
    (hs : Scheduled env h c cue first k) (hcron : CronAdvances env) (ht : cue.nextRun = some t) :
    ¬ (replay h).SlotTaken c t := by
  rintro ⟨e, r, hr, hc, rfl⟩
  obtain ⟨i, hi, hocc⟩ := hs.executions e r hr hc
  have hlt := occurrence_lt (fun t t' hn => hcron _ _ t t' hn) hi hocc (hs.next.symm.trans ht)
  exact absurd hlt (Int.lt_irrefl _)

/-- An iteration of `_process_cue_batch` fires the next occurrence. -/
theorem Scheduled.fire {p : Pid} {time now began : Time} {ws : List Write} {i : BatchItem}
    {cue' : Cue} {first : Time} {k : Nat} (hs : Scheduled env h c i.cue first k)
    (hcron : CronAdvances env) (ha : Allowed env h (.commit p time ws)) (hl : Legal env h)
    (hok : i.Ok env (replay h) now) (hic : i.c = c) (hws : ∀ w ∈ i.writes env now began, w ∈ ws)
    (hrec : i.cue.scheduleType = .recurring) (hf : CueFixed i.cue cue')
    (hn : cue'.nextRun = i.next)
    (hfc : cue'.firedCount = i.cue.firedCount + (if i.inserted.isSome then 1 else 0))
    (hnew : ∀ e r, .insertExecution e r ∈ ws → r.cueId = c → r.scheduledFor = i.scheduledFor) :
    Scheduled env (.commit p time ws :: h) c cue' first (k + 1) := by
  have hg := Tables.Grows.replay_cons (.commit p time ws) h
  subst hic
  -- the slot was free, so the execution is inserted
  have hfree := hs.slot_free hcron hok.due
  obtain ⟨⟨e, n?⟩, hins⟩ : ∃ x, i.inserted = some x := by
    cases hins : i.inserted with
    | none => exact absurd (hok.conflict hins) hfree
    | some x => exact ⟨x, rfl⟩
  have hm := hws (.insertExecution e (firedExecution i.c i.scheduledFor began))
    (by simp [BatchItem.writes, hins])
  obtain ⟨t', hnext, hcronNext⟩ :=
    nextRunAfter_recurring hrec ((cue_ok hl hok.row).cron hrec) hok.next
  have hoccNow : occurrence (cronOf env i.cue) first k = some i.scheduledFor :=
    hs.next.symm.trans hok.due
  have hoccNext : occurrence (cronOf env i.cue) first (k + 1) = some t' := by
    simp [occurrence, hoccNow, hcronNext]
  refine ⟨?_, ?_, ⟨t', hn.trans hnext⟩, ?_, fun e' r hr hc => ?_, fun j hj t ht => ?_⟩
  · obtain ⟨q, tm, row, hmem, hrow⟩ := hs.created
    exact ⟨q, tm, row, List.mem_cons_of_mem _ hmem, hrow⟩
  · rw [hn, hnext, cronOf_fixed hf, hoccNext]
  · rw [hfc, hs.fired]
    simp [hins]
  · rw [cronOf_fixed hf]
    rcases execution_old_or_new ha hr with ⟨r₀, hr₀, hfix⟩ | ⟨q, tm, us, call, heq, hcm, hmem⟩
    · obtain ⟨j, hj, hocc⟩ := hs.executions e' r₀ hr₀ (hfix.cueId.symm.trans hc)
      exact ⟨j, Nat.lt_succ_of_lt hj, by rw [hfix.scheduledFor]; exact hocc⟩
    · cases heq
      exact ⟨k, Nat.lt_succ_self k, by rw [hnew e' r hmem hc]; exact hoccNow⟩
  · rw [cronOf_fixed hf] at ht
    rcases Nat.lt_succ_iff_lt_or_eq.mp hj with hlt | rfl
    · exact hg.slotTaken (hs.taken j hlt t ht)
    · rw [hoccNow] at ht
      cases ht
      exact ⟨e, _, execution_of_insert ha hm, rfl, rfl⟩

/-- A new execution of an undisturbed cue is the poller's, for the due run. -/
theorem Undisturbed.fired {p : Pid} {time : Time} {ws : List Write} {e : ExecId} {r : Execution}
    {call : Call} (hu : Undisturbed c h (.commit p time ws))
    (hcm : Commits env h p time call ws) (hm : .insertExecution e r ∈ ws) (hc : r.cueId = c) :
    ∃ cue next now, (replay h).cue c = some cue ∧ cue.nextRun = some r.scheduledFor ∧
      .updateCue c (.advance next now) ∈ ws := by
  obtain ⟨-, -, hcr⟩ := insert_creates hcm hm
  cases hcr with
  | fired now began i n? hok hins hws =>
    have hic : i.c = c := hc
    subst hic
    exact ⟨i.cue, i.next, now, hok.row, hok.due, hws _ (by simp [BatchItem.writes])⟩
  | triggered _ user c' source n cue cue' scheduledFor began scheduledAt metadata _ _ _ _ =>
    have htr := hu.2 _ hm
    have hce : c' = c := hc
    simp [Write.triggers, triggeredExecution, hce] at htr

theorem scheduled (hcron : CronAdvances env) (hl : Legal env h) (hu : Along (Undisturbed c) h)
    {cue : Cue} (hc : (replay h).cue c = some cue) (hrec : cue.scheduleType = .recurring) :
    ∃ first k, Scheduled env h c cue first k := by
  revert cue
  refine Along.invariant (J := fun h => ∀ {cue}, (replay h).cue c = some cue →
    cue.scheduleType = .recurring → ∃ first k, Scheduled env h c cue first k)
    (fun hc => by simp [replay, Tables.cue] at hc) ?_ (Along.and hl hu)
  rintro h ev hlh ⟨ha, hund⟩ ih cue hc hrec
  have hl' : Legal env h := hlh.mono fun _ _ hb => hb.1
  cases cue_step ha c with
  | silent _ hsil =>
    have hsame := replay_silent (h := h) hsil
    rw [hsame] at hc
    obtain ⟨first, k, hs⟩ := ih hc hrec
    exact ⟨first, k, hs.kept (.refl cue) rfl rfl fun e r hr _ => ⟨r, hsame ▸ hr, .refl r⟩⟩
  | absent p time ws _ hn =>
    rw [hn] at hc
    cases hc
  | created p time user data nextRun began now hn hval =>
    rw [replay_insertCue hn] at hc
    cases hc
    refine ⟨nextRun, 0, ⟨p, time, _, List.mem_cons_self .., rfl⟩, rfl, ⟨nextRun, rfl⟩, rfl,
      fun e r hr hce => ?_, fun i hi => absurd hi (Nat.not_lt_zero i)⟩
    rcases execution_old_or_new ha hr with ⟨r₀, hr₀, hfix⟩ | ⟨_, _, _, call, heq, -, hm⟩
    · obtain ⟨cue₀, hcue₀⟩ := cue_of_execution hl' hr₀
      rw [← hfix.cueId, hce, hn] at hcue₀
      cases hcue₀
    · cases heq
      simp at hm
  | fired p time ws now began i cue' hok hic hws hc' hf hnx _ hfc _ =>
    rw [hc'] at hc
    cases hc
    rw [hf.scheduleType] at hrec
    obtain ⟨first, k, hs⟩ := ih (hic ▸ hok.row) hrec
    refine ⟨first, k + 1, hs.fire hcron ha hl' hok hic hws hrec hf hnx hfc fun e r hm hce => ?_⟩
    obtain ⟨⟨call, -, hcm⟩, -⟩ := ha
    obtain ⟨cue₀, next, now', hcue₀, hdue, -⟩ := Undisturbed.fired hund hcm hm hce
    rw [← hic, hok.row] at hcue₀
    cases hcue₀
    rw [hok.due] at hdue
    exact (Option.some.inj hdue).symm
  | quiet p time ws cue₀ cue' hc₀ hc' hq hadv =>
    rw [hc'] at hc
    cases hc
    rw [hq.fixed.scheduleType] at hrec
    obtain ⟨first, k, hs⟩ := ih hc₀ hrec
    have hact : cue.status = .active := by
      have := hund.1
      simpa [hc'] using this
    refine ⟨first, k, hs.kept hq.fixed (hq.nextRun hact) hq.firedCount fun e r hr hce => ?_⟩
    rcases execution_old_or_new ha hr with hold | ⟨_, _, _, call, heq, hcm, hm⟩
    · exact hold
    · cases heq
      obtain ⟨-, next, now, -, -, hmem⟩ := Undisturbed.fired hund hcm hm hce
      exact absurd hmem (hadv next now)

/-- The transaction that adds `e` adds a `deliver` row for it. -/
def FiredWithRow (e : ExecId) (h : History) : Prop :=
  ∃ p time ws row n o, .commit p time ws ∈ h ∧ .insertExecution e row ∈ ws ∧
    .insertOutbox n o ∈ ws ∧ o.executionId = e ∧ o.taskType = .deliver

theorem fired_with_row (hl : Legal env h) (hu : Along (Undisturbed c) h) {e : ExecId}
    {r : Execution} (hr : (replay h).execution e = some r) (hc : r.cueId = c)
    (hw : transportOf (replay h) c = some .webhook) : FiredWithRow e h := by
  revert e r
  refine Along.invariant (J := fun h => transportOf (replay h) c = some .webhook →
    ∀ {e r}, (replay h).execution e = some r → r.cueId = c → FiredWithRow e h)
    (fun _ {e r} hr => by simp [replay, Tables.execution] at hr) ?_ (Along.and hl hu) hw
  rintro h ev hlh ⟨ha, hund⟩ ih hw e r hr hc
  have hl' : Legal env h := hlh.mono fun _ _ hb => hb.1
  have hold : ∀ {cue}, (replay h).cue c = some cue → cue.callbackTransport = .webhook := by
    intro cue hcue
    have ht : transportOf (replay h) c = some cue.callbackTransport := by simp [transportOf, hcue]
    rw [(Tables.Grows.replay_cons ev h).transportOf ht] at hw
    exact Option.some.inj hw
  rcases execution_old_or_new ha hr with ⟨r₀, hr₀, hf⟩ | ⟨p, time, ws, call, rfl, hcm, hm⟩
  · have hc₀ := hf.cueId.symm.trans hc
    obtain ⟨cue, hcue⟩ := cue_of_execution hl' hr₀
    rw [hc₀] at hcue
    have hw₀ : transportOf (replay h) c = some .webhook := by simp [transportOf, hcue, hold hcue]
    obtain ⟨p, time, ws, row, n, o, hmem, hrest⟩ := ih hw₀ hr₀ hc₀
    exact ⟨p, time, ws, row, n, o, List.mem_cons_of_mem _ hmem, hrest⟩
  · obtain ⟨-, -, hcr⟩ := insert_creates hcm hm
    cases hcr with
    | fired now began i n? hok hins hws =>
      have hic : i.c = c := hc
      subst hic
      obtain ⟨-, -, hiff, -⟩ := hok.fresh e n? hins
      cases n? with
      | none =>
        have hworker := hiff.mp rfl
        rw [hold hok.row] at hworker
        cases hworker
      | some n =>
        exact ⟨p, time, ws, _, n, firedOutbox env i.c i.cue e i.scheduledFor began,
          List.mem_cons_self .., hm, hws _ (by simp [BatchItem.writes, hins]), rfl, rfl⟩
    | triggered _ user c' source n cue cue' scheduledFor began scheduledAt metadata _ _ _ _ =>
      have htr := hund.2 _ hm
      have hce : c' = c := hc
      simp [Write.triggers, triggeredExecution, hce] at htr

theorem FiredWithRow.unique {e : ExecId} (hf : FiredWithRow e h) (hl : Legal env h) :
    ∃! n, ∃ o, (replay h).outboxRow n = some o ∧ o.executionId = e ∧ o.taskType = .deliver := by
  obtain ⟨p, time, ws, row, n, o, hmem, -, hm, he, ht⟩ := hf
  obtain ⟨h', hs⟩ := mem_split hmem
  have hrow := (outboxRow_of_insert (Along.at hl hs) hm).2
  obtain ⟨o', ho', hfix⟩ := (Tables.Grows.replay_suffix hs).outboxRow hrow
  refine ⟨n, ⟨o', ho', hfix.executionId.trans he, hfix.taskType.trans ht⟩, ?_⟩
  rintro n' ⟨o'', ho'', he'', ht''⟩
  exact deliver_row_unique hl ho'' ho' ht'' (hfix.taskType.trans ht)
    (he''.trans (hfix.executionId.trans he).symm)

/-- The executions of the cue are its first `k` occurrences, each once and in
order, with one `deliver` row each where the cue is a webhook; `next_run` is the
occurrence after them. -/
structure FiredOnce (env : Env) (s : Sys) (c : CueId) (cue : Cue) (first : Time) (k : Nat) :
    Prop where
  created : ∃ p time row, .commit p time [.insertCue c row] ∈ s.shared.history ∧
    row.nextRun = some first
  fired : cue.firedCount = k
  next : ∃ t, cue.nextRun = some t ∧ occurrence (cronOf env cue) first k = some t
  executions : ∀ e r, s.shared.tables.execution e = some r → r.cueId = c →
    ∃ i < k, occurrence (cronOf env cue) first i = some r.scheduledFor
  each : ∀ i < k, ∃ t, occurrence (cronOf env cue) first i = some t ∧
    ∃! e, ∃ r, s.shared.tables.execution e = some r ∧ r.cueId = c ∧ r.scheduledFor = t
  increasing : ∀ i j t t', i < j → occurrence (cronOf env cue) first i = some t →
    occurrence (cronOf env cue) first j = some t' → t < t'
  row : cue.callbackTransport = .webhook →
    ∀ e r, s.shared.tables.execution e = some r → r.cueId = c →
      FiredWithRow e s.shared.history ∧ ∃! n, ∃ o, s.shared.tables.outboxRow n = some o ∧
        o.executionId = e ∧ o.taskType = .deliver

/-- The occurrences before one that exists exist. -/
theorem occurrence_some {next : Time → Option Time} {first t : Time} {k : Nat}
    (hk : occurrence next first k = some t) {i : Nat} (hi : i < k) :
    ∃ t', occurrence next first i = some t' := by
  induction k generalizing t with
  | zero => exact absurd hi (Nat.not_lt_zero i)
  | succ k ih =>
    obtain ⟨u, hu, -⟩ := Option.bind_eq_some_iff.mp hk
    rcases Nat.lt_succ_iff_lt_or_eq.mp hi with hlt | rfl
    · exact ih hu hlt
    · exact ⟨u, hu⟩

/-- Exactly-once scheduling of a recurring cue that stays active and that nobody
fires or replays. -/
theorem fired_exactly_once (hr : Reachable env s) (hcron : CronAdvances env)
    (hu : Along (Undisturbed c) s.shared.history) {cue : Cue}
    (hc : s.shared.tables.cue c = some cue) (hrec : cue.scheduleType = .recurring) :
    ∃ first k, FiredOnce env s c cue first k := by
  rw [hr.tables_eq] at hc
  obtain ⟨first, k, hs⟩ := scheduled hcron hr.legal hu hc hrec
  obtain ⟨t, ht⟩ := hs.due
  refine ⟨first, k, hs.created, hs.fired, ⟨t, ht, hs.next.symm.trans ht⟩, ?_, ?_, ?_, ?_⟩
  · rw [hr.tables_eq]
    exact hs.executions
  · intro i hi
    obtain ⟨t', ht'⟩ := occurrence_some (hs.next.symm.trans ht) hi
    obtain ⟨e, r, hre, hrc, hrs⟩ := hs.taken i hi t' ht'
    rw [hr.tables_eq]
    refine ⟨t', ht', e, ⟨r, hre, hrc, hrs⟩, ?_⟩
    rintro e' ⟨r', hre', hrc', hrs'⟩
    exact slot_unique hr.legal hre' hre (hrc'.trans hrc.symm) (hrs'.trans hrs.symm)
  · intro i j t t' hij hi hj
    exact occurrence_lt (fun t t' hn => hcron _ _ t t' hn) hij hi hj
  · intro hw e r hre hrc
    rw [hr.tables_eq] at hre ⊢
    have ht : transportOf (replay s.shared.history) c = some .webhook := by
      simp [transportOf, hc, hw]
    have hf := fired_with_row hr.legal hu hre hrc ht
    exact ⟨hf, hf.unique hr.legal⟩

/-! ## A concrete schedule -/

/-- Every minute. -/
def minutelyCue : CueCreate :=
  { webhookCue with schedule := { type := some .recurring, cron := some "* * * * *" } }

theorem plainEnv_cronAdvances : CronAdvances plainEnv := by
  intro cron zone t t' hn
  simp only [plainEnv, Option.some.injEq] at hn
  unfold Time at *
  omega

/-- Two pollers at the same due run: one locks the cue, the other skips it. -/
def twoPollers : List Action :=
  playAll 1 (.createCue 1 minutelyCue) (gos 4 ++ [.fresh 7, .go]) ++ [.tick 61000000] ++
  play 2 .processCueBatch (gos 2 ++ [.rows [7], .fresh 1]) ++
  playAll 3 .processCueBatch (gos 2 ++ [.rows [], .go]) ++
  ((gos 1 ++ [Answer.fresh 1] ++ gos 2).map (.advance 2)) ++ [.finish 2, .tick 60000000] ++
  playAll 4 .processCueBatch (gos 2 ++ [.rows [7], .fresh 2, .go, .fresh 2] ++ gos 2)

theorem fired_exactly_once_minutely : ∃ s cue, Reachable plainEnv s ∧
    s.shared.tables.cue 7 = some cue ∧ cue.firedCount = 2 ∧
    ∃ first k, FiredOnce plainEnv s 7 cue first k := by
  obtain ⟨s, hs, hv⟩ := reachable_of_run plainEnv 0 twoPollers
    (fun s => ((s.shared.tables.cue 7).map fun cue => (cue.firedCount, cue.scheduleType),
      decide (Along (Undisturbed 7) s.shared.history)))
    (some (2, .recurring), true) (by decide +kernel)
  simp only [Prod.mk.injEq, decide_eq_true_eq, Option.map_eq_some_iff] at hv
  obtain ⟨⟨cue, hcue, hf, hrec⟩, hu⟩ := hv
  exact ⟨s, cue, hs, hcue, hf, fired_exactly_once hs plainEnv_cronAdvances hu hcue hrec⟩

end CueApi.Scheduler
