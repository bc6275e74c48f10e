import CueApi.Scheduler.Invariants

/-! What one transaction does to one cue. The cron poller advances `next_run` and
counts what it fired; every other statement leaves these two columns of an active
cue alone. -/

namespace CueApi.Scheduler

open ReadCommitted Interleaving Trace

variable {env : Env} {h : History} {c : CueId}

/-! ## Statements that are not the cron poller's -/

/-- The UPDATEs of `cues` outside `_process_cue_batch`. -/
def CueUpdate.quiet : CueUpdate → Bool
  | .incrementFired _ | .advance _ _ => false
  | _ => true

def CueUpdate.pauses : CueUpdate → Bool
  | .pause _ => true
  | _ => false

def CueUpdate.finishes : CueUpdate → Bool
  | .finish _ _ => true
  | _ => false

/-- How much an UPDATE adds to `run_count`. -/
def CueUpdate.runs : CueUpdate → Nat
  | .incrementRun _ | .outcomeRun _ => 1
  | _ => 0

/-- How much a write adds to the `run_count` of `c`. -/
def Write.runs (c : CueId) : Write → Nat
  | .updateCue c' u => if c' = c then u.runs else 0
  | _ => 0

def runsOn (c : CueId) (ws : List Write) : Nat := (ws.map (Write.runs c)).sum

theorem runsOn_writesOn (c : CueId) (ws : List Write) :
    runsOn c (writesOn (.cue c) ws) = runsOn c ws := by
  unfold runsOn
  induction ws with
  | nil => rfl
  | cons w ws ih =>
    rw [writesOn_cons]
    split
    · simp [ih]
    · rename_i hne
      rw [ih]
      cases w <;> simp_all [Write.runs, Write.target]

/-- The writes are quiet UPDATEs of `c`; a transaction that pauses does not finish. -/
structure Quiet (c : CueId) (ws : List Write) : Prop where
  quiet : ∀ w ∈ ws, ∃ u, w = .updateCue c u ∧ u.quiet = true
  ends : (∀ u, .updateCue c u ∈ ws → u.pauses = false) ∨
    ∀ u, .updateCue c u ∈ ws → u.finishes = false

/-- What quiet writes leave of a cue. -/
structure QuietStep (runs : Nat) (cue cue' : Cue) : Prop where
  fixed : CueFixed cue cue'
  firedCount : cue'.firedCount = cue.firedCount
  runCount : cue'.runCount = cue.runCount + runs
  nextRun : cue'.status = .active → cue'.nextRun = cue.nextRun

theorem cue_applyAll_cons (u : CueUpdate) (ws : List Write) (t : Tables) :
    (schema.applyAll (.updateCue c u :: ws) t).cue c =
      ((schema.applyAll ws t).cue c).map u.set := by
  simp [Tables.cue_apply]

theorem quiet_none {ws : List Write} {t : Tables}
    (hq : ∀ w ∈ ws, ∃ u, w = .updateCue c u ∧ u.quiet = true) (hn : t.cue c = none) :
    (schema.applyAll ws t).cue c = none := by
  induction ws with
  | nil => exact hn
  | cons w ws ih =>
    obtain ⟨u, rfl, -⟩ := hq w (by simp)
    rw [cue_applyAll_cons, ih fun w' hw' => hq w' (by simp [hw'])]
    rfl

/-- The columns that no order of quiet writes can mix up. -/
theorem quiet_counts {ws : List Write} {t : Tables} {cue : Cue}
    (hq : ∀ w ∈ ws, ∃ u, w = .updateCue c u ∧ u.quiet = true) (hc : t.cue c = some cue) :
    ∃ cue', (schema.applyAll ws t).cue c = some cue' ∧ CueFixed cue cue' ∧
      cue'.firedCount = cue.firedCount ∧ cue'.runCount = cue.runCount + runsOn c ws := by
  induction ws with
  | nil => exact ⟨cue, hc, .refl cue, rfl, rfl⟩
  | cons w ws ih =>
    obtain ⟨u, rfl, hu⟩ := hq w (by simp)
    obtain ⟨cue', hc', hf, hfired, hrun⟩ := ih fun w' hw' => hq w' (by simp [hw'])
    refine ⟨u.set cue', by rw [cue_applyAll_cons, hc']; rfl, hf.trans (u.set_fixed cue'), ?_, ?_⟩
    · cases u <;> first | exact hfired | cases hu
    · simp only [runsOn, List.map_cons, List.sum_cons, Write.runs, if_true] at hrun ⊢
      cases u <;> simp only [CueUpdate.set, CueUpdate.runs, hrun] <;> omega

theorem quiet_nextRun_of_no_pause {ws : List Write} {t : Tables} {cue cue' : Cue}
    (hq : ∀ w ∈ ws, ∃ u, w = .updateCue c u ∧ u.quiet = true)
    (hp : ∀ u, .updateCue c u ∈ ws → u.pauses = false)
    (hc : t.cue c = some cue) (hc' : (schema.applyAll ws t).cue c = some cue') :
    cue'.nextRun = cue.nextRun := by
  induction ws generalizing cue' with
  | nil =>
    rw [show schema.applyAll [] t = t from rfl, hc] at hc'
    cases hc'
    rfl
  | cons w ws ih =>
    obtain ⟨u, rfl, hu⟩ := hq w (by simp)
    have hq' : ∀ w ∈ ws, ∃ u, w = .updateCue c u ∧ u.quiet = true :=
      fun w' hw' => hq w' (by simp [hw'])
    obtain ⟨cue₁, hc₁, -⟩ := quiet_counts hq' hc
    have ih₁ := ih hq' (fun v hv => hp v (by simp [hv])) hc₁
    rw [cue_applyAll_cons, hc₁] at hc'
    cases hc'
    have hpu := hp u (by simp)
    cases u with
    | pause now => cases hpu
    | incrementFired began => cases hu
    | advance next now => cases hu
    | _ => exact ih₁

/-- `next_run` is kept, unless the last word is a pause. -/
theorem quiet_nextRun {ws : List Write} {t : Tables} {cue cue' : Cue} (hq : Quiet c ws)
    (hc : t.cue c = some cue) (hc' : (schema.applyAll ws t).cue c = some cue') :
    cue'.nextRun = cue.nextRun ∨ cue'.status = .paused := by
  induction ws generalizing cue' with
  | nil =>
    rw [show schema.applyAll [] t = t from rfl, hc] at hc'
    cases hc'
    exact .inl rfl
  | cons w ws ih =>
    obtain ⟨u, rfl, hu⟩ := hq.quiet w (by simp)
    have hq' : Quiet c ws := ⟨fun w' hw' => hq.quiet w' (by simp [hw']),
      hq.ends.imp (fun hp v hv => hp v (by simp [hv])) fun hp v hv => hp v (by simp [hv])⟩
    obtain ⟨cue₁, hc₁, -⟩ := quiet_counts hq'.quiet hc
    have ih₁ := ih hq' hc₁
    rw [cue_applyAll_cons, hc₁] at hc'
    cases hc'
    cases u with
    | incrementFired began => cases hu
    | advance next now => cases hu
    | pause now => exact .inr rfl
    | finish status now =>
      rcases hq.ends with hp | hf
      · have hn : cue₁.nextRun = cue.nextRun :=
          quiet_nextRun_of_no_pause hq'.quiet (fun v hv => hp v (by simp [hv])) hc hc₁
        exact .inl hn
      · exact absurd (hf (.finish status now) (by simp)) (by simp [CueUpdate.finishes])
    | incrementRun began => exact ih₁
    | ran now => exact ih₁
    | outcomeRun now => exact ih₁

/-- What quiet writes do to an existing cue. -/
theorem quiet_step {ws : List Write} {t : Tables} {cue : Cue} (hq : Quiet c ws)
    (hc : t.cue c = some cue) : ∃ cue', (schema.applyAll ws t).cue c = some cue' ∧
      QuietStep (runsOn c ws) cue cue' := by
  obtain ⟨cue', hc', hf, hfired, hrun⟩ := quiet_counts hq.quiet hc
  refine ⟨cue', hc', hf, hfired, hrun, fun hs => ?_⟩
  rcases quiet_nextRun hq hc hc' with hn | hp
  · exact hn
  · rw [hs] at hp
    cases hp

/-! ## One cue in one transaction -/

/-- The write is not the cron poller's and inserts no cue. -/
def Write.quiet : Write → Bool
  | .insertCue _ _ => false
  | .updateCue _ u => u.quiet
  | _ => true

def Write.pauses : Write → Bool
  | .updateCue _ u => u.pauses
  | _ => false

def Write.finishes : Write → Bool
  | .updateCue _ u => u.finishes
  | _ => false

theorem quiet_writesOn {ws : List Write} (hq : ∀ w ∈ ws, w.quiet = true)
    (he : (∀ w ∈ ws, w.pauses = false) ∨ ∀ w ∈ ws, w.finishes = false) :
    Quiet c (writesOn (.cue c) ws) where
  quiet w hw := by
    obtain ⟨hm, ht⟩ := mem_writesOn.mp hw
    have hwq := hq w hm
    cases w <;> simp only [Write.target, reduceCtorEq] at ht
    case insertCue c' row => cases hwq
    case updateCue c' u =>
      cases ht
      exact ⟨u, rfl, hwq⟩
  ends := he.imp (fun hp u hu => hp _ (mem_writesOn.mp hu).1)
    fun hf u hu => hf _ (mem_writesOn.mp hu).1

/-- What a transaction does to the cue `c`. -/
inductive OnCue (env : Env) (h : History) (time : Time) (c : CueId) : Call → List Write → Prop
  | inserted (user : UserId) (data : CueCreate) (nextRun began now : Time) :
      (replay h).cue c = none → validateCue env data now = some (.ok nextRun) →
      OnCue env h time c (.createCue user data) [.insertCue c (cueRow user data nextRun began)]
  | fired (ws : List Write) (now began : Time) (i : BatchItem) : now ≤ time →
      i.Ok env (replay h) now → i.c = c → (∀ w ∈ i.writes env now began, w ∈ ws) →
      writesOn (.cue c) ws = writesOn (.cue c) (i.writes env now began) →
      OnCue env h time c .processCueBatch ws
  | quiet (call : Call) (ws : List Write) : Quiet c (writesOn (.cue c) ws) →
      OnCue env h time c call ws

theorem BatchItem.writesOn_cue (now began : Time) (i : BatchItem) (c : CueId) :
    writesOn (.cue c) (i.writes env now began) =
      if i.c = c then .updateCue c (.advance i.next now) ::
        (if i.inserted.isSome then [.updateCue c (.incrementFired began)] else []) else [] := by
  obtain ⟨c', cue, s, inserted, next⟩ := i
  by_cases hc : c' = c <;> rcases inserted with _ | ⟨e, _ | n⟩ <;>
    simp [BatchItem.writes, writesOn_cons, Write.target, hc]

theorem CueTail.quiet {c' : CueId} {tail : List Write} (ht : CueTail c' tail) :
    (∀ w ∈ tail, w.quiet = true) ∧
    ((∀ w ∈ tail, w.pauses = false) ∨ ∀ w ∈ tail, w.finishes = false) := by
  cases ht <;> simp [Write.quiet, CueUpdate.quiet, Write.pauses, CueUpdate.pauses,
    Write.finishes, CueUpdate.finishes]

theorem RecoverItem.quiet (now : Time) (i : RecoverItem) :
    ∀ w ∈ i.writes env now, w.quiet = true ∧ w.pauses = false := by
  intro w hw
  unfold RecoverItem.writes at hw
  split at hw
  · simp only [List.mem_singleton] at hw
    subst hw
    exact ⟨rfl, rfl⟩
  · rw [List.mem_append, List.mem_singleton] at hw
    rcases hw with hw | rfl
    · split at hw
      · rw [List.mem_singleton] at hw
        subst hw
        exact ⟨rfl, rfl⟩
      · cases hw
    · exact ⟨rfl, rfl⟩

theorem SweepItem.quiet (now : Time) (i : SweepItem) :
    (∀ w ∈ i.resetWrites now, w.quiet = true ∧ w.pauses = false) ∧
    ∀ w ∈ i.missWrites now, w.quiet = true ∧ w.pauses = false := by
  constructor
  · simp [SweepItem.resetWrites, Write.quiet, Write.pauses]
  · intro w hw
    unfold SweepItem.missWrites at hw
    rw [List.mem_append, List.mem_singleton] at hw
    rcases hw with hw | rfl
    · split at hw
      · rw [List.mem_singleton] at hw
        subst hw
        exact ⟨rfl, rfl⟩
      · cases hw
    · exact ⟨rfl, rfl⟩

theorem OnCue.of_quiet {time : Time} {call : Call} {ws : List Write}
    (hq : ∀ w ∈ ws, w.quiet = true)
    (he : (∀ w ∈ ws, w.pauses = false) ∨ ∀ w ∈ ws, w.finishes = false) :
    OnCue env h time c call ws := .quiet call ws (quiet_writesOn hq he)

/-- A loop whose writes are quiet and do not pause. -/
theorem OnCue.loop {α : Type} {time : Time} {call : Call} {items : List α} {f : α → List Write}
    (hf : ∀ i ∈ items, ∀ w ∈ f i, w.quiet = true ∧ w.pauses = false) :
    OnCue env h time c call (items.flatMap f) := by
  refine .of_quiet (fun w hw => ?_) (.inl fun w hw => ?_)
  · obtain ⟨i, hi, hw⟩ := List.mem_flatMap.mp hw
    exact (hf i hi w hw).1
  · obtain ⟨i, hi, hw⟩ := List.mem_flatMap.mp hw
    exact (hf i hi w hw).2

theorem Commits.on_cue {p : Pid} {time : Time} {call : Call} {ws : List Write}
    (hc : Commits env h p time call ws) (c : CueId) : OnCue env h time c call ws := by
  cases hc with
  | nothing _ _ => exact .of_quiet (by simp) (.inl (by simp))
  | created user data c' nextRun began now hnone _ hval =>
    by_cases hcc : c' = c
    · subst hcc
      exact .inserted user data nextRun began now hnone hval
    · refine .quiet _ _ ?_
      have hw : writesOn (.cue c) [.insertCue c' (cueRow user data nextRun began)] = [] := by
        simp [writesOn_cons, Write.target, hcc]
      rw [hw]
      exact ⟨by simp, .inl (by simp)⟩
  | triggered _ user c' source e n cue cue' s began scheduledAt metadata _ _ _ _ _ _ =>
    by_cases hb : (cue.callbackTransport = .webhook && truthy cue.callbackUrl) = true
    · exact .of_quiet (by simp [hb, Write.quiet]) (.inl (by simp [hb, Write.pauses]))
    · exact .of_quiet (by simp [hb, Write.quiet]) (.inl (by simp [hb, Write.pauses]))
  | batch now began items hnow hok hn _ _ =>
    rw [← List.filterMap_eq_map] at hn
    rcases writesOn_flatMap (f := BatchItem.writes env now began) (k := .cue c) (x := c) hn
      (fun i _ hi => by
        rw [BatchItem.writesOn_cue, if_neg (by simpa using hi)]) with hw | ⟨i, hi, hic, hw⟩
    · refine .quiet _ _ ?_
      rw [hw]
      exact ⟨by simp, .inl (by simp)⟩
    · exact .fired _ now began i hnow (hok i hi) (by simpa using hic)
        (fun w hwi => List.mem_flatMap.mpr ⟨i, hi, hwi⟩) hw
  | retries now began items _ _ _ _ =>
    exact .loop fun i _ w hw => by
      simp only [RetryItem.writes, List.mem_cons, List.not_mem_nil, or_false] at hw
      rcases hw with rfl | rfl <;> exact ⟨rfl, rfl⟩
  | dispatched rows _ =>
    refine .of_quiet (fun w hw => ?_) (.inl fun w hw => ?_) <;>
    · obtain ⟨x, -, rfl⟩ := List.mem_map.mp hw
      rfl
  | recovered now items _ _ _ => exact .loop fun i _ => i.quiet now
  | escalated _ c' now _ =>
    exact .of_quiet (by simp [Write.quiet, CueUpdate.quiet])
      (.inr (by simp [Write.finishes, CueUpdate.finishes]))
  | reset now items _ _ _ => exact .loop fun i _ => (i.quiet now).1
  | missed now items _ _ _ => exact .loop fun i _ => (i.quiet now).2
  | finished j r attempts u tail began _ _ _ htail =>
    obtain ⟨hq, he⟩ := htail.quiet
    refine .of_quiet (fun w hw => ?_) (he.imp (fun hp w hw => ?_) fun hf w hw => ?_) <;>
    · simp only [List.mem_append, List.mem_cons, List.not_mem_nil, or_false] at hw
      rcases hw with hw | rfl | rfl
      · first | exact hq w hw | exact hp w hw | exact hf w hw
      · rfl
      · rfl
  | outcome user e body r cue cue' mode now _ _ _ _ _ =>
    refine .of_quiet (fun w hw => ?_) (.inl fun w hw => ?_) <;>
    · simp only [List.mem_append, List.mem_singleton] at hw
      rcases hw with (hw | hw) | rfl
      · split at hw
        · rw [List.mem_singleton] at hw
          subst hw
          rfl
        · cases hw
      · split at hw
        · rw [List.mem_singleton] at hw
          subst hw
          rfl
        · cases hw
      · rfl
  | _ => exact .of_quiet (by simp [Write.quiet]) (.inl (by simp [Write.pauses]))

/-! ## One cue in one event -/

/-- What the event `ev` does to the cue `c`. -/
inductive CueStep (env : Env) (h : History) (c : CueId) : Event → Prop
  | silent (ev : Event) : (∀ p time ws, ev ≠ .commit p time ws) → CueStep env h c ev
  | absent (p : Pid) (time : Time) (ws : List Write) : (replay h).cue c = none →
      (replay (.commit p time ws :: h)).cue c = none → CueStep env h c (.commit p time ws)
  | created (p : Pid) (time : Time) (user : UserId) (data : CueCreate)
      (nextRun began now : Time) : (replay h).cue c = none →
      validateCue env data now = some (.ok nextRun) →
      CueStep env h c (.commit p time [.insertCue c (cueRow user data nextRun began)])
  | fired (p : Pid) (time : Time) (ws : List Write) (now began : Time) (i : BatchItem)
      (cue' : Cue) :
      i.Ok env (replay h) now → i.c = c → (∀ w ∈ i.writes env now began, w ∈ ws) →
      (replay (.commit p time ws :: h)).cue c = some cue' → CueFixed i.cue cue' →
      cue'.nextRun = i.next → cue'.runCount = i.cue.runCount →
      cue'.firedCount = i.cue.firedCount + (if i.inserted.isSome then 1 else 0) →
      runsOn c ws = 0 → CueStep env h c (.commit p time ws)
  | quiet (p : Pid) (time : Time) (ws : List Write) (cue cue' : Cue) :
      (replay h).cue c = some cue → (replay (.commit p time ws :: h)).cue c = some cue' →
      QuietStep (runsOn c ws) cue cue' → (∀ next now, .updateCue c (.advance next now) ∉ ws) →
      CueStep env h c (.commit p time ws)

theorem cue_step {ev : Event} (ha : Allowed env h ev) (c : CueId) : CueStep env h c ev := by
  cases ev with
  | commit p time ws =>
    obtain ⟨⟨call, -, hc⟩, -⟩ := ha
    have hrow := Tables.cue_applyAll ws (replay h) c
    have hreplay : replay (.commit p time ws :: h) = schema.applyAll ws (replay h) := rfl
    cases hc.on_cue c with
    | inserted user data nextRun began now hnone hval =>
      exact .created p time user data nextRun began now hnone hval
    | fired _ now began i _ hok hic hws hon =>
      rw [BatchItem.writesOn_cue, if_pos hic] at hon
      have hcue : (replay h).cue c = some i.cue := hic ▸ hok.row
      have hruns := runsOn_writesOn c ws
      rw [hon] at hrow hruns
      by_cases hins : i.inserted.isSome = true
      · simp only [hins, if_true] at hrow hruns
        refine .fired p time ws now began i
          ((CueUpdate.advance i.next now).set ((CueUpdate.incrementFired began).set i.cue)) hok hic
          hws ?_ ⟨rfl, rfl, rfl, rfl, rfl, rfl, rfl, rfl, rfl⟩ rfl rfl ?_ ?_
        · rw [hreplay, hrow]
          simp [Tables.cue_apply, hcue]
        · simp [hins, CueUpdate.set]
        · rw [← hruns]
          simp [runsOn, Write.runs, CueUpdate.runs]
      · simp only [hins] at hrow hruns
        refine .fired p time ws now began i ((CueUpdate.advance i.next now).set i.cue) hok hic
          hws ?_ ⟨rfl, rfl, rfl, rfl, rfl, rfl, rfl, rfl, rfl⟩ rfl rfl ?_ ?_
        · rw [hreplay, hrow]
          simp [Tables.cue_apply, hcue]
        · simp [hins, CueUpdate.set]
        · rw [← hruns]
          simp [runsOn, Write.runs, CueUpdate.runs]
    | quiet _ _ hq =>
      cases hcue : (replay h).cue c with
      | none =>
        refine .absent p time ws hcue ?_
        rw [hreplay, hrow]
        exact quiet_none hq.quiet hcue
      | some cue =>
        obtain ⟨cue', hcue', hstep⟩ := quiet_step hq hcue
        rw [← hrow] at hcue'
        rw [runsOn_writesOn] at hstep
        refine .quiet p time ws cue cue' hcue hcue' hstep fun next now hm => ?_
        obtain ⟨u, heq, hu⟩ := hq.quiet _ (mem_writesOn.mpr ⟨hm, rfl⟩)
        cases heq
        cases hu
  | _ => exact .silent _ (by simp)

/-! ## What creation leaves in every cue -/

theorem firstRun_of_validateCue {data : CueCreate} {now nextRun : Time}
    (hv : validateCue env data now = some (.ok nextRun)) :
    firstRun env data.schedule now = some (.ok nextRun) := by
  unfold validateCue at hv
  dsimp only at hv
  split at hv
  · cases hv
  · split at hv
    · cases hv
    · split at hv
      · cases hv
      · split at hv
        · cases hv
        · split at hv
          · split at hv
            · cases hv
            · rename_i hfirst _ _
              cases hv
              exact hfirst
          · rename_i hother
            exact absurd hv (hother nextRun)

/-- A recurring schedule passes with a cron expression only. -/
theorem cron_of_firstRun {sched : ScheduleCreate} {now nextRun : Time}
    (hf : firstRun env sched now = some (.ok nextRun)) (ht : sched.type = some .recurring) :
    truthy sched.cron = true := by
  unfold firstRun at hf
  simp only [ht] at hf
  split at hf
  · cases hf
  · rename_i hcron
    simpa using hcron

/-- What the checks of `CueCreate` and `create_cue` leave in the row. -/
structure CueOk (cue : Cue) : Prop where
  url : cue.callbackTransport = .webhook → truthy cue.callbackUrl = true
  cron : cue.scheduleType = .recurring → truthy cue.scheduleCron = true
  one_le : 1 ≤ cue.retryMaxAttempts
  le_ten : cue.retryMaxAttempts ≤ 10

theorem CueOk.fixed {cue cue' : Cue} (hok : CueOk cue) (hf : CueFixed cue cue') : CueOk cue' where
  url ht := by
    rw [hf.callbackTransport] at ht
    rw [hf.callbackUrl]
    exact hok.url ht
  cron ht := by
    rw [hf.scheduleType] at ht
    rw [hf.scheduleCron]
    exact hok.cron ht
  one_le := by
    rw [hf.retryMaxAttempts]
    exact hok.one_le
  le_ten := by
    rw [hf.retryMaxAttempts]
    exact hok.le_ten

theorem replay_insertCue {p : Pid} {time : Time} {row : Cue} (hn : (replay h).cue c = none) :
    (replay (.commit p time [.insertCue c row] :: h)).cue c = some row := by
  have hreplay : replay (.commit p time [.insertCue c row] :: h) =
    schema.applyAll [.insertCue c row] (replay h) := rfl
  simp [hreplay, Tables.cue_apply, hn]

theorem replay_silent {ev : Event} (hs : ∀ p time ws, ev ≠ .commit p time ws) :
    replay (ev :: h) = replay h := by
  cases ev <;> first | rfl | skip
  case commit p time ws => exact absurd rfl (hs p time ws)

theorem cue_ok (hl : Legal env h) {c : CueId} {cue : Cue} (hc : (replay h).cue c = some cue) :
    CueOk cue := by
  revert c cue
  refine Along.invariant (J := fun h => ∀ {c cue}, (replay h).cue c = some cue → CueOk cue)
    (fun hc => by simp [replay, Tables.cue] at hc) ?_ hl
  intro h ev _ ha ih c cue hc
  cases cue_step ha c with
  | silent _ hs =>
    rw [replay_silent hs] at hc
    exact ih hc
  | absent p time ws _ hn =>
    rw [hn] at hc
    cases hc
  | created p time user data nextRun began now hn hval =>
    rw [replay_insertCue hn] at hc
    cases hc
    refine ⟨data.url_of_webhook, fun ht => ?_, data.retry.one_le, data.retry.le_ten⟩
    refine cron_of_firstRun (firstRun_of_validateCue hval) ?_
    cases hty : data.schedule.type with
    | none => simp [cueRow, hty] at ht
    | some t => simpa [cueRow, hty] using ht
  | fired p time ws now began i cue' hok hic _ hc' hf _ _ _ _ =>
    rw [hc'] at hc
    cases hc
    exact (ih hok.row).fixed hf
  | quiet p time ws cue₀ cue' hc₀ hc' hq _ =>
    rw [hc'] at hc
    cases hc
    exact (ih hc₀).fixed hq.fixed

end CueApi.Scheduler
