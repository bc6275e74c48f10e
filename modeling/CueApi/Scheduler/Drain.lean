import CueApi.Scheduler.ScheduleChecks
import CueApi.Scheduler.Triggers

/-! `poll_due_cues` of `worker/poller.py`, alone: one batch after the other, until one comes up short
or `MAX_DRAIN_ITERATIONS` have run. The clock goes on between them. -/

namespace CueApi.Drain

open Scheduler
open ReadCommitted Interleaving Prog

def maxDrainIterations : Nat := 20

variable (env : Env)

/-- A batch: how long after the one before it begins, in which process, and what it is answered. -/
structure Iteration where
  wait : Nat
  p : Pid
  answers : List Answer

/-- `_process_cue_batch` from its first to its last statement, with its count. -/
def serveBatch (w : World) (x : Iteration) : Option (Nat × World) :=
  match (processCueBatch env x.p).follow (w.opened x.p .processCueBatch) x.answers with
  | some (.ret (.count n), w') => some (n, w'.log (.ended x.p (.returned (.count n))))
  | _ => none

/-- Where a call of `poll_due_cues` stands: the total, what the last batch found, and what it left. -/
structure Polled where
  total : Nat
  found : World
  left : World

/-- The loop, with the iterations that are left. It takes exactly the batches that it runs. -/
def drainLoop : Nat → Polled → List Iteration → Option Polled
  | 0, polled, [] => some polled
  | n + 1, polled, x :: xs => do
      let found := { polled.left with clock := polled.left.clock + x.wait }
      let (count, left) ← serveBatch env found x
      let polled := ⟨polled.total + count, found, left⟩
      if count < env.settings.pollerBatchSize then
        if xs.isEmpty then some polled else none
      else drainLoop n polled xs
  | _, _, _ => none

/-- `poll_due_cues`; `none` if it raises or does not end with these batches. -/
def pollDueCues (w : World) (xs : List Iteration) : Option Polled :=
  drainLoop env maxDrainIterations ⟨0, w, w⟩ xs

/-- No active cue has `next_run` at or before the time. -/
def Drained (start : Time) (t : Tables) : Prop := ∀ c cue, t.cue c = some cue → due start cue = false

/-- Where an active cue is due, the run that follows comes after the start. -/
def FollowedLate (start : Time) (w : World) : Prop :=
  ∀ c cue s next, w.tables.cue c = some cue → due w.clock cue = true → cue.nextRun = some s →
    nextRunAfter env cue s = some (some next) → start < next

variable {env} {p : Pid} {t : Tables} {now : Time} {h : History} {w w' : World}
variable {done todo : List (CueId × Cue)} {x : CueId × Cue}

/-! ## One batch -/

variable (env) in
/-- The cue of the row has gone on to its following run. -/
def Moved (x : CueId × Cue) (t : Tables) : Prop :=
  ∃ s next cue, x.2.nextRun = some s ∧ nextRunAfter env x.2 s = some next ∧
    t.cue x.1 = some cue ∧ cue.status = x.2.status ∧ cue.nextRun = next

variable (env) in
/-- In the loop of the batch: the cues done have moved on, the others are as they were. -/
structure Moving (p : Pid) (t : Tables) (now : Time) (h : History) (done todo : List (CueId × Cue))
    (w : World) : Prop where
  alone : Alone p (w.store.buf p) t now h w
  nodup : ((done ++ todo).map Prod.fst).Nodup
  rows : ∀ x ∈ done ++ todo, t.cue x.1 = some x.2
  moved : ∀ x ∈ done, Moved env x (w.view p)
  kept : ∀ c, c ∉ done.map Prod.fst → (w.view p).cue c = t.cue c

/-- Writes that leave the other cues alone and the status of this one. -/
structure Mild (c : CueId) (ws : List Write) : Prop where
  others : ∀ t c', c' ≠ c → (schema.applyAll ws t).cue c' = t.cue c'
  status : ∀ t cue, t.cue c = some cue →
    ∃ cue', (schema.applyAll ws t).cue c = some cue' ∧ cue'.status = cue.status

theorem Moving.notDone (hj : Moving env p t now h done (x :: todo) w) : x.1 ∉ done.map Prod.fst := by
  have hn := hj.nodup
  rw [List.map_append, List.map_cons] at hn
  exact fun hm => (List.disjoint_of_nodup_append hn) hm (by simp)

/-- One turn of the loop: mild writes, and the cue moves on. -/
theorem Moving.next {s : Time} {next : Option Time} {ws : List Write}
    (hj : Moving env p t now h done (x :: todo) w) (hs : x.2.nextRun = some s)
    (hnext : nextRunAfter env x.2 s = some next) (hmild : Mild x.1 ws)
    (hw' : Alone p (.updateCue x.1 (.advance next now) :: (ws ++ w.store.buf p)) t now h w') :
    Moving env p t now h (done ++ [x]) todo w' := by
  have hview : ∀ c, (w'.view p).cue c =
      if c = x.1 then ((schema.applyAll ws (w.view p)).cue c).map (CueUpdate.advance next now).set
      else (w.view p).cue c := by
    intro c
    rw [hw'.view, Schema.applyAll_cons, Schema.applyAll_append, schema_apply, Tables.cue_apply,
      ← hj.alone.view]
    dsimp only
    split
    · rfl
    · exact hmild.others _ c ‹_›
  have hfound : (w.view p).cue x.1 = some x.2 :=
    (hj.kept x.1 hj.notDone).trans (hj.rows x (by simp))
  obtain ⟨cue', hcue', hstatus⟩ := hmild.status _ _ hfound
  refine ⟨⟨hw'.free, rfl, hw'.tables, hw'.clock, hw'.history⟩, by simpa using hj.nodup,
    by simpa using hj.rows, fun y hy => ?_, fun c hc => ?_⟩
  · rcases List.mem_append.mp hy with hy | hy
    · have hne : y.1 ≠ x.1 := fun heq => hj.notDone (heq ▸ List.mem_map_of_mem hy)
      obtain ⟨s', next', cue, hs', hnext', hcue, rest⟩ := hj.moved y hy
      exact ⟨s', next', cue, hs', hnext', by rw [hview, if_neg hne, hcue], rest⟩
    · rw [List.mem_singleton.mp hy]
      exact ⟨s, next, (CueUpdate.advance next now).set cue', hs, hnext,
        by rw [hview, if_pos rfl, hcue', Option.map_some], hstatus, rfl⟩
  · have hne : c ≠ x.1 := fun heq => hc (by simp [heq])
    rw [hview, if_neg hne]
    exact hj.kept c fun hm => hc (by simp only [List.map_append]; exact List.mem_append_left _ hm)

theorem mild_nil (c : CueId) : Mild c [] :=
  ⟨fun _ _ _ => rfl, fun _ cue hcue => ⟨cue, hcue, rfl⟩⟩

/-- What the batch does for a cue whose slot was free. -/
theorem mild_fired {c : CueId} {e : ExecId} {row : Execution} (outbox : List Write)
    (hout : ∀ t c', (schema.applyAll outbox t).cue c' = t.cue c') :
    Mild c (outbox ++ [.updateCue c (.incrementFired now), .insertExecution e row]) := by
  constructor
  · intro t c' hne
    rw [Schema.applyAll_append, hout]
    simp [Tables.cue_apply, hne]
  · intro t cue hcue
    rw [Schema.applyAll_append, hout]
    exact ⟨(CueUpdate.incrementFired now).set cue, by simp [Tables.cue_apply, hcue], rfl⟩

theorem surely_processCue (hj : Moving env p t now h done (x :: todo) w) :
    Surely True (fun _ w' => Moving env p t now h (done ++ [x]) todo w')
      (processCue env p now now x) w := by
  obtain ⟨c, cue⟩ := x
  unfold processCue
  cases hs : cue.nextRun with
  | none =>
    simp only [hs]
    trivial
  | some s =>
    simp only [hs]
    have move : ∀ {w' : World} {next : Option Time} (ws : List Write),
        nextRunAfter env cue s = some next → Mild c ws →
        Alone p (ws ++ w.store.buf p) t now h w' →
        Surely True (fun _ w' => Moving env p t now h (done ++ [(c, cue)]) todo w')
          (updateCue p c (.advance next now)) w' := by
      intro w' next ws hnext hmild hw'
      exact surely_write (k := pure) hw' fun w₁ hw₁ => hj.next hs hnext hmild hw₁
    refine surely_insertExecution hj.alone (fun _ => ?_) fun w₁ e _ _ hw₁ => ?_
    · cases hnext : nextRunAfter env cue s with
      | none => trivial
      | some next => exact move [] hnext (mild_nil c) hj.alone
    · refine surely_write hw₁ fun w₂ hw₂ => ?_
      split
      · cases hnext : nextRunAfter env cue s with
        | none => trivial
        | some next =>
          exact move [.updateCue c (.incrementFired now), .insertExecution e _] hnext
            (mild_fired [] fun _ _ => rfl) hw₂
      · refine surely_insertOutbox hw₂ fun w₃ n _ hw₃ => ?_
        cases hnext : nextRunAfter env cue s with
        | none => trivial
        | some next =>
          exact move [.insertOutbox n _, .updateCue c (.incrementFired now), .insertExecution e _] hnext
            (mild_fired [_] fun t c' => by simp [Tables.cue_apply]) hw₃

variable (env) in
/-- What the batch on the cues `ids` leaves of the cues. -/
structure Batched (w : World) (ids : List CueId) (t : Tables) : Prop where
  moved : ∀ x ∈ rowsAt w.tables.cues ids, Moved env x t
  kept : ∀ c, c ∉ ids → t.cue c = w.tables.cue c

/-- A batch that does not raise commits its cues moved on, and counts them. -/
theorem surely_processCueBatch (p : Pid) (w : World) :
    Surely True (fun reply w' => ∃ ids, Due env w ids ∧ reply = .count ids.length ∧
      Batched env w ids w'.tables ∧ w'.clock = w.clock)
      (processCueBatch env p) (w.opened p .processCueBatch) := by
  have hw := alone_opened p .processCueBatch w
  refine surely_clock hw (surely_clock hw (surely_selectRowsForUpdate hw fun w₁ ids hw₁ hids => ?_))
  have hdue : Due env w ids := hids
  obtain ⟨hnodup, hrows, -⟩ := dueRows hdue
  have hview : w₁.view p = w.tables := hw₁.view
  have hstart : Moving env p w.tables w.clock _ [] (rowsAt w.tables.cues ids) w₁ :=
    ⟨by rw [hw₁.buf]; exact hw₁, hnodup, fun x hx => (hrows x hx).2.1, List.forall_mem_nil _,
      fun c _ => by rw [hview]⟩
  refine surely_bind.mpr ((Surely.mapEach_length (Surely.mapEach
    (fun done x todo w' hj => surely_processCue hj) [] hstart)).mono ?_)
  rintro done w₂ ⟨hlength, hj⟩
  rw [List.nil_append] at hj
  refine surely_commit hj.alone fun w₃ hw₃ => ?_
  have hfst : (rowsAt w.tables.cues ids).map Prod.fst = ids :=
    rowsAt_fst fun c hc => ((mem_keysWhere _ _ _).mp (hdue.2.1 c hc)).imp fun _ h => h.1
  have htables : w₃.tables = w₂.view p := hw₃.tables.trans hj.alone.view.symm
  refine ⟨ids, hdue, ?_, ⟨fun x hx => htables ▸ hj.moved x hx, fun c hc => ?_⟩, hw₃.clock⟩
  · have hcount : (rowsAt w.tables.cues ids).length = ids.length := by
      simpa using congrArg List.length hfst
    rw [hlength, hcount]
  · rw [htables]
    exact hj.kept c (hfst.symm ▸ hc)

/-- A batch that comes up short has taken all that was due. -/
theorem due_of_short {ids : List CueId} (hids : Due env w ids)
    (hshort : ids.length < env.settings.pollerBatchSize) {c : CueId} {cue : Cue}
    (hcue : w.tables.cue c = some cue) (hdue : due w.clock cue = true) : c ∈ ids := by
  obtain ⟨hnodup, hsub, hlength, -⟩ := hids
  have hall : (rowsWhere w.tables Tables.cues fun _ cue => due w.clock cue) ⊆ ids := by
    refine (List.subperm_of_subset hnodup hsub).perm_of_length_le ?_ |>.symm.subset
    omega
  exact hall ((mem_keysWhere _ _ _).mpr ⟨cue, hcue, hdue⟩)

theorem due_mono {start : Time} {cue : Cue} (h : start ≤ now) (hdue : due start cue = true) :
    due now cue = true := by
  unfold due dueBy at hdue ⊢
  cases hs : cue.nextRun with
  | none => simp [hs] at hdue
  | some s =>
    simp only [hs, Bool.and_eq_true, decide_eq_true_eq] at hdue ⊢
    exact ⟨hdue.1, Int.le_trans hdue.2 h⟩

theorem due_iff {start s : Time} {cue : Cue} (hs : cue.nextRun = some s) :
    due start cue = true ↔ cue.status = .active ∧ s ≤ start := by
  simp [due, dueBy, hs]

/-- What the batch that comes up short must find. -/
theorem drained_iff_of_short {ids : List CueId} {start : Time} (hids : Due env w ids)
    (hshort : ids.length < env.settings.pollerBatchSize) (hb : Batched env w ids t)
    (hstart : start ≤ w.clock) : Drained start t ↔ FollowedLate env start w := by
  obtain ⟨-, hrows, hmem⟩ := dueRows hids
  constructor
  · intro hdrained c cue s next hcue hdue hs hnext
    have hid := due_of_short hids hshort hcue hdue
    obtain ⟨s', next', cue', hs', hnext', hcue', hstatus, hrun⟩ := hb.moved _ (hmem c hid cue hcue)
    cases hs.symm.trans hs'
    cases hnext.symm.trans hnext'
    have hactive : cue'.status = .active := hstatus.trans ((due_iff hs).mp hdue).1
    have hnot := hdrained c cue' hcue'
    rw [Bool.eq_false_iff, Ne, due_iff hrun] at hnot
    exact Int.not_le.mp fun hle => hnot ⟨hactive, hle⟩
  · intro hlate c cue' hcue'
    rw [Bool.eq_false_iff]
    intro hdue'
    by_cases hid : c ∈ ids
    · obtain ⟨v, hv, -⟩ := (mem_keysWhere _ _ _).mp (hids.2.1 c hid)
      have hrow := hmem c hid v hv
      obtain ⟨s, next, cue, hs, hnext, hcue, hstatus, hrun⟩ := hb.moved _ hrow
      cases hcue'.symm.trans hcue
      cases next with
      | none => simp [due, dueBy, hrun] at hdue'
      | some next =>
        have hlt := hlate c v s next hv (hrows _ hrow).2.2 hs hnext
        exact Int.not_le.mpr hlt ((due_iff hrun).mp hdue').2
    · rw [hb.kept c hid] at hcue'
      exact hid (due_of_short hids hshort hcue' (due_mono hstart hdue'))

/-! ## The loop -/

/-- What a batch that is served does. -/
theorem serveBatch_cases {y : Iteration} {count : Nat} (h : serveBatch env w y = some (count, w')) :
    ∃ ids, Due env w ids ∧ count = ids.length ∧ Batched env w ids w'.tables ∧ w'.clock = w.clock := by
  unfold serveBatch at h
  split at h
  · rename_i n w₁ hfollow
    cases h
    obtain ⟨ids, hids, hreply, hb, hclock⟩ := (surely_processCueBatch y.p w).follow hfollow
    cases hreply
    exact ⟨ids, hids, rfl, hb, hclock⟩
  · cases h

/-- It is a request served alone. -/
theorem serve_of_serveBatch {y : Iteration} {count : Nat}
    (h : serveBatch env w y = some (count, w')) :
    serve env w ⟨y.p, .processCueBatch, y.answers⟩ = some w' := by
  unfold serveBatch at h
  split at h
  · rename_i n w₁ hfollow
    cases h
    simp only [serve, programOf, hfollow]
  · cases h

/-- A loop that has iterations to spare has ended on a short batch, which began after the start. -/
theorem drainLoop_short {n : Nat} {polled polled' : Polled} {xs : List Iteration} {start : Time}
    (h : drainLoop env n polled xs = some polled') (hlt : xs.length < n)
    (hclock : start ≤ polled.left.clock) :
    ∃ ids, Due env polled'.found ids ∧ ids.length < env.settings.pollerBatchSize ∧
      Batched env polled'.found ids polled'.left.tables ∧ start ≤ polled'.found.clock := by
  induction n generalizing polled xs with
  | zero => cases hlt
  | succ n ih =>
    cases xs with
    | nil => cases h
    | cons x xs =>
      obtain ⟨⟨count, left⟩, hserve, h⟩ := Option.bind_eq_some_iff.mp h
      obtain ⟨ids, hids, rfl, hb, hleft⟩ := serveBatch_cases hserve
      have hfound : start ≤ polled.left.clock + x.wait := by
        have hwait : (0 : Int) ≤ x.wait := Int.natCast_nonneg _
        exact Int.le_trans hclock (Int.le_add_of_nonneg_right hwait)
      dsimp only at h
      split at h
      · rename_i hshort
        split at h
        · cases h
          exact ⟨ids, hids, hshort, hb, hfound⟩
        · cases h
      · exact ih h (Nat.lt_of_succ_lt_succ hlt) (hleft ▸ hfound)

/-! ## Cues that missed one run -/

variable (env) in
/-- Every cue that is due at the start has its following run after it. -/
def OneMissed (start : Time) (t : Tables) : Prop :=
  ∀ c cue s next, t.cue c = some cue → due start cue = true → cue.nextRun = some s →
    nextRunAfter env cue s = some (some next) → start < next

variable (env) in
/-- croniter goes forward. -/
def CronForward : Prop :=
  ∀ expression timezone after next, env.cronNext expression timezone after = some next → after < next

theorem nextRunAfter_lt (hcron : CronForward env) {cue : Cue} {s next : Time}
    (h : nextRunAfter env cue s = some (some next)) : s < next := by
  unfold nextRunAfter at h
  split at h
  · obtain ⟨n, hn, hnext⟩ := Option.map_eq_some_iff.mp h
    cases hnext
    exact hcron _ _ _ _ hn
  · cases h

theorem OneMissed.followedLate {start : Time} (hcron : CronForward env)
    (h : OneMissed env start w.tables) : FollowedLate env start w := by
  intro c cue s next hcue hdue hs hnext
  by_cases hle : s ≤ start
  · exact h c cue s next hcue ((due_iff hs).mpr ⟨((due_iff hs).mp hdue).1, hle⟩) hs hnext
  · exact Int.lt_trans (Int.not_le.mp hle) (nextRunAfter_lt hcron hnext)

/-- A cue that has moved on is not due again. -/
theorem OneMissed.batched {start : Time} {ids : List CueId} (hcron : CronForward env)
    (h : OneMissed env start w.tables) (hids : Due env w ids) (hb : Batched env w ids t) :
    OneMissed env start t := by
  obtain ⟨-, hrows, hmem⟩ := dueRows hids
  intro c cue' s' next' hcue' hdue' hs' hnext'
  by_cases hid : c ∈ ids
  · obtain ⟨v, hv, -⟩ := (mem_keysWhere _ _ _).mp (hids.2.1 c hid)
    have hrow := hmem c hid v hv
    obtain ⟨s, next, cue, hs, hnext, hcue, -, hrun⟩ := hb.moved _ hrow
    cases hcue'.symm.trans hcue
    cases hs'.symm.trans hrun
    have hlt := h.followedLate hcron c v s s' hv (hrows _ hrow).2.2 hs hnext
    exact absurd ((due_iff hs').mp hdue').2 (Int.not_le.mpr hlt)
  · rw [hb.kept c hid] at hcue'
    exact h c cue' s' next' hcue' hdue' hs' hnext'

theorem OneMissed.drainLoop {n : Nat} {polled polled' : Polled} {xs : List Iteration} {start : Time}
    (hcron : CronForward env) (hm : OneMissed env start polled.left.tables)
    (hm' : OneMissed env start polled.found.tables) (h : drainLoop env n polled xs = some polled') :
    OneMissed env start polled'.found.tables := by
  induction n generalizing polled xs with
  | zero =>
    cases xs with
    | nil =>
      cases h
      exact hm'
    | cons => cases h
  | succ n ih =>
    cases xs with
    | nil => cases h
    | cons x xs =>
      obtain ⟨⟨count, left⟩, hserve, h⟩ := Option.bind_eq_some_iff.mp h
      obtain ⟨ids, hids, -, hb, -⟩ := serveBatch_cases hserve
      dsimp only at h
      split at h
      · split at h
        · cases h
          exact hm
        · cases h
      · have hfound : OneMissed env start
            (World.tables { polled.left with clock := polled.left.clock + x.wait }) := hm
        exact ih (hfound.batched hcron hids hb) hm h

/-- Where no cue missed two runs, a call that ends early leaves nothing that was due. -/
theorem drained_of_oneMissed {xs : List Iteration} {polled : Polled} (hcron : CronForward env)
    (hm : OneMissed env w.clock w.tables) (hr : pollDueCues env w xs = some polled)
    (hlt : xs.length < maxDrainIterations) : Drained w.clock polled.left.tables := by
  obtain ⟨ids, hids, hshort, hb, hclock⟩ := drainLoop_short hr hlt (Int.le_refl w.clock)
  exact (drained_iff_of_short hids hshort hb hclock).mpr
    ((OneMissed.drainLoop hcron hm hm hr).followedLate hcron)

/-! ## The result -/

/-- When the loop ends before its last iteration, nothing that was due at its start is left exactly
when the last batch found no due cue whose following run was due by then too. -/
theorem drained_iff (env : Env) (w : World) (xs : List Iteration) (polled : Polled)
    (hr : pollDueCues env w xs = some polled) (hlt : xs.length < maxDrainIterations) :
    Drained w.clock polled.left.tables ↔ FollowedLate env w.clock polled.found := by
  obtain ⟨ids, hids, hshort, hb, hclock⟩ := drainLoop_short hr hlt (Int.le_refl w.clock)
  exact drained_iff_of_short hids hshort hb hclock

/-- A cue of every minute that is due since the given one. -/
def everyMinute (since : Time) : Cue :=
  cueRow 1 (workerCreate ⟨some .recurring, some "* * * * *", none, "UTC"⟩) since 0

/-- Nothing but these cues. -/
def onlyCues (clock : Time) (cues : Table CueId Cue) : World :=
  ⟨Store.start schema Pid { cues := cues }, clock, []⟩

/-- The following run of the cue is due by the start as well. -/
def lags (env : Env) (start now : Time) (cue : Cue) : Bool :=
  due now cue && cue.nextRun.any fun s =>
    (nextRunAfter env cue s).any fun next => next.any fun next => next ≤ start

theorem followedLate_of_none {start : Time}
    (h : keysWhere w.tables.cues (fun _ cue => lags env start w.clock cue) = []) :
    FollowedLate env start w := by
  intro c cue s next hcue hdue hs hnext
  by_contra hle
  have hlags : lags env start w.clock cue = true := by
    simp only [lags, hdue, hs, hnext, Option.any_some, Bool.true_and]
    exact decide_eq_true (Int.not_lt.mp hle)
  have hmem := (mem_keysWhere w.tables.cues (fun _ cue => lags env start w.clock cue) c).mpr
    ⟨cue, hcue, hlags⟩
  rw [h] at hmem
  cases hmem

/-- Batches of two, at the second minute, with three cues of which the first has missed a run: each
cue, and the first cue again, until nothing is due. -/
def pairsEnv : Env := { plainEnv with settings := { pollerBatchSize := 2 } }

def threeCues : World :=
  onlyCues 120000000 (insertNew (insertNew (insertNew ∅ 7 (everyMinute 60000000))
    8 (everyMinute 120000000)) 9 (everyMinute 120000000))

def threeBatches : List Iteration :=
  [⟨0, 1, gos 2 ++ [.rows [7, 8], .fresh 3] ++ gos 2 ++ [.fresh 4] ++ gos 3⟩,
    ⟨5000000, 1, gos 2 ++ [.rows [9, 7], .fresh 5] ++ gos 2 ++ [.fresh 6] ++ gos 3⟩,
    ⟨5000000, 1, gos 2 ++ [.rows []] ++ gos 1⟩]

theorem drained_iff_three_batches : ∃ polled,
    pollDueCues pairsEnv threeCues threeBatches = some polled ∧ polled.total = 4 ∧
      Drained 120000000 polled.left.tables := by
  have hrun : (pollDueCues pairsEnv threeCues threeBatches).map (fun polled => (polled.total,
      keysWhere polled.found.tables.cues fun _ cue =>
        lags pairsEnv 120000000 polled.found.clock cue)) = some (4, []) := by
    decide +kernel
  obtain ⟨polled, hpolled, heq⟩ := Option.map_eq_some_iff.mp hrun
  rw [Prod.mk.injEq] at heq
  exact ⟨polled, hpolled, heq.1, (drained_iff pairsEnv threeCues threeBatches polled hpolled
    (by decide)).mpr (followedLate_of_none heq.2)⟩

/-- A cue that has missed three runs, alone. -/
def threeMissed : World := onlyCues 180000000 (insertNew ∅ 7 (everyMinute 60000000))

/-- One batch that takes it. -/
def oneBatch : List Iteration := [⟨0, 1, gos 2 ++ [.rows [7], .fresh 3] ++ gos 3⟩]

/-- Three minutes late, the batch takes one run of the three and the call ends. -/
theorem missed_runs_left : ¬ ∀ (env : Env) (w : World) (xs : List Iteration) (polled : Polled),
    pollDueCues env w xs = some polled → xs.length < maxDrainIterations →
      Drained w.clock polled.left.tables := by
  intro hall
  obtain ⟨polled, hpolled, hdue⟩ : ∃ polled,
      pollDueCues plainEnv threeMissed oneBatch = some polled ∧
        (polled.left.tables.cue 7).any (due 180000000) = true :=
    (Option.any_eq_true _ _).mp (by decide +kernel)
  obtain ⟨cue, hcue, hdue⟩ := (Option.any_eq_true _ _).mp hdue
  have hdrained := hall plainEnv threeMissed oneBatch polled hpolled (by decide) 7 cue hcue
  exact absurd (hdrained.symm.trans hdue) (by decide)

end CueApi.Drain
