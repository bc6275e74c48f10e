import CueApi.Scheduler.EditProofs
import CueApi.Scheduler.Schedule

/-! Announced runs: a cue with `next_run` set is active. The UPDATEs that end a one-time cue and
those of `update_cue` write one of the two columns and leave the other, so they have to meet the
right row. -/

namespace CueApi.Scheduler

open ReadCommitted Interleaving Prog

variable {env : Env} {p q : Pid} {w w' : World}

/-- The poller will pick the run up. -/
def Cue.Announced (cue : Cue) : Prop := cue.nextRun.isSome = true → cue.status = .active

/-! ## The condition -/

/-- A statement that completes or fails a cue meets one without a next run. -/
def endsUnannounced (p : Pid) (w w' : World) : Bool :=
  match w'.store.buf p with
  | .updateCue c (.finish _ _) :: ws =>
      ws ≠ w.store.buf p || ((w.view p).cue c).all fun cue => cue.nextRun = none
  | _ => true

/-- The row `cur` that the flush of a PATCH meets, against the row `old` it has read: a pause
meets no run that it has not seen, a resume of an active cue meets an active cue, and so does a
new schedule alone. -/
def editMeets (patch : CuePatch) (old cur : Cue) : Bool :=
  match patch.status with
  | some .paused => cur.nextRun = none || old.nextRun.isSome || old.status = .paused
  | some .active => old.status ≠ .active || cur.status = .active
  | none => (patch.schedule.bind ScheduleCreate.type).isNone || cur.status = .active

/-- The edit that this step commits meets such a row. -/
def flushMeets (s s' : EditWorld) : Bool :=
  match s'.2 with
  | edit :: l => l.length ≠ s.2.length ||
      (s.1.tables.cue edit.c).all fun cur => editMeets edit.patch edit.old cur
  | [] => true

def announcedIf (p : Pid) (s s' : EditWorld) : Bool :=
  endsUnannounced p s.1 s'.1 && flushMeets s s'

theorem endsUnannounced_finish {c : CueId} {status : CueStatus} {now : Time} {cue : Cue}
    (hm : endsUnannounced p w w' = true)
    (hb : w'.store.buf p = .updateCue c (.finish status now) :: w.store.buf p)
    (hc : (w.view p).cue c = some cue) : cue.nextRun = none := by
  simpa [endsUnannounced, hb, hc] using hm

/-! ## The flush -/

/-- Status and next run after a PATCH. -/
theorem patched_announced {patch : CuePatch} {now now' updatedAt : Time} {old new : Cue}
    (hp : (patched env patch now now' updatedAt old).run = some (.ok new)) :
    (patch.status = some .paused → new.status = .paused ∧ new.nextRun = none) ∧
    (patch.status = some .active → new.status = .active) ∧
    (patch.status = none → new.status = old.status) ∧
    (patch.status = none → patch.schedule.bind ScheduleCreate.type = none →
      new.nextRun = old.nextRun) := by
  obtain ⟨cue₁, cue₂, cue₃, h₁, hs, ht, h₃⟩ := patched_ok hp
  have hsched : cue₂.status = cue₁.status ∧
      (patch.schedule.bind ScheduleCreate.type = none → cue₂.nextRun = cue₁.nextRun) := by
    rcases ifGiven_ok hs with ⟨hnone, rfl⟩ | ⟨s, hsome, hs⟩
    · exact ⟨rfl, fun _ => rfl⟩
    · rcases patchSchedule_ok hs with ⟨-, rfl⟩ | ⟨⟨type, htype, -⟩, -, hstatus, -⟩
      · exact ⟨rfl, fun _ => rfl⟩
      · exact ⟨hstatus, fun hno => by simp [hsome, htype] at hno⟩
  rcases ifGiven_ok ht with ⟨hnone, rfl⟩ | ⟨status, hsome, ht⟩
  · have hst : new.status = old.status := by rw [h₃.status, hsched.1, h₁.status]
    refine ⟨by simp [hnone], by simp [hnone], fun _ => hst, fun _ hno => ?_⟩
    rw [h₃.nextRun, hsched.2 hno, h₁.nextRun]
  · obtain ⟨-, -, -, hpaused, hactive⟩ := patchStatus_ok ht
    rw [hsome]
    refine ⟨?_, ?_, nofun, nofun⟩
    · rintro ⟨⟩
      rw [h₃.status, h₃.nextRun]
      exact hpaused rfl
    · rintro ⟨⟩
      rw [h₃.status]
      exact (hactive rfl).1

theorem flush_announced {patch : CuePatch} {now now' updatedAt : Time} {old new cur : Cue}
    (hp : (patched env patch now now' updatedAt old).run = some (.ok new)) (hcur : cur.Announced)
    (hm : editMeets patch old cur = true) : (Cue.flush old new cur).Announced := by
  obtain ⟨hpaused, hactive, hnone, hsame⟩ := patched_announced hp
  unfold editMeets at hm
  change (flushed old.nextRun new.nextRun cur.nextRun).isSome = true →
    flushed old.status new.status cur.status = .active
  unfold flushed
  split at hm
  · rename_i hst
    obtain ⟨hs, hn⟩ := hpaused hst
    intro hsome
    split at hsome
    · rename_i hkeep
      -- the UPDATE leaves `next_run` out, for it was NULL when read
      simp only [Bool.or_eq_true, decide_eq_true_eq, ← hkeep, hn, Option.isSome_none,
        Bool.false_eq_true, or_false] at hm
      rcases hm with hcn | hpaus
      · simp [hcn] at hsome
      · rw [if_pos (hs.trans hpaus.symm)]
        exact hcur hsome
    · simp [hn] at hsome
  · rename_i hst
    have hs := hactive hst
    intro _
    split
    · rename_i hkeep
      simpa [← hkeep, hs] using hm
    · exact hs
  · rename_i hst
    rw [if_pos (hnone hst)]
    simp only [Bool.or_eq_true, Option.isNone_iff_eq_none, decide_eq_true_eq] at hm
    rcases hm with hno | hact
    · rw [if_pos (hsame hst hno)]
      exact hcur
    · exact fun _ => hact

/-! ## The poller -/

/-- The rows that a batch has selected are its own, and active. -/
def DueHeld (p : Pid) (due : List (CueId × Cue)) (w : World) : Prop :=
  ∀ x ∈ due, w.store.locks (.cue x.1) = some p ∧
    ∃ cue, (w.view p).cue x.1 = some cue ∧ cue.status = .active

theorem DueHeld.kept {due : List (CueId × Cue)} (hd : DueHeld p due w) (hk : RowsKept p w w') :
    DueHeld p due w' := by
  intro x hx
  obtain ⟨hl, cue, hc, hs⟩ := hd x hx
  exact ⟨hk.locks _ hl, cue, (hk.view_cue hl).trans hc, hs⟩

/-- The writes of a batch: it moves on the rows it has selected. -/
def batchWrites (due : List (CueId × Cue)) (wr : Write) : Prop :=
  Call.processCueBatch.issues wr ∧
    ∀ c next now, wr = .updateCue c (.advance next now) → ∃ x ∈ due, x.1 = c

theorem batchWrites_status {due : List (CueId × Cue)} {c : CueId} {u : CueUpdate}
    (hw : batchWrites due (.updateCue c u)) (cue : Cue) : (u.set cue).status = cue.status := by
  have hkind := hw.1.1
  cases u with
  | incrementFired began => rfl
  | advance next now => rfl
  | incrementRun began => rfl
  | ran now => rfl
  | outcomeRun now => rfl
  | finish status now => simp [Write.kind, Call.kinds] at hkind
  | pause now => simp [Write.kind, Call.kinds] at hkind

theorem DueHeld.stmt {due : List (CueId × Cue)} (hd : DueHeld p due w)
    (hs : Stmt p (batchWrites due) w w')
    (hh : ∀ k, w.store.locks k = some p → w'.store.locks k = some p) : DueHeld p due w' := by
  intro x hx
  obtain ⟨hl, cue, hc, hst⟩ := hd x hx
  refine ⟨hh _ hl, ?_⟩
  cases hs with
  | read => exact ⟨cue, hc, hst⟩
  | logged ev _ _ _ _ _ => exact ⟨cue, hc, hst⟩
  | locked ks s hlock =>
    exact ⟨cue, (congrArg (Tables.cue · x.1) (view_lock hlock)).trans hc, hst⟩
  | wrote wr s hwr hs =>
    rw [view_write hs, Tables.cue_apply, hc]
    split
    · exact ⟨cue, by simp, hst⟩
    · split
      · exact ⟨_, rfl, (batchWrites_status hwr cue).trans hst⟩
      · exact ⟨cue, rfl, hst⟩
    · exact ⟨cue, rfl, hst⟩
  | committed => exact ⟨cue, (congrArg (Tables.cue · x.1) view_commit).trans hc, hst⟩

theorem announced_processCueBatch {C : World → World → Prop} (w : World) :
    SafeIf C (EveryCue Cue.Announced) RowsKept p (fun _ _ => True) (processCueBatch env p) w := by
  have hquiet : ∀ {α : Type} {m : Program α}, Stmts p (fun _ => False) m → ∀ w,
      SafeIf C (EveryCue Cue.Announced) RowsKept p (fun _ _ => True) m w :=
    fun hm => EveryCue.stmts hm (fun _ _ h => h.elim) fun _ _ _ _ _ _ h => h.elim
  refine SafeIf.bind (hquiet stmts_clock w) fun now w _ => ?_
  refine SafeIf.bind (hquiet stmts_clock w) fun began w _ => ?_
  refine SafeIf.bind (Q := fun due w => DueHeld p due w) ?_ fun due w hd => ?_
  · refine safeIf_selectRowsForUpdate (fun w ks s hI hl => ?_) fun w₁ s due _ _ _ hdue x hx => ?_
    · have hs : Stmt p (fun _ => False) w { w with store := s } := .locked ks s hl
      exact ⟨hs.everyCue hI (fun _ _ h => h.elim) fun _ _ _ h => h.elim,
        fun q hq => hs.rowsKept hq⟩
    · obtain ⟨hrow, hwh, hl⟩ := hdue x hx
      rw [Bool.and_eq_true, decide_eq_true_eq] at hwh
      exact ⟨hl, x.2, hrow, hwh.1⟩
  · refine SafeIf.bind (Q := fun _ _ => True) ?_ fun _ w _ =>
      SafeIf.bind (hquiet stmts_commit w) fun _ _ _ => trivial
    have hloop : (mapEach (processCue env p now began) due).Always (fun _ => True)
        fun w w' => Stmt p (batchWrites due) w w' ∧
          ∀ k, w.store.locks k = some p → w'.store.locks k = some p := by
      refine Always.and (Always.mapEach_mem fun x hx => ?_) (Always.mapEach holding_processCue due)
      refine stmts_processCue (fun _ _ => ⟨⟨by simp [Write.kind, Call.kinds], rfl⟩, by simp⟩)
        ⟨⟨by simp [Write.kind, Call.kinds], trivial⟩, by simp⟩
        (fun _ _ _ => ⟨⟨by simp [Write.kind, Call.kinds], trivial⟩, by simp⟩)
        fun next => ⟨⟨by simp [Write.kind, Call.kinds], trivial⟩, ?_⟩
      rintro c next' now' ⟨⟩
      exact ⟨x, hx, rfl⟩
    refine (SafeIf.of_always (K := DueHeld p due) hloop (fun _ _ hd hk => hd.kept hk) ?_ hd).weaken
      fun _ _ _ => trivial
    intro w w' hI hd ⟨hs, hh⟩ _
    refine ⟨hs.everyCue hI ?_ ?_, hd.stmt hs hh, fun q hq => hs.rowsKept hq⟩
    · intro c row hw
      simp [batchWrites, Call.issues, Write.kind, Call.kinds] at hw
    · intro c u cue hw _ hc hP
      cases u with
      | advance next now =>
        obtain ⟨x, hx, rfl⟩ := hw.2 c next now rfl
        obtain ⟨-, cue', hc', hst⟩ := hd x hx
        rw [hc] at hc'
        cases hc'
        exact fun _ => hst
      | incrementFired began => exact hP
      | incrementRun began => exact hP
      | ran now => exact hP
      | outcomeRun now => exact hP
      | finish status now => simp [batchWrites, Call.issues, Write.kind, Call.kinds] at hw
      | pause now => exact nofun

/-! ## Every run -/

theorem announced_programOf {call : Call} (w : World) :
    SafeIf (Plainly announcedIf p) (EveryCue Cue.Announced) RowsKept p (fun _ _ => True)
      (programOf env p call) w := by
  by_cases hbatch : call = .processCueBatch
  · subst hbatch
    exact announced_processCueBatch w
  · have hins : ∀ c row, call.issues (.insertCue c row) → row.Announced :=
      fun c row hw _ => hw.2.1
    refine EveryCue.stmts (stmts_programOf env p call) hins ?_ w
    intro w w' c u cue hmeets hw hb hc hP
    cases u with
    | finish status now =>
      obtain ⟨l, hl⟩ := hmeets
      have hnone := endsUnannounced_finish (Bool.and_eq_true _ _ ▸ hl).1 hb hc
      intro hsome
      simp [CueUpdate.set, hnone] at hsome
    | advance next now =>
      -- only the poller moves a cue on
      have hkind := hw.1
      cases call <;> simp [Write.kind, Call.kinds] at hkind hbatch
    | pause now =>
      intro hsome
      simp [CueUpdate.set] at hsome
    | incrementFired began => exact hP
    | incrementRun began => exact hP
    | ran now => exact hP
    | outcomeRun now => exact hP

theorem keeps_announced (env : Env) :
    Keeps env (fun _ => true) announcedIf (EveryCue Cue.Announced) RowsKept where
  refl := RowsKept.refl
  trans _ _ _ _ h h' := h.trans h'
  rows h := h
  plain _ _ _ := announced_programOf _
  lock hI hl := by
    have hs : Stmt _ (fun _ => False) _ _ := .locked _ _ hl
    exact ⟨hs.everyCue hI (fun _ _ h => h.elim) fun _ _ _ h => h.elim,
      fun q hq => hs.rowsKept hq⟩
  flush {p c patch old new now now' updatedAt w l} hI hb _ hl _ hp hc := by
    have hk : ∀ q, q ≠ p → RowsKept q w (w.commitEdit p (Tables.flushCue c old new)) :=
      fun q hq => flush_rowsKept hl hq
    refine ⟨hI.commitEdit hb (fun c' cue hcue => ?_) hk, hk⟩
    rw [cue_flushCue] at hcue
    split at hcue
    · rename_i heq
      subst heq
      obtain ⟨cur, hcur, rfl⟩ := Option.map_eq_some_iff.mp hcue
      refine flush_announced hp (hI.tables c' cur hcur) ?_
      have hmeets := (Bool.and_eq_true _ _ ▸ hc).2
      simpa [flushMeets, hcur] using hmeets
    · exact hI.tables c' cue hcue
  delete _ hI hb hl := by
    have hk := fun q hq => delete_rowsKept (q := q) hl hq
    exact ⟨hI.commitEdit hb (fun c cue hc => hI.tables c cue (cue_deleteRows hc)) hk, hk⟩
  begins hI _ _ := ⟨⟨hI.tables, hI.views⟩, fun q hq => .log fun heq =>
    hq (Option.some.inj heq).symm⟩
  leaves p how _ hI := ⟨hI.left p how, fun q hq => left_rowsKept hq⟩
  duplicates hI _ := ⟨⟨hI.tables, hI.views⟩, fun q => .log nofun⟩
  ticks hI := ⟨⟨hI.tables, hI.views⟩, fun q => ⟨rfl, fun _ hk => hk, fun _ _ _ => rfl, rfl⟩⟩

/-- In every state of a run whose completions meet cues without a next run and whose edits meet
the rows they expect, a cue with a next run is active. -/
theorem announced_active {t : Time} {as : List EditAction} {s : EditSys}
    (hrun : editRun env (editInit t) as = some s)
    (hmeets : alongEdits env (fun _ => true) announcedIf (editInit t) as = true)
    {c : CueId} {cue : Cue} (hc : s.shared.1.tables.cue c = some cue)
    (hnext : cue.nextRun.isSome = true) : cue.status = .active := by
  have hinit : EveryCue Cue.Announced (editInit t).shared.1 :=
    ⟨fun c cue hc => by simp [editInit, init, Store.start, World.tables, Tables.cue] at hc,
      fun q c cue hc => by
        simp [editInit, init, Store.start, World.view, Store.view, Tables.cue] at hc⟩
  exact ((keeps_announced env).run hinit hrun hmeets).tables c cue hc hnext

def createMinutely : List EditAction :=
  playEdit 1 (.call (.createCue 1 minutelyCue)) (gos 4 ++ [.fresh 7, .go]) ++ [.finish 1]

/-- A cue is paused and resumed, and the poller fires it. -/
def pauseAndResume : List EditAction :=
  createMinutely ++ patchAll 2 1 7 { status := some .paused } ++
  patchAll 3 1 7 { status := some .active } ++ [.tick 61000000] ++
  playEdit 4 (.call .processCueBatch) (gos 2 ++ [.rows [7], .fresh 1, .go, .fresh 1] ++ gos 2)

theorem announced_active_resumed : ∃ s cue, editRun plainEnv (editInit 0) pauseAndResume = some s ∧
    s.shared.1.tables.cue 7 = some cue ∧ cue.nextRun = some 120000000 ∧ cue.status = .active := by
  have hrun : ((editRun plainEnv (editInit 0) pauseAndResume).bind fun s =>
      (s.shared.1.tables.cue 7).map Cue.nextRun) = some (some 120000000) := by decide +kernel
  obtain ⟨s, hs, hcue⟩ := Option.bind_eq_some_iff.mp hrun
  obtain ⟨cue, hc, hn⟩ := Option.map_eq_some_iff.mp hcue
  exact ⟨s, cue, hs, hc, hn, announced_active hs (by decide +kernel) hc (by simp [hn])⟩

/-- A paused cue gets a new schedule. -/
def reschedulePaused : List EditAction :=
  createMinutely ++ patchAll 2 1 7 { status := some .paused } ++
  patchAll 3 1 7 { schedule := some { type := some .recurring, cron := some "* * * * *" } }

theorem announced_while_paused : ∃ s cue,
    editRun plainEnv (editInit 0) reschedulePaused = some s ∧
    s.shared.1.tables.cue 7 = some cue ∧ cue.nextRun.isSome = true ∧ cue.status = .paused := by
  have hrun : ((editRun plainEnv (editInit 0) reschedulePaused).bind fun s =>
      (s.shared.1.tables.cue 7).map fun cue => (cue.nextRun.isSome, cue.status)) =
      some (true, .paused) := by decide +kernel
  obtain ⟨s, hs, hcue⟩ := Option.bind_eq_some_iff.mp hrun
  obtain ⟨cue, hc, hv⟩ := Option.map_eq_some_iff.mp hcue
  obtain ⟨hnext, hpaused⟩ := Prod.mk.inj hv
  exact ⟨s, cue, hs, hc, hnext, hpaused⟩

end CueApi.Scheduler
