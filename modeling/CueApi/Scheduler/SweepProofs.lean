import CueApi.Scheduler.PollerProofs

/-! The recovery sweeps. `recover_stale_executions` locks the rows it selects; the
two worker sweeps do not, so of the row an UPDATE meets they know only that it is
the same execution of the same cue. -/

namespace CueApi.Scheduler

open ReadCommitted Interleaving Trace

variable {env : Env} {p : Pid} {w : World} {E : History} {B : List Write} {now : Time}

/-! ## Escalation -/

theorem runs_runOnFailureEscalation {call : Call} {c : CueId} (hcall : Escalates call)
    (h : ∃ E, At p [] E w ∧ callOf p E = some call) :
    Runs env p (fun _ w' => ∃ E, At p [] E w' ∧ callOf p E = some call)
      (runOnFailureEscalation p c) w := by
  obtain ⟨E, hw, hE⟩ := h
  refine runs_select hw fun w₁ _ hw₁ _ => ?_
  split
  · exact ⟨E, hw₁, hE⟩
  split
  · refine runs_clock hw₁ fun w₂ _ hw₂ _ => runs_write hw₂ fun w₃ _ hw₃ _ => ?_
    refine runs_commit (k := pure) hw₃ fun w₄ _ _ _ => ⟨⟨call, hE, .escalated call c _ hcall⟩, ?_⟩
    exact fun w₅ hw₅ _ _ => ⟨_, hw₅, by simpa [callOf] using hE⟩
  · exact ⟨E, hw₁, hE⟩

theorem runs_escalations {call : Call} {cs : List CueId} {n : Nat} (hcall : Escalates call)
    (hw : At p [] E w) (hE : callOf p E = some call) :
    Runs env p (Justified env p) (do
      let _ ← Prog.mapEach (runOnFailureEscalation p) cs
      return Reply.count n) w := by
  refine Safe.bind (Safe.mapEach
    (J := fun _ _ w => ∃ E, At p [] E w ∧ callOf p E = some call)
    (fun _ c _ w h => runs_runOnFailureEscalation hcall h) [] ⟨E, hw, hE⟩) fun _ w' h => ?_
  obtain ⟨E', hw', hE'⟩ := h
  exact justified_of call hw' hE' (by cases hcall <;> exact .plain rfl)

/-! ## Stale deliveries -/

theorem maxAttemptsOf_grows {t t' : Tables} (hg : t.Grows t') {c : CueId} {cue : Cue}
    (hc : t.cue c = some cue) : maxAttemptsOf t' c = maxAttemptsOf t c := by
  obtain ⟨cue', hc', hf⟩ := hg.cue hc
  simp [maxAttemptsOf, hc, hc', hf.retryMaxAttempts]

theorem scheduleType_grows {t t' : Tables} (hg : t.Grows t') {c : CueId} {cue : Cue}
    (hc : t.cue c = some cue) :
    (t'.cue c).map Cue.scheduleType = (t.cue c).map Cue.scheduleType := by
  obtain ⟨cue', hc', hf⟩ := hg.cue hc
  simp [hc, hc', hf.scheduleType]

theorem staleBefore_mono {t t' : Time} {r : Execution} (ht : t ≤ t')
    (h : staleBefore t r = true) : staleBefore t' r = true := by
  simp only [staleBefore, Bool.and_eq_true, decide_eq_true_eq] at h ⊢
  exact ⟨h.1, Int.lt_of_lt_of_le h.2 ht⟩

theorem RecoverItem.Ok.later {w w' : World} {i : RecoverItem}
    (hok : i.Ok env (replay w.history) now) (hl : Later p w w') (hi : Inv env w)
    (hi' : Inv env w') (hlock : w.store.locks (.execution i.e) = some p) :
    i.Ok env (replay w'.history) now := by
  obtain ⟨cue, hcue⟩ := cue_of_execution hi.legal hok.row
  have h : (replay w'.history).execution i.e = (replay w.history).execution i.e :=
    hl.frozen hi hi' (k := .execution i.e) hlock
  refine ⟨h.trans hok.row, hok.stale, ?_, fun honce => ?_⟩
  · rw [maxAttemptsOf_grows hl.grows hcue]
    exact hok.budget
  · rw [scheduleType_grows hl.grows hcue]
    exact hok.once honce

structure RecoverState (env : Env) (p : Pid) (now : Time) (items : List RecoverItem)
    (todo : List (ExecId × Execution)) (w : World) : Prop where
  here : At p (items.flatMap (RecoverItem.writes env now)) [.began p .recoverStaleExecutions] w
  inv : Inv env w
  time : now ≤ w.clock
  ok : ∀ i ∈ items, i.Ok env (replay w.history) now ∧ w.store.locks (.execution i.e) = some p
  execs : (items.map RecoverItem.e ++ todo.map Prod.fst).Nodup
  todo : ∀ x ∈ todo, (replay w.history).execution x.1 = some x.2 ∧
    staleBefore (now - seconds env.settings.executionStaleAfterSeconds) x.2 = true ∧
    w.store.locks (.execution x.1) = some p

section Recover

variable {items : List RecoverItem} {todo : List (ExecId × Execution)} {x : ExecId × Execution}

theorem RecoverState.row (hb : RecoverState env p now items (x :: todo) w) {w' : World}
    (hl : Later p w w') (hi : Inv env w') : (replay w'.history).execution x.1 = some x.2 := by
  obtain ⟨hrow, -, hlock⟩ := hb.todo x (by simp)
  have h : (replay w'.history).execution x.1 = (replay w.history).execution x.1 :=
    hl.frozen hb.inv hi (k := .execution x.1) hlock
  exact h.trans hrow

theorem RecoverState.push (hb : RecoverState env p now items (x :: todo) w) {w' : World}
    (next : Option Time) (once : Bool) (hl : Later p w w') (hi : Inv env w')
    (hw : At p (RecoverItem.writes env now ⟨x.1, x.2, next, once⟩ ++
      items.flatMap (RecoverItem.writes env now)) [.began p .recoverStaleExecutions] w')
    (hbudget : x.2.attempts < maxAttemptsOf (replay w'.history) x.2.cueId ↔ next.isSome)
    (honce : once = true →
      ((replay w'.history).cue x.2.cueId).map Cue.scheduleType = some .once) :
    RecoverState env p now (⟨x.1, x.2, next, once⟩ :: items) todo w' where
  here := by simpa using hw
  inv := hi
  time := Int.le_trans hb.time hl.clock
  ok i hm := by
    rcases List.mem_cons.mp hm with rfl | hm
    · exact ⟨⟨hb.row hl hi, (hb.todo x (by simp)).2.1, hbudget, honce⟩,
        hl.locks _ (hb.todo x (by simp)).2.2⟩
    · obtain ⟨hok, hlock⟩ := hb.ok i hm
      exact ⟨hok.later hl hb.inv hi hlock, hl.locks _ hlock⟩
  execs := by
    have hn := hb.execs
    rw [List.map_cons, List.nodup_middle] at hn
    simpa using hn
  todo y hy := by
    obtain ⟨hrow, hstale, hlock⟩ := hb.todo y (by simp [hy])
    have h : (replay w'.history).execution y.1 = (replay w.history).execution y.1 :=
      hl.frozen hb.inv hi (k := .execution y.1) hlock
    exact ⟨h.trans hrow, hstale, hl.locks _ hlock⟩

theorem runs_recoverOne (hb : RecoverState env p now items (x :: todo) w) :
    Runs env p (fun _ w' => ∃ items, RecoverState env p now items todo w')
      (recoverOne env p now x) w := by
  obtain ⟨e, r⟩ := x
  have hrow : ∀ {w' : World}, Later p w w' → Inv env w' →
      (replay w'.history).execution e = some r := fun hl hi => hb.row hl hi
  refine runs_select hb.here fun w₁ hl₁ hw₁ hi₁ => ?_
  obtain ⟨cue, hcue⟩ := cue_of_execution hi₁.legal (hrow hl₁ hi₁)
  have hview := Tables.Grows.applyAll (items.flatMap (RecoverItem.writes env now))
    (replay w₁.history)
  have hmax : ∀ {w' : World}, Later p w₁ w' → maxAttemptsOf (replay w'.history) r.cueId =
      (((schema.applyAll (items.flatMap (RecoverItem.writes env now))
        (replay w₁.history)).cue r.cueId).map Cue.retryMaxAttempts).getD 3 := fun hl =>
    (maxAttemptsOf_grows hl.grows hcue).trans (maxAttemptsOf_grows hview hcue).symm
  dsimp only
  split
  · rename_i hlt
    split
    · trivial
    rename_i next _
    refine runs_updateExecutionById hw₁ ⟨r, hrow hl₁ hi₁⟩ fun w₂ _ hl₂ hw₂ hi₂ _ => ?_
    refine ⟨_, hb.push (some next) false (hl₁.trans hl₂) hi₂ hw₂ ?_ (by simp)⟩
    rw [hmax hl₂]
    simpa using hlt
  · rename_i hge
    refine runs_updateExecutionById hw₁ ⟨r, hrow hl₁ hi₁⟩ fun w₂ _ hl₂ hw₂ hi₂ _ => ?_
    split
    · rename_i honce
      refine runs_write hw₂ fun w₃ hl₃ hw₃ hi₃ => ?_
      refine ⟨_, hb.push none true (hl₁.trans (hl₂.trans hl₃)) hi₃ hw₃ ?_ ?_⟩
      · rw [hmax (hl₂.trans hl₃)]
        simpa using hge
      · intro _
        rw [scheduleType_grows (hl₂.trans hl₃).grows hcue, ← scheduleType_grows hview hcue]
        exact honce
    · refine ⟨_, hb.push none false (hl₁.trans hl₂) hi₂ hw₂ ?_ (by simp)⟩
      rw [hmax hl₂]
      simpa using hge

theorem runs_recoverStaleExecutions (hw : At p [] [.began p .recoverStaleExecutions] w) :
    Runs env p (Justified env p) (recoverStaleExecutions env p) w := by
  refine runs_clock hw fun w₁ _ hw₁ _ => ?_
  refine runs_selectRowsForUpdate hw₁ fun w₂ xs hl₂ hw₂ hi₂ hn hxs => ?_
  refine runs_clock hw₂ fun w₃ hl₃ hw₃ hi₃ => ?_
  have hb : RecoverState env p w₃.clock [] xs w₃ := by
    refine ⟨hw₃, hi₃, Int.le_refl _, by simp, by simpa using hn, fun x hx => ?_⟩
    obtain ⟨hrow, hstale, hlock⟩ := hxs x hx
    have h : (replay w₃.history).execution x.1 = (replay w₂.history).execution x.1 :=
      hl₃.frozen hi₂ hi₃ (k := .execution x.1) hlock
    refine ⟨h.trans hrow, staleBefore_mono ?_ hstale, hl₃.locks _ hlock⟩
    exact Int.sub_le_sub_right (Int.le_trans hl₂.clock hl₃.clock) _
  refine Safe.bind (Safe.mapEach
    (J := fun _ todo w => ∃ items, RecoverState env p w₃.clock items todo w)
    (fun _ x todo w h => ?_) [] ⟨[], hb⟩) fun escalations w₄ h₄ => ?_
  · obtain ⟨items, h⟩ := h
    exact runs_recoverOne h
  obtain ⟨items, hb₄⟩ := h₄
  refine runs_commit hb₄.here fun w₅ hl₅ _ hi₅ =>
    ⟨⟨.recoverStaleExecutions, by simp [callOf], ?_⟩, fun w₆ hw₆ _ _ => ?_⟩
  · refine .recovered w₃.clock items (Int.le_trans hb₄.time hl₅.clock) (fun i hm => ?_)
      (by simpa using hb₄.execs)
    obtain ⟨hok, hlock⟩ := hb₄.ok i hm
    exact hok.later hl₅ hb₄.inv hi₅ hlock
  · exact runs_escalations .recover hw₆ (by simp [callOf])

end Recover

/-! ## Worker sweeps -/

/-- A worker sweep between two iterations. `writes` is what an iteration writes,
`Seen` what the SELECT established of the row it returned. -/
structure SweepState (env : Env) (p : Pid) (call : Call) (now : Time)
    (writes : SweepItem → List Write) (Seen : Tables → Execution → Prop) (items : List SweepItem)
    (todo : List (ExecId × Execution)) (w : World) : Prop where
  here : At p (items.flatMap writes) [.began p call] w
  inv : Inv env w
  time : now ≤ w.clock
  ok : ∀ i ∈ items, i.Ok (replay w.history) ∧ Seen (replay w.history) i.seen
  execs : (items.map SweepItem.e ++ todo.map Prod.fst).Nodup
  todo : ∀ x ∈ todo, SweepItem.Ok (replay w.history) ⟨x.1, x.2, false⟩ ∧
    Seen (replay w.history) x.2

section Sweep

variable {call : Call} {writes : SweepItem → List Write} {Seen : Tables → Execution → Prop}
variable {items : List SweepItem} {todo : List (ExecId × Execution)} {x : ExecId × Execution}

theorem SweepItem.Ok.grows {t t' : Tables} {i : SweepItem} (hok : i.Ok t) (hg : t.Grows t') :
    i.Ok t' := by
  obtain ⟨⟨r, hr, hc⟩, ht⟩ := hok
  obtain ⟨r', hr', hf⟩ := hg.execution hr
  exact ⟨⟨r', hr', hf.cueId.trans hc⟩, hg.transportOf ht⟩

theorem SweepState.later (hb : SweepState env p call now writes Seen items todo w) {w' : World}
    (hseen : ∀ {t t' : Tables} {r : Execution}, t.Grows t' → Seen t r → Seen t' r)
    (hl : Later p w w') (hi : Inv env w') (hw : At p (items.flatMap writes) [.began p call] w') :
    SweepState env p call now writes Seen items todo w' where
  here := hw
  inv := hi
  time := Int.le_trans hb.time hl.clock
  ok i hm := ⟨(hb.ok i hm).1.grows hl.grows, hseen hl.grows (hb.ok i hm).2⟩
  execs := hb.execs
  todo y hy := ⟨(hb.todo y hy).1.grows hl.grows, hseen hl.grows (hb.todo y hy).2⟩

theorem SweepState.skip (hb : SweepState env p call now writes Seen items (x :: todo) w) :
    SweepState env p call now writes Seen items todo w where
  here := hb.here
  inv := hb.inv
  time := hb.time
  ok := hb.ok
  execs := by
    have hn := hb.execs
    rw [List.map_cons, List.nodup_middle] at hn
    exact (List.nodup_cons.mp hn).2
  todo y hy := hb.todo y (by simp [hy])

theorem SweepState.push (hb : SweepState env p call now writes Seen items (x :: todo) w)
    (hseen : ∀ {t t' : Tables} {r : Execution}, t.Grows t' → Seen t r → Seen t' r)
    {w' : World} (once : Bool) (hl : Later p w w') (hi : Inv env w')
    (hw : At p (writes ⟨x.1, x.2, once⟩ ++ items.flatMap writes) [.began p call] w') :
    SweepState env p call now writes Seen (⟨x.1, x.2, once⟩ :: items) todo w' where
  here := by simpa using hw
  inv := hi
  time := Int.le_trans hb.time hl.clock
  ok i hm := by
    rcases List.mem_cons.mp hm with rfl | hm
    · obtain ⟨hok, hs⟩ := hb.todo x (by simp)
      obtain ⟨hrow, ht⟩ := hok.grows hl.grows
      exact ⟨⟨hrow, ht⟩, hseen hl.grows hs⟩
    · exact ⟨(hb.ok i hm).1.grows hl.grows, hseen hl.grows (hb.ok i hm).2⟩
  execs := by
    have hn := hb.execs
    rw [List.map_cons, List.nodup_middle] at hn
    simpa using hn
  todo y hy := by
    obtain ⟨hok, hs⟩ := hb.todo y (by simp [hy])
    exact ⟨hok.grows hl.grows, hseen hl.grows hs⟩

theorem SweepState.hasRow (hb : SweepState env p call now writes Seen items (x :: todo) w) :
    HasRow x.1 w := by
  obtain ⟨⟨⟨r, hr, -⟩, -⟩, -⟩ := hb.todo x (by simp)
  exact ⟨r, hr⟩

theorem claimExpired_grows {cutoff : Time} {t t' : Tables} {r : Execution} (hg : t.Grows t')
    (h : claimExpired cutoff t r = true) : claimExpired cutoff t' r = true := by
  simp only [claimExpired, Bool.and_eq_true, decide_eq_true_eq] at h ⊢
  exact ⟨⟨⟨h.1.1.1, hg.transportOf h.1.1.2⟩, h.1.2⟩, h.2⟩

theorem unclaimedSince_grows {cutoff : Time} {t t' : Tables} {r : Execution} (hg : t.Grows t')
    (h : unclaimedSince cutoff t r = true) : unclaimedSince cutoff t' r = true := by
  simp only [unclaimedSince, Bool.and_eq_true, decide_eq_true_eq] at h ⊢
  exact ⟨⟨⟨h.1.1.1, hg.transportOf h.1.1.2⟩, h.1.2⟩, h.2⟩

theorem runs_resetOne {cutoff : Time}
    (hb : SweepState env p .recoverStaleWorkerClaims now (SweepItem.resetWrites now)
      (fun t r => claimExpired cutoff t r = true) items (x :: todo) w) :
    Runs env p (fun _ w' => ∃ items, SweepState env p .recoverStaleWorkerClaims now
      (SweepItem.resetWrites now) (fun t r => claimExpired cutoff t r = true) items todo w')
      (resetOne env p now x) w := by
  refine runs_select hb.here fun w₁ hl₁ hw₁ hi₁ => ?_
  have hb₁ := hb.later claimExpired_grows hl₁ hi₁ hw₁
  dsimp only
  split
  · refine runs_updateExecutionById hw₁ hb₁.hasRow fun w₂ _ hl₂ hw₂ hi₂ _ => ?_
    exact ⟨_, hb₁.push claimExpired_grows false hl₂ hi₂ hw₂⟩
  · exact ⟨items, hb₁.skip⟩

theorem runs_recoverStaleWorkerClaims (hw : At p [] [.began p .recoverStaleWorkerClaims] w) :
    Runs env p (Justified env p) (recoverStaleWorkerClaims env p) w := by
  refine runs_clock hw fun w₁ _ hw₁ _ => ?_
  refine runs_selectRows hw₁ fun w₂ xs hl₂ hw₂ hi₂ hn hxs => ?_
  have hb : SweepState env p .recoverStaleWorkerClaims w₁.clock (SweepItem.resetWrites w₁.clock)
      (fun t r => claimExpired
        (w₁.clock - seconds env.settings.workerClaimTimeoutSeconds) t r = true) [] xs w₂ := by
    refine ⟨hw₂, hi₂, hl₂.clock, by simp, by simpa using hn, fun x hx => ?_⟩
    obtain ⟨hrow, hexp⟩ := hxs x hx
    have hworker := hexp
    simp only [claimExpired, Bool.and_eq_true, decide_eq_true_eq] at hworker
    exact ⟨⟨⟨x.2, hrow, rfl⟩, hworker.1.1.2⟩, hexp⟩
  refine Safe.bind (Safe.mapEach
    (J := fun _ todo w => ∃ items, SweepState env p .recoverStaleWorkerClaims w₁.clock
      (SweepItem.resetWrites w₁.clock) (fun t r => claimExpired
        (w₁.clock - seconds env.settings.workerClaimTimeoutSeconds) t r = true) items todo w)
    (fun _ x todo w h => ?_) [] ⟨[], hb⟩) fun counts w₃ h₃ => ?_
  · obtain ⟨items, h⟩ := h
    exact runs_resetOne h
  obtain ⟨items, hb₃⟩ := h₃
  refine runs_commit hb₃.here fun w₄ hl₄ hw₄ hi₄ =>
    ⟨⟨.recoverStaleWorkerClaims, by simp [callOf], ?_⟩, fun w₅ hw₅ _ _ => ?_⟩
  · have hb₄ := hb₃.later claimExpired_grows hl₄ hi₄ hw₄
    exact .reset w₁.clock items hb₄.time hb₄.ok (by simpa using hb₄.execs)
  · exact justified_of .recoverStaleWorkerClaims hw₅ (by simp [callOf]) (.plain rfl)

theorem runs_missOne {cutoff : Time}
    (hb : SweepState env p .failUnclaimedWorkerExecutions now (SweepItem.missWrites now)
      (fun t r => unclaimedSince cutoff t r = true) items (x :: todo) w) :
    Runs env p (fun _ w' => ∃ items, SweepState env p .failUnclaimedWorkerExecutions now
      (SweepItem.missWrites now) (fun t r => unclaimedSince cutoff t r = true) items todo w')
      (missOne p now x) w := by
  refine runs_updateExecutionById hb.here hb.hasRow fun w₁ _ hl₁ hw₁ hi₁ _ => ?_
  refine runs_select hw₁ fun w₂ hl₂ hw₂ hi₂ => ?_
  split
  · refine runs_write hw₂ fun w₃ hl₃ hw₃ hi₃ => ?_
    exact ⟨_, hb.push unclaimedSince_grows true (hl₁.trans (hl₂.trans hl₃)) hi₃ hw₃⟩
  · exact ⟨_, hb.push unclaimedSince_grows false (hl₁.trans hl₂) hi₂ hw₂⟩

theorem runs_failUnclaimedWorkerExecutions
    (hw : At p [] [.began p .failUnclaimedWorkerExecutions] w) :
    Runs env p (Justified env p) (failUnclaimedWorkerExecutions env p) w := by
  refine runs_clock hw fun w₁ _ hw₁ _ => ?_
  refine runs_selectRows hw₁ fun w₂ xs hl₂ hw₂ hi₂ hn hxs => ?_
  have hb : SweepState env p .failUnclaimedWorkerExecutions w₁.clock
      (SweepItem.missWrites w₁.clock) (fun t r => unclaimedSince
        (w₁.clock - seconds env.settings.workerUnclaimedTimeoutSeconds) t r = true) [] xs w₂ := by
    refine ⟨hw₂, hi₂, hl₂.clock, by simp, by simpa using hn, fun x hx => ?_⟩
    obtain ⟨hrow, hexp⟩ := hxs x hx
    have hworker := hexp
    simp only [unclaimedSince, Bool.and_eq_true, decide_eq_true_eq] at hworker
    exact ⟨⟨⟨x.2, hrow, rfl⟩, hworker.1.1.2⟩, hexp⟩
  refine Safe.bind (Safe.mapEach
    (J := fun _ todo w => ∃ items, SweepState env p .failUnclaimedWorkerExecutions w₁.clock
      (SweepItem.missWrites w₁.clock) (fun t r => unclaimedSince
        (w₁.clock - seconds env.settings.workerUnclaimedTimeoutSeconds) t r = true) items todo w)
    (fun _ x todo w h => ?_) [] ⟨[], hb⟩) fun escalations w₃ h₃ => ?_
  · obtain ⟨items, h⟩ := h
    exact runs_missOne h
  obtain ⟨items, hb₃⟩ := h₃
  refine runs_commit hb₃.here fun w₄ hl₄ hw₄ hi₄ =>
    ⟨⟨.failUnclaimedWorkerExecutions, by simp [callOf], ?_⟩, fun w₅ hw₅ _ _ => ?_⟩
  · have hb₄ := hb₃.later unclaimedSince_grows hl₄ hi₄ hw₄
    exact .missed w₁.clock items hb₄.time hb₄.ok (by simpa using hb₄.execs)
  · exact runs_escalations .unclaimed hw₅ (by simp [callOf])

end Sweep

end CueApi.Scheduler
