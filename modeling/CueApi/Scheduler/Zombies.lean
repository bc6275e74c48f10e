import CueApi.Scheduler.Closing
import CueApi.Scheduler.Enforcement

/-! A one-time cue that is active has a next run or an execution that has not ended, in every run
whose limit branches, conflicts and edits meet the right rows. -/

namespace CueApi.Scheduler

open ReadCommitted Interleaving Prog

variable {env : Env} {p q : Pid} {w w' : World}

/-! ## The condition on edits -/

/-- The schedule type of a PATCH. -/
def CuePatch.newType (patch : CuePatch) : Option ScheduleType :=
  patch.schedule.bind ScheduleCreate.type

/-- The PATCH makes the cue that it has read one-time. -/
def CuePatch.makesOnce (patch : CuePatch) (old : Cue) : Bool :=
  patch.newType = some .once && old.scheduleType ≠ .once

/-- The next run that a PATCH gives to a one-time cue. -/
def CuePatch.runAt (patch : CuePatch) (old : Cue) : Option Time :=
  match patch.schedule with
  | some s => if s.type = some .once then s.at?.map DateTime.time else old.scheduleAt
  | none => old.scheduleAt

/-- The PATCH resumes the cue or makes it one-time. -/
def CuePatch.opens (patch : CuePatch) (old : Cue) : Bool :=
  (patch.status = some .active && old.status ≠ .active) ||
    (patch.makesOnce old && patch.status ≠ some .paused)

/-- The row `cur` that the flush of a PATCH meets, against the row `old` it has read: a schedule or
a resume meets the schedule type it has read; a pause that leaves `status` out of the UPDATE meets
no active cue; and an opening that leaves `next_run` out meets a cue with a next run. -/
def spentMeets (patch : CuePatch) (old cur : Cue) : Bool :=
  ((patch.newType.isNone && patch.status ≠ some .active) ||
    cur.scheduleType = old.scheduleType) &&
  (!(patch.status = some .paused && old.status = .paused &&
    (old.nextRun.isSome || patch.makesOnce old)) || cur.status ≠ .active) &&
  (!(patch.opens old && old.nextRun.isSome && patch.runAt old = old.nextRun) ||
    cur.nextRun.isSome)

/-- No transaction has an execution of the cue locked. -/
def unlocked (w : World) (c : CueId) : Bool :=
  (keysWhere w.tables.executions fun _ r => r.cueId = c).all fun e =>
    w.store.locks (.execution e) = none

/-- The edit that this step commits meets such a row, and makes a cue one-time only while none of
its executions is locked. -/
def editTends (s s' : EditWorld) : Bool :=
  match s'.2 with
  | edit :: l => l.length ≠ s.2.length ||
      ((s.1.tables.cue edit.c).all fun cur => spentMeets edit.patch edit.old cur) &&
        (!edit.patch.makesOnce edit.old || unlocked s.1 edit.c)
  | [] => true

def tendsIf (p : Pid) (s s' : EditWorld) : Bool :=
  slotOpen p s.1 s'.1 && limitsRecurring p s.1 s'.1 && editTends s s'

/-- The claim's calls: cues are not deleted. -/
def keepsCues : EditCall → Bool
  | .deleteCue _ _ => false
  | _ => true

/-! ## The flush -/

theorem patchSchedule_dated {now : Time} {s : ScheduleCreate} {cue cue' : Cue}
    (h : (patchSchedule env now s cue).run = some (.ok cue')) (hd : cue.Dated) : cue'.Dated ∧
    (s.type = some .once → cue'.scheduleAt = s.at?.map DateTime.time) := by
  unfold patchSchedule at h
  split at h
  · cases h
  · split at h
    · rename_i htype
      split at h
      · cases h
      · split at h
        · cases h
        · split at h
          · cases h
          · cases h
            exact ⟨by simp [Cue.Dated], by simp [htype]⟩
    · rename_i htype
      split at h
      · cases h
      · rename_i d hat
        split at h
        · cases h
        · cases h
          exact ⟨by simp [Cue.Dated], by simp [hat]⟩
    · rename_i htype
      cases h
      exact ⟨hd, by simp [htype]⟩

theorem dated_congr {cue cue' : Cue} (htype : cue'.scheduleType = cue.scheduleType)
    (hat : cue'.scheduleAt = cue.scheduleAt) (hd : cue.Dated) : cue'.Dated := by
  unfold Cue.Dated
  rw [htype, hat]
  exact hd

/-- What a PATCH computes for the columns of the run. -/
structure Patched (patch : CuePatch) (old new : Cue) : Prop where
  dated : new.Dated
  type : new.scheduleType = patch.newType.getD old.scheduleType
  date : patch.newType = none → new.scheduleAt = old.scheduleAt
  paused : patch.status = some .paused → new.status = .paused ∧ new.nextRun = none
  active : patch.status = some .active → new.status = .active ∧
    (new.scheduleType = .once → new.nextRun = patch.runAt old ∧ new.nextRun.isSome = true)
  plain : patch.status = none → new.status = old.status ∧
    (patch.newType = none → new.nextRun = old.nextRun) ∧
    (patch.newType = some .once → new.nextRun = patch.runAt old ∧ new.nextRun.isSome = true)

/-- The row after the schedule of a PATCH. -/
theorem scheduled_ok {patch : CuePatch} {now : Time} {old cue cue' : Cue} (h₁ : SameRun old cue)
    (hd : old.Dated) (hs : (ifGiven patch.schedule (patchSchedule env now) cue).run =
      some (.ok cue')) :
    cue'.Dated ∧ cue'.status = old.status ∧
    cue'.scheduleType = patch.newType.getD old.scheduleType ∧
    (patch.newType = none → cue'.scheduleAt = old.scheduleAt ∧ cue'.nextRun = old.nextRun) ∧
    (cue'.scheduleType = .once → cue'.scheduleAt = patch.runAt old) ∧
    (patch.newType = some .once → cue'.nextRun = cue'.scheduleAt) := by
  have hd₁ : cue.Dated := dated_congr h₁.scheduleType h₁.scheduleAt hd
  rcases ifGiven_ok hs with ⟨hnone, rfl⟩ | ⟨s, hsome, hs⟩
  · have htype : patch.newType = none := by rw [CuePatch.newType, hnone]; rfl
    have hrun : patch.runAt old = old.scheduleAt := by rw [CuePatch.runAt, hnone]
    refine ⟨hd₁, h₁.status, ?_, fun _ => ⟨h₁.scheduleAt, h₁.nextRun⟩, fun _ => ?_, ?_⟩
    · rw [htype]
      exact h₁.scheduleType
    · rw [hrun]
      exact h₁.scheduleAt
    · rw [htype]
      nofun
  · obtain ⟨hd₂, hat⟩ := patchSchedule_dated hs hd₁
    have htype : patch.newType = s.type := by rw [CuePatch.newType, hsome]; rfl
    have hrun : patch.runAt old =
        if s.type = some .once then s.at?.map DateTime.time else old.scheduleAt := by
      rw [CuePatch.runAt, hsome]
    rcases patchSchedule_ok hs with ⟨hno, rfl⟩ | ⟨⟨type, hty, hty'⟩, -, hstatus, -, honce⟩
    · rw [htype, hno]
      refine ⟨hd₁, h₁.status, h₁.scheduleType, fun _ => ⟨h₁.scheduleAt, h₁.nextRun⟩, fun _ => ?_,
        nofun⟩
      rw [hrun, hno, if_neg (by simp)]
      exact h₁.scheduleAt
    · rw [htype, hty]
      refine ⟨hd₂, hstatus.trans h₁.status, hty', nofun, fun h => ?_, fun h => ?_⟩
      · have hso : s.type = some .once := by rw [hty, ← hty', h]
        rw [hrun, if_pos hso]
        exact hat hso
      · refine (honce ?_).symm
        rw [hty']
        exact Option.some.inj h

theorem patched_tends {patch : CuePatch} {now now' updatedAt : Time} {old new : Cue}
    (hp : (patched env patch now now' updatedAt old).run = some (.ok new)) (hd : old.Dated) :
    Patched patch old new := by
  obtain ⟨cue₁, cue₂, cue₃, h₁, hs, ht, h₃⟩ := patched_ok hp
  obtain ⟨hd₂, hstatus, htype, hnone, honce, hrun⟩ := scheduled_ok h₁ hd hs
  have dated : ∀ {cue : Cue}, cue.Dated → cue.scheduleType = .once →
      cue.scheduleAt.isSome = true := fun h => h.mp
  rcases ifGiven_ok ht with ⟨hno, rfl⟩ | ⟨status, hsome, ht⟩
  · refine ⟨dated_congr h₃.scheduleType h₃.scheduleAt hd₂, h₃.scheduleType.trans htype,
      fun h => h₃.scheduleAt.trans (hnone h).1, by simp [hno], by simp [hno], fun _ =>
        ⟨h₃.status.trans hstatus, fun h => h₃.nextRun.trans (hnone h).2, fun h => ?_⟩⟩
    have ho : cue₃.scheduleType = .once := by rw [htype, h]; rfl
    rw [h₃.nextRun, hrun h]
    exact ⟨honce ho, dated hd₂ ho⟩
  · obtain ⟨-, htype₃, hat₃, hpaused, hactive⟩ := patchStatus_ok ht
    refine ⟨?_, ?_, fun h => ?_, ?_, ?_, by simp [hsome]⟩
    · exact dated_congr (h₃.scheduleType.trans htype₃) (h₃.scheduleAt.trans hat₃) hd₂
    · rw [h₃.scheduleType, htype₃, htype]
    · rw [h₃.scheduleAt, hat₃, (hnone h).1]
    · rw [hsome]
      rintro ⟨⟩
      rw [h₃.status, h₃.nextRun]
      exact hpaused rfl
    · rw [hsome]
      rintro ⟨⟩
      obtain ⟨hst, hnext⟩ := hactive rfl
      refine ⟨h₃.status.trans hst, fun ho => ?_⟩
      have ho₂ : cue₂.scheduleType = .once := by rw [← htype₃, ← h₃.scheduleType, ho]
      obtain ⟨t, hat⟩ := Option.isSome_iff_exists.mp (dated hd₂ ho₂)
      rw [h₃.nextRun, hnext ho₂, ← honce ho₂, hat, Option.some_or]
      exact ⟨rfl, rfl⟩

section Flush

variable {patch : CuePatch} {old new cur : Cue}

/-- A flush that makes a recurring cue one-time is of a PATCH that does. -/
theorem flush_makesOnce (hp : Patched patch old new)
    (hno : cur.scheduleType ≠ .once) (honce : (Cue.flush old new cur).scheduleType = .once) :
    patch.makesOnce old = true := by
  change flushed old.scheduleType new.scheduleType cur.scheduleType = .once at honce
  unfold flushed at honce
  split at honce
  · exact absurd honce hno
  · rename_i hne
    have hty := hp.type
    rw [honce] at hty
    cases hnt : patch.newType with
    | none =>
      rw [hnt] at hty
      exact absurd (honce.trans hty) hne
    | some type =>
      rw [hnt] at hty
      have hold : old.scheduleType ≠ .once := fun heq => hne (honce.trans heq.symm)
      simp [CuePatch.makesOnce, hnt, hold, show type = .once from hty.symm]

/-- The flush leaves a cue spent only where it meets one. -/
theorem flush_spent (hp : Patched patch old new) (hm : spentMeets patch old cur = true)
    (hsp : (Cue.flush old new cur).spent = true) : cur.spent = true := by
  obtain ⟨htype, hact, hnone⟩ := Cue.spent_iff.mp hsp
  have once : patch.makesOnce old = false → cur.scheduleType = .once := fun hno =>
    by_contra fun hcur => by simp [flush_makesOnce hp hcur htype] at hno
  change flushed old.scheduleType new.scheduleType cur.scheduleType = .once at htype
  change flushed old.status new.status cur.status = .active at hact
  change flushed old.nextRun new.nextRun cur.nextRun = none at hnone
  unfold flushed at htype hact hnone
  simp only [spentMeets, Bool.and_eq_true, Bool.or_eq_true, Bool.not_eq_true',
    decide_eq_true_eq] at hm
  obtain ⟨⟨htm, hpm⟩, hom⟩ := hm
  -- an UPDATE that writes the next run of a one-time cue writes one
  have keeps : new.nextRun = patch.runAt old → new.nextRun.isSome = true →
      patch.opens old = false ∧ cur.nextRun = none := by
    intro hrun hsome
    split at hnone
    · rename_i heq
      refine ⟨Bool.eq_false_iff.mpr fun hopens => ?_, hnone⟩
      rcases hom with hno | hcur
      · simp [hopens, ← heq, hsome, ← hrun] at hno
      · simp [hnone] at hcur
    · simp [hnone] at hsome
  have typed : cur.scheduleType = old.scheduleType → new.scheduleType = .once := by
    intro hcur
    split at htype
    · rename_i heq
      rw [heq, ← hcur, htype]
    · exact htype
  cases hst : patch.status with
  | none =>
    obtain ⟨hs, hsame, honce⟩ := hp.plain hst
    rw [if_pos hs] at hact
    cases hnt : patch.newType with
    | none =>
      rw [if_pos (hsame hnt)] at hnone
      exact Cue.spent_iff.mpr ⟨once (by simp [CuePatch.makesOnce, hnt]), hact, hnone⟩
    | some type =>
      have hnew := typed (by simpa [hnt, hst] using htm)
      rw [hp.type, hnt, Option.getD_some] at hnew
      subst hnew
      obtain ⟨hrun, hsome⟩ := honce hnt
      obtain ⟨hopens, hcn⟩ := keeps hrun hsome
      have hmakes : patch.makesOnce old = false := by simpa [CuePatch.opens, hst] using hopens
      exact Cue.spent_iff.mpr ⟨once hmakes, hact, hcn⟩
  | some status =>
    cases status with
    | paused =>
      obtain ⟨hs, hn⟩ := hp.paused hst
      split at hact
      · -- the UPDATE leaves `status` out, for the PATCH has read a paused cue
        rename_i heq
        have hplain : old.nextRun = none ∧ patch.makesOnce old = false := by
          simpa [hst, heq.symm.trans hs, hact] using hpm
        rw [if_pos (hn.trans hplain.1.symm)] at hnone
        exact Cue.spent_iff.mpr ⟨once hplain.2, hact, hnone⟩
      · rw [hs] at hact
        cases hact
    | active =>
      obtain ⟨hs, honce⟩ := hp.active hst
      obtain ⟨hrun, hsome⟩ := honce (typed (by simpa [hst] using htm))
      obtain ⟨hopens, hcn⟩ := keeps hrun hsome
      obtain ⟨hoact, hmakes⟩ : old.status = .active ∧ patch.makesOnce old = false := by
        simpa [CuePatch.opens, hst] using hopens
      rw [if_pos (hs.trans hoact.symm)] at hact
      exact Cue.spent_iff.mpr ⟨once hmakes, hact, hcn⟩

theorem flush_dated (hp : Patched patch old new) (hold : old.Dated) (hcur : cur.Dated)
    (hm : spentMeets patch old cur = true) : (Cue.flush old new cur).Dated := by
  change flushed old.scheduleType new.scheduleType cur.scheduleType = .once ↔
    (flushed old.scheduleAt new.scheduleAt cur.scheduleAt).isSome = true
  simp only [spentMeets, Bool.and_eq_true, Bool.or_eq_true, decide_eq_true_eq] at hm
  have htm := hm.1.1
  have hnew := hp.dated
  unfold Cue.Dated at hold hcur hnew
  unfold flushed
  cases hnt : patch.newType with
  | none =>
    rw [if_pos (by rw [hp.type, hnt]; rfl), if_pos (hp.date hnt)]
    exact hcur
  | some type =>
    have hct : cur.scheduleType = old.scheduleType := by simpa [hnt] using htm
    by_cases hkeep : new.scheduleType = old.scheduleType
    · rw [if_pos hkeep]
      split
      · exact hcur
      · rw [hct, ← hkeep]
        exact hnew
    · -- a new type brings a new time
      have hat : new.scheduleAt ≠ old.scheduleAt := by
        intro heq
        rw [heq, ← hold] at hnew
        cases hn : new.scheduleType <;> cases ho : old.scheduleType <;> simp_all
      rw [if_neg hkeep, if_neg hat]
      exact hnew

end Flush

/-! ## Every run -/

theorem follows_flushCue {c : CueId} {old new : Cue} (t : Tables) :
    Follows t (t.flushCue c old new) where
  has e c' h := h
  cue c' h := by
    rw [cue_flushCue]
    split
    · rwa [Option.isSome_map]
    · exact h

theorem Tended.flush {c : CueId} {patch : CuePatch} {old new : Cue} (hI : Tended w)
    (hb : w.store.buf p = []) (hl : w.store.locks (.cue c) = some p) (hp : Patched patch old new)
    (hold : old.Dated)
    (hm : ∀ cur, w.tables.cue c = some cur → spentMeets patch old cur = true)
    (hu : patch.makesOnce old = true → unlocked w c = true) :
    Tended (w.commitEdit p (Tables.flushCue c old new)) ∧
      ∀ q, q ≠ p → TendRely q w (w.commitEdit p (Tables.flushCue c old new)) := by
  have ht : (w.commitEdit p (Tables.flushCue c old new)).tables = w.tables.flushCue c old new :=
    commitEdit_tables hb
  have hv := commitEdit_view (w := w) (p := p) (Tables.flushCue c old new)
  have hk : ∀ q, q ≠ p → RowsKept q w (w.commitEdit p (Tables.flushCue c old new)) :=
    fun q hq => flush_rowsKept hl hq
  have hf : Follows w.tables (w.commitEdit p (Tables.flushCue c old new)).tables := by
    rw [ht]
    exact follows_flushCue w.tables
  have hcue : ∀ c' cue, (w.tables.flushCue c old new).cue c' = some cue →
      w.tables.cue c' = some cue ∨
      ∃ cur, c' = c ∧ w.tables.cue c = some cur ∧ cue = Cue.flush old new cur := by
    intro c' cue h
    rw [cue_flushCue] at h
    split at h
    · rename_i heq
      subst heq
      obtain ⟨cur, hcur, rfl⟩ := Option.map_eq_some_iff.mp h
      exact .inr ⟨cur, rfl, hcur, rfl⟩
    · exact .inl h
  have hcues : ∀ e r, w.tables.execution e = some r → (w.tables.cue r.cueId).isSome = true := by
    intro e r hr
    rw [← view_nil hb] at hr
    exact hI.cues p e r hr
  refine ⟨hI.of_step hk hf ?_ ?_ ?_ ?_ ?_ ?_, fun q hq => ⟨hk q hq, hf, ?_, ?_⟩⟩
  · rw [ht]
    intro c' cue hc hsp
    rcases hcue c' cue hc with hc | ⟨cur, rfl, hcur, rfl⟩
    · exact hI.noZombie c' cue hc hsp
    · exact hI.noZombie c' cur hcur (flush_spent hp (hm cur hcur) hsp)
  · refine hI.dated.commitEdit hb (fun c' cue hc => ?_) hk
    rcases hcue c' cue hc with hc | ⟨cur, rfl, hcur, rfl⟩
    · exact hI.dated.tables c' cue hc
    · exact flush_dated hp hold (hI.dated.tables c' cur hcur) (hm cur hcur)
  · rw [hv, ht]
    exact fun e r hr => (follows_flushCue w.tables).cue _ (hcues e r hr)
  · rw [ht]
    exact hI.rows
  · rw [hv, ht]
    exact hI.rows
  · intro ev hev j hjob
    rw [ht]
    rcases List.mem_cons.mp hev with rfl | hev
    · cases hjob
    · exact hI.jobs ev hev j hjob
  · rintro e c' hle ⟨r, hr, rfl⟩ hrec
    rw [ht]
    refine typeOf_recurring ((follows_flushCue w.tables).cue _ (hcues e r hr)) fun honce => ?_
    obtain ⟨cue, hc, hty⟩ := Option.map_eq_some_iff.mp honce
    rcases hcue _ cue hc with hc | ⟨cur, heq, hcur, rfl⟩
    · simp [typeOf, hc, hty] at hrec
    · have hno : cur.scheduleType ≠ .once := by
        rw [typeOf, heq, hcur] at hrec
        intro h
        simp [h] at hrec
      -- the lock of `q` on the execution rules the edit out
      have hfree := List.all_eq_true.mp (hu (flush_makesOnce hp hno hty)) e
        ((mem_keysWhere _ _ _).mpr ⟨r, hr, decide_eq_true heq⟩)
      rw [of_decide_eq_true hfree] at hle
      cases hle
  · intro e r _ _ hr hno
    rw [ht]
    exact ⟨r, hr, rfl, hno⟩

theorem Tended.left (hI : Tended w) (p : Pid) (how : Ending) : Tended (w.left p how) ∧
    ∀ q, q ≠ p → TendRely q w (w.left p how) := by
  have hv : (w.left p how).view p = w.tables :=
    view_nil (w := w.left p how) (Function.update_self _ _ _)
  refine ⟨?_, fun q hq => .of_kept (left_rowsKept hq) rfl⟩
  refine hI.of_step (p := p) (fun q hq => left_rowsKept hq) (.refl _) hI.noZombie
    (hI.dated.left p how) ?_ hI.rows ?_ ?_
  · rw [hv]
    intro e r hr
    obtain ⟨r', hr', hf⟩ := (view_grows w p).execution hr
    rw [← hf.cueId]
    exact hI.cues p e r' hr'
  · rw [hv]
    exact hI.rows
  · intro ev hev j hjob
    rcases List.mem_cons.mp hev with rfl | hev
    · cases hjob
    · exact hI.jobs ev hev j hjob

theorem keeps_tended (env : Env) : Keeps env keepsCues tendsIf Tended TendRely where
  refl := TendRely.refl
  trans _ _ _ _ h h' := h.trans h'
  rows h := h.kept
  plain {p call w} _ hb ho := by
    have both : ∀ w w', Plainly tendsIf p w w' →
        slotOpen p w w' = true ∧ limitsRecurring p w w' = true := fun _ _ ⟨_, hl⟩ =>
      Bool.and_eq_true _ _ ▸ (Bool.and_eq_true _ _ ▸ hl).1
    exact tends_programOf (fun w w' h => (both w w' h).1) (fun w w' h => (both w w' h).2) hb ho
  lock hI hl := hI.lock hl
  flush {p c patch old new now now' updatedAt w l} hI hb _ hl hseen hp hc := by
    obtain ⟨w₀, hI₀, hrow⟩ := hseen
    have hold := hI₀.dated.views p c old hrow
    have hedit := (Bool.and_eq_true _ _ ▸ hc).2
    simp only [editTends, ne_eq, not_true_eq_false, decide_false, Bool.false_or,
      Bool.and_eq_true, Option.all_eq_true, Bool.or_eq_true, Bool.not_eq_true'] at hedit
    refine hI.flush hb hl (patched_tends hp hold) hold hedit.1 fun hmakes => ?_
    rcases hedit.2 with hno | hfree
    · rw [hmakes] at hno
      cases hno
    · exact hfree
  delete hD := by cases hD
  begins {p call w} hI _ hst := by
    refine hI.log rfl fun j hj => ?_
    cases call with
    | job j' =>
      cases hj
      obtain ⟨ev, hev, hjob⟩ := queued_job (of_decide_eq_true hst)
      exact hI.jobs ev hev j hjob
    | _ => cases hj
  leaves p how _ hI := hI.left p how
  duplicates {j w} hI hever := by
    obtain ⟨ev, hev, hmatch⟩ := List.any_eq_true.mp hever
    have hjob : ev.job? = some j := by
      split at hmatch
      · rw [of_decide_eq_true hmatch]
        rfl
      · cases hmatch
    refine ⟨⟨hI.noZombie, ⟨hI.dated.tables, hI.dated.views⟩, hI.cues, hI.rows, hI.views, ?_⟩,
      fun q => .of_kept (.log (by simp [Event.pid])) rfl⟩
    intro ev' hev' j' hj'
    rcases List.mem_cons.mp hev' with rfl | hev'
    · cases hj'
      exact hI.jobs ev hev j hjob
    · exact hI.jobs ev' hev' j' hj'
  ticks hI := ⟨⟨hI.noZombie, ⟨hI.dated.tables, hI.dated.views⟩, hI.cues, hI.rows, hI.views,
    hI.jobs⟩, fun q => .of_kept ⟨rfl, fun _ hk => hk, fun _ _ _ => rfl, rfl⟩ rfl⟩

theorem tended_init (t : Time) : Tended (editInit t).shared.1 where
  noZombie c cue hc := by simp [editInit, init, Store.start, World.tables, Tables.cue] at hc
  dated := ⟨fun c cue hc => by simp [editInit, init, Store.start, World.tables, Tables.cue] at hc,
    fun q c cue hc => by
      simp [editInit, init, Store.start, World.view, Store.view, Tables.cue] at hc⟩
  cues q e r hr := by
    simp [editInit, init, Store.start, World.view, Store.view, Tables.execution] at hr
  rows n o ho := by simp [editInit, init, Store.start, World.tables, Tables.outboxRow] at ho
  views q n o ho := by
    simp [editInit, init, Store.start, World.view, Store.view, Tables.outboxRow] at ho
  jobs ev hev := by simp [editInit, init] at hev

/-- In every state of a run without deletions in which the limit branch meets recurring cues, the
poller's conflicts meet open executions and the edits meet the rows they expect, an active one-time
cue has a next run or an execution that has not ended. -/
theorem no_zombie_cue {t : Time} {as : List EditAction} {s : EditSys}
    (hrun : editRun env (editInit t) as = some s)
    (hmeets : alongEdits env keepsCues tendsIf (editInit t) as = true) {c : CueId} {cue : Cue}
    (hc : s.shared.1.tables.cue c = some cue) (honce : cue.scheduleType = .once)
    (hact : cue.status = .active) : cue.nextRun.isSome = true ∨
      ∃ e r, s.shared.1.tables.execution e = some r ∧ r.cueId = c ∧
        r.status ∉ [.success, .failed, .missed] := by
  have hI := (keeps_tended env).run (tended_init t) hrun hmeets
  cases hnext : cue.nextRun with
  | some next => exact .inl rfl
  | none =>
    obtain ⟨e, r, hr, hrc, hno⟩ := hI.noZombie c cue hc (Cue.spent_iff.mpr ⟨honce, hact, hnext⟩)
    refine .inr ⟨e, r, hr, hrc, fun hmem => ?_⟩
    simp only [List.mem_cons, List.not_mem_nil, or_false] at hmem
    rcases hmem with h | h | h <;> simp [h, ExecStatus.ended] at hno

/-- A one-time webhook cue of a user with a monthly limit, with its one execution. -/
def fireOnce : List EditAction :=
  playEdit 1 (.call (.createCue 1 webhookCue)) (gos 4 ++ [.fresh 7, .go]) ++
  [.finish 1, .tick 2000000] ++
  playEdit 2 (.call .processCueBatch) (gos 2 ++ [.rows [7], .fresh 1, .go, .fresh 1] ++ gos 2) ++
  [.finish 2]

/-- Its delivery job, from the outbox to the claim. -/
def deliverOnce (answers : List Answer) : List EditAction :=
  playEdit 3 (.call .dispatchOutbox) ([.go, .rows [1]] ++ gos 3) ++ [.finish 3] ++
  playEdit 4 (.call (.job ⟨.deliver, (firedOutbox limitedEnv 7 (cueRow 1 webhookCue 1000000 0) 1
    1000000 2000000).payload⟩)) answers

theorem no_zombie_cue_claimed : ∃ s cue,
    editRun limitedEnv (editInit 0) (fireOnce ++ deliverOnce (.bool true :: gos 4)) = some s ∧
    s.shared.1.tables.cue 7 = some cue ∧ cue.nextRun = none ∧
    ∃ e r, s.shared.1.tables.execution e = some r ∧ r.cueId = 7 ∧
      r.status ∉ [.success, .failed, .missed] := by
  have hrun : ((editRun limitedEnv (editInit 0)
      (fireOnce ++ deliverOnce (.bool true :: gos 4))).bind fun s =>
        (s.shared.1.tables.cue 7).map fun cue => (cue.scheduleType, cue.status, cue.nextRun)) =
      some (.once, .active, none) := by decide +kernel
  obtain ⟨s, hs, hcue⟩ := Option.bind_eq_some_iff.mp hrun
  obtain ⟨cue, hc, hv⟩ := Option.map_eq_some_iff.mp hcue
  simp only [Prod.mk.injEq] at hv
  obtain ⟨honce, hact, hnone⟩ := hv
  refine ⟨s, cue, hs, hc, hnone, ?_⟩
  rcases no_zombie_cue hs (by decide +kernel) hc honce hact with hsome | hopen
  · simp [hnone] at hsome
  · exact hopen

/-- The limit blocks the delivery, and nothing is left to fire or to end. -/
theorem zombie_after_limit : ∃ s cue,
    editRun limitedEnv (editInit 0) (fireOnce ++ deliverOnce (.bool false :: gos 3)) = some s ∧
    s.shared.1.tables.cue 7 = some cue ∧ cue.scheduleType = .once ∧ cue.status = .active ∧
    cue.nextRun = none ∧ ∀ e r, s.shared.1.tables.execution e = some r → r.status = .failed := by
  have hrun : ((editRun limitedEnv (editInit 0)
      (fireOnce ++ deliverOnce (.bool false :: gos 3))).bind fun s =>
        (s.shared.1.tables.cue 7).map fun cue => ((cue.scheduleType, cue.status, cue.nextRun),
          keysWhere s.shared.1.tables.executions fun _ r => r.status ≠ .failed)) =
      some ((.once, .active, none), []) := by decide +kernel
  obtain ⟨s, hs, hcue⟩ := Option.bind_eq_some_iff.mp hrun
  obtain ⟨cue, hc, hv⟩ := Option.map_eq_some_iff.mp hcue
  simp only [Prod.mk.injEq] at hv
  obtain ⟨⟨honce, hact, hnone⟩, hfailed⟩ := hv
  refine ⟨s, cue, hs, hc, honce, hact, hnone, fun e r hr => by_contra fun hne => ?_⟩
  have hmem := (mem_keysWhere s.shared.1.tables.executions (fun _ r => r.status ≠ .failed) e).mpr
    ⟨r, hr, decide_eq_true hne⟩
  rw [hfailed] at hmem
  cases hmem

end CueApi.Scheduler
