import CueApi.Scheduler.Edits
import CueApi.Scheduler.Refinement

/-! Invariants of the scheduler with edits. `RowsKept` is what the others keep for a process:
its buffer, its locks and the rows it has locked. An invariant of the world that every call
keeps, as far as its statements meet `C`, holds along every run whose statements meet `C`. -/

namespace CueApi.Scheduler

open ReadCommitted Interleaving Prog

variable {env : Env} {p q : Pid} {w w' : World}

/-! ## What a PATCH computes -/

theorem checked_bind {α β : Type} {m : Checked α} {f : α → Checked β} {b : β}
    (h : (m >>= f).run = some (.ok b)) :
    ∃ a, m.run = some (.ok a) ∧ (f a).run = some (.ok b) := by
  obtain ⟨x, hx, hf⟩ := Option.bind_eq_some_iff.mp h
  cases x with
  | error e => cases hf
  | ok a => exact ⟨a, hx, hf⟩

theorem ifGiven_ok {β : Type} {field : Option β} {f : β → Cue → Checked Cue} {cue cue' : Cue}
    (h : (ifGiven field f cue).run = some (.ok cue')) :
    (field = none ∧ cue' = cue) ∨ ∃ x, field = some x ∧ (f x cue).run = some (.ok cue') := by
  cases field with
  | none =>
    cases h
    exact .inl ⟨rfl, rfl⟩
  | some x => exact .inr ⟨x, rfl, h⟩

/-- The columns of the schedule and the status. -/
structure SameRun (cue cue' : Cue) : Prop where
  userId : cue'.userId = cue.userId
  status : cue'.status = cue.status
  nextRun : cue'.nextRun = cue.nextRun
  scheduleType : cue'.scheduleType = cue.scheduleType
  scheduleAt : cue'.scheduleAt = cue.scheduleAt

theorem SameRun.refl (cue : Cue) : SameRun cue cue := ⟨rfl, rfl, rfl, rfl, rfl⟩

theorem SameRun.trans {a b c : Cue} (h : SameRun a b) (h' : SameRun b c) : SameRun a c where
  userId := h'.userId.trans h.userId
  status := h'.status.trans h.status
  nextRun := h'.nextRun.trans h.nextRun
  scheduleType := h'.scheduleType.trans h.scheduleType
  scheduleAt := h'.scheduleAt.trans h.scheduleAt

theorem SameRun.given {β : Type} {field : Option β} {f : β → Cue → Checked Cue} {cue cue' : Cue}
    (hf : ∀ x cue', (f x cue).run = some (.ok cue') → SameRun cue cue')
    (h : (ifGiven field f cue).run = some (.ok cue')) : SameRun cue cue' := by
  rcases ifGiven_ok h with ⟨-, rfl⟩ | ⟨x, -, hx⟩
  · exact .refl _
  · exact hf x cue' hx

theorem patchCallback_same {cb : CallbackCreate} {cue cue' : Cue}
    (h : (patchCallback env cb cue).run = some (.ok cue')) : SameRun cue cue' := by
  unfold patchCallback at h
  split at h
  · cases h
  · cases h
    exact ⟨rfl, rfl, rfl, rfl, rfl⟩

theorem patchPayload_same {payload : Json} {cue cue' : Cue}
    (h : (patchPayload payload cue).run = some (.ok cue')) : SameRun cue cue' := by
  unfold patchPayload at h
  split at h
  · cases h
  · split at h
    · cases h
    · cases h
      exact ⟨rfl, rfl, rfl, rfl, rfl⟩

theorem patchOnFailure_same {onFailure : OnFailure} {cue cue' : Cue}
    (h : (patchOnFailure env onFailure cue).run = some (.ok cue')) : SameRun cue cue' := by
  unfold patchOnFailure at h
  split at h
  · cases h
  · cases h
    exact ⟨rfl, rfl, rfl, rfl, rfl⟩

/-- A schedule of an unknown type is ignored; the others set the next run. -/
theorem patchSchedule_ok {now : Time} {s : ScheduleCreate} {cue cue' : Cue}
    (h : (patchSchedule env now s cue).run = some (.ok cue')) :
    (s.type = none ∧ cue' = cue) ∨
    (∃ type, s.type = some type ∧ cue'.scheduleType = type) ∧ cue'.userId = cue.userId ∧
      cue'.status = cue.status ∧ cue'.nextRun.isSome = true ∧
      (cue'.scheduleType = .once → cue'.scheduleAt = cue'.nextRun) := by
  unfold patchSchedule at h
  split at h
  · cases h
  · split at h
    · rename_i htype
      split at h
      · cases h
      · split at h
        · cases h
        · split at h
          · cases h
          · cases h
            exact .inr ⟨⟨_, htype, rfl⟩, rfl, rfl, rfl, nofun⟩
    · rename_i htype
      split at h
      · cases h
      · split at h
        · cases h
        · cases h
          exact .inr ⟨⟨_, htype, rfl⟩, rfl, rfl, rfl, fun _ => rfl⟩
    · rename_i htype
      cases h
      exact .inl ⟨htype, rfl⟩

theorem patchStatus_ok {now : Time} {status : PatchStatus} {cue cue' : Cue}
    (h : (patchStatus env now status cue).run = some (.ok cue')) :
    cue'.userId = cue.userId ∧ cue'.scheduleType = cue.scheduleType ∧
    cue'.scheduleAt = cue.scheduleAt ∧
    (status = .paused → cue'.status = .paused ∧ cue'.nextRun = none) ∧
    (status = .active → cue'.status = .active ∧
      (cue.scheduleType = .once → cue'.nextRun = cue.scheduleAt.or cue.nextRun)) := by
  cases status with
  | paused =>
    cases h
    exact ⟨rfl, rfl, rfl, fun _ => ⟨rfl, rfl⟩, nofun⟩
  | active =>
    simp only [patchStatus] at h
    split at h
    · rename_i hcron
      split at h
      · cases h
      · cases h
        exact ⟨rfl, rfl, rfl, nofun, fun _ => ⟨rfl, fun honce => by simp [honce] at hcron⟩⟩
    · split at h
      · cases h
        exact ⟨rfl, rfl, rfl, nofun, fun _ => ⟨rfl, fun _ => rfl⟩⟩
      · rename_i honce
        cases h
        exact ⟨rfl, rfl, rfl, nofun, fun _ => ⟨rfl, fun h => absurd h honce⟩⟩

/-- Only the schedule and the status of a PATCH reach these columns. -/
theorem patched_ok {patch : CuePatch} {now now' updatedAt : Time} {old new : Cue}
    (h : (patched env patch now now' updatedAt old).run = some (.ok new)) :
    ∃ cue₁ cue₂ cue₃, SameRun old cue₁ ∧
      (ifGiven patch.schedule (patchSchedule env now) cue₁).run = some (.ok cue₂) ∧
      (ifGiven patch.status (patchStatus env now') cue₂).run = some (.ok cue₃) ∧
      SameRun cue₃ new := by
  obtain ⟨a, ha, h⟩ := checked_bind h
  obtain ⟨b, hb, h⟩ := checked_bind h
  obtain ⟨c, hc, h⟩ := checked_bind h
  obtain ⟨d, hd, h⟩ := checked_bind h
  obtain ⟨e, he, h⟩ := checked_bind h
  obtain ⟨f, hf, h⟩ := checked_bind h
  obtain ⟨g, hg, h⟩ := checked_bind h
  cases h
  refine ⟨e, f, g, ?_, hf, hg, ⟨rfl, rfl, rfl, rfl, rfl⟩⟩
  have hname : SameRun old { old with name := patch.name.getD old.name } :=
    ⟨rfl, rfl, rfl, rfl, rfl⟩
  have ha' := SameRun.given (fun _ _ => patchCallback_same) ha
  have hb' := SameRun.given (fun _ _ => patchPayload_same) hb
  have hc' : SameRun b c := .given (fun _ _ hr => by
    cases hr
    exact ⟨rfl, rfl, rfl, rfl, rfl⟩) hc
  have hd' : SameRun c d := .given (fun _ _ hr => by
    cases hr
    exact ⟨rfl, rfl, rfl, rfl, rfl⟩) hd
  have he' := SameRun.given (fun _ _ => patchOnFailure_same) he
  exact hname.trans (ha'.trans (hb'.trans (hc'.trans (hd'.trans he'))))

/-! ## What the others keep -/

/-- The key of a row, not of an index entry. -/
def Key.isRow : Key → Bool
  | .slot _ _ | .cueName _ _ => false
  | _ => true

structure RowsKept (p : Pid) (w w' : World) : Prop where
  buf : w'.store.buf p = w.store.buf p
  locks : ∀ k, w.store.locks k = some p → w'.store.locks k = some p
  rows : ∀ k, k.isRow = true → w.store.locks k = some p → w'.tables.row k = w.tables.row k
  own : own p w'.history = own p w.history

theorem RowsKept.refl (p : Pid) (w : World) : RowsKept p w w :=
  ⟨rfl, fun _ hk => hk, fun _ _ _ => rfl, rfl⟩

theorem RowsKept.trans {w'' : World} (h : RowsKept p w w') (h' : RowsKept p w' w'') :
    RowsKept p w w'' where
  buf := h'.buf.trans h.buf
  locks k hk := h'.locks k (h.locks k hk)
  rows k hrow hk := (h'.rows k hrow (h.locks k hk)).trans (h.rows k hrow hk)
  own := h'.own.trans h.own

theorem RowsKept.of_kept (h : Store.Kept p w.store w'.store)
    (ho : Scheduler.own p w'.history = Scheduler.own p w.history) : RowsKept p w w' :=
  ⟨h.buf, h.locks, fun k _ hk => h.rows k hk, ho⟩

theorem RowsKept.log {ev : Event} (hq : ev.pid ≠ some q) : RowsKept q w (w.log ev) :=
  ⟨rfl, fun _ hk => hk, fun _ _ _ => rfl, own_cons_of_ne hq _⟩

theorem Stmt.rowsKept {W : Write → Prop} (hs : Stmt p W w w') (hq : q ≠ p) : RowsKept q w w' := by
  cases hs with
  | read => exact .refl q w
  | logged ev hp _ _ _ _ => exact .log fun heq => hq (Option.some.inj (heq.symm.trans hp))
  | locked ks s hl => exact .of_kept (Store.lock_kept hl hq) rfl
  | wrote wr s _ hwr => exact .of_kept (Store.write_kept hwr hq) rfl
  | committed =>
    refine .of_kept (Store.commit_kept w.store hq) (own_cons_of_ne ?_ _)
    exact fun heq => hq (Option.some.inj heq).symm

/-- A commit changes rows beyond its buffer only where it holds their locks. -/
theorem commitEdit_rowsKept {f : Tables → Tables} (hq : q ≠ p)
    (hf : ∀ k t, k.isRow = true → w.store.locks k ≠ some p → (f t).row k = t.row k) :
    RowsKept q w (w.commitEdit p f) where
  buf := Function.update_of_ne hq _ _
  locks k hk := (Store.commit_kept w.store hq).locks k hk
  rows k hrow hk := by
    have hne : w.store.locks k ≠ some p := by
      rw [hk]
      exact fun heq => hq (Option.some.inj heq)
    exact (hf k _ hrow hne).trans ((Store.commit_kept w.store hq).rows k hk)
  own := by
    refine own_cons_of_ne ?_ _
    exact fun heq => hq (Option.some.inj heq).symm

theorem flushCue_row {c : CueId} {old new : Cue} {k : Key} {t : Tables} (hrow : k.isRow = true)
    (hk : k ≠ .cue c) : (t.flushCue c old new).row k = t.row k := by
  cases k with
  | cue c' =>
    have hc : c' ≠ c := fun heq => hk (by rw [heq])
    change (modify t.cues c _).lookup c' = t.cues.lookup c'
    rw [lookup_modify, if_neg hc]
  | slot c s => cases hrow
  | cueName u name => cases hrow
  | execution e => rfl
  | outbox n => rfl
  | worker k => rfl

theorem lookup_dropWhere {K V : Type} [DecidableEq K] (t : Table K V) (pred : K → V → Bool)
    (k : K) : (dropWhere t pred).lookup k = (t.lookup k).filter fun v => !pred k v := by
  have hiff : ∀ v, (dropWhere t pred).lookup k = some v ↔
      ((t.lookup k).filter fun v => !pred k v) = some v := by
    intro v
    rw [Option.filter_eq_some_iff]
    change v ∈ (dropWhere t pred).lookup k ↔ v ∈ t.lookup k ∧ _
    rw [AList.mem_lookup_iff, AList.mem_lookup_iff]
    exact List.mem_filter
  exact Option.ext hiff

theorem dropWhere_kept {K V : Type} [DecidableEq K] {t : Table K V} {pred : K → V → Bool} {k : K}
    (hk : ∀ v, pred k v = false) : (dropWhere t pred).lookup k = t.lookup k := by
  rw [lookup_dropWhere]
  cases t.lookup k with
  | none => rfl
  | some v => simp [hk v]

theorem deleteRows_row {ks : List Key} {k : Key} {t : Tables} (hrow : k.isRow = true)
    (hk : k ∉ ks) : (t.deleteRows ks).row k = t.row k := by
  cases k with
  | cue c => exact dropWhere_kept fun _ => by simp [hk]
  | execution e => exact dropWhere_kept fun _ => by simp [hk]
  | outbox n => exact dropWhere_kept fun _ => by simp [hk]
  | slot c s => cases hrow
  | cueName u name => cases hrow
  | worker k => rfl

/-- The world when `p` has left. -/
def World.left (w : World) (p : Pid) (how : Ending) : World :=
  { w with store := w.store.rollback p, history := .ended p how :: w.history }

theorem left_rowsKept {how : Ending} (hq : q ≠ p) : RowsKept q w (w.left p how) := by
  refine .of_kept (Store.rollback_kept w.store hq) (own_cons_of_ne ?_ _)
  exact fun heq => hq (Option.some.inj heq).symm

theorem commitEdit_tables {f : Tables → Tables} (hb : w.store.buf p = []) :
    (w.commitEdit p f).tables = f w.tables := by
  change f (schema.applyAll (w.store.buf p) w.tables) = f w.tables
  rw [hb]
  rfl

theorem commitEdit_view (f : Tables → Tables) :
    (w.commitEdit p f).view p = (w.commitEdit p f).tables := by
  change schema.applyAll (Function.update w.store.buf p [] p) _ = _
  rw [Function.update_self]
  rfl

theorem flush_rowsKept {c : CueId} {old new : Cue} (hl : w.store.locks (.cue c) = some p)
    (hq : q ≠ p) : RowsKept q w (w.commitEdit p (Tables.flushCue c old new)) :=
  commitEdit_rowsKept hq fun _ _ hrow hk => flushCue_row hrow fun heq => hk (heq ▸ hl)

theorem delete_rowsKept {ks : List Key} (hl : ∀ k ∈ ks, w.store.locks k = some p) (hq : q ≠ p) :
    RowsKept q w (w.commitEdit p (Tables.deleteRows ks)) :=
  commitEdit_rowsKept hq fun k _ hrow hk => deleteRows_row hrow fun hmem => hk (hl k hmem)

theorem cue_flushCue {c c' : CueId} {old new : Cue} {t : Tables} :
    (t.flushCue c old new).cue c' =
      if c' = c then (t.cue c').map (Cue.flush old new) else t.cue c' := lookup_modify _ _ _ _

theorem cue_deleteRows {ks : List Key} {c : CueId} {t : Tables} {cue : Cue}
    (hc : (t.deleteRows ks).cue c = some cue) : t.cue c = some cue := by
  change (dropWhere t.cues _).lookup c = some cue at hc
  rw [lookup_dropWhere] at hc
  exact (Option.filter_eq_some_iff.mp hc).1

/-! ## Rows in the views -/

theorem cue_congr {c : CueId} (wr : Write) (t t' : Tables) (ht : t'.cue c = t.cue c) :
    (Tables.apply wr t').cue c = (Tables.apply wr t).cue c := by
  rw [Tables.cue_apply, Tables.cue_apply]
  cases wr <;> simp only [ht]

theorem RowsKept.view_cue (hk : RowsKept p w w') {c : CueId}
    (hl : w.store.locks (.cue c) = some p) : (w'.view p).cue c = (w.view p).cue c :=
  Store.view_row_congr (S := schema) (k := Key.cue c) hk.buf (hk.rows (.cue c) rfl hl) cue_congr

theorem view_lock {ks : List Key} {s : Store schema Pid} (hs : w.store.lock p ks = some s) :
    World.view { w with store := s } q = w.view q := by
  obtain ⟨ht, hb, -, -⟩ := Store.lock_eq hs
  unfold World.view Store.view
  rw [ht, hb]

/-- After a step of the others: a cue that `p` has locked is as it was, and of any other it sees
the committed version. -/
theorem RowsKept.cue_cases (hk : RowsKept p w w') (c : CueId) :
    ((w'.view p).cue c = (w.view p).cue c ∧ w'.tables.cue c = w.tables.cue c) ∨
      (w'.view p).cue c = w'.tables.cue c :=
  Store.view_row_cases (S := schema) (k := Key.cue c) hk.buf (hk.rows (.cue c) rfl) cue_congr

/-! ## A property of every cue -/

/-- Every cue has the property, in the tables and as any process sees them. -/
structure EveryCue (P : Cue → Prop) (w : World) : Prop where
  tables : ∀ c cue, w.tables.cue c = some cue → P cue
  views : ∀ q c cue, (w.view q).cue c = some cue → P cue

section EveryCue

variable {P : Cue → Prop}

/-- A step of `p` is to be checked on the tables and on the view of `p` only. -/
theorem EveryCue.of_step (hI : EveryCue P w) (ht : ∀ c cue, w'.tables.cue c = some cue → P cue)
    (hp : ∀ c cue, (w'.view p).cue c = some cue → P cue)
    (hk : ∀ q, q ≠ p → RowsKept q w w') : EveryCue P w' where
  tables := ht
  views q c cue hc := by
    by_cases hq : q = p
    · subst hq
      exact hp c cue hc
    · rcases (hk q hq).cue_cases c with ⟨hsame, -⟩ | hnow
      · exact hI.views q c cue (hsame ▸ hc)
      · exact ht c cue (hnow ▸ hc)

theorem view_write {wr : Write} {s : Store schema Pid} (hs : w.store.write p wr = some s) :
    World.view { w with store := s } p = Tables.apply wr (w.view p) := by
  obtain ⟨ht, hb, -, -⟩ := Store.write_eq hs
  unfold World.view Store.view
  rw [ht, hb, Function.update_self]
  rfl

theorem view_commit : (w.store.commit p).view p = w.view p := by
  unfold Store.view
  rw [show (w.store.commit p).buf p = [] from Function.update_self _ _ _]
  rfl

/-- A statement is to be checked where it inserts or updates a cue. -/
theorem Stmt.everyCue {W : Write → Prop} (hs : Stmt p W w w') (hI : EveryCue P w)
    (hins : ∀ c row, W (.insertCue c row) → P row)
    (hupd : ∀ c u cue, W (.updateCue c u) →
      w'.store.buf p = .updateCue c u :: w.store.buf p →
      (w.view p).cue c = some cue → P cue → P (u.set cue)) : EveryCue P w' := by
  have hk : ∀ q, q ≠ p → RowsKept q w w' := fun q hq => hs.rowsKept hq
  cases hs with
  | read => exact hI
  | logged ev _ _ _ _ _ => exact ⟨hI.tables, hI.views⟩
  | locked ks s hl =>
    obtain ⟨ht, -, -, -⟩ := Store.lock_eq hl
    refine hI.of_step (fun c cue hc => hI.tables c cue ?_) (fun c cue hc => ?_) hk
    · rw [← hc]
      exact congrArg (Tables.cue · c) ht.symm
    · exact hI.views p c cue (view_lock hl ▸ hc)
  | wrote wr s hwr hs =>
    obtain ⟨ht, hb, -, -⟩ := Store.write_eq hs
    refine hI.of_step (fun c cue hc => hI.tables c cue ?_) (fun c cue hc => ?_) hk
    · rw [← hc]
      exact congrArg (Tables.cue · c) ht.symm
    · rw [view_write hs, Tables.cue_apply] at hc
      have hbuf : s.buf p = wr :: w.store.buf p := by rw [hb, Function.update_self]
      split at hc
      · rename_i c' row
        split at hc
        · rcases Option.or_eq_some_iff.mp hc with hc | ⟨-, hc⟩
          · exact hI.views p c cue hc
          · cases hc
            exact hins c' cue hwr
        · exact hI.views p c cue hc
      · rename_i c' u
        split at hc
        · rename_i heq
          subst heq
          obtain ⟨cue₀, hc₀, rfl⟩ := Option.map_eq_some_iff.mp hc
          exact hupd c u cue₀ hwr hbuf hc₀ (hI.views p c cue₀ hc₀)
        · exact hI.views p c cue hc
      · exact hI.views p c cue hc
  | committed =>
    refine hI.of_step (fun c cue hc => hI.views p c cue hc) (fun c cue hc => ?_) hk
    refine hI.views p c cue ?_
    rw [← hc]
    exact congrArg (Tables.cue · c) view_commit.symm

theorem EveryCue.stmts {W : Write → Prop} {C : World → World → Prop} {α : Type} {m : Program α}
    (hm : Stmts p W m) (hins : ∀ c row, W (.insertCue c row) → P row)
    (hupd : ∀ w w' c u cue, C w w' → W (.updateCue c u) →
      w'.store.buf p = .updateCue c u :: w.store.buf p →
      (w.view p).cue c = some cue → P cue → P (u.set cue)) (w : World) :
    SafeIf C (EveryCue P) RowsKept p (fun _ _ => True) m w :=
  SafeIf.of_always hm (fun _ _ _ _ => trivial) (fun w w' hI _ hs hc =>
    ⟨hs.everyCue hI hins fun c u cue => hupd w w' c u cue hc, trivial,
      fun _ hq => hs.rowsKept hq⟩) trivial

/-- An edit that commits is to be checked on the tables only. -/
theorem EveryCue.commitEdit {f : Tables → Tables} (hI : EveryCue P w) (hb : w.store.buf p = [])
    (hf : ∀ c cue, (f w.tables).cue c = some cue → P cue)
    (hk : ∀ q, q ≠ p → RowsKept q w (w.commitEdit p f)) : EveryCue P (w.commitEdit p f) := by
  have ht : (w.commitEdit p f).tables = f w.tables := commitEdit_tables hb
  refine hI.of_step (fun c cue hc => hf c cue (ht ▸ hc)) (fun c cue hc => hf c cue ?_) hk
  rwa [commitEdit_view, ht] at hc

theorem EveryCue.left (hI : EveryCue P w) (p : Pid) (how : Ending) :
    EveryCue P (w.left p how) := by
  refine hI.of_step (p := p) hI.tables (fun c cue hc => hI.tables c cue ?_) fun q hq => ?_
  · change (schema.applyAll (Function.update w.store.buf p [] p) w.tables).cue c = some cue at hc
    rwa [Function.update_self] at hc
  · exact left_rowsKept hq

end EveryCue

/-! ## Open transactions -/

/-- The rows that `FOR UPDATE` returns match and are locked. -/
theorem safeIf_selectRowsForUpdate {C : World → World → Prop} {I : World → Prop}
    {R : Pid → World → World → Prop} {V : Type} {tbl : Tables → Table Nat V} {key : Nat → Key}
    {wh : Tables → V → Bool} {order : V → Time} {limit : Nat}
    {Q : List (Nat × V) → World → Prop}
    (hlock : ∀ w ks s, I w → w.store.lock p ks = some s →
      I { w with store := s } ∧ ∀ q, q ≠ p → R q w { w with store := s })
    (h : ∀ w₁ s xs, R p w w₁ → I { w₁ with store := s } → s.buf p = w₁.store.buf p →
      (∀ x ∈ xs, (tbl (World.view { w₁ with store := s } p)).lookup x.1 = some x.2 ∧
        wh (World.view { w₁ with store := s } p) x.2 = true ∧ s.locks (key x.1) = some p) →
      Q xs { w₁ with store := s }) :
    SafeIf C I R p Q (selectRowsForUpdate p tbl key wh order limit) w := by
  apply SafeIf.step
  intro w₁ hr hI a r w₂ hs _
  split at hs
  · rename_i ids
    dsimp only at hs
    split at hs
    · rename_i hpick
      obtain ⟨s, hl, heq⟩ := Option.map_eq_some_iff.mp hs
      cases heq
      obtain ⟨hI₂, hR⟩ := hlock w₁ _ s hI hl
      refine ⟨hI₂, hR, h w₁ s _ hr hI₂ (by rw [(Store.lock_eq hl).2.1]) fun x hx => ?_⟩
      obtain ⟨hid, hrow⟩ := mem_rowsAt hx
      obtain ⟨v, hv, hp⟩ := (mem_keysWhere _ _ _).mp (hpick.2.1 x.1 hid)
      rw [hrow] at hv
      cases hv
      rw [view_lock hl]
      refine ⟨hrow, (Bool.and_eq_true _ _ ▸ hp).1, ?_⟩
      rw [(Store.lock_eq hl).2.2.1, if_pos (List.mem_map.mpr ⟨x.1, hid, rfl⟩)]
    · cases hs
  · cases hs

/-- No statement of the program lets go of a lock of `p`. -/
abbrev Holding {α : Type} (p : Pid) (m : Program α) : Prop :=
  m.Always (fun _ => True) fun w w' => ∀ k, w.store.locks k = some p → w'.store.locks k = some p

theorem holds_write {wr : Write} {s : Store schema Pid} (hs : w.store.write p wr = some s) (k : Key)
    (hk : w.store.locks k = some p) : s.locks k = some p := by
  rw [(Store.write_eq hs).2.2.1]
  split
  · rfl
  · exact hk

theorem holding_write (wr : Write) : Holding p (write p wr) :=
  Always.step fun w _ _ _ _ hs => by
    obtain ⟨s, hwr, heq⟩ := Option.map_eq_some_iff.mp hs
    cases heq
    exact holds_write hwr

theorem holding_insertExecution (row : Execution) : Holding p (insertExecution p row) :=
  Always.step fun w a _ _ _ hs => by
    split at hs
    · dsimp only at hs
      split at hs
      · split at hs
        · cases hs
          exact fun _ hk => hk
        · obtain ⟨s, hwr, heq⟩ := Option.map_eq_some_iff.mp hs
          cases heq
          exact holds_write hwr
      · cases hs
    · cases hs

theorem holding_insertOutbox (row : OutboxRow) : Holding p (insertOutbox p row) :=
  Always.step fun w a _ _ _ hs => by
    split at hs
    · split at hs
      · obtain ⟨s, hwr, heq⟩ := Option.map_eq_some_iff.mp hs
        cases heq
        exact holds_write hwr
      · cases hs
    · cases hs

theorem holding_moveOn {now s : Time} {c : CueId} {cue : Cue} :
    Holding p (moveOn env p now c cue s) := by
  unfold moveOn
  split
  · trivial
  · exact holding_write _

theorem holding_processCue {now began : Time} (x : CueId × Cue) :
    Holding p (processCue env p now began x) := by
  unfold processCue
  dsimp only
  split
  · trivial
  · rename_i s hs
    have move : Holding p (moveOn env p now x.1 x.2 s) := holding_moveOn
    refine (holding_insertExecution _).bind fun inserted => ?_
    split
    · refine (holding_write _).bind fun _ => ?_
      split
      · exact move
      · exact (holding_insertOutbox _).bind fun _ => move
    · exact move

/-! ## The rule -/

/-- What one statement of a plain call has to meet. -/
def Plainly (C : Pid → EditWorld → EditWorld → Bool) (p : Pid) (w w' : World) : Prop :=
  ∃ l, C p (w, l) (w', l) = true

/-- Every step keeps `I` and stays within `R`, if the calls are among `D` and their statements
meet `C`. -/
structure Keeps (env : Env) (D : EditCall → Bool) (C : Pid → EditWorld → EditWorld → Bool)
    (I : World → Prop) (R : Pid → World → World → Prop) : Prop where
  refl : ∀ p w, R p w w
  trans : ∀ p {a b c}, R p a b → R p b c → R p a c
  rows : ∀ {p w w'}, R p w w' → RowsKept p w w'
  plain : ∀ {p call w}, D (.call call) = true → w.store.buf p = [] →
    own p w.history = [.began p call] →
    SafeIf (Plainly C p) I R p (fun _ _ => True) (programOf env p call) w
  lock : ∀ {p w ks s}, I w → w.store.lock p ks = some s →
    I { w with store := s } ∧ ∀ q, q ≠ p → R q w { w with store := s }
  flush : ∀ {p c patch old new now now' updatedAt w l}, I w → w.store.buf p = [] →
    own p w.history = [] → w.store.locks (.cue c) = some p →
    (∃ w₀, I w₀ ∧ (w₀.view p).cue c = some old) →
    (patched env patch now now' updatedAt old).run = some (.ok new) →
    C p (w, l) (w.commitEdit p (Tables.flushCue c old new), ⟨p, c, patch, old, new⟩ :: l) = true →
    I (w.commitEdit p (Tables.flushCue c old new)) ∧
      ∀ q, q ≠ p → R q w (w.commitEdit p (Tables.flushCue c old new))
  delete : ∀ {p ks user c w}, D (.deleteCue user c) = true → I w → w.store.buf p = [] →
    (∀ k ∈ ks, w.store.locks k = some p) → I (w.commitEdit p (Tables.deleteRows ks)) ∧
      ∀ q, q ≠ p → R q w (w.commitEdit p (Tables.deleteRows ks))
  begins : ∀ {p call w}, I w → own p w.history = [] → startable w.history call = true →
    I (w.log (.began p call)) ∧ ∀ q, q ≠ p → R q w (w.log (.began p call))
  leaves : ∀ p how {w}, I w → I (w.left p how) ∧ ∀ q, q ≠ p → R q w (w.left p how)
  duplicates : ∀ {j w}, I w → everEnqueued w.history j = true →
    I (w.log (.duplicated j)) ∧ ∀ q, R q w (w.log (.duplicated j))
  ticks : ∀ {d : Nat} {w}, I w → I { w with clock := w.clock + d } ∧
    ∀ q, R q w { w with clock := w.clock + d }

section Rule

variable {D : EditCall → Bool} {C : Pid → EditWorld → EditWorld → Bool} {I : World → Prop}
variable {R : Pid → World → World → Prop} {α β : Type}

/-- `SafeIf` in the world with edits. -/
abbrev EditSafe (C : Pid → EditWorld → EditWorld → Bool) (I : World → Prop)
    (R : Pid → World → World → Prop) (p : Pid) (Q : α → EditWorld → Prop) (m : EditProgram α)
    (s : EditWorld) : Prop :=
  SafeIf (fun s s' => C p s s' = true) (fun s => I s.1) (fun q s s' => R q s.1 s'.1) p Q m s

/-- Each statement leaves the world as it is. -/
abbrev Reads (m : Program α) : Prop := m.Always (fun _ => True) fun w w' => w' = w

theorem reads_select (f : Tables → β) : Reads (select p f) := Always.step fun w _ _ _ _ hs => by
  cases hs
  rfl

theorem reads_clock : Reads clock := Always.step fun w _ _ _ _ hs => by
  cases hs
  rfl

/-- Between its reads a process keeps what the others keep. -/
theorem Keeps.reads (hk : Keeps env D C I R) {K : World → Prop} {m : Program β} (hm : Reads m)
    {k : β → EditProgram α} {Q : α → EditWorld → Prop} {s : EditWorld}
    (hK : ∀ w w', K w → R p w w' → K w') (hs : K s.1)
    (h : ∀ b s', K s'.1 → EditSafe C I R p Q (k b) s') :
    EditSafe C I R p Q (plainly m >>= k) s := by
  refine SafeIf.bind (SafeIf.of_always (K := fun s => K s.1) hm.beside
    (fun s s' hs hr => hK s.1 s'.1 hs hr) (fun s s' hI hs hG _ => ?_) hs) h
  rw [hG.1]
  exact ⟨hI, hs, fun q _ => hk.refl q s.1⟩

theorem Keeps.updateCueRequest (hk : Keeps env D C I R) {user : UserId} {c : CueId}
    {patch : CuePatch} {s : EditWorld} (hs : s.1.store.buf p = [] ∧ own p s.1.history = []) :
    EditSafe C I R p (fun _ _ => True) (updateCueRequest env p user c patch) s := by
  have hK : ∀ w w' : World, (w.store.buf p = [] ∧ own p w.history = []) → R p w w' →
      w'.store.buf p = [] ∧ own p w'.history = [] :=
    fun w w' hb hr => ⟨(hk.rows hr).buf.trans hb.1, (hk.rows hr).own.trans hb.2⟩
  have hT : ∀ w w' : World, True → R p w w' → True := fun _ _ _ _ => trivial
  apply SafeIf.step_bind
  intro s₁ hr hI a cue? s₂ hact _
  obtain ⟨⟨cue?, w₂⟩, hsel, heq⟩ := Option.map_eq_some_iff.mp hact
  cases hsel
  cases heq
  have hs := hK s.1 s₁.1 hs hr
  refine ⟨hI, fun q _ => hk.refl q _, ?_⟩
  dsimp only
  split
  · trivial
  · rename_i old hold
    have hseen : ∃ w₀, I w₀ ∧ (w₀.view p).cue c = some old :=
      ⟨s₁.1, hI, (Option.filter_eq_some_iff.mp hold).1⟩
    refine hk.reads reads_clock hK hs fun now s hs => ?_
    refine hk.reads reads_clock hK hs fun now' s hs => ?_
    refine hk.reads reads_clock hK hs fun updatedAt s hs => ?_
    split
    · trivial
    · trivial
    · rename_i new hnew
      apply SafeIf.step_bind
      intro s₁ hr hI a r s₂ hact _
      have hb := hK s.1 s₁.1 hs hr
      -- a flush that fails locks nothing
      split at hact
      · split at hact
        · cases hact
          exact ⟨hI, fun q _ => hk.refl q _, trivial⟩
        · split at hact
          · cases hact
            exact ⟨hI, fun q _ => hk.refl q _, trivial⟩
          · split at hact
            · cases hact
              exact ⟨hI, fun q _ => hk.refl q _, trivial⟩
            · obtain ⟨st, hl, heq⟩ := Option.map_eq_some_iff.mp hact
              cases heq
              obtain ⟨hI₂, hR₂⟩ := hk.lock hI hl
              refine ⟨hI₂, hR₂, ?_⟩
              obtain ⟨-, hbuf, hlocks, -⟩ := Store.lock_eq hl
              have hlock : st.locks (.cue c) = some p := by
                rw [hlocks]
                simp
              have hb₂ : st.buf p = [] ∧ own p s₁.1.history = [] := ⟨by rw [hbuf, hb.1], hb.2⟩
              apply SafeIf.step_bind
              intro s₃ hr₃ hI₃ a r s₄ hact hc
              cases hact
              obtain ⟨hb₃, ho₃⟩ := hK _ _ hb₂ hr₃
              obtain ⟨hI₄, hR₄⟩ := hk.flush hI₃ hb₃ ho₃ ((hk.rows hr₃).locks _ hlock) hseen
                hnew hc
              refine ⟨hI₄, hR₄, ?_⟩
              refine hk.reads (reads_select _) hT trivial fun row? s _ => ?_
              split <;> trivial
      · cases hact

theorem Keeps.deleteCueRequest (hk : Keeps env D C I R) {user : UserId} {c : CueId}
    (hD : D (.deleteCue user c) = true) {s : EditWorld} (hs : s.1.store.buf p = []) :
    EditSafe C I R p (fun _ _ => True) (deleteCueRequest p user c) s := by
  have hK : ∀ w w' : World, w.store.buf p = [] → R p w w' → w'.store.buf p = [] :=
    fun w w' hb hr => (hk.rows hr).buf.trans hb
  refine hk.reads (reads_select _) hK hs fun cue? s hs => ?_
  split
  · trivial
  · apply SafeIf.step_bind
    intro s₁ hr hI a ks s₂ hact _
    obtain ⟨st, hl, heq⟩ := Option.map_eq_some_iff.mp hact
    cases heq
    obtain ⟨hI₂, hR₂⟩ := hk.lock hI hl
    refine ⟨hI₂, hR₂, ?_⟩
    obtain ⟨-, hbuf, hlocks, -⟩ := Store.lock_eq hl
    apply SafeIf.step_bind
    intro s₃ hr₃ hI₃ a r s₄ hact _
    cases hact
    have hb₂ : st.buf p = [] := by rw [hbuf, hK _ _ hs hr]
    obtain ⟨hI₄, hR₄⟩ := hk.delete hD hI₃ (hK _ _ hb₂ hr₃) fun k hkey =>
      (hk.rows hr₃).locks k (by rw [hlocks, if_pos hkey])
    exact ⟨hI₄, hR₄, trivial⟩

theorem Keeps.editProgram (hk : Keeps env D C I R) {call : EditCall} (hD : D call = true)
    {w : World} (hb : w.store.buf p = []) (ho : own p w.history = []) (l : List Edit) :
    EditSafe C I R p (fun _ _ => True) (editProgram env p call) (call.begin p w, l) := by
  cases call with
  | call c =>
    have hown : own p (w.log (.began p c)).history = [.began p c] := by
      rw [show (w.log (.began p c)).history = .began p c :: w.history from rfl,
        own_cons_of_pid rfl, ho]
    have hsafe := hk.plain hD (w := w.log (.began p c)) hb hown
    exact SafeIf.bind (SafeIf.beside (fun _ _ l hc => ⟨l, hc⟩) (fun _ _ => Iff.rfl)
      (fun _ _ _ _ _ => Iff.rfl) hsafe l) fun _ _ _ => trivial
  | updateCue user c patch => exact hk.updateCueRequest ⟨hb, ho⟩
  | deleteCue user c => exact hk.deleteCueRequest hD hb

theorem Keeps.begin (hk : Keeps env D C I R) (call : EditCall) {w : World} (hI : I w)
    (ho : own p w.history = []) (hst : call.startable w.history = true) :
    I (call.begin p w) ∧ ∀ q, q ≠ p → R q w (call.begin p w) := by
  cases call with
  | call c => exact hk.begins hI ho hst
  | updateCue user c patch => exact ⟨hI, fun q _ => hk.refl q w⟩
  | deleteCue user c => exact ⟨hI, fun q _ => hk.refl q w⟩

/-- The invariant of a configuration whose processes keep to `C`. -/
abbrev EditGood (C : Pid → EditWorld → EditWorld → Bool) (I : World → Prop)
    (R : Pid → World → World → Prop) (s : EditSys) : Prop :=
  Good (fun s : EditWorld => I s.1) (fun q s s' => R q s.1 s'.1) (fun _ _ _ => True)
    (s.when fun p s s' => C p s s' = true)

theorem Keeps.step (hk : Keeps env D C I R) {s s' : EditSys} {a : EditAction}
    (hg : EditGood C I R s) (hs : editStep env s a = some s') (hm : meets D C s s' a = true) :
    EditGood C I R s' := by
  have htrans : ∀ p {a b c : EditWorld}, R p a.1 b.1 → R p b.1 c.1 → R p a.1 c.1 :=
    fun p {_ _ _} h h' => hk.trans p h h'
  have hQ : ∀ (p : Pid) (a : EditReply) (s s' : EditWorld), R p s.1 s'.1 → True → True :=
    fun _ _ _ _ _ _ => trivial
  have left : ∀ p how, s' = leaveEdit s p how → EditGood C I R s' := by
    rintro p how rfl
    obtain ⟨hI, hR⟩ := hk.leaves p how hg.1
    unfold EditGood leaveEdit
    rw [Config.put_when]
    exact hg.put htrans hQ hI hR (by simp)
  cases a with
  | start p call =>
    simp only [editStep] at hs
    split at hs
    · rename_i hcond
      cases hs
      obtain ⟨hI, hR⟩ := hk.begin call hg.1 hcond.1 hcond.2.2.2
      unfold EditGood
      rw [Config.put_when]
      refine hg.put htrans hQ hI hR ?_
      rintro m ⟨⟩
      exact hk.editProgram hm hcond.2.1 hcond.1 _
    · cases hs
  | advance p a =>
    exact hg.advance htrans (fun q s => hk.refl q s.1) hQ (Config.advance_when hs hm)
  | finish p =>
    simp only [editStep] at hs
    split at hs
    · cases hs
      exact left p _ rfl
    · cases hs
  | crash p =>
    obtain ⟨m, -, rfl⟩ := Option.map_eq_some_iff.mp hs
    exact left p _ rfl
  | raise p =>
    obtain ⟨m, -, rfl⟩ := Option.map_eq_some_iff.mp hs
    exact left p _ rfl
  | duplicate j =>
    simp only [editStep] at hs
    split at hs
    · rename_i hever
      cases hs
      obtain ⟨hI, hR⟩ := hk.duplicates hg.1 hever
      exact hg.drift htrans hQ hI hR
    · cases hs
  | tick d =>
    cases hs
    obtain ⟨hI, hR⟩ := hk.ticks (d := d) hg.1
    exact hg.drift htrans hQ hI hR

theorem Keeps.run (hk : Keeps env D C I R) {t : Time} {as : List EditAction} {s : EditSys}
    (hI : I (editInit t).shared.1) (hrun : editRun env (editInit t) as = some s)
    (hal : alongEdits env D C (editInit t) as = true) : I s.shared.1 := by
  have hg : EditGood C I R (editInit t) :=
    ⟨hI, fun p prog hp => by simp [editInit, Config.when] at hp⟩
  generalize editInit t = s₀ at hg hrun hal
  clear hI
  induction as generalizing s₀ with
  | nil =>
    cases hrun
    exact hg.1
  | cons a as ih =>
    obtain ⟨s₁, hs, hrun⟩ := Option.bind_eq_some_iff.mp hrun
    simp only [alongEdits, hs, Option.all_some, Bool.and_eq_true] at hal
    exact ih s₁ (hk.step hg hs hal.1) hrun hal.2

end Rule

/-! ## Concrete runs -/

/-- Start `p` on `call` and give its statements these answers. -/
def playEdit (p : Pid) (call : EditCall) (answers : List Answer) : List EditAction :=
  .start p call :: answers.map (.advance p)

/-- A PATCH from its SELECT to its reply. -/
def patchAll (p : Pid) (user : UserId) (c : CueId) (patch : CuePatch) : List EditAction :=
  playEdit p (.updateCue user c patch) (gos 7) ++ [.finish p]

end CueApi.Scheduler
