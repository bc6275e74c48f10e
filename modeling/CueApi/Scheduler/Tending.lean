import CueApi.Scheduler.EditProofs

/-! Spent cues: one-time cues that are active without a next run. Such a cue waits for the end of
an execution, and the transaction that ends it has to close the cue. `Owes` is what an open
transaction still has to do before it commits; what the others keep for it is `TendRely`. -/

namespace CueApi.Scheduler

open ReadCommitted Interleaving Prog

variable {env : Env} {p q : Pid} {w w' : World}

/-- `success`, `failed` and `missed`. -/
def ExecStatus.ended : ExecStatus → Bool
  | .success | .failed | .missed => true
  | _ => false

def Cue.spent (cue : Cue) : Bool :=
  cue.scheduleType = .once && cue.status = .active && cue.nextRun = none

/-- The cue has an execution that has not ended. -/
def Tables.Served (t : Tables) (c : CueId) : Prop :=
  ∃ e r, t.execution e = some r ∧ r.cueId = c ∧ r.status.ended = false

def NoZombie (t : Tables) : Prop := ∀ c cue, t.cue c = some cue → cue.spent = true → t.Served c

/-- The execution exists and is one of the cue. -/
def Tables.Has (t : Tables) (e : ExecId) (c : CueId) : Prop :=
  ∃ r, t.execution e = some r ∧ r.cueId = c

def typeOf (t : Tables) (c : CueId) : Option ScheduleType := (t.cue c).map Cue.scheduleType

/-- A one-time cue has its time, and only such a cue. -/
def Cue.Dated (cue : Cue) : Prop := cue.scheduleType = .once ↔ cue.scheduleAt.isSome = true

/-- The rows stay, and executions stay with their cue. -/
structure Follows (t t' : Tables) : Prop where
  has : ∀ e c, t.Has e c → t'.Has e c
  cue : ∀ c, (t.cue c).isSome = true → (t'.cue c).isSome = true

theorem Follows.refl (t : Tables) : Follows t t := ⟨fun _ _ h => h, fun _ h => h⟩

theorem Follows.trans {a b c : Tables} (h : Follows a b) (h' : Follows b c) : Follows a c :=
  ⟨fun e k hk => h'.has e k (h.has e k hk), fun k hk => h'.cue k (h.cue k hk)⟩

theorem Tables.Grows.follows {t t' : Tables} (h : t.Grows t') : Follows t t' where
  has e c := by
    rintro ⟨r, hr, rfl⟩
    obtain ⟨r', hr', hf⟩ := h.execution hr
    exact ⟨r', hr', hf.cueId⟩
  cue c hc := by
    obtain ⟨cue, hcue⟩ := Option.isSome_iff_exists.mp hc
    obtain ⟨cue', hcue', -⟩ := h.cue hcue
    rw [hcue']
    rfl

theorem Tables.Grows.typeOf {t t' : Tables} (h : t.Grows t') {c : CueId} {type : ScheduleType}
    (hc : typeOf t c = some type) : typeOf t' c = some type := by
  obtain ⟨cue, hcue, rfl⟩ := Option.map_eq_some_iff.mp hc
  obtain ⟨cue', hcue', hf⟩ := h.cue hcue
  rw [Scheduler.typeOf, hcue', Option.map_some, hf.scheduleType]

/-- A process sees every committed row. -/
theorem view_grows (w : World) (p : Pid) : w.tables.Grows (w.view p) :=
  Tables.Grows.applyAll (w.store.buf p) w.tables

theorem typeOf_recurring {t : Tables} {c : CueId} (hc : (t.cue c).isSome = true)
    (hno : typeOf t c ≠ some .once) : typeOf t c = some .recurring := by
  obtain ⟨cue, hcue⟩ := Option.isSome_iff_exists.mp hc
  unfold typeOf at hno ⊢
  rw [hcue] at hno ⊢
  cases htype : cue.scheduleType with
  | once => simp [htype] at hno
  | recurring => rw [Option.map_some, htype]

/-! ## Rows in the views -/

theorem execution_congr {e : ExecId} (wr : Write) (t t' : Tables)
    (ht : t'.execution e = t.execution e) :
    (Tables.apply wr t').execution e = (Tables.apply wr t).execution e := by
  rw [Tables.execution_apply, Tables.execution_apply]
  cases wr <;> simp only [ht]

theorem outboxRow_congr {n : OutboxId} (wr : Write) (t t' : Tables)
    (ht : t'.outboxRow n = t.outboxRow n) :
    (Tables.apply wr t').outboxRow n = (Tables.apply wr t).outboxRow n := by
  rw [Tables.outboxRow_apply, Tables.outboxRow_apply]
  cases wr <;> simp only [ht]

/-- An execution that `p` has locked. -/
theorem RowsKept.execution_held (hk : RowsKept p w w') {e : ExecId}
    (hl : w.store.locks (.execution e) = some p) :
    (w'.view p).execution e = (w.view p).execution e ∧
      w'.tables.execution e = w.tables.execution e :=
  ⟨Store.view_row_congr (S := schema) (k := Key.execution e) hk.buf
    (hk.rows (.execution e) rfl hl) execution_congr, hk.rows (.execution e) rfl hl⟩

/-- An execution that `p` has not locked. -/
theorem RowsKept.execution_free (hk : RowsKept p w w') {e : ExecId}
    (hl : w.store.locks (.execution e) ≠ some p) :
    (w.view p).execution e = w.tables.execution e ∧
      (w'.view p).execution e = w'.tables.execution e := by
  refine ⟨Store.view_row_free (S := schema) (k := Key.execution e) hl, ?_⟩
  refine schema.row_applyAll (w'.store.buf p) w'.tables (.execution e) fun wr hwr hkey => hl ?_
  rw [hk.buf] at hwr
  exact w.store.held p wr hwr _ hkey

theorem RowsKept.has_view (hk : RowsKept p w w') (hf : Follows w.tables w'.tables) {e : ExecId}
    {c : CueId} (h : (w.view p).Has e c) : (w'.view p).Has e c := by
  by_cases hl : w.store.locks (.execution e) = some p
  · obtain ⟨r, hr, hc⟩ := h
    exact ⟨r, (hk.execution_held hl).1.trans hr, hc⟩
  · obtain ⟨r, hr, hc⟩ := h
    have htab : w.tables.Has e c := ⟨r, (hk.execution_free hl).1.symm.trans hr, hc⟩
    exact (view_grows w' p).follows.has e c (hf.has e c htab)

/-! ## The invariant and the rely -/

/-- The job that an event is about. -/
def Event.job? : Event → Option Job
  | .enqueued _ _ j | .duplicated j | .began _ (.job j) => some j
  | _ => none

theorem queued_job {h : History} {j : Job} (hj : j ∈ queued h) : ∃ ev ∈ h, ev.job? = some j := by
  induction h with
  | nil => cases hj
  | cons ev h ih =>
    rcases mem_queued_cons hj with hj | ⟨p, n, rfl⟩ | rfl | ⟨p, rfl, hcall⟩
    · obtain ⟨ev', hev, hjob⟩ := ih hj
      exact ⟨ev', List.mem_cons_of_mem _ hev, hjob⟩
    · exact ⟨_, List.mem_cons_self .., rfl⟩
    · exact ⟨_, List.mem_cons_self .., rfl⟩
    · exact ⟨_, List.mem_cons_of_mem _ (callOf_mem hcall), rfl⟩

/-- A payload that names an execution and its own cue. -/
def DeliveryPayload.Of (pl : DeliveryPayload) (t : Tables) : Prop := t.Has pl.executionId pl.cueId

structure Tended (w : World) : Prop where
  noZombie : NoZombie w.tables
  dated : EveryCue Cue.Dated w
  cues : ∀ q e r, (w.view q).execution e = some r → (w.tables.cue r.cueId).isSome = true
  rows : ∀ n o, w.tables.outboxRow n = some o → o.payload.Of w.tables
  views : ∀ q n o, (w.view q).outboxRow n = some o → o.payload.Of (w.view q)
  jobs : ∀ ev ∈ w.history, ∀ j, ev.job? = some j → j.payload.Of w.tables

/-- What the others keep for `q`: a cue stays recurring while `q` has one of its executions
locked, and no execution of a one-time cue ends while `q` has the cue locked. -/
structure TendRely (q : Pid) (w w' : World) : Prop where
  kept : RowsKept q w w'
  follows : Follows w.tables w'.tables
  types : ∀ e c, w.store.locks (.execution e) = some q → w.tables.Has e c →
    typeOf w.tables c = some .recurring → typeOf w'.tables c = some .recurring
  served : ∀ e r, w.store.locks (.cue r.cueId) = some q → typeOf w.tables r.cueId = some .once →
    w.tables.execution e = some r → r.status.ended = false →
    ∃ r', w'.tables.execution e = some r' ∧ r'.cueId = r.cueId ∧ r'.status.ended = false

theorem TendRely.of_kept (hk : RowsKept q w w') (ht : w'.tables = w.tables) : TendRely q w w' where
  kept := hk
  follows := by
    rw [ht]
    exact .refl _
  types e c _ _ htype := by rwa [ht]
  served e r _ _ hr hno := ⟨r, by rwa [ht], rfl, hno⟩

theorem TendRely.refl (q : Pid) (w : World) : TendRely q w w := .of_kept (.refl q w) rfl

theorem TendRely.trans {w'' : World} (h : TendRely q w w') (h' : TendRely q w' w'') :
    TendRely q w w'' where
  kept := h.kept.trans h'.kept
  follows := h.follows.trans h'.follows
  types e c hl hhas htype :=
    h'.types e c (h.kept.locks _ hl) (h.follows.has e c hhas) (h.types e c hl hhas htype)
  served e r hl htype hr hno := by
    obtain ⟨r', hr', hc', hno'⟩ := h.served e r hl htype hr hno
    have hrow : w'.tables.cue r.cueId = w.tables.cue r.cueId := h.kept.rows (.cue r.cueId) rfl hl
    have htype' : typeOf w'.tables r'.cueId = some .once := by
      rw [hc', typeOf, hrow]
      exact htype
    obtain ⟨r'', hr'', hc'', hno''⟩ :=
      h'.served e r' (by rw [hc']; exact h.kept.locks _ hl) htype' hr' hno'
    exact ⟨r'', hr'', hc''.trans hc', hno''⟩

/-- A step of `p` is to be checked on the tables and on the view of `p`. -/
theorem Tended.of_step (hI : Tended w) (hk : ∀ q, q ≠ p → RowsKept q w w')
    (hf : Follows w.tables w'.tables) (hz : NoZombie w'.tables) (hd : EveryCue Cue.Dated w')
    (hc : ∀ e r, (w'.view p).execution e = some r → (w'.tables.cue r.cueId).isSome = true)
    (ho : ∀ n o, w'.tables.outboxRow n = some o → o.payload.Of w'.tables)
    (hv : ∀ n o, (w'.view p).outboxRow n = some o → o.payload.Of (w'.view p))
    (hj : ∀ ev ∈ w'.history, ∀ j, ev.job? = some j → j.payload.Of w'.tables) : Tended w' where
  noZombie := hz
  dated := hd
  rows := ho
  jobs := hj
  cues q e r hr := by
    by_cases hq : q = p
    · subst hq
      exact hc e r hr
    · by_cases hl : w.store.locks (.execution e) = some q
      · rw [((hk q hq).execution_held hl).1] at hr
        exact hf.cue _ (hI.cues q e r hr)
      · rw [((hk q hq).execution_free hl).2] at hr
        obtain ⟨r', hr', hfix⟩ := (view_grows w' p).execution hr
        rw [← hfix.cueId]
        exact hc e r' hr'
  views q n o hrow := by
    by_cases hq : q = p
    · subst hq
      exact hv n o hrow
    · rcases Store.view_row_cases (S := schema) (k := Key.outbox n) (hk q hq).buf
        ((hk q hq).rows (.outbox n) rfl) outboxRow_congr with ⟨hsame, -⟩ | hnow
      · exact (hk q hq).has_view hf (hI.views q n o (Eq.trans (Eq.symm hsame) hrow))
      · exact (view_grows w' q).follows.has _ _ (ho n o (Eq.trans (Eq.symm hnow) hrow))

/-! ## Statements -/

/-- What a new row has to be. -/
def Admits (p : Pid) (w : World) : Write → Prop
  | .insertCue _ row => row.Dated
  | .insertExecution _ row => (w.tables.cue row.cueId).isSome = true
  | .insertOutbox _ o => o.payload.Of (w.view p)
  | _ => True

theorem CueUpdate.set_dated (u : CueUpdate) {cue : Cue} (h : cue.Dated) : (u.set cue).Dated := by
  cases u <;> exact h

theorem Tended.lock {ks : List Key} {s : Store schema Pid} (hI : Tended w)
    (hl : w.store.lock p ks = some s) : Tended { w with store := s } ∧
      ∀ q, q ≠ p → TendRely q w { w with store := s } := by
  have hs : Stmt p (fun _ => False) w { w with store := s } := .locked ks s hl
  have ht : World.tables { w with store := s } = w.tables := (Store.lock_eq hl).1
  have hv : World.view { w with store := s } p = w.view p := view_lock hl
  refine ⟨?_, fun q hq => .of_kept (hs.rowsKept hq) ht⟩
  refine hI.of_step (p := p) (fun q hq => hs.rowsKept hq) ?_ ?_ ?_ ?_ ?_ ?_ ?_
  · rw [ht]
    exact .refl _
  · rw [ht]
    exact hI.noZombie
  · exact hs.everyCue hI.dated (fun _ _ h => h.elim) fun _ _ _ h => h.elim
  · rw [hv, ht]
    exact hI.cues p
  · rw [ht]
    exact hI.rows
  · rw [hv]
    exact hI.views p
  · rw [ht]
    exact hI.jobs

theorem Tended.log {ev : Event} (hI : Tended w) (hp : ev.pid = some p)
    (hj : ∀ j, ev.job? = some j → j.payload.Of w.tables) :
    Tended (w.log ev) ∧ ∀ q, q ≠ p → TendRely q w (w.log ev) := by
  have hk : ∀ q, q ≠ p → RowsKept q w (w.log ev) := fun q hq =>
    .log fun heq => hq (Option.some.inj (heq.symm.trans hp))
  refine ⟨⟨hI.noZombie, ⟨hI.dated.tables, hI.dated.views⟩, hI.cues, hI.rows, hI.views, ?_⟩,
    fun q hq => .of_kept (hk q hq) rfl⟩
  intro ev' hev j hjob
  rcases List.mem_cons.mp hev with rfl | hev
  · exact hj j hjob
  · exact hI.jobs ev' hev j hjob

theorem Tended.write {wr : Write} {s : Store schema Pid} (hI : Tended w)
    (hwr : w.store.write p wr = some s) (ha : Admits p w wr) : Tended { w with store := s } ∧
      ∀ q, q ≠ p → TendRely q w { w with store := s } := by
  have hs : Stmt p (· = wr) w { w with store := s } := .wrote wr s rfl hwr
  have ht : World.tables { w with store := s } = w.tables := (Store.write_eq hwr).1
  have hv : World.view { w with store := s } p = Tables.apply wr (w.view p) := view_write hwr
  refine ⟨?_, fun q hq => .of_kept (hs.rowsKept hq) ht⟩
  refine hI.of_step (p := p) (fun q hq => hs.rowsKept hq) ?_ ?_ ?_ ?_ ?_ ?_ ?_
  · rw [ht]
    exact .refl _
  · rw [ht]
    exact hI.noZombie
  · refine hs.everyCue hI.dated (fun c row heq => ?_) fun c u cue _ _ _ hP => u.set_dated hP
    subst heq
    exact ha
  · intro e r hr
    rw [hv, Tables.execution_apply] at hr
    rw [ht]
    split at hr
    · rename_i e' row
      split at hr
      · rcases Option.or_eq_some_iff.mp hr with hr | ⟨-, hr⟩
        · exact hI.cues p e r hr
        · cases hr
          exact ha
      · exact hI.cues p e r hr
    · rename_i e' u
      split at hr
      · obtain ⟨r₀, hr₀, rfl⟩ := Option.map_eq_some_iff.mp hr
        rw [u.set_cueId]
        exact hI.cues p e r₀ hr₀
      · exact hI.cues p e r hr
    · exact hI.cues p e r hr
  · rw [ht]
    exact hI.rows
  · intro n o hrow
    have hgrow := (Tables.Grows.apply wr (w.view p)).follows
    rw [hv] at hrow ⊢
    rw [Tables.outboxRow_apply] at hrow
    split at hrow
    · rename_i n' o'
      split at hrow
      · rcases Option.or_eq_some_iff.mp hrow with hrow | ⟨-, hrow⟩
        · exact hgrow.has _ _ (hI.views p n o hrow)
        · cases hrow
          exact hgrow.has _ _ ha
      · exact hgrow.has _ _ (hI.views p n o hrow)
    · rename_i n' u
      split at hrow
      · obtain ⟨o₀, ho₀, rfl⟩ := Option.map_eq_some_iff.mp hrow
        rw [(u.set_fixed o₀).payload]
        exact hgrow.has _ _ (hI.views p n o₀ ho₀)
      · exact hgrow.has _ _ (hI.views p n o hrow)
    · exact hgrow.has _ _ (hI.views p n o hrow)
  · rw [ht]
    exact hI.jobs

/-- What `p` has to have done before it commits: no cue that it leaves spent is without an open
execution, and it has ended executions of a one-time cue only if the cue is its own. -/
structure Cleared (p : Pid) (w : World) : Prop where
  noZombie : NoZombie (w.view p)
  served : ∀ e r, w.store.locks (.cue r.cueId) ≠ some p → typeOf w.tables r.cueId = some .once →
    w.tables.execution e = some r → r.status.ended = false →
    ∃ r', (w.view p).execution e = some r' ∧ r'.status.ended = false

/-- The world after a commit of `p`. -/
def World.committed (w : World) (p : Pid) : World :=
  { w with store := w.store.commit p, history := .commit p w.clock (w.store.buf p) :: w.history }

theorem Tended.commit (hI : Tended w) (hset : Cleared p w) : Tended (w.committed p) ∧
    ∀ q, q ≠ p → TendRely q w (w.committed p) := by
  have hs : Stmt p (fun _ => False) w (w.committed p) := .committed
  have hg : w.tables.Grows (w.view p) := view_grows w p
  have hv : (w.committed p).view p = w.view p := view_commit
  refine ⟨hI.of_step (p := p) (fun q hq => hs.rowsKept hq) hg.follows hset.noZombie ?_ ?_ ?_ ?_ ?_,
    fun q hq => ⟨hs.rowsKept hq, hg.follows, fun e c _ _ htype => hg.typeOf htype, ?_⟩⟩
  · exact hs.everyCue hI.dated (fun _ _ h => h.elim) fun _ _ _ h => h.elim
  · intro e r hr
    rw [hv] at hr
    exact hg.follows.cue _ (hI.cues p e r hr)
  · exact hI.views p
  · rw [hv]
    exact hI.views p
  · intro ev hev j hjob
    rcases List.mem_cons.mp hev with rfl | hev
    · cases hjob
    · exact hg.follows.has _ _ (hI.jobs ev hev j hjob)
  · intro e r hl htype hr hno
    have hne : w.store.locks (.cue r.cueId) ≠ some p := by
      rw [hl]
      exact fun heq => hq (Option.some.inj heq)
    obtain ⟨r', hr', hno'⟩ := hset.served e r hne htype hr hno
    obtain ⟨r'', hr'', hfix⟩ := hg.execution hr
    rw [hr'] at hr''
    cases hr''
    exact ⟨r', hr', hfix.cueId, hno'⟩

/-! ## Open transactions -/

/-- `p` has the cue locked and has taken it out of `active`. -/
def Closed (p : Pid) (c : CueId) (w : World) : Prop :=
  w.store.locks (.cue c) = some p ∧ ∀ cue, (w.view p).cue c = some cue → cue.status ≠ .active

/-- The open transaction of `p`: it has closed the cue of each execution that it ends, unless the
cue is recurring or still in `debt`; and the cues that it leaves spent were so before, or are its
own and have an open execution, if it is one that `fires`. -/
structure Owes (p : Pid) (fires : Bool) (debt : CueId → Prop) (w : World) : Prop where
  ended : ∀ e r r', w.tables.execution e = some r → r.status.ended = false →
    (w.view p).execution e = some r' → r'.status.ended = true →
    debt r.cueId ∨ Closed p r.cueId w ∨ typeOf w.tables r.cueId = some .recurring
  spent : ∀ c cue, (w.view p).cue c = some cue → cue.spent = true →
    (∃ cue₀, w.tables.cue c = some cue₀ ∧ cue₀.spent = true) ∨
    (fires = true ∧ w.store.locks (.cue c) = some p ∧ typeOf w.tables c = some .once ∧
      (w.view p).Served c)
  live : fires = true → ∀ e row, .insertExecution e row ∈ w.store.buf p →
    ∃ r, (w.view p).execution e = some r ∧ r.cueId = row.cueId ∧ r.status.ended = false

def noDebt : CueId → Prop := fun _ => False

section Owes

variable {fires : Bool} {debt debt' : CueId → Prop}

theorem Cue.spent_iff {cue : Cue} : cue.spent = true ↔
    cue.scheduleType = .once ∧ cue.status = .active ∧ cue.nextRun = none := by
  simp [Cue.spent, and_assoc]

theorem Owes.of_view (hv : w.view p = w.tables) (hb : w.store.buf p = []) :
    Owes p fires debt w where
  ended e r r' hr hno hr' hend := by
    rw [hv, hr] at hr'
    cases hr'
    rw [hno] at hend
    cases hend
  spent c cue hc hsp := by
    rw [hv] at hc
    exact .inl ⟨cue, hc, hsp⟩
  live _ e row hm := by
    rw [hb] at hm
    cases hm

theorem view_nil (hb : w.store.buf p = []) : w.view p = w.tables := by
  unfold World.view Store.view
  rw [hb]
  rfl

theorem Owes.of_nil (hb : w.store.buf p = []) : Owes p fires debt w := .of_view (view_nil hb) hb

theorem Owes.committed : Owes p fires debt (w.committed p) := .of_nil (Function.update_self _ _ _)

theorem Owes.mono (ho : Owes p fires debt w) (hd : ∀ c, debt c → debt' c) :
    Owes p fires debt' w where
  ended e r r' hr hno hr' hend := by
    rcases ho.ended e r r' hr hno hr' hend with h | h
    · exact .inl (hd _ h)
    · exact .inr h
  spent := ho.spent
  live := ho.live

/-- A recurring cue need not be closed. -/
theorem Owes.discharge {c : CueId} (ho : Owes p fires (· = c) w)
    (hrec : typeOf w.tables c = some .recurring) : Owes p fires noDebt w where
  ended e r r' hr hno hr' hend := by
    rcases ho.ended e r r' hr hno hr' hend with rfl | h
    · exact .inr (.inr hrec)
    · exact .inr h
  spent := ho.spent
  live := ho.live

theorem Served.kept {c : CueId} (hr : TendRely p w w') (hl : w.store.locks (.cue c) = some p)
    (htype : typeOf w.tables c = some .once) (h : (w.view p).Served c) :
    (w'.view p).Served c := by
  obtain ⟨e, r, he, rfl, hno⟩ := h
  by_cases hle : w.store.locks (.execution e) = some p
  · exact ⟨e, r, (hr.kept.execution_held hle).1.trans he, rfl, hno⟩
  · obtain ⟨hv, hv'⟩ := hr.kept.execution_free hle
    obtain ⟨r', hr', hc, hno'⟩ := hr.served e r hl htype (hv.symm.trans he) hno
    exact ⟨e, r', hv'.trans hr', hc, hno'⟩

theorem Owes.kept (ho : Owes p fires debt w) (hr : TendRely p w w') : Owes p fires debt w' where
  ended e r r' he hno hv hend := by
    by_cases hl : w.store.locks (.execution e) = some p
    · obtain ⟨hview, htab⟩ := hr.kept.execution_held hl
      rw [htab] at he
      rw [hview] at hv
      rcases ho.ended e r r' he hno hv hend with h | ⟨hlc, hcl⟩ | h
      · exact .inl h
      · refine .inr (.inl ⟨hr.kept.locks _ hlc, fun cue hc => hcl cue ?_⟩)
        rwa [hr.kept.view_cue hlc] at hc
      · exact .inr (.inr (hr.types e _ hl ⟨r, he, rfl⟩ h))
    · rw [(hr.kept.execution_free hl).2, he] at hv
      cases hv
      rw [hno] at hend
      cases hend
  spent c cue hc hsp := by
    by_cases hl : w.store.locks (.cue c) = some p
    · have hrow : w'.tables.cue c = w.tables.cue c := hr.kept.rows (.cue c) rfl hl
      rw [hr.kept.view_cue hl] at hc
      rcases ho.spent c cue hc hsp with ⟨cue₀, hc₀, hsp₀⟩ | ⟨hf, -, htype, hserved⟩
      · exact .inl ⟨cue₀, hrow.trans hc₀, hsp₀⟩
      · refine .inr ⟨hf, hr.kept.locks _ hl, ?_, Served.kept hr hl htype hserved⟩
        rw [typeOf, hrow]
        exact htype
    · rcases hr.kept.cue_cases c with ⟨hview, htab⟩ | hnow
      · have hfree : (w.view p).cue c = w.tables.cue c :=
          Store.view_row_free (S := schema) (k := Key.cue c) hl
        rw [hview, hfree, ← htab] at hc
        exact .inl ⟨cue, hc, hsp⟩
      · exact .inl ⟨cue, hnow ▸ hc, hsp⟩
  live hf e row hm := by
    rw [hr.kept.buf] at hm
    obtain ⟨r, he, hc, hno⟩ := ho.live hf e row hm
    have hl : w.store.locks (.execution e) = some p :=
      w.store.held p _ hm _ (by simp [schema, Write.keys])
    exact ⟨r, (hr.kept.execution_held hl).1.trans he, hc, hno⟩

/-- A transaction without debt may commit. -/
theorem Owes.cleared (ho : Owes p fires noDebt w) (hI : Tended w) : Cleared p w where
  noZombie c cue hc hsp := by
    rcases ho.spent c cue hc hsp with ⟨cue₀, hc₀, hsp₀⟩ | ⟨-, -, -, hserved⟩
    · obtain ⟨e, r, he, rfl, hno⟩ := hI.noZombie c cue₀ hc₀ hsp₀
      obtain ⟨r', he', hfix⟩ := (view_grows w p).execution he
      refine ⟨e, r', he', hfix.cueId, Bool.eq_false_iff.mpr fun hend => ?_⟩
      -- the cue of an execution that has ended is closed, or recurring
      rcases ho.ended e r r' he hno he' hend with h | ⟨-, hcl⟩ | hrec
      · exact h
      · exact hcl cue hc (Cue.spent_iff.mp hsp).2.1
      · simp [typeOf, hc₀, (Cue.spent_iff.mp hsp₀).1] at hrec
    · exact hserved
  served e r hl htype he hno := by
    obtain ⟨r', he', -⟩ := (view_grows w p).execution he
    refine ⟨r', he', Bool.eq_false_iff.mpr fun hend => ?_⟩
    rcases ho.ended e r r' he hno he' hend with h | ⟨hlc, -⟩ | hrec
    · exact h
    · exact hl hlc
    · rw [htype] at hrec
      cases hrec

/-- A statement that leaves the tables, the view and the buffer as they are. -/
theorem Owes.same (ho : Owes p fires debt w) (ht : w'.tables = w.tables)
    (hv : w'.view p = w.view p) (hb : w'.store.buf p = w.store.buf p)
    (hl : ∀ k, w.store.locks k = some p → w'.store.locks k = some p) : Owes p fires debt w' where
  ended e r r' he hno he' hend := by
    rw [ht] at he
    rw [hv] at he'
    rw [ht]
    rcases ho.ended e r r' he hno he' hend with h | ⟨hlc, hcl⟩ | hrec
    · exact .inl h
    · exact .inr (.inl ⟨hl _ hlc, by rwa [hv]⟩)
    · exact .inr (.inr hrec)
  spent c cue hc hsp := by
    rw [hv] at hc
    rw [ht, hv]
    rcases ho.spent c cue hc hsp with h | ⟨hf, hlc, hrest⟩
    · exact .inl h
    · exact .inr ⟨hf, hl _ hlc, hrest⟩
  live hf e row hm := by
    rw [hb] at hm
    rw [hv]
    exact ho.live hf e row hm

/-! ## Writes -/

variable {wr : Write} {s : Store schema Pid}

theorem buf_write (hwr : w.store.write p wr = some s) : s.buf p = wr :: w.store.buf p := by
  rw [(Store.write_eq hwr).2.1, Function.update_self]

/-- A statement that does not end executions beyond its debt. -/
theorem Owes.updateExecution {e : ExecId} {u : ExecUpdate} (ho : Owes p false debt w)
    (hwr : w.store.write p (.updateExecution e u) = some s) (hd : ∀ c, debt c → debt' c)
    (hu : ∀ r r', w.tables.execution e = some r → (w.view p).execution e = some r' →
      r.status.ended = false → (u.set r').status.ended = true →
      r'.status.ended = true ∨ debt' r.cueId ∨ typeOf w.tables r.cueId = some .recurring) :
    Owes p false debt' { w with store := s } := by
  have ht : World.tables { w with store := s } = w.tables := (Store.write_eq hwr).1
  have hv : World.view { w with store := s } p = Tables.apply (.updateExecution e u) (w.view p) :=
    view_write hwr
  have hcue : ∀ c, (World.view { w with store := s } p).cue c = (w.view p).cue c := fun c => by
    rw [hv, Tables.cue_apply]
  have old : ∀ e r r', w.tables.execution e = some r → r.status.ended = false →
      (w.view p).execution e = some r' → r'.status.ended = true → debt' r.cueId ∨
        Closed p r.cueId { w with store := s } ∨ typeOf w.tables r.cueId = some .recurring := by
    intro e r r' he hno he' hend
    rcases ho.ended e r r' he hno he' hend with h | ⟨hlc, hcl⟩ | h
    · exact .inl (hd _ h)
    · exact .inr (.inl ⟨holds_write hwr _ hlc, fun cue hc => hcl cue (hcue _ ▸ hc)⟩)
    · exact .inr (.inr h)
  refine ⟨fun e' r r' he hno he' hend => ?_, fun c cue hc hsp => ?_, nofun⟩
  · rw [ht] at he ⊢
    rw [hv, Tables.execution_apply] at he'
    dsimp only at he'
    split at he'
    · rename_i heq
      subst heq
      obtain ⟨r₀, hr₀, rfl⟩ := Option.map_eq_some_iff.mp he'
      rcases hu r r₀ he hr₀ hno hend with h | h | h
      · exact old e' r r₀ he hno hr₀ h
      · exact .inl h
      · exact .inr (.inr h)
    · exact old e' r r' he hno he' hend
  · rw [hcue] at hc
    rw [ht]
    rcases ho.spent c cue hc hsp with h | ⟨hf, -⟩
    · exact .inl h
    · cases hf

/-- A cue that the UPDATE leaves spent or active was so before. -/
def CueUpdate.Calm (u : CueUpdate) : Prop := ∀ cue, ((u.set cue).spent = true → cue.spent = true) ∧
  ((u.set cue).status = .active → cue.status = .active)

theorem Served.apply {t : Tables} {c : CueId} (h : t.Served c)
    (hex : ∀ e, (Tables.apply wr t).execution e = t.execution e) :
    (Tables.apply wr t).Served c := by
  obtain ⟨e, r, he, hc, hno⟩ := h
  exact ⟨e, r, (hex e).trans he, hc, hno⟩

/-- A statement on a cue that leaves the executions as they are. -/
theorem Owes.updateCue {c : CueId} {u : CueUpdate} (ho : Owes p fires debt w)
    (hwr : w.store.write p (.updateCue c u) = some s)
    (hact : ∀ cue, (u.set cue).status = .active → cue.status = .active)
    (hd : ∀ c', debt c' → debt' c' ∨ c' = c ∧ ∀ cue, (u.set cue).status ≠ .active)
    (hu : ∀ cue, (w.view p).cue c = some cue → (u.set cue).spent = true → cue.spent = true ∨
      (fires = true ∧ typeOf w.tables c = some .once ∧ (w.view p).Served c)) :
    Owes p fires debt' { w with store := s } := by
  have ht : World.tables { w with store := s } = w.tables := (Store.write_eq hwr).1
  have hv : World.view { w with store := s } p = Tables.apply (.updateCue c u) (w.view p) :=
    view_write hwr
  have hex : ∀ e, (Tables.apply (.updateCue c u) (w.view p)).execution e =
      (w.view p).execution e := fun e => Tables.execution_apply _ _ _
  have hcue : ∀ c', (World.view { w with store := s } p).cue c' =
      if c' = c then ((w.view p).cue c').map u.set else (w.view p).cue c' := fun c' => by
    rw [hv, Tables.cue_apply]
  have hlock : s.locks (.cue c) = some p := by
    rw [(Store.write_eq hwr).2.2.1, if_pos]
    exact List.mem_singleton_self _
  refine ⟨fun e r r' he hno he' hend => ?_, fun c' cue hc hsp => ?_, fun hf e row hm => ?_⟩
  · rw [ht] at he ⊢
    rw [hv, hex] at he'
    rcases ho.ended e r r' he hno he' hend with h | ⟨hlc, hcl⟩ | h
    · rcases hd _ h with h | ⟨rfl, hclose⟩
      · exact .inl h
      · refine .inr (.inl ⟨hlock, fun cue hc => ?_⟩)
        rw [hcue, if_pos rfl] at hc
        obtain ⟨cue₀, -, rfl⟩ := Option.map_eq_some_iff.mp hc
        exact hclose cue₀
    · refine .inr (.inl ⟨holds_write hwr _ hlc, fun cue hc => ?_⟩)
      rw [hcue] at hc
      split at hc
      · obtain ⟨cue₀, hc₀, rfl⟩ := Option.map_eq_some_iff.mp hc
        exact fun hst => hcl cue₀ hc₀ (hact cue₀ hst)
      · exact hcl cue hc
    · exact .inr (.inr h)
  · rw [hcue] at hc
    rw [ht, hv]
    have old : ∀ {c' cue}, (w.view p).cue c' = some cue → cue.spent = true →
        (∃ cue₀, w.tables.cue c' = some cue₀ ∧ cue₀.spent = true) ∨
        (fires = true ∧ s.locks (.cue c') = some p ∧ typeOf w.tables c' = some .once ∧
          (Tables.apply (.updateCue c u) (w.view p)).Served c') := by
      intro c' cue hc hsp
      rcases ho.spent c' cue hc hsp with h | ⟨hf, hlc, htype, hserved⟩
      · exact .inl h
      · exact .inr ⟨hf, holds_write hwr _ hlc, htype, Served.apply hserved hex⟩
    split at hc
    · rename_i heq
      subst heq
      obtain ⟨cue₀, hc₀, rfl⟩ := Option.map_eq_some_iff.mp hc
      rcases hu cue₀ hc₀ hsp with hsp₀ | ⟨hf, htype, hserved⟩
      · exact old hc₀ hsp₀
      · exact .inr ⟨hf, hlock, htype, Served.apply hserved hex⟩
    · exact old hc hsp
  · have hbuf : s.buf p = .updateCue c u :: w.store.buf p := buf_write hwr
    rw [hbuf] at hm
    rcases List.mem_cons.mp hm with heq | hm
    · cases heq
    · obtain ⟨r, hr, hrest⟩ := ho.live hf e row hm
      exact ⟨r, by rw [hv, hex, hr], hrest⟩

/-- The write adds rows or touches neither executions nor cues: a new execution is open, and a
new cue is not spent. -/
structure Adds (wr : Write) (t : Tables) : Prop where
  kept : ∀ e r, t.execution e = some r → (Tables.apply wr t).execution e = some r
  execution : ∀ e r, (Tables.apply wr t).execution e = some r → t.execution e = some r ∨
    (t.execution e = none ∧ r.status.ended = false)
  cue : ∀ c cue, (Tables.apply wr t).cue c = some cue → t.cue c = some cue ∨
    (t.cue c = none ∧ cue.spent = false)
  live : ∀ e row, wr = .insertExecution e row → (Tables.apply wr t).execution e = some row ∧
    row.status.ended = false

theorem Owes.adds (ho : Owes p fires debt w) (hI : Tended w)
    (hwr : w.store.write p wr = some s) (ha : Adds wr (w.view p)) :
    Owes p fires debt { w with store := s } := by
  have ht : World.tables { w with store := s } = w.tables := (Store.write_eq hwr).1
  have hv : World.view { w with store := s } p = Tables.apply wr (w.view p) := view_write hwr
  refine ⟨fun e r r' he hno he' hend => ?_, fun c cue hc hsp => ?_, fun hf e row hm => ?_⟩
  · rw [ht] at he ⊢
    rw [hv] at he'
    rcases ha.execution e r' he' with he' | ⟨-, hopen⟩
    · rcases ho.ended e r r' he hno he' hend with h | ⟨hlc, hcl⟩ | h
      · exact .inl h
      · refine .inr (.inl ⟨holds_write hwr _ hlc, fun cue hc => ?_⟩)
        rw [hv] at hc
        rcases ha.cue _ cue hc with hc | ⟨hnone, -⟩
        · exact hcl cue hc
        · -- the cue of an execution exists
          have hsome := (view_grows w p).follows.cue _ (hI.cues p e r' he')
          obtain ⟨r'', he'', hfix⟩ := (view_grows w p).execution he
          rw [he'] at he''
          cases he''
          rw [hfix.cueId, hnone] at hsome
          cases hsome
      · exact .inr (.inr h)
    · rw [hopen] at hend
      cases hend
  · rw [hv] at hc
    rw [ht, hv]
    rcases ha.cue c cue hc with hc | ⟨-, hno⟩
    · rcases ho.spent c cue hc hsp with h | ⟨hf, hlc, htype, e, r, he, hcue, hno⟩
      · exact .inl h
      · exact .inr ⟨hf, holds_write hwr _ hlc, htype, e, r, ha.kept e r he, hcue, hno⟩
    · rw [hno] at hsp
      cases hsp
  · have hbuf : s.buf p = wr :: w.store.buf p := buf_write hwr
    rw [hbuf] at hm
    rw [hv]
    rcases List.mem_cons.mp hm with heq | hm
    · obtain ⟨hrow, hopen⟩ := ha.live e row heq.symm
      exact ⟨row, hrow, rfl, hopen⟩
    · obtain ⟨r, hr, hrest⟩ := ho.live hf e row hm
      exact ⟨r, ha.kept e r hr, hrest⟩

theorem adds_insertExecution {t : Tables} {e : ExecId} {row : Execution}
    (hnone : t.execution e = none) (hopen : row.status.ended = false) :
    Adds (.insertExecution e row) t where
  kept e' r hr := by
    rw [Tables.execution_apply]
    simp [hr]
  execution e' r hr := by
    rw [Tables.execution_apply] at hr
    dsimp only at hr
    split at hr
    · rename_i heq
      subst heq
      rw [hnone, Option.none_or] at hr
      cases hr
      exact .inr ⟨hnone, hopen⟩
    · exact .inl hr
  cue c cue hc := by
    rw [Tables.cue_apply] at hc
    exact .inl hc
  live e' row' heq := by
    cases heq
    rw [Tables.execution_apply]
    exact ⟨by simp [hnone], hopen⟩

theorem adds_insertCue {t : Tables} {c : CueId} {row : Cue} (hrow : row.spent = false) :
    Adds (.insertCue c row) t where
  kept e r hr := by rwa [Tables.execution_apply]
  execution e r hr := by
    rw [Tables.execution_apply] at hr
    exact .inl hr
  cue c' cue hc := by
    rw [Tables.cue_apply] at hc
    dsimp only at hc
    split at hc
    · rcases Option.or_eq_some_iff.mp hc with hc | ⟨hnone, hc⟩
      · exact .inl hc
      · cases hc
        exact .inr ⟨hnone, hrow⟩
    · exact .inl hc
  live _ _ heq := by cases heq

/-- A write to the outbox or to the workers. -/
theorem adds_other {t : Tables} (he : ∀ e, (Tables.apply wr t).execution e = t.execution e)
    (hc : ∀ c, (Tables.apply wr t).cue c = t.cue c)
    (hne : ∀ e row, wr ≠ .insertExecution e row) : Adds wr t where
  kept e r hr := by rwa [he]
  execution e r hr := .inl (he e ▸ hr)
  cue c cue hcue := .inl (hc c ▸ hcue)
  live e row heq := absurd heq (hne e row)

theorem adds_insertOutbox {t : Tables} {n : OutboxId} {row : OutboxRow} :
    Adds (.insertOutbox n row) t :=
  adds_other (fun e => by rw [Tables.execution_apply]) (fun c => by rw [Tables.cue_apply])
    fun _ _ heq => by cases heq

theorem adds_updateOutbox {t : Tables} {n : OutboxId} {u : OutboxUpdate} :
    Adds (.updateOutbox n u) t :=
  adds_other (fun e => by rw [Tables.execution_apply]) (fun c => by rw [Tables.cue_apply])
    fun _ _ heq => by cases heq

theorem adds_putWorker {t : Tables} {k : UserId × WorkerId} {row : Worker} :
    Adds (.putWorker k row) t :=
  adds_other (fun e => by rw [Tables.execution_apply]) (fun c => by rw [Tables.cue_apply])
    fun _ _ heq => by cases heq

theorem adds_deleteWorker {t : Tables} {k : UserId × WorkerId} : Adds (.deleteWorker k) t :=
  adds_other (fun e => by rw [Tables.execution_apply]) (fun c => by rw [Tables.cue_apply])
    fun _ _ heq => by cases heq

end Owes

end CueApi.Scheduler
