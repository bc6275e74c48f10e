import CueApi.Scheduler.Cues
import CueApi.Scheduler.Tending

/-! The calls keep `Tended`: every transaction that ends the execution of a one-time cue closes
the cue before it commits, the limit branch of `deliver_webhook_task` apart. -/

namespace CueApi.Scheduler

open ReadCommitted Interleaving Prog

variable {env : Env} {p q : Pid} {w w' : World} {C : World → World → Prop} {α β : Type}

/-! ## The conditions on statements -/

def insertsFor (c : CueId) : Write → Bool
  | .insertExecution _ row => row.cueId = c
  | _ => false

/-- The open executions of a cue. -/
def Tables.openOf (t : Tables) (c : CueId) : List ExecId :=
  keysWhere t.executions fun _ r => r.cueId = c && !r.status.ended

/-- Where the poller moves on a one-time cue without an INSERT, since the slot is taken, the cue
has an open execution. -/
def slotOpen (p : Pid) (w w' : World) : Bool :=
  match w'.store.buf p with
  | .updateCue c (.advance none _) :: ws => ws ≠ w.store.buf p ||
      typeOf (w.view p) c ≠ some .once || ws.any (insertsFor c) || (w.view p).openOf c ≠ []
  | _ => true

/-- Where the limit branch commits, the execution is not one of a one-time cue. -/
def limitsRecurring (p : Pid) (w w' : World) : Bool :=
  match w.store.buf p, w'.store.buf p with
  | .updateExecution e (.limitReached _) :: _, [] =>
      ((w.tables.execution e).bind fun r => typeOf w.tables r.cueId) ≠ some .once
  | _, _ => true

/-! ## Statements -/

/-- `SafeIf` for `Tended`. -/
abbrev Tends (C : World → World → Prop) (p : Pid) (Q : α → World → Prop) (m : Program α)
    (w : World) : Prop := SafeIf C Tended TendRely p Q m w

theorem tends_step {K : World → Prop} {act : World → Answer → Option (β × World)}
    {Q : β → World → Prop} (hK : ∀ w w', K w → TendRely p w w' → K w') (hw : K w)
    (h : ∀ w₁ a r w₂, Tended w₁ → K w₁ → act w₁ a = some (r, w₂) → C w₁ w₂ →
      (Tended w₂ ∧ ∀ q, q ≠ p → TendRely q w₁ w₂) ∧ Q r w₂) : Tends C p Q (.step act) w := by
  apply SafeIf.step
  intro w₁ hr hI a r w₂ hs hc
  obtain ⟨⟨hI₂, hR⟩, hQ⟩ := h w₁ a r w₂ hI (hK w w₁ hw hr) hs hc
  exact ⟨hI₂, hR, hQ⟩

/-- A fact that lasts until `p` commits. -/
structure Stays (p : Pid) (F : World → Prop) : Prop where
  rely : ∀ w w', F w → TendRely p w w' → F w'
  own : ∀ w w', F w → w'.tables = w.tables →
    (∀ k, w.store.locks k = some p → w'.store.locks k = some p) →
    (∀ wr ∈ w.store.buf p, wr ∈ w'.store.buf p) → F w'

theorem Stays.and {F G : World → Prop} (hF : Stays p F) (hG : Stays p G) :
    Stays p fun w => F w ∧ G w where
  rely w w' h hr := ⟨hF.rely w w' h.1 hr, hG.rely w w' h.2 hr⟩
  own w w' h ht hl hb := ⟨hF.own w w' h.1 ht hl hb, hG.own w w' h.2 ht hl hb⟩

/-- A fact on the rows that are there. -/
theorem stays_follows {F : World → Prop}
    (hF : ∀ w w', F w → Follows w.tables w'.tables → F w') : Stays p F where
  rely w w' h hr := hF w w' h hr.follows
  own w w' h ht _ _ := hF w w' h (by rw [ht]; exact .refl _)

theorem stays_has (e : ExecId) (c : CueId) : Stays p fun w => w.tables.Has e c :=
  stays_follows fun _ _ h hf => hf.has e c h

theorem stays_written (wr : Write) : Stays p fun w => wr ∈ w.store.buf p where
  rely w w' h hr := by rwa [hr.kept.buf]
  own w w' h _ _ hb := hb wr h

section Rules

variable {F : World → Prop} {fires : Bool} {debt debt' : CueId → Prop}

/-- The transaction of `p` is open. -/
def Amid (p : Pid) (fires : Bool) (debt : CueId → Prop) (F : World → Prop) (w : World) : Prop :=
  Owes p fires debt w ∧ F w

theorem Amid.kept (hF : Stays p F) (w w' : World) (ho : Amid p fires debt F w)
    (hr : TendRely p w w') : Amid p fires debt F w' := ⟨ho.1.kept hr, hF.rely w w' ho.2 hr⟩

theorem tends_reads {m : Program α} (hm : Reads m) (hF : Stays p F)
    (hw : Amid p fires debt F w) : Tends C p (fun _ w => Amid p fires debt F w) m w := by
  refine SafeIf.of_always (K := Amid p fires debt F) hm (Amid.kept hF) ?_ hw
  rintro w w' hI hw rfl _
  exact ⟨hI, hw, fun q _ => .refl q w'⟩

theorem tends_select {f : Tables → β} {Q : β → World → Prop} (hF : Stays p F)
    (hw : Amid p fires debt F w)
    (h : ∀ w, Tended w → Amid p fires debt F w → Q (f (w.view p)) w) :
    Tends C p Q (select p f) w := by
  refine tends_step (Amid.kept hF) hw fun w₁ a r w₂ hI hw hs _ => ?_
  cases hs
  exact ⟨⟨hI, fun q _ => .refl q _⟩, h w₁ hI hw⟩

theorem Stays.write {wr : Write} {s : Store schema Pid} (hF : Stays p F) (h : F w)
    (hwr : w.store.write p wr = some s) : F { w with store := s } :=
  hF.own w _ h (Store.write_eq hwr).1 (holds_write hwr) fun wr' hwr' => by
    change wr' ∈ s.buf p
    rw [buf_write hwr]
    exact List.mem_cons_of_mem _ hwr'

theorem tends_updateExecutionById {e : ExecId} {u : ExecUpdate} (hF : Stays p F)
    (hw : Amid p false debt F w) (hd : ∀ c, debt c → debt' c)
    (hu : ∀ w r r', F w → w.tables.execution e = some r → (u.set r').status.ended = true →
      r'.status.ended = true ∨ debt' r.cueId) :
    Tends C p (fun _ w => Amid p false debt' F w) (updateExecutionById p e u) w := by
  refine tends_step (Amid.kept hF) hw fun w₁ a r w₂ hI hw hs _ => ?_
  have unmatched : ∀ ev, ev = .unmatched p e u → (Tended (w₁.log ev) ∧
      ∀ q, q ≠ p → TendRely q w₁ (w₁.log ev)) ∧ Amid p false debt' F (w₁.log ev) := by
    rintro ev rfl
    have hsame : Owes p false debt (w₁.log (.unmatched p e u)) :=
      hw.1.same rfl rfl rfl fun _ hk => hk
    refine ⟨hI.log rfl (fun j hj => by cases hj), hsame.mono hd, ?_⟩
    exact hF.own w₁ _ hw.2 rfl (fun _ hk => hk) fun _ hwr => hwr
  split at hs
  · split at hs
    · obtain ⟨s, hwr, heq⟩ := Option.map_eq_some_iff.mp hs
      cases heq
      refine ⟨hI.write hwr trivial, hw.1.updateExecution hwr hd ?_, hF.write hw.2 hwr⟩
      intro r r' hr _ _ hend
      rcases hu w₁ r r' hw.2 hr hend with h | h
      · exact .inl h
      · exact .inr (.inl h)
    · cases hs
      exact unmatched _ rfl
  · cases hs
    exact unmatched _ rfl

theorem tends_updateCue {c : CueId} {u : CueUpdate} (hF : Stays p F) (hw : Amid p fires debt F w)
    (hu : u.Calm) (hd : ∀ c', debt c' → debt' c' ∨ c' = c ∧ ∀ cue, (u.set cue).status ≠ .active) :
    Tends C p (fun _ w => Amid p fires debt' F w) (updateCue p c u) w := by
  refine tends_step (Amid.kept hF) hw fun w₁ a r w₂ hI hw hs _ => ?_
  obtain ⟨s, hwr, heq⟩ := Option.map_eq_some_iff.mp hs
  cases heq
  refine ⟨hI.write hwr trivial, ?_, hF.write hw.2 hwr⟩
  exact hw.1.updateCue hwr (fun cue => (hu cue).2) hd fun cue _ hsp => .inl ((hu cue).1 hsp)

theorem tends_insertOutbox {row : OutboxRow} (hF : Stays p F) (hw : Amid p fires debt F w)
    (hrow : ∀ w, Amid p fires debt F w → row.payload.Of (w.view p)) :
    Tends C p (fun _ w => Amid p fires debt F w) (insertOutbox p row) w := by
  refine tends_step (Amid.kept hF) hw fun w₁ a r w₂ hI hw hs _ => ?_
  split at hs
  · split at hs
    · obtain ⟨s, hwr, heq⟩ := Option.map_eq_some_iff.mp hs
      cases heq
      exact ⟨hI.write hwr (hrow w₁ hw), hw.1.adds hI hwr adds_insertOutbox, hF.write hw.2 hwr⟩
    · cases hs
  · cases hs

theorem tends_insertExecution {row : Execution} (hF : Stays p F) (hw : Amid p fires debt F w)
    (hrow : ∀ w, F w → (w.tables.cue row.cueId).isSome = true)
    (hopen : row.status.ended = false) :
    Tends C p (fun e? w => Amid p fires debt F w ∧
      ∀ e, e? = some e → .insertExecution e row ∈ w.store.buf p) (insertExecution p row) w := by
  refine tends_step (Amid.kept hF) hw fun w₁ a r w₂ hI hw hs _ => ?_
  split at hs
  · rename_i e
    dsimp only at hs
    split at hs
    · rename_i hfree
      split at hs
      · cases hs
        exact ⟨⟨hI, fun q _ => .refl q _⟩, hw, nofun⟩
      · obtain ⟨s, hwr, heq⟩ := Option.map_eq_some_iff.mp hs
        cases heq
        refine ⟨hI.write hwr (hrow w₁ hw.2), ⟨?_, hF.write hw.2 hwr⟩, ?_⟩
        · exact hw.1.adds hI hwr (adds_insertExecution hfree.1 hopen)
        · rintro e ⟨⟩
          rw [buf_write hwr]
          exact List.mem_cons_self ..
    · cases hs
  · cases hs

theorem tends_commit (hF : Stays p F) (hw : Amid p fires noDebt F w) :
    Tends C p (fun _ w => Owes p fires noDebt w) (commit p) w := by
  refine tends_step (Amid.kept hF) hw fun w₁ a r w₂ hI hw hs _ => ?_
  cases hs
  exact ⟨hI.commit (hw.1.cleared hI), Owes.committed⟩

end Rules

/-! ## Calls that end nothing -/

theorem CueUpdate.calm_of {u : CueUpdate}
    (hu : ∀ next now, u ≠ .advance next now) (hf : ∀ now, u ≠ .finish .active now) : u.Calm := by
  intro cue
  cases u with
  | advance next now => exact absurd rfl (hu next now)
  | finish status now =>
    have hne : status ≠ .active := by
      rintro rfl
      exact hf now rfl
    simp [CueUpdate.set, Cue.spent, hne]
  | pause now => simp [CueUpdate.set, Cue.spent]
  | incrementFired began => exact ⟨id, id⟩
  | incrementRun began => exact ⟨id, id⟩
  | ran now => exact ⟨id, id⟩
  | outcomeRun now => exact ⟨id, id⟩

/-- The UPDATE ends no execution. -/
def ExecUpdate.Continues (u : ExecUpdate) : Prop :=
  ∀ r, (u.set r).status.ended = true → r.status.ended = true

/-- Writes that no cue waits for. -/
def harmless : Write → Prop
  | .updateExecution _ u => u.Continues
  | .updateCue _ u => u.Calm
  | .insertCue _ row => row.Dated ∧ row.spent = false
  | .putWorker _ _ | .deleteWorker _ => True
  | _ => False

theorem harmless_write {wr : Write} {s : Store schema Pid} (hw : harmless wr) (hI : Tended w)
    (ho : Owes p false noDebt w) (hwr : w.store.write p wr = some s) :
    Admits p w wr ∧ Owes p false noDebt { w with store := s } := by
  cases wr with
  | updateExecution e u =>
    exact ⟨trivial, ho.updateExecution hwr (fun _ h => h) fun r r' _ _ _ hend => .inl (hw r' hend)⟩
  | updateCue c u =>
    refine ⟨trivial, ho.updateCue hwr (fun cue => (hw cue).2) (fun _ h => .inl h) ?_⟩
    exact fun cue _ hsp => .inl ((hw cue).1 hsp)
  | insertCue c row => exact ⟨hw.1, ho.adds hI hwr (adds_insertCue hw.2)⟩
  | putWorker k row => exact ⟨trivial, ho.adds hI hwr adds_putWorker⟩
  | deleteWorker k => exact ⟨trivial, ho.adds hI hwr adds_deleteWorker⟩
  | insertExecution e row => exact hw.elim
  | insertOutbox n row => exact hw.elim
  | updateOutbox n u => exact hw.elim

theorem Stmt.follows {W : Write → Prop} (hs : Stmt p W w w') : Follows w.tables w'.tables := by
  cases hs with
  | read => exact .refl _
  | logged ev _ _ _ _ _ => exact .refl _
  | locked ks s hl =>
    rw [show World.tables { w with store := s } = w.tables from (Store.lock_eq hl).1]
    exact .refl _
  | wrote wr s _ hwr =>
    rw [show World.tables { w with store := s } = w.tables from (Store.write_eq hwr).1]
    exact .refl _
  | committed => exact (view_grows w p).follows

theorem tended_harmless (hI : Tended w) (ho : Owes p false noDebt w) (hs : Stmt p harmless w w') :
    Tended w' ∧ Owes p false noDebt w' ∧ ∀ q, q ≠ p → TendRely q w w' := by
  cases hs with
  | read => exact ⟨hI, ho, fun q _ => .refl q w⟩
  | logged ev hp hb _ _ hn =>
    have hjob : ∀ j, ev.job? = some j → j.payload.Of w.tables := by
      intro j hj
      cases ev with
      | began q call => exact absurd rfl (hb q call)
      | duplicated j' => cases hp
      | enqueued q n j' => exact (hn q n j' rfl).elim
      | commit q time ws => cases hj
      | unmatched q e u => cases hj
      | attempted q e n => cases hj
      | posted q e n sent => cases hj
      | ended q how => cases hj
    obtain ⟨hI', hR⟩ := hI.log hp hjob
    exact ⟨hI', ho.same rfl rfl rfl fun _ hk => hk, hR⟩
  | locked ks s hl =>
    obtain ⟨ht, hbuf, hlocks, -⟩ := Store.lock_eq hl
    obtain ⟨hI', hR⟩ := hI.lock hl
    refine ⟨hI', ho.same ht (view_lock hl) (congrFun hbuf p) fun k hk => ?_, hR⟩
    change s.locks k = some p
    rw [hlocks]
    split
    · rfl
    · exact hk
  | wrote wr s hw hwr =>
    obtain ⟨ha, ho'⟩ := harmless_write hw hI ho hwr
    obtain ⟨hI', hR⟩ := hI.write hwr ha
    exact ⟨hI', ho', hR⟩
  | committed =>
    obtain ⟨hI', hR⟩ := hI.commit (ho.cleared hI)
    exact ⟨hI', Owes.committed, hR⟩

theorem tends_harmless {m : Program α} {F : World → Prop} (hm : Stmts p harmless m)
    (hF : ∀ w w', F w → Follows w.tables w'.tables → F w') (hw : Amid p false noDebt F w) :
    Tends C p (fun _ w => Amid p false noDebt F w) m w := by
  refine SafeIf.of_always (K := Amid p false noDebt F) hm (Amid.kept (stays_follows hF)) ?_ hw
  intro w w' hI hw hs _
  obtain ⟨hI', ho', hR⟩ := tended_harmless hI hw.1 hs
  exact ⟨hI', ⟨ho', hF w w' hw.2 hs.follows⟩, hR⟩

theorem tends_only_harmless {m : Program α} (hm : Stmts p harmless m)
    (ho : Owes p false noDebt w) : Tends C p (fun _ _ => True) m w :=
  (tends_harmless (F := fun _ => True) hm (fun _ _ _ _ => trivial) ⟨ho, trivial⟩).weaken
    fun _ _ _ => trivial

/-- The calls whose every write is harmless. -/
def Call.quiet : Call → Bool
  | .claimNextExecution _ _ | .claimExecution _ _ _ | .executionHeartbeat _ _ _ | .heartbeat _ _ _
  | .deleteWorker _ _ | .recoverStaleWorkerClaims => true
  | _ => false

theorem quiet_harmless {call : Call} {wr : Write} (hq : call.quiet = true)
    (hw : call.issues wr) : harmless wr := by
  have hkind := hw.1
  cases wr with
  | updateExecution e u =>
    cases u with
    | workerClaim endpoint worker began now => exact fun r h => by cases h
    | heartbeat now => exact fun r h => h
    | resetClaim seen now => exact fun r h => by cases h
    | _ => cases call <;> simp [Call.quiet, Call.kinds, Write.kind] at hq hkind
  | putWorker k row => trivial
  | deleteWorker k => trivial
  | updateCue c u => cases call <;> cases u <;> simp [Call.quiet, Call.kinds, Write.kind] at hq hkind
  | _ => cases call <;> simp [Call.quiet, Call.kinds, Write.kind] at hq hkind

theorem cueRow_harmless {user : UserId} {data : CueCreate} {nextRun began now : Time}
    (hv : validateCue env data now = some (.ok nextRun)) :
    (cueRow user data nextRun began).Dated ∧ (cueRow user data nextRun began).spent = false := by
  refine ⟨?_, by simp [Cue.spent, cueRow]⟩
  have hfirst := firstRun_of_validateCue hv
  unfold firstRun at hfirst
  dsimp only at hfirst
  split at hfirst
  · rename_i htype
    simp [Cue.Dated, cueRow, htype]
  · rename_i htype
    split at hfirst
    · cases hfirst
    · rename_i d hat
      simp [Cue.Dated, cueRow, htype, hat]
  · cases hfirst

theorem stmts_createCue_harmless {user : UserId} {data : CueCreate} :
    Stmts p harmless (createCue env p user data) := by
  refine stmts_clock.bind fun began => (stmts_select _).bind fun named => ?_
  split
  · trivial
  · refine (stmts_select _).bind fun activeCount => ?_
    dsimp only
    split
    · trivial
    · refine stmts_clock.bind fun now => ?_
      split
      · trivial
      · trivial
      · rename_i nextRun hv
        refine (stmts_insertCue fun c => cueRow_harmless hv).bind fun inserted => ?_
        split
        · trivial
        · exact stmts_commit.bind fun _ => trivial

/-! ## Calls that fire -/

theorem idle_kept (w w' : World) (hb : w.store.buf p = []) (hr : TendRely p w w') :
    w'.store.buf p = [] := hr.kept.buf.trans hb

theorem tends_idle {m : Program α} (hm : Reads m) (hb : w.store.buf p = []) :
    Tends C p (fun _ w => w.store.buf p = []) m w := by
  refine SafeIf.of_always (K := fun w => w.store.buf p = []) hm idle_kept ?_ hb
  rintro w w' hI hb rfl _
  exact ⟨hI, hb, fun q _ => .refl q w'⟩

theorem tends_idle_select {f : Tables → β} {Q : β → World → Prop} (hb : w.store.buf p = [])
    (h : ∀ w, w.store.buf p = [] → Q (f w.tables) w) : Tends C p Q (select p f) w := by
  refine tends_step (K := fun w => w.store.buf p = []) idle_kept hb fun w₁ a r w₂ hI hb hs _ => ?_
  cases hs
  rw [view_nil hb]
  exact ⟨⟨hI, fun q _ => .refl q _⟩, h w₁ hb⟩

/-- The first SELECT … FOR UPDATE of a transaction. -/
theorem tends_idle_selectRowsForUpdate {V : Type} {tbl : Tables → Table Nat V} {key : Nat → Key}
    {wh : Tables → V → Bool} {order : V → Time} {limit : Nat} {Q : List (Nat × V) → World → Prop}
    (hb : w.store.buf p = [])
    (h : ∀ w xs, Tended w → w.store.buf p = [] → (∀ x ∈ xs, (tbl w.tables).lookup x.1 = some x.2 ∧
      wh w.tables x.2 = true ∧ w.store.locks (key x.1) = some p) → Q xs w) :
    Tends C p Q (selectRowsForUpdate p tbl key wh order limit) w := by
  refine safeIf_selectRowsForUpdate (fun w ks s hI hl => hI.lock hl) ?_
  intro w₁ s xs hr hI hbuf hxs
  have hb' : s.buf p = [] := hbuf.trans (idle_kept w w₁ hb hr)
  rw [view_nil (w := { w₁ with store := s }) hb'] at hxs
  exact h _ xs hI hb' hxs

theorem stays_cue (c : CueId) : Stays p fun w => (w.tables.cue c).isSome = true :=
  stays_follows fun _ _ h hf => hf.cue c h

/-- The execution that `p` has inserted. -/
theorem Owes.has_inserted {debt : CueId → Prop} {e : ExecId} {row : Execution}
    (ho : Owes p true debt w) (hm : .insertExecution e row ∈ w.store.buf p) :
    (w.view p).Has e row.cueId := by
  obtain ⟨r, hr, hc, -⟩ := ho.live rfl e row hm
  exact ⟨r, hr, hc⟩

theorem tends_trigger {user : UserId} {c : CueId} {cue : Cue} {source : Trigger}
    {s began : Time} {scheduledAt : Option Time} {metadata : Option Json}
    (hw : Amid p true noDebt (fun w => (w.tables.cue c).isSome = true) w) :
    Tends C p (fun _ _ => True)
      (trigger env p user c cue source s began scheduledAt metadata) w := by
  refine SafeIf.bind (tends_insertExecution (stays_cue c) hw (fun _ h => h) rfl)
    fun e? w hw => ?_
  obtain ⟨hw, hins⟩ := hw
  split
  · trivial
  · rename_i e
    split
    · refine SafeIf.bind (tends_insertOutbox ((stays_cue c).and (stays_written _))
        ⟨hw.1, hw.2, hins e rfl⟩ fun w hw => hw.1.has_inserted hw.2.2) fun _ w hw => ?_
      exact SafeIf.bind (tends_commit ((stays_cue c).and (stays_written _)) hw) fun _ _ _ => trivial
    · exact SafeIf.bind (tends_commit (stays_cue c) hw) fun _ _ _ => trivial

theorem reads_buildIpcDeliveryMetadata : Reads buildIpcDeliveryMetadata :=
  Always.step fun w a _ _ _ hs => by
    split at hs
    · cases hs
      rfl
    · cases hs
      rfl
    · cases hs

theorem tends_fireCue {user : UserId} {c : CueId} {sendAt : Option DateTime}
    (hb : w.store.buf p = []) :
    Tends C p (fun _ _ => True) (fireCue env p user c sendAt) w := by
  have fire : ∀ {w cue scheduledFor began scheduledAt},
      Amid p true noDebt (fun w => (w.tables.cue c).isSome = true) w →
      Tends C p (fun _ _ => True) (buildIpcDeliveryMetadata >>= fun metadata =>
        trigger env p user c cue .manualFire scheduledFor began scheduledAt metadata) w :=
    fun hw => SafeIf.bind (tends_reads reads_buildIpcDeliveryMetadata (stays_cue c) hw)
      fun _ _ hw => tends_trigger hw
  refine SafeIf.bind (tends_idle reads_clock hb) fun began w hb => ?_
  refine SafeIf.bind (Q := fun cue? w => w.store.buf p = [] ∧
    ∀ cue, cue? = some cue → (w.tables.cue c).isSome = true) ?_ fun cue? w hw => ?_
  · refine tends_idle_select hb fun w hb => ⟨hb, fun cue hcue => ?_⟩
    rw [(Option.filter_eq_some_iff.mp hcue).1]
    rfl
  obtain ⟨hb, hcue⟩ := hw
  split
  · trivial
  · rename_i cue
    have hw : Amid p true noDebt (fun w => (w.tables.cue c).isSome = true) w :=
      ⟨Owes.of_nil hb, hcue cue rfl⟩
    refine SafeIf.bind (tends_reads reads_clock (stays_cue c) hw) fun now w hw => ?_
    split
    · split
      · exact fire hw
      · trivial
    · exact fire hw

theorem tends_replayExecution {user : UserId} {e : ExecId} (hb : w.store.buf p = []) :
    Tends C p (fun _ _ => True) (replayExecution env p user e) w := by
  refine SafeIf.bind (tends_idle reads_clock hb) fun began w hb => ?_
  refine SafeIf.bind (Q := fun row? w => w.store.buf p = [] ∧
    ∀ r cue, row? = some (r, cue) → (w.tables.cue r.cueId).isSome = true) ?_
    fun row? w hw => ?_
  · refine tends_idle_select hb fun w hb => ⟨hb, fun r cue hrow => ?_⟩
    obtain ⟨r', -, hrow⟩ := Option.bind_eq_some_iff.mp hrow
    obtain ⟨cue', hcue', heq⟩ := Option.map_eq_some_iff.mp hrow
    cases heq
    rw [(Option.filter_eq_some_iff.mp hcue').1]
    rfl
  obtain ⟨hb, hcue⟩ := hw
  split
  · trivial
  · rename_i r cue
    split
    · have hw : Amid p true noDebt (fun w => (w.tables.cue r.cueId).isSome = true) w :=
        ⟨Owes.of_nil hb, hcue r cue rfl⟩
      refine SafeIf.bind (tends_reads reads_clock (stays_cue _) hw) fun now w hw => ?_
      exact tends_trigger hw
    · trivial

/-! ## The poller -/

theorem served_of_openOf {t : Tables} {c : CueId} (h : t.openOf c ≠ []) : t.Served c := by
  obtain ⟨e, he⟩ := List.exists_mem_of_ne_nil _ h
  obtain ⟨r, hr, hwh⟩ := (mem_keysWhere _ _ _).mp he
  rw [Bool.and_eq_true, decide_eq_true_eq, Bool.not_eq_true'] at hwh
  exact ⟨e, r, hr, hwh.1, hwh.2⟩

/-- A fact on the rows of a list. -/
theorem stays_all {V : Type} {P : V → World → Prop} (xs : List V) (hP : ∀ x, Stays p (P x)) :
    Stays p fun w => ∀ x ∈ xs, P x w where
  rely w w' h hr x hx := (hP x).rely w w' (h x hx) hr
  own w w' h ht hl hb x hx := (hP x).own w w' (h x hx) ht hl hb

section Poller

variable {F : World → Prop}

theorem tends_advance {c : CueId} {next : Option Time} {now : Time}
    (hC : ∀ w w', C w w' → slotOpen p w w' = true) (hF : Stays p F)
    (hc : ∀ w, F w → (w.tables.cue c).isSome = true) (hw : Amid p true noDebt F w) :
    Tends C p (fun _ w => Amid p true noDebt F w) (updateCue p c (.advance next now)) w := by
  refine tends_step (Amid.kept hF) hw fun w₁ a r w₂ hI hw hs hcond => ?_
  obtain ⟨s, hwr, heq⟩ := Option.map_eq_some_iff.mp hs
  cases heq
  refine ⟨hI.write hwr trivial, ?_, hF.write hw.2 hwr⟩
  refine hw.1.updateCue hwr (fun _ h => h) (fun _ h => .inl h) fun cue hcue hsp => ?_
  obtain ⟨honce, -, hnone⟩ := Cue.spent_iff.mp hsp
  have hview : typeOf (w₁.view p) c = some .once := by
    rw [typeOf, hcue, Option.map_some]
    exact congrArg some honce
  have htype : typeOf w₁.tables c = some .once := by
    obtain ⟨cue₀, hcue₀⟩ := Option.isSome_iff_exists.mp (hc w₁ hw.2)
    have hgrow : typeOf w₁.tables c = some cue₀.scheduleType := by rw [typeOf, hcue₀]; rfl
    rw [hgrow, ← (view_grows w₁ p).typeOf hgrow, hview]
  refine .inr ⟨rfl, htype, ?_⟩
  have hnext : next = none := hnone
  subst hnext
  have hbuf : s.buf p = .updateCue c (.advance none now) :: w₁.store.buf p := buf_write hwr
  have hslot := hC _ _ hcond
  simp only [slotOpen, hbuf, hview, ne_eq, not_true_eq_false, decide_false, Bool.false_or,
    Bool.or_eq_true, List.any_eq_true, decide_eq_true_eq] at hslot
  rcases hslot with ⟨wr, hmem, hins⟩ | hopen
  · -- the execution that this transaction has inserted
    cases wr with
    | insertExecution e row =>
      obtain ⟨r, hr, hrc, hno⟩ := hw.1.live rfl e row hmem
      exact ⟨e, r, hr, hrc.trans (of_decide_eq_true hins), hno⟩
    | _ => cases hins
  · exact served_of_openOf hopen

theorem tends_moveOn {now s : Time} {c : CueId} {cue : Cue}
    (hC : ∀ w w', C w w' → slotOpen p w w' = true) (hF : Stays p F)
    (hc : ∀ w, F w → (w.tables.cue c).isSome = true) (hw : Amid p true noDebt F w) :
    Tends C p (fun _ w => Amid p true noDebt F w) (moveOn env p now c cue s) w := by
  unfold moveOn
  split
  · trivial
  · exact tends_advance hC hF hc hw

theorem tends_processCue {now began : Time} {c : CueId} {cue : Cue}
    (hC : ∀ w w', C w w' → slotOpen p w w' = true) (hF : Stays p F)
    (hc : ∀ w, F w → (w.tables.cue c).isSome = true) (hw : Amid p true noDebt F w) :
    Tends C p (fun _ w => Amid p true noDebt F w) (processCue env p now began (c, cue)) w := by
  unfold processCue
  dsimp only
  split
  · trivial
  · rename_i s hs
    have move : ∀ {w}, Amid p true noDebt F w →
        Tends C p (fun _ w => Amid p true noDebt F w) (moveOn env p now c cue s) w :=
      tends_moveOn hC hF hc
    refine SafeIf.bind (tends_insertExecution hF hw hc rfl) fun inserted w hw => ?_
    obtain ⟨hw, hins⟩ := hw
    split
    · rename_i e
      have hF' := hF.and (stays_written (p := p)
        (.insertExecution e (firedExecution c s began)))
      have hcalm : (CueUpdate.incrementFired began).Calm := fun _ => ⟨id, id⟩
      refine SafeIf.bind (tends_updateCue hF' ⟨hw.1, hw.2, hins e rfl⟩ hcalm fun _ h => .inl h)
        fun _ w hw => ?_
      split
      · exact move ⟨hw.1, hw.2.1⟩
      · refine SafeIf.bind (tends_insertOutbox hF' hw fun w hw => ?_) fun _ w hw => ?_
        · exact hw.1.has_inserted hw.2.2
        · exact move ⟨hw.1, hw.2.1⟩
    · exact move hw

/-- A loop over rows that keeps the transaction open. -/
theorem tends_mapEach {fires : Bool} {f : α → Program β} {xs : List α}
    (hf : ∀ x ∈ xs, ∀ w, Amid p fires noDebt F w →
      Tends C p (fun _ w => Amid p fires noDebt F w) (f x) w) (hw : Amid p fires noDebt F w) :
    Tends C p (fun _ w => Amid p fires noDebt F w) (mapEach f xs) w := by
  have hloop : Tends C p (fun _ w => (∀ x ∈ ([] : List α), x ∈ xs) ∧ Amid p fires noDebt F w)
      (mapEach f xs) w := by
    refine SafeIf.mapEach (J := fun _ todo w => (∀ x ∈ todo, x ∈ xs) ∧ Amid p fires noDebt F w)
      (fun _ x todo w h => ?_) [] ⟨fun _ hx => hx, hw⟩
    exact (hf x (h.1 x (by simp)) w h.2).weaken fun _ _ hw =>
      ⟨fun y hy => h.1 y (List.mem_cons_of_mem _ hy), hw⟩
  exact hloop.weaken fun _ _ h => h.2

end Poller

theorem tends_processCueBatch (hC : ∀ w w', C w w' → slotOpen p w w' = true)
    (hb : w.store.buf p = []) : Tends C p (fun _ _ => True) (processCueBatch env p) w := by
  refine SafeIf.bind (tends_idle reads_clock hb) fun now w hb => ?_
  refine SafeIf.bind (tends_idle reads_clock hb) fun began w hb => ?_
  refine SafeIf.bind (Q := fun due w => Amid p true noDebt (fun w => ∀ x ∈ due,
    (w.tables.cue x.1).isSome = true) w) ?_ fun due w hw => ?_
  · refine tends_idle_selectRowsForUpdate hb fun w xs _ hb hxs => ⟨Owes.of_nil hb, fun x hx => ?_⟩
    have hrow : w.tables.cue x.1 = some x.2 := (hxs x hx).1
    rw [hrow]
    rfl
  · have hF := stays_all (p := p) due fun x => stays_cue x.1
    refine SafeIf.bind (tends_mapEach (fun x hx w hw => ?_) hw) fun _ w hw => ?_
    · exact tends_processCue hC hF (fun w h => h x hx) hw
    · exact SafeIf.bind (tends_commit hF hw) fun _ _ _ => trivial

theorem tends_pollRetries (hb : w.store.buf p = []) :
    Tends C p (fun _ _ => True) (pollRetries env p) w := by
  refine SafeIf.bind (tends_idle reads_clock hb) fun now w hb => ?_
  refine SafeIf.bind (tends_idle reads_clock hb) fun began w hb => ?_
  refine SafeIf.bind (Q := fun retries w => Amid p false noDebt (fun w => ∀ x ∈ retries,
    w.tables.Has x.1 x.2.cueId) w) ?_ fun retries w hw => ?_
  · refine tends_idle_selectRowsForUpdate hb fun w xs _ hb hxs => ⟨Owes.of_nil hb, fun x hx => ?_⟩
    exact ⟨x.2, (hxs x hx).1, rfl⟩
  · have hF := stays_all (p := p) retries fun x => stays_has x.1 x.2.cueId
    refine SafeIf.bind (tends_mapEach (fun x hx w hw => ?_) hw) fun _ w hw => ?_
    · refine SafeIf.bind (tends_reads (reads_select _) hF hw) fun cue? w hw => ?_
      split
      · exact hw
      · refine SafeIf.bind (tends_reads (reads_select _) hF hw) fun row? w hw => ?_
        split
        · trivial
        · refine SafeIf.bind (tends_insertOutbox hF hw fun w hw => ?_) fun _ w hw => ?_
          · exact (view_grows w p).follows.has _ _ (hw.2 x hx)
          · exact SafeIf.bind (tends_updateExecutionById hF hw (fun _ h => h)
              fun w r r' _ _ hend => by cases hend) fun _ _ hw => hw
    · exact SafeIf.bind (tends_commit hF hw) fun _ _ _ => trivial

theorem tends_dispatchOutbox (hb : w.store.buf p = []) :
    Tends C p (fun _ _ => True) (dispatchOutbox env p) w := by
  refine SafeIf.bind (tends_idle reads_clock hb) fun now w hb => ?_
  refine SafeIf.bind (Q := fun rows w => Amid p false noDebt (fun w => ∀ x ∈ rows,
    x.2.payload.Of w.tables) w) ?_ fun rows w hw => ?_
  · refine tends_idle_selectRowsForUpdate hb fun w xs hI hb hxs => ⟨Owes.of_nil hb, fun x hx => ?_⟩
    exact hI.rows x.1 x.2 (hxs x hx).1
  · have hF := stays_all (p := p) rows fun x => stays_has x.2.payload.executionId x.2.payload.cueId
    have mark : ∀ {n u w}, Amid p false noDebt (fun w => ∀ x ∈ rows, x.2.payload.Of w.tables) w →
        Tends C p (fun _ w => Amid p false noDebt (fun w => ∀ x ∈ rows, x.2.payload.Of w.tables) w)
          (write p (.updateOutbox n u)) w := by
      intro n u w hw
      refine tends_step (Amid.kept hF) hw fun w₁ a r w₂ hI hw hs _ => ?_
      obtain ⟨s, hwr, heq⟩ := Option.map_eq_some_iff.mp hs
      cases heq
      exact ⟨hI.write hwr trivial, hw.1.adds hI hwr adds_updateOutbox, hF.write hw.2 hwr⟩
    refine SafeIf.bind (tends_mapEach (fun x hx w hw => ?_) hw) fun _ w hw => ?_
    · refine SafeIf.bind (Q := fun _ w => Amid p false noDebt (fun w => ∀ x ∈ rows,
        x.2.payload.Of w.tables) w) ?_ fun failed w hw => ?_
      · refine tends_step (Amid.kept hF) hw fun w₁ a r w₂ hI hw hs _ => ?_
        split at hs
        · cases hs
          refine ⟨hI.log rfl fun j hj => ?_, ?_, hw.2⟩
          · cases hj
            exact hw.2 x hx
          · exact hw.1.same rfl rfl rfl fun _ hk => hk
        · cases hs
          exact ⟨⟨hI, fun q _ => .refl q _⟩, hw⟩
        · cases hs
      · split
        · exact SafeIf.bind (mark hw) fun _ _ hw => hw
        · exact SafeIf.bind (mark hw) fun _ _ hw => hw
    · exact SafeIf.bind (tends_commit hF hw) fun _ _ _ => trivial

/-! ## Calls that end executions -/

/-- The cue of an execution that is not one-time in the eyes of `p` is recurring. -/
theorem Tended.recurring (hI : Tended w) {e : ExecId} {c : CueId} (hhas : w.tables.Has e c)
    (hno : typeOf (w.view p) c ≠ some .once) : typeOf w.tables c = some .recurring := by
  obtain ⟨r, hr, rfl⟩ := hhas
  obtain ⟨r', hr', hf⟩ := (view_grows w p).execution hr
  have hsome := hI.cues p e r' hr'
  rw [hf.cueId] at hsome
  exact typeOf_recurring hsome fun honce => hno ((view_grows w p).typeOf honce)

/-- The type of the cue of a locked execution, once it is known to be recurring. -/
theorem stays_recurring (e : ExecId) (c : CueId) (P : Prop) : Stays p fun w =>
    w.store.locks (.execution e) = some p ∧ w.tables.Has e c ∧
      (P → typeOf w.tables c = some .recurring) where
  rely w w' h hr :=
    ⟨hr.kept.locks _ h.1, hr.follows.has _ _ h.2.1, fun hp => hr.types e c h.1 h.2.1 (h.2.2 hp)⟩
  own w w' h ht hl _ := by
    rw [ht]
    exact ⟨hl _ h.1, h.2⟩

section Ends

variable {F : World → Prop} {e : ExecId} {c : CueId}

theorem finish_calm {status : CueStatus} {now : Time} (hs : status ≠ .active) :
    (CueUpdate.finish status now).Calm :=
  CueUpdate.calm_of (by simp) fun now' heq => hs (by cases heq; rfl)

/-- The UPDATE that completes or fails a cue pays the debt. -/
theorem tends_finish {status : CueStatus} {now : Time} (hs : status ≠ .active) (hF : Stays p F)
    (hw : Amid p false (· = c) F w) :
    Tends C p (fun _ w => Amid p false noDebt F w) (updateCue p c (.finish status now)) w :=
  tends_updateCue hF hw (finish_calm hs) fun _ h => .inr ⟨h, fun _ => hs⟩

/-- The UPDATE that ends an execution makes the debt. -/
theorem tends_end {u : ExecUpdate} (hF : Stays p F) (hhas : ∀ w, F w → w.tables.Has e c)
    (hw : Amid p false noDebt F w) :
    Tends C p (fun _ w => Amid p false (· = c) F w) (updateExecutionById p e u) w := by
  refine tends_updateExecutionById hF hw (fun _ h => h.elim) fun w r r' h hr _ => .inr ?_
  obtain ⟨r₀, hr₀, hc⟩ := hhas w h
  rw [hr] at hr₀
  cases hr₀
  exact hc

/-- A SELECT of the cue tells whether there is a debt to pay. -/
theorem tends_select_cue (hF : Stays p F) (hhas : ∀ w, F w → w.tables.Has e c)
    (hw : Amid p false (· = c) F w) :
    Tends C p (fun cue? w => Amid p false (· = c) F w ∧
      (cue?.map Cue.scheduleType ≠ some .once → Amid p false noDebt F w))
      (select p fun t => t.cue c) w :=
  tends_select hF hw fun w hI hw => ⟨hw, fun hno =>
    ⟨hw.1.discharge (hI.recurring (p := p) (hhas w hw.2) hno), hw.2⟩⟩

theorem ran_calm (now : Time) : (CueUpdate.ran now).Calm := fun _ => ⟨id, id⟩

theorem tends_handleSuccess {http : Option Nat} {body : Option String} {attempt : Nat}
    (hw : Amid p false noDebt (fun w => w.tables.Has e c) w) :
    Tends C p (fun _ _ => True) (handleSuccess p e c http body attempt) w := by
  have hF := stays_has (p := p) e c
  refine SafeIf.bind (tends_reads reads_clock hF hw) fun now w hw => ?_
  refine SafeIf.bind (tends_end hF (fun _ h => h) hw) fun _ w hw => ?_
  refine SafeIf.bind (tends_updateCue hF hw (ran_calm now) fun _ h => .inl h) fun _ w hw => ?_
  refine SafeIf.bind (tends_select_cue hF (fun _ h => h) hw) fun cue? w hw => ?_
  obtain ⟨hw, hpaid⟩ := hw
  split
  · refine SafeIf.bind (tends_finish (by simp) hF hw) fun _ w hw => ?_
    exact (tends_commit hF hw).weaken fun _ _ _ => trivial
  · rename_i hno
    exact (tends_commit hF (hpaid hno)).weaken fun _ _ _ => trivial

theorem tends_handleFailure {http : Option Nat} {error : String} {attempt maxAttempts : Nat}
    {backoff : List Int} (hw : Amid p false noDebt (fun w => w.tables.Has e c) w) :
    Tends C p (fun _ _ => True) (handleFailure p e c http error attempt maxAttempts backoff) w := by
  have hF := stays_has (p := p) e c
  have done : ∀ {w}, Amid p false noDebt (fun w => w.tables.Has e c) w →
      Tends C p (fun _ _ => True) (commit p) w := fun hw =>
    (tends_commit hF hw).weaken fun _ _ _ => trivial
  refine SafeIf.bind (tends_reads reads_clock hF hw) fun now w hw => ?_
  split
  · split
    · trivial
    · exact SafeIf.bind (tends_updateExecutionById hF hw (fun _ h => h)
        fun w r r' _ _ hend => by cases hend) fun _ w hw => done hw
  · refine SafeIf.bind (tends_end hF (fun _ h => h) hw) fun _ w hw => ?_
    refine SafeIf.bind (tends_updateCue hF hw (ran_calm now) fun _ h => .inl h) fun _ w hw => ?_
    refine SafeIf.bind (tends_select_cue hF (fun _ h => h) hw) fun cue? w hw => ?_
    obtain ⟨hw, hpaid⟩ := hw
    split
    · exact done (hpaid (by simp))
    · rename_i cue
      split
      · exact SafeIf.bind (tends_finish (by simp) hF hw) fun _ w hw => done hw
      · rename_i honce
        have hw := hpaid (by simpa using honce)
        split
        · have hcalm : (CueUpdate.pause now).Calm := CueUpdate.calm_of (by simp) (by simp)
          exact SafeIf.bind (tends_updateCue hF hw hcalm fun _ h => .inl h) fun _ w hw => done hw
        · exact done hw

theorem tends_claimAndDeliver {task : TaskType} {pl : DeliveryPayload}
    (hw : Amid p false noDebt (fun w => pl.Of w.tables) w) :
    Tends C p (fun _ _ => True) (claimAndDeliver p task pl) w := by
  have hF : ∀ w w' : World, pl.Of w.tables → Follows w.tables w'.tables → pl.Of w'.tables :=
    fun w w' h hf => hf.has _ _ h
  refine SafeIf.bind (tends_harmless ?_ hF hw) fun claimed w hw => ?_
  · refine stmts_clock.bind fun began => stmts_clock.bind fun now => ?_
    refine (stmts_updateExecution _ fun r h => by cases h).bind fun claimed => ?_
    exact stmts_commit.bind fun _ => trivial
  · split
    · refine SafeIf.bind (Q := fun _ _ => True) ?_ fun _ _ _ => trivial
      refine SafeIf.bind (tends_harmless (stmts_fetchAttempts _) hF hw) fun attempts w hw => ?_
      refine SafeIf.bind (tends_harmless (stmts_deliverWebhook _ _) hF hw) fun result w hw => ?_
      refine SafeIf.bind (tends_harmless stmts_clock hF hw) fun began w hw => ?_
      have hcalm : harmless (.updateCue pl.cueId (.incrementRun began)) := fun _ => ⟨id, id⟩
      refine SafeIf.bind (tends_harmless (stmts_updateCue hcalm) hF hw) fun _ w hw => ?_
      split
      · exact tends_handleSuccess hw
      · exact tends_handleFailure hw
    · trivial

/-- The limit branch closes no cue, and so has to meet a recurring one. -/
theorem tends_limitReached {now : Time} (hC : ∀ w w', C w w' → limitsRecurring p w w' = true)
    (hb : w.store.buf p = []) (hhas : w.tables.Has e c) :
    Tends C p (fun _ _ => True) (do
      let _ ← updateExecutionById p e (.limitReached now)
      commit p
      return Reply.acknowledged) w := by
  refine SafeIf.bind (Q := fun _ w => Amid p false (· = c) (fun w => w.tables.Has e c) w ∧
    w.store.buf p = [.updateExecution e (.limitReached now)]) ?_ fun _ w hw => ?_
  · refine tends_step (K := fun w => w.store.buf p = [] ∧ w.tables.Has e c)
      (fun w w' h hr => ⟨idle_kept w w' h.1 hr, hr.follows.has _ _ h.2⟩) ⟨hb, hhas⟩
      fun w₁ a r w₂ hI hw hs _ => ?_
    obtain ⟨hb, r₁, hr₁, hc⟩ := hw
    have ho : Owes p false noDebt w₁ := Owes.of_nil hb
    rw [view_nil hb] at hs
    split at hs
    · rw [if_pos rfl] at hs
      obtain ⟨s, hwr, heq⟩ := Option.map_eq_some_iff.mp hs
      cases heq
      refine ⟨hI.write hwr trivial, ⟨?_, ?_⟩, ?_⟩
      · refine ho.updateExecution hwr (fun _ h => h.elim) fun r r' hr _ _ _ => .inr (.inl ?_)
        rw [hr₁] at hr
        cases hr
        exact hc
      · exact (stays_has (p := p) e c).write ⟨r₁, hr₁, hc⟩ hwr
      · rw [buf_write hwr, hb]
    · rename_i hnone
      rw [hr₁] at hnone
      cases hnone
  · have hF := stays_has (p := p) e c
    refine SafeIf.bind (Q := fun _ _ => True) ?_ fun _ _ _ => trivial
    refine tends_step (K := fun w => Amid p false (· = c) (fun w => w.tables.Has e c) w ∧
      w.store.buf p = [.updateExecution e (.limitReached now)])
      (fun w w' h hr => ⟨Amid.kept hF w w' h.1 hr, hr.kept.buf.trans h.2⟩) hw
      fun w₁ a r w₂ hI hw hs hcond => ?_
    cases hs
    obtain ⟨⟨ho, hhas⟩, hb⟩ := hw
    have hrec : typeOf w₁.tables c = some .recurring := by
      have hlim := hC _ _ hcond
      have hempty : (w₁.store.commit p).buf p = [] := Function.update_self _ _ _
      obtain ⟨r, hr, rfl⟩ := hhas
      simp only [limitsRecurring, hb, hempty, hr, Option.bind_some, ne_eq, decide_eq_true_eq]
        at hlim
      obtain ⟨r', hr', hf⟩ := (view_grows w₁ p).execution hr
      have hsome := hI.cues p e r' hr'
      rw [hf.cueId] at hsome
      exact typeOf_recurring hsome hlim
    exact ⟨hI.commit ((ho.discharge hrec).cleared hI), trivial⟩

theorem tends_runJob {j : Job} (hC : ∀ w w', C w w' → limitsRecurring p w w' = true)
    (hb : w.store.buf p = []) (hj : j.payload.Of w.tables) :
    Tends C p (fun _ _ => True) (runJob p j) w := by
  have claim : ∀ {task w}, w.store.buf p = [] ∧ j.payload.Of w.tables →
      Tends C p (fun _ _ => True) (claimAndDeliver p task j.payload) w :=
    fun hw => tends_claimAndDeliver ⟨Owes.of_nil hw.1, hw.2⟩
  have reads : ∀ {β : Type} {m : Program β} {w}, Reads m →
      w.store.buf p = [] ∧ j.payload.Of w.tables →
      Tends C p (fun _ w => w.store.buf p = [] ∧ j.payload.Of w.tables) m w := by
    intro β m w hm hw
    refine SafeIf.of_always (K := fun w => w.store.buf p = [] ∧ j.payload.Of w.tables) hm
      (fun w w' h hr => ⟨idle_kept w w' h.1 hr, ?_⟩) ?_ hw
    · exact hr.follows.has _ _ h.2
    · rintro w w' hI hw rfl _
      exact ⟨hI, hw, fun q _ => .refl q w'⟩
  have hlimit : Reads checkExecutionLimit := Always.step fun w a _ _ _ hs => by
    split at hs
    · cases hs
      rfl
    · cases hs
  unfold runJob
  split
  · unfold deliverWebhookTask
    split
    · refine SafeIf.bind (reads hlimit ⟨hb, hj⟩) fun allowed w hw => ?_
      split
      · exact claim hw
      · refine SafeIf.bind (reads reads_clock hw) fun now w hw => ?_
        exact tends_limitReached hC hw.1 hw.2
    · exact claim ⟨hb, hj⟩
  · exact claim ⟨hb, hj⟩

theorem tends_recordOutcome {user : UserId} {body : OutcomeRequest} (hb : w.store.buf p = []) :
    Tends C p (fun _ _ => True) (recordOutcome p user e body) w := by
  have reply : ∀ {r : Reply} {F : World → Prop} {w}, Stays p F → Amid p false noDebt F w →
      Tends C p (fun _ _ => True) (do commit p; return r) w := fun hF hw =>
    SafeIf.bind (tends_commit hF hw) fun _ _ _ => trivial
  refine SafeIf.bind (Q := fun row? w => ∀ r cue, row? = some (r, cue) →
    Amid p false noDebt (fun w => w.store.locks (.execution e) = some p ∧ w.tables.Has e r.cueId ∧
      (cue.scheduleType ≠ .once → typeOf w.tables r.cueId = some .recurring)) w) ?_
    fun row? w hw => ?_
  · refine tends_step (K := fun w => w.store.buf p = []) idle_kept hb
      fun w₁ a r w₂ hI hb hs _ => ?_
    rw [view_nil hb] at hs
    split at hs
    · cases hs
      exact ⟨⟨hI, fun q _ => .refl q _⟩, fun r cue h => by cases h⟩
    · rename_i row hrow
      obtain ⟨s, hl, heq⟩ := Option.map_eq_some_iff.mp hs
      cases heq
      refine ⟨hI.lock hl, ?_⟩
      rintro r cue ⟨⟩
      obtain ⟨ht, hbuf, hlocks, -⟩ := Store.lock_eq hl
      have htab : World.tables { w₁ with store := s } = w₁.tables := ht
      have hbuf' : s.buf p = [] := by rw [hbuf, hb]
      obtain ⟨r', hr', hrow⟩ := Option.bind_eq_some_iff.mp hrow
      obtain ⟨cue', hcue', heq⟩ := Option.map_eq_some_iff.mp hrow
      cases heq
      refine ⟨Owes.of_nil hbuf', ?_, ?_, fun hno => ?_⟩
      · rw [hlocks, if_pos (List.mem_singleton_self _)]
      · rw [htab]
        exact ⟨r, hr', rfl⟩
      · have hc := (Option.filter_eq_some_iff.mp hcue').1
        rw [htab]
        refine typeOf_recurring (by rw [hc]; rfl) ?_
        rw [typeOf, hc]
        exact fun heq => hno (Option.some.inj heq)
  · split
    · trivial
    · rename_i r cue
      have hw := hw r cue rfl
      have hF := stays_recurring (p := p) e r.cueId (cue.scheduleType ≠ .once)
      split
      · trivial
      · split
        · trivial
        · refine SafeIf.bind (tends_reads reads_clock hF hw) fun now w hw => ?_
          dsimp only
          by_cases hworker : cue.callbackTransport = .worker
          · refine SafeIf.bind (tends_end hF (fun _ h => h.2.1) hw) fun _ w hw => ?_
            rw [if_pos hworker]
            have hcalm : (CueUpdate.outcomeRun now).Calm := fun _ => ⟨id, id⟩
            refine SafeIf.bind (tends_updateCue hF hw hcalm fun _ h => .inl h) fun _ w hw => ?_
            split
            · refine SafeIf.bind (tends_finish ?_ hF hw) fun _ w hw => reply hF hw
              cases body.success <;> simp
            · rename_i honce
              exact reply hF ⟨hw.1.discharge (hw.2.2.2 honce), hw.2⟩
          · -- a webhook's outcome leaves the status as it is
            have htransport : cue.callbackTransport = .webhook := by
              cases h : cue.callbackTransport with
              | webhook => rfl
              | worker => exact absurd h hworker
            refine SafeIf.bind (tends_updateExecutionById hF hw (fun _ h => h)
              fun w r₀ r' _ _ hend => .inl ?_) fun _ w hw => ?_
            · rwa [htransport, ExecUpdate.outcome_status] at hend
            · rw [if_neg hworker]
              exact reply hF hw

theorem pause_harmless (c : CueId) (now : Time) : harmless (.updateCue c (.pause now)) :=
  CueUpdate.calm_of (by simp) (by simp)

/-- The end of a sweep: the commit, and the escalations in their own transactions. -/
theorem tends_escalate {cs : List CueId} {n : Nat} (hF : Stays p F)
    (hw : Amid p false noDebt F w) : Tends C p (fun _ _ => True) (do
      commit p
      let _ ← mapEach (runOnFailureEscalation p) cs
      return Reply.count n) w := by
  refine SafeIf.bind (tends_commit hF hw) fun _ w ho => ?_
  refine tends_only_harmless ?_ ho
  exact (Always.mapEach (stmts_runOnFailureEscalation pause_harmless) cs).bind fun _ => trivial

theorem tends_recoverOne {now : Time} {r : Execution} (hF : Stays p F)
    (hx : ∀ w, F w → w.store.locks (.execution e) = some p ∧ w.tables.Has e r.cueId)
    (hw : Amid p false noDebt F w) :
    Tends C p (fun _ w => Amid p false noDebt F w) (recoverOne env p now (e, r)) w := by
  refine SafeIf.bind (Q := fun cue? w => Amid p false noDebt (fun w => F w ∧
    w.store.locks (.execution e) = some p ∧ w.tables.Has e r.cueId ∧
      (cue?.map Cue.scheduleType ≠ some .once → typeOf w.tables r.cueId = some .recurring)) w)
    (tends_select hF hw fun w hI hw => ?_) fun cue? w hw => ?_
  · obtain ⟨hl, hhas⟩ := hx w hw.2
    exact ⟨hw.1, hw.2, hl, hhas, fun hno => hI.recurring (p := p) hhas hno⟩
  · have hF' := hF.and
      (stays_recurring (p := p) e r.cueId (cue?.map Cue.scheduleType ≠ some .once))
    dsimp only
    split
    · split
      · trivial
      · refine SafeIf.bind (tends_updateExecutionById hF' hw (fun _ h => h)
          fun w r₀ r' _ _ hend => by cases hend) fun _ w hw => ?_
        exact ⟨hw.1, hw.2.1⟩
    · refine SafeIf.bind (tends_end hF' (fun _ h => h.2.2.1) hw) fun _ w hw => ?_
      split
      · refine SafeIf.bind (tends_finish (by simp) hF' hw) fun _ w hw => ?_
        exact ⟨hw.1, hw.2.1⟩
      · rename_i honce
        exact ⟨hw.1.discharge (hw.2.2.2.2 honce), hw.2.1⟩

theorem tends_recoverStaleExecutions (hb : w.store.buf p = []) :
    Tends C p (fun _ _ => True) (recoverStaleExecutions env p) w := by
  refine SafeIf.bind (tends_idle reads_clock hb) fun t w hb => ?_
  refine SafeIf.bind (Q := fun stale w => Amid p false noDebt (fun w => ∀ x ∈ stale,
    w.store.locks (.execution x.1) = some p ∧ w.tables.Has x.1 x.2.cueId) w) ?_ fun stale w hw => ?_
  · refine tends_idle_selectRowsForUpdate hb fun w xs _ hb hxs => ⟨Owes.of_nil hb, fun x hx => ?_⟩
    obtain ⟨hrow, -, hl⟩ := hxs x hx
    exact ⟨hl, x.2, hrow, rfl⟩
  · have hF : Stays p fun w => ∀ x ∈ stale, w.store.locks (.execution x.1) = some p ∧
        w.tables.Has x.1 x.2.cueId := by
      refine stays_all stale fun x => ⟨fun w w' h hr => ?_, fun w w' h ht hl _ => ?_⟩
      · exact ⟨hr.kept.locks _ h.1, hr.follows.has _ _ h.2⟩
      · rw [ht]
        exact ⟨hl _ h.1, h.2⟩
    refine SafeIf.bind (tends_reads reads_clock hF hw) fun now w hw => ?_
    refine SafeIf.bind (tends_mapEach (fun x hx w hw => ?_) hw) fun escalations w hw => ?_
    · exact tends_recoverOne hF (fun w h => h x hx) hw
    · exact tends_escalate hF hw

theorem tends_missOne {now : Time} {r : Execution} (hF : Stays p F)
    (hx : ∀ w, F w → w.tables.Has e r.cueId) (hw : Amid p false noDebt F w) :
    Tends C p (fun _ w => Amid p false noDebt F w) (missOne p now (e, r)) w := by
  refine SafeIf.bind (tends_end hF hx hw) fun _ w hw => ?_
  refine SafeIf.bind (tends_select_cue hF hx hw) fun cue? w hw => ?_
  obtain ⟨hw, hpaid⟩ := hw
  split
  · exact SafeIf.bind (tends_finish (by simp) hF hw) fun _ w hw => hw
  · rename_i honce
    exact hpaid honce

theorem tends_failUnclaimedWorkerExecutions (hb : w.store.buf p = []) :
    Tends C p (fun _ _ => True) (failUnclaimedWorkerExecutions env p) w := by
  refine SafeIf.bind (tends_idle reads_clock hb) fun now w hb => ?_
  refine SafeIf.bind (Q := fun unclaimed w => Amid p false noDebt (fun w => ∀ x ∈ unclaimed,
    w.tables.Has x.1 x.2.cueId) w) ?_ fun unclaimed w hw => ?_
  · refine tends_step (K := fun w => w.store.buf p = []) idle_kept hb
      fun w₁ a xs w₂ hI hb hs _ => ?_
    rw [view_nil hb] at hs
    split at hs
    · dsimp only at hs
      split at hs
      · cases hs
        refine ⟨⟨hI, fun q _ => .refl q _⟩, Owes.of_nil hb, fun x hx => ?_⟩
        exact ⟨x.2, (mem_rowsAt hx).2, rfl⟩
      · cases hs
    · cases hs
  · have hF := stays_all (p := p) unclaimed fun x => stays_has x.1 x.2.cueId
    refine SafeIf.bind (tends_mapEach (fun x hx w hw => ?_) hw) fun escalations w hw => ?_
    · exact tends_missOne hF (fun w h => h x hx) hw
    · exact tends_escalate hF hw

end Ends

/-! ## Every call -/

theorem tends_programOf {call : Call} (hslot : ∀ w w', C w w' → slotOpen p w w' = true)
    (hlimit : ∀ w w', C w w' → limitsRecurring p w w' = true) (hb : w.store.buf p = [])
    (ho : own p w.history = [.began p call]) :
    Tends C p (fun _ _ => True) (programOf env p call) w := by
  have quiet : call.quiet = true → Tends C p (fun _ _ => True) (programOf env p call) w :=
    fun hq => tends_only_harmless ((stmts_programOf env p call).mono
      fun _ _ hs => hs.mono fun _ hw => quiet_harmless hq hw) (Owes.of_nil hb)
  cases call with
  | createCue user data => exact tends_only_harmless stmts_createCue_harmless (Owes.of_nil hb)
  | fireCue user c sendAt => exact tends_fireCue hb
  | replayExecution user e => exact tends_replayExecution hb
  | recordOutcome user e body => exact tends_recordOutcome hb
  | processCueBatch => exact tends_processCueBatch hslot hb
  | pollRetries => exact tends_pollRetries hb
  | dispatchOutbox => exact tends_dispatchOutbox hb
  | recoverStaleExecutions => exact tends_recoverStaleExecutions hb
  | failUnclaimedWorkerExecutions => exact tends_failUnclaimedWorkerExecutions hb
  | job j =>
    refine SafeIf.enter (.refl p) fun w₁ hr hI => ?_
    have hown : own p w₁.history = [.began p (.job j)] := hr.kept.own.trans ho
    have hmem : .began p (.job j) ∈ w₁.history := (mem_own rfl).mp (by
      rw [hown]
      exact List.mem_singleton_self _)
    exact tends_runJob hlimit (idle_kept w w₁ hb hr) (hI.jobs _ hmem j rfl)
  | claimNextExecution user worker => exact quiet rfl
  | claimExecution user e worker => exact quiet rfl
  | executionHeartbeat user e xWorkerId => exact quiet rfl
  | heartbeat user worker handlers => exact quiet rfl
  | deleteWorker user worker => exact quiet rfl
  | recoverStaleWorkerClaims => exact quiet rfl

end CueApi.Scheduler
