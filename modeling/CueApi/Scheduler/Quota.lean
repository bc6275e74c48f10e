import CueApi.Scheduler.EditProofs
import CueApi.Scheduler.Schedule

/-! The active-cue limit. `create_cue` counts and inserts, and nothing else that makes a cue
count looks at the limit; so the limit holds in the runs where no other transaction adds a cue
of the user while a `create_cue` of theirs is on its way, and where a finished cue is revived
only below the limit. -/

namespace CueApi.Scheduler

open ReadCommitted Interleaving Prog

variable {env : Env} {user : UserId} {p q : Pid} {w w' : World} {t t' : Tables}

/-- The cue counts against the limit of the user. -/
def Cue.counts (user : UserId) (cue : Cue) : Bool :=
  cue.userId = user ∧ (cue.status = .active ∨ cue.status = .paused)

/-- The count of `create_cue`. -/
def activeCount (user : UserId) (t : Tables) : Nat :=
  (keysWhere t.cues fun _ c => c.userId = user ∧ (c.status = .active ∨ c.status = .paused)).length

def activeLimit (env : Env) (user : UserId) : Nat := ((env.user user).map User.activeCueLimit).getD 0

/-! ## Counting -/

theorem mem_counted {c : CueId} : c ∈ (keysWhere t.cues fun _ c => c.counts user) ↔
    ∃ cue, t.cue c = some cue ∧ cue.counts user = true := mem_keysWhere _ _ _

theorem nodup_keysWhere {K V : Type} [DecidableEq K] (t : Table K V) (pred : K → V → Bool) :
    (keysWhere t pred).Nodup := by
  have hn : (t.entries.map Sigma.fst).Nodup := t.nodupKeys
  exact (List.filter_sublist.map Sigma.fst).nodup hn

/-- No cue counts in `t'` that does not in `t`. -/
def NoneAdded (user : UserId) (t t' : Tables) : Prop :=
  ∀ c cue', t'.cue c = some cue' → cue'.counts user = true →
    ∃ cue, t.cue c = some cue ∧ cue.counts user = true

theorem NoneAdded.count (h : NoneAdded user t t') : activeCount user t' ≤ activeCount user t := by
  refine ((nodup_keysWhere _ _).subperm fun c hc => ?_).length_le
  obtain ⟨cue', hc', hn'⟩ := mem_counted.mp hc
  exact mem_counted.mpr (h c cue' hc' hn')

/-- One cue at most is added. -/
theorem activeCount_succ (c₀ : CueId)
    (h : ∀ c, c ≠ c₀ → t'.cue c = t.cue c) : activeCount user t' ≤ activeCount user t + 1 := by
  have hsub : keysWhere t'.cues (fun _ c => c.counts user) ⊆
      c₀ :: keysWhere t.cues fun _ c => c.counts user := by
    intro c hc
    by_cases heq : c = c₀
    · simp [heq]
    · obtain ⟨cue', hc', hn'⟩ := mem_counted.mp hc
      exact List.mem_cons_of_mem _ (mem_counted.mpr ⟨cue', h c heq ▸ hc', hn'⟩)
  exact ((nodup_keysWhere _ _).subperm hsub).length_le

/-! ## The condition -/

/-- A `create_cue` of the user is on its way. -/
def creates (user : UserId) : Event → Bool
  | .began _ (.createCue u _) => u = user
  | _ => false

def hasEnded (p : Pid) (h : History) : Bool :=
  h.any fun ev => match ev with
    | .ended q _ => q = p
    | _ => false

def creating (user : UserId) (p : Pid) (h : History) : Bool :=
  (own p h).any (creates user) && !hasEnded p (own p h)

/-- Nobody else's `create_cue` is on its way. -/
def noneElseCreating (user : UserId) (p : Pid) (h : History) : Bool :=
  (h.filterMap Event.pid).all fun q => q = p || !creating user q h

/-- A pause meets a cue that has not finished. -/
def pausesUnfinished (p : Pid) (w w' : World) : Bool :=
  match w'.store.buf p with
  | .updateCue c (.pause _) :: ws => ws ≠ w.store.buf p ||
      ((w.view p).cue c).all fun cue => cue.status = .active || cue.status = .paused
  | _ => true

/-- A step that adds a cue of the user. -/
def addsAlone (env : Env) (user : UserId) (p : Pid) (w w' : World) : Bool :=
  activeCount user w'.tables ≤ activeCount user w.tables ||
    noneElseCreating user p w.history &&
      (creating user p w.history || activeCount user w.tables < activeLimit env user)

def quotaIf (env : Env) (user : UserId) (p : Pid) (s s' : EditWorld) : Bool :=
  addsAlone env user p s.1 s'.1 && pausesUnfinished p s.1 s'.1

theorem creating_of_own {h h' : History} (ho : own p h' = own p h) :
    creating user p h' = creating user p h := by
  unfold creating
  rw [ho]

theorem noneElseCreating_spec {h : History} (hn : noneElseCreating user p h = true) (hq : q ≠ p) :
    creating user q h = false := by
  cases hc : creating user q h with
  | false => rfl
  | true =>
    have hown : (own q h).any (creates user) = true := (Bool.and_eq_true _ _ ▸ hc).1
    obtain ⟨ev, hev, -⟩ := List.any_eq_true.mp hown
    obtain ⟨hm, hpid⟩ := List.mem_filter.mp hev
    have hall := List.all_eq_true.mp hn q
      (List.mem_filterMap.mpr ⟨ev, hm, of_decide_eq_true hpid⟩)
    simp [hq, hc] at hall

/-! ## What a process relies on -/

/-- While it creates a cue, nobody adds one. -/
structure QuotaRely (user : UserId) (p : Pid) (w w' : World) : Prop extends RowsKept p w w' where
  count : creating user p w.history = true →
    activeCount user w'.tables ≤ activeCount user w.tables

theorem QuotaRely.refl (p : Pid) (w : World) : QuotaRely user p w w :=
  ⟨.refl p w, fun _ => Nat.le_refl _⟩

theorem QuotaRely.trans {w'' : World} (h : QuotaRely user p w w') (h' : QuotaRely user p w' w'') :
    QuotaRely user p w w'' :=
  ⟨h.toRowsKept.trans h'.toRowsKept, fun hc => Nat.le_trans
    (h'.count ((creating_of_own h.own).trans hc)) (h.count hc)⟩

theorem QuotaRely.of_adds (hk : RowsKept q w w') (hq : q ≠ p)
    (hc : addsAlone env user p w w' = true) : QuotaRely user q w w' := by
  refine ⟨hk, fun hcreating => ?_⟩
  simp only [addsAlone, Bool.or_eq_true, decide_eq_true_eq, Bool.and_eq_true] at hc
  rcases hc with hle | ⟨hnone, -⟩
  · exact hle
  · rw [noneElseCreating_spec hnone hq] at hcreating
    cases hcreating

/-! ## The invariant -/

/-- The transaction of `p` inserts no cue. -/
def InsertsNone (p : Pid) (w : World) : Prop := ∀ c row, .insertCue c row ∉ w.store.buf p

/-- The limit holds, and a transaction adds to it only by an INSERT. -/
structure QuotaInv (env : Env) (user : UserId) (w : World) : Prop where
  limit : activeCount user w.tables ≤ activeLimit env user
  views : ∀ q, InsertsNone q w → NoneAdded user w.tables (w.view q)

theorem NoneAdded.refl (t : Tables) : NoneAdded user t t := fun _ cue hc hn => ⟨cue, hc, hn⟩

/-- A step of `p` is to be checked on the tables and on the view of `p` only. -/
theorem QuotaInv.of_step (hI : QuotaInv env user w)
    (hlimit : activeCount user w'.tables ≤ activeLimit env user)
    (hp : InsertsNone p w' → NoneAdded user w'.tables (w'.view p))
    (hk : ∀ q, q ≠ p → RowsKept q w w') : QuotaInv env user w' where
  limit := hlimit
  views q hins c cue hc hn := by
    by_cases hq : q = p
    · subst hq
      exact hp hins c cue hc hn
    · rcases (hk q hq).cue_cases c with ⟨hsame, htab⟩ | hnow
      · have hins₀ : InsertsNone q w := fun c row => by
          rw [← (hk q hq).buf]
          exact hins c row
        obtain ⟨cue₀, hc₀, hn₀⟩ := hI.views q hins₀ c cue (hsame ▸ hc) hn
        exact ⟨cue₀, htab.trans hc₀, hn₀⟩
      · exact ⟨cue, hnow ▸ hc, hn⟩

theorem counts_set {u : CueUpdate} {cue : Cue} (hn : (u.set cue).counts user = true)
    (hfinish : ∀ status now, u = .finish status now → status = .completed ∨ status = .failed)
    (hpause : ∀ now, u = .pause now → cue.status = .active ∨ cue.status = .paused) :
    cue.counts user = true := by
  simp only [Cue.counts, decide_eq_true_eq] at hn ⊢
  cases u with
  | finish status now =>
    rcases hfinish status now rfl with rfl | rfl
    · simp [CueUpdate.set] at hn
    · simp [CueUpdate.set] at hn
  | pause now => exact ⟨hn.1, hpause now rfl⟩
  | incrementFired began => exact hn
  | advance next now => exact hn
  | incrementRun began => exact hn
  | ran now => exact hn
  | outcomeRun now => exact hn

theorem pausesUnfinished_spec {c : CueId} {now : Time} {cue : Cue}
    (hm : pausesUnfinished p w w' = true)
    (hb : w'.store.buf p = .updateCue c (.pause now) :: w.store.buf p)
    (hc : (w.view p).cue c = some cue) : cue.status = .active ∨ cue.status = .paused := by
  simpa [pausesUnfinished, hb, hc] using hm

/-- A statement of a call other than `create_cue`. -/
theorem QuotaInv.stmt {call : Call} (hI : QuotaInv env user w) (hs : Stmt p call.issues w w')
    (hcall : ∀ user data, call ≠ .createCue user data) (hins : InsertsNone p w)
    (hm : pausesUnfinished p w w' = true) : QuotaInv env user w' ∧ InsertsNone p w' := by
  have hk : ∀ q, q ≠ p → RowsKept q w w' := fun q hq => hs.rowsKept hq
  cases hs with
  | read => exact ⟨hI, hins⟩
  | logged ev _ _ _ _ _ => exact ⟨⟨hI.limit, hI.views⟩, hins⟩
  | locked ks s hl =>
    obtain ⟨ht, hb, -, -⟩ := Store.lock_eq hl
    have hins' : InsertsNone p { w with store := s } := fun c row => by
      change _ ∉ s.buf p
      rw [hb]
      exact hins c row
    refine ⟨hI.of_step ?_ (fun _ => ?_) hk, hins'⟩
    · change activeCount user s.tables ≤ _
      rw [ht]
      exact hI.limit
    · rw [view_lock hl]
      change NoneAdded user s.tables _
      rw [ht]
      exact hI.views p hins
  | wrote wr s hwr hs =>
    obtain ⟨ht, hb, -, -⟩ := Store.write_eq hs
    have hbuf : s.buf p = wr :: w.store.buf p := by rw [hb, Function.update_self]
    have hins' : InsertsNone p { w with store := s } := fun c row hmem => by
      rw [show World.store _ = s from rfl, hbuf, List.mem_cons] at hmem
      rcases hmem with rfl | hmem
      · have hkind := hwr.1
        cases call <;> simp [Write.kind, Call.kinds] at hkind hcall
      · exact hins c row hmem
    refine ⟨hI.of_step ?_ (fun _ c cue hc hn => ?_) hk, hins'⟩
    · change activeCount user s.tables ≤ _
      rw [ht]
      exact hI.limit
    · rw [view_write hs, Tables.cue_apply] at hc
      change ∃ cue, s.tables.cue c = some cue ∧ _
      rw [ht]
      split at hc
      · exact absurd (show _ ∈ s.buf p by rw [hbuf]; exact List.mem_cons_self ..) (hins' _ _)
      · rename_i c' u
        split at hc
        · rename_i heq
          subst heq
          obtain ⟨cue₀, hc₀, rfl⟩ := Option.map_eq_some_iff.mp hc
          refine hI.views p hins c cue₀ hc₀ (counts_set hn ?_ ?_)
          · rintro status now rfl
            exact hwr.2
          · rintro now rfl
            exact pausesUnfinished_spec hm hbuf hc₀
        · exact hI.views p hins c cue hc hn
      · exact hI.views p hins c cue hc hn
  | committed =>
    have hnone := hI.views p hins
    refine ⟨hI.of_step (hnone.count.trans hI.limit) (fun _ => ?_) hk, fun c row => ?_⟩
    · change NoneAdded user (w.view p) ((w.store.commit p).view p)
      rw [view_commit]
      exact .refl _
    · change _ ∉ Function.update w.store.buf p [] p
      simp

/-! ## Creating -/

/-- Where a `create_cue` stands: its open writes, and, once it has counted, a place below the
limit. -/
structure Creating (env : Env) (user user' : UserId) (data : CueCreate) (p : Pid)
    (B : List Write) (counted : Prop) (w : World) : Prop where
  buf : w.store.buf p = B
  own : own p w.history = [.began p (.createCue user' data)]
  place : counted → user' = user → activeCount user w.tables < activeLimit env user

section Creating

variable {user' : UserId} {data : CueCreate} {B : List Write} {counted : Prop}

theorem Creating.creating (h : Creating env user user' data p B counted w) (heq : user' = user) :
    creating user p w.history = true := by
  unfold Scheduler.creating
  rw [h.own, heq]
  simp [creates, hasEnded]

theorem Creating.kept (h : Creating env user user' data p B counted w)
    (hr : QuotaRely user p w w') : Creating env user user' data p B counted w' where
  buf := hr.buf.trans h.buf
  own := hr.own.trans h.own
  place hc heq := Nat.lt_of_le_of_lt (hr.count (h.creating heq)) (h.place hc heq)

theorem Creating.view (h : Creating env user user' data p [] counted w) :
    w.view p = w.tables := by
  unfold World.view Store.view
  rw [h.buf]
  rfl

/-- The rule of a read while creating. -/
theorem quota_reads {C : World → World → Prop} {α β : Type} {m : Program β} (hm : Reads m)
    {k : β → Program α}
    (h : ∀ b w, Creating env user user' data p B counted w →
      SafeIf C (QuotaInv env user) (QuotaRely user) p (fun _ _ => True) (k b) w)
    (hw : Creating env user user' data p B counted w) :
    SafeIf C (QuotaInv env user) (QuotaRely user) p (fun _ _ => True) (m >>= k) w := by
  refine SafeIf.bind (SafeIf.of_always (K := Creating env user user' data p B counted) hm
    (fun _ _ hK hr => hK.kept hr) (fun w w' hI hK hG _ => ?_) hw) h
  rw [hG]
  exact ⟨hI, hK, fun q _ => .refl q w⟩

theorem activeCount_insert {c : CueId} {row : Cue} (hrow : row.userId ≠ user) :
    activeCount user (Tables.apply (.insertCue c row) t) ≤ activeCount user t := by
  refine NoneAdded.count fun c' cue hc hn => ?_
  rw [Tables.cue_apply] at hc
  dsimp only at hc
  split at hc
  · rcases Option.or_eq_some_iff.mp hc with hc | ⟨-, hc⟩
    · exact ⟨cue, hc, hn⟩
    · cases hc
      simp [Cue.counts, hrow] at hn
  · exact ⟨cue, hc, hn⟩

/-- The INSERT commits. -/
theorem quota_commit {C : World → World → Prop} {c : CueId} {row : Cue}
    (hC : ∀ w w', C w w' → addsAlone env user p w w' = true) (hrow : row.userId = user')
    (hw : Creating env user user' data p [.insertCue c row] True w) :
    SafeIf C (QuotaInv env user) (QuotaRely user) p (fun _ _ => True)
      (commit p >>= fun _ => .ret (Reply.created c)) w := by
  apply SafeIf.step_bind
  intro w₁ hr hI a r w₂ hs hc
  cases hs
  have hw₁ := hw.kept hr
  have hk : ∀ q, q ≠ p → RowsKept q w₁ { w₁ with
      store := w₁.store.commit p
      history := .commit p w₁.clock (w₁.store.buf p) :: w₁.history } := fun q hq =>
    (Stmt.committed (W := fun _ => False)).rowsKept hq
  refine ⟨hI.of_step ?_ (fun _ => ?_) hk, fun q hq => .of_adds (hk q hq) hq (hC _ _ hc), trivial⟩
  · change activeCount user (schema.applyAll (w₁.store.buf p) w₁.tables) ≤ _
    rw [hw₁.buf]
    by_cases heq : user' = user
    · refine Nat.le_trans (activeCount_succ c fun c' hne => ?_) (hw₁.place trivial heq)
      rw [Schema.applyAll_cons, schema_apply, Tables.cue_apply]
      exact if_neg hne
    · exact Nat.le_trans (activeCount_insert (hrow ▸ heq)) hI.limit
  · change NoneAdded user (w₁.view p) ((w₁.store.commit p).view p)
    rw [view_commit]
    exact .refl _

theorem quota_createCue {C : World → World → Prop}
    (hC : ∀ w w', C w w' → addsAlone env user p w w' = true)
    (henf : env.settings.disableQuotaEnforcement = false)
    (hw : Creating env user user' data p [] False w) :
    SafeIf C (QuotaInv env user) (QuotaRely user) p (fun _ _ => True)
      (createCue env p user' data) w := by
  refine quota_reads reads_clock (fun began w hw => ?_) hw
  refine quota_reads (reads_select _) (fun named w hw => ?_) hw
  split
  · trivial
  · apply SafeIf.step_bind
    intro w₁ hr hI a n w₂ hs _
    cases hs
    have hw₁ := hw.kept hr
    refine ⟨hI, fun q _ => .refl q _, ?_⟩
    dsimp only
    split
    · trivial
    · rename_i hlimit
      have hw₂ : Creating env user user' data p [] True w₁ := by
        refine ⟨hw₁.buf, hw₁.own, fun _ heq => ?_⟩
        simp only [henf, Bool.not_false, Bool.true_and, decide_eq_true_eq, Nat.not_le] at hlimit
        rw [hw₁.view] at hlimit
        subst heq
        exact hlimit
      refine quota_reads reads_clock (fun now w hw => ?_) hw₂
      split
      · trivial
      · trivial
      · rename_i nextRun _
        apply SafeIf.step_bind
        intro w₁ hr hI a inserted w₂ hs _
        have hw₁ := hw.kept hr
        split at hs
        · rename_i c
          dsimp only at hs
          split at hs
          · split at hs
            · cases hs
              exact ⟨hI, fun q _ => .refl q _, trivial⟩
            · obtain ⟨s, hwr, heq⟩ := Option.map_eq_some_iff.mp hs
              cases heq
              obtain ⟨ht, hb, -, -⟩ := Store.write_eq hwr
              have hbuf : s.buf p = [.insertCue c (cueRow user' data nextRun began)] := by
                rw [hb, Function.update_self, hw₁.buf]
              have hk : ∀ q, q ≠ p → RowsKept q w₁ { w₁ with store := s } := fun q hq =>
                .of_kept (Store.write_kept hwr hq) rfl
              have htab : World.tables { w₁ with store := s } = w₁.tables := ht
              refine ⟨hI.of_step ?_ (fun hins => ?_) hk, fun q hq => ⟨hk q hq, fun _ => ?_⟩, ?_⟩
              · rw [htab]
                exact hI.limit
              · exact absurd (show _ ∈ s.buf p by rw [hbuf]; exact List.mem_cons_self ..)
                  (hins _ _)
              · rw [htab]
              · refine quota_commit hC rfl ⟨hbuf, hw₁.own, fun _ heq => ?_⟩
                rw [htab]
                exact hw₁.place trivial heq
          · cases hs
        · cases hs

end Creating

/-! ## Every run -/

theorem quota_programOf {call : Call} (henf : env.settings.disableQuotaEnforcement = false)
    (hb : w.store.buf p = []) (ho : own p w.history = [.began p call]) :
    SafeIf (Plainly (quotaIf env user) p) (QuotaInv env user) (QuotaRely user) p (fun _ _ => True)
      (programOf env p call) w := by
  have hadds : ∀ w w', Plainly (quotaIf env user) p w w' → addsAlone env user p w w' = true :=
    fun _ _ ⟨_, hl⟩ => (Bool.and_eq_true _ _ ▸ hl).1
  by_cases hcreate : ∃ user' data, call = .createCue user' data
  · obtain ⟨user', data, rfl⟩ := hcreate
    exact quota_createCue hadds henf ⟨hb, ho, nofun⟩
  · have hcall : ∀ user data, call ≠ .createCue user data :=
      fun user data heq => hcreate ⟨user, data, heq⟩
    have hnone : InsertsNone p w := fun c row => by
      rw [hb]
      exact List.not_mem_nil
    refine (SafeIf.of_always (K := InsertsNone p) (stmts_programOf env p call) ?_ ?_ hnone).weaken
      fun _ _ _ => trivial
    · intro w w' hins hr c row
      rw [hr.buf]
      exact hins c row
    · intro w w' hI hins hs hc
      have hpause : pausesUnfinished p w w' = true :=
        hc.elim fun _ hl => (Bool.and_eq_true _ _ ▸ hl).2
      obtain ⟨hI', hins'⟩ := hI.stmt hs hcall hins hpause
      exact ⟨hI', hins', fun q hq => .of_adds (hs.rowsKept hq) hq (hadds w w' hc)⟩

theorem keeps_quota (henf : env.settings.disableQuotaEnforcement = false) :
    Keeps env (fun _ => true) (quotaIf env user) (QuotaInv env user) (QuotaRely user) where
  refl := QuotaRely.refl
  trans _ _ _ _ h h' := h.trans h'
  rows h := h.toRowsKept
  plain _ hb ho := quota_programOf henf hb ho
  lock {p w ks s} hI hl := by
    have hs : Stmt p (fun _ => False) w { w with store := s } := .locked ks s hl
    have ht : World.tables { w with store := s } = w.tables := (Store.lock_eq hl).1
    refine ⟨hI.of_step (by rw [ht]; exact hI.limit) (fun hins => ?_) fun q hq => hs.rowsKept hq,
      fun q hq => ⟨hs.rowsKept hq, fun _ => by rw [ht]⟩⟩
    rw [view_lock hl, ht]
    refine hI.views p fun c row => ?_
    rw [← (Store.lock_eq hl).2.1]
    exact hins c row
  flush {p c patch old new now now' updatedAt w l} hI hb ho hl _ hp hc := by
    have hk : ∀ q, q ≠ p → RowsKept q w (w.commitEdit p (Tables.flushCue c old new)) :=
      fun q hq => flush_rowsKept hl hq
    have hadds := (Bool.and_eq_true _ _ ▸ hc).1
    refine ⟨hI.of_step ?_ (fun _ => ?_) hk, fun q hq => .of_adds (hk q hq) hq hadds⟩
    · have hsucc : activeCount user (w.commitEdit p (Tables.flushCue c old new)).tables ≤
          activeCount user w.tables + 1 := by
        refine activeCount_succ c fun c' hne => ?_
        rw [commitEdit_tables hb, cue_flushCue, if_neg hne]
      simp only [addsAlone, Bool.or_eq_true, decide_eq_true_eq, Bool.and_eq_true] at hadds
      rcases hadds with hle | ⟨-, hcreating | hlt⟩
      · exact Nat.le_trans hle hI.limit
      · simp [creating, ho] at hcreating
      · exact Nat.le_trans hsucc hlt
    · rw [commitEdit_view]
      exact .refl _
  delete {p ks user' c w} _ hI hb hl := by
    have hk : ∀ q, q ≠ p → RowsKept q w (w.commitEdit p (Tables.deleteRows ks)) :=
      fun q hq => delete_rowsKept hl hq
    have hnone : NoneAdded user w.tables (w.commitEdit p (Tables.deleteRows ks)).tables := by
      rw [commitEdit_tables hb]
      exact fun c cue hc hn => ⟨cue, cue_deleteRows hc, hn⟩
    refine ⟨hI.of_step (Nat.le_trans hnone.count hI.limit) (fun _ => ?_) hk,
      fun q hq => ⟨hk q hq, fun _ => hnone.count⟩⟩
    rw [commitEdit_view]
    exact .refl _
  begins hI _ _ := ⟨⟨hI.limit, hI.views⟩, fun q hq => ⟨.log fun heq =>
    hq (Option.some.inj heq).symm, fun _ => Nat.le_refl _⟩⟩
  leaves p how w hI := by
    have hk : ∀ q, q ≠ p → RowsKept q w (w.left p how) := fun q hq => left_rowsKept hq
    refine ⟨hI.of_step hI.limit (fun _ => ?_) hk, fun q hq => ⟨hk q hq, fun _ => Nat.le_refl _⟩⟩
    change NoneAdded user w.tables (schema.applyAll (Function.update w.store.buf p [] p) w.tables)
    rw [Function.update_self]
    exact .refl _
  duplicates hI _ := ⟨⟨hI.limit, hI.views⟩, fun q => ⟨.log nofun, fun _ => Nat.le_refl _⟩⟩
  ticks hI := ⟨⟨hI.limit, hI.views⟩, fun q =>
    ⟨⟨rfl, fun _ hk => hk, fun _ _ _ => rfl, rfl⟩, fun _ => Nat.le_refl _⟩⟩

/-- In every state of a run in which cues of the user are added alone and pauses revive none, at
most `active_cue_limit` of them count. -/
theorem active_cues_within_limit (henf : env.settings.disableQuotaEnforcement = false) {t : Time}
    {as : List EditAction} {s : EditSys} (hrun : editRun env (editInit t) as = some s)
    (hmeets : alongEdits env (fun _ => true) (quotaIf env user) (editInit t) as = true) :
    activeCount user s.shared.1.tables ≤ activeLimit env user := by
  have hinit : QuotaInv env user (editInit t).shared.1 :=
    ⟨Nat.zero_le _, fun _ _ _ _ hc => by
      simp [editInit, init, Store.start, World.view, Store.view, Tables.cue] at hc⟩
  exact ((keeps_quota henf).run hinit hrun hmeets).limit

/-- One user, who may have one active cue. -/
def oneCueEnv : Env :=
  { plainEnv with user := fun u => if u = 1 then some { activeCueLimit := 1 } else none }

def pongCue : CueCreate := { webhookCue with name := "pong" }

/-- A second cue is refused until the first is deleted. -/
def createAfterDelete : List EditAction :=
  playEdit 1 (.call (.createCue 1 webhookCue)) (gos 4 ++ [.fresh 7, .go]) ++ [.finish 1] ++
  playEdit 2 (.call (.createCue 1 pongCue)) (gos 3) ++ [.finish 2] ++
  playEdit 3 (.deleteCue 1 7) (gos 3) ++ [.finish 3] ++
  playEdit 4 (.call (.createCue 1 pongCue)) (gos 4 ++ [.fresh 8, .go]) ++ [.finish 4]

theorem active_cues_within_limit_one : ∃ s,
    editRun oneCueEnv (editInit 0) createAfterDelete = some s ∧
    (s.shared.1.tables.cue 8).isSome = true ∧ activeCount 1 s.shared.1.tables ≤ 1 := by
  have hrun : ((editRun oneCueEnv (editInit 0) createAfterDelete).map fun s =>
      (s.shared.1.tables.cue 8).isSome) = some true := by decide +kernel
  obtain ⟨s, hs, hc⟩ := Option.map_eq_some_iff.mp hrun
  have henf : oneCueEnv.settings.disableQuotaEnforcement = false := rfl
  exact ⟨s, hs, hc, active_cues_within_limit henf hs (by decide +kernel)⟩

/-- Two requests count before either inserts. -/
def createTwice : List EditAction :=
  playEdit 1 (.call (.createCue 1 webhookCue)) (gos 3) ++
  playEdit 2 (.call (.createCue 1 pongCue)) (gos 4 ++ [.fresh 8, .go]) ++ [.finish 2] ++
  ([.go, .fresh 7, .go].map (.advance 1)) ++ [.finish 1]

theorem active_cues_beyond_limit : oneCueEnv.settings.disableQuotaEnforcement = false ∧
    activeLimit oneCueEnv 1 = 1 ∧
    ∃ s, editRun oneCueEnv (editInit 0) createTwice = some s ∧
      activeCount 1 s.shared.1.tables = 2 := by
  have hrun : ((editRun oneCueEnv (editInit 0) createTwice).map fun s =>
      activeCount 1 s.shared.1.tables) = some 2 := by decide +kernel
  obtain ⟨s, hs, hc⟩ := Option.map_eq_some_iff.mp hrun
  exact ⟨rfl, rfl, s, hs, hc⟩

end CueApi.Scheduler
