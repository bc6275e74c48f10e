import CueApi.Library.Noted
import CueApi.Messages.Refinement

/-! What the dispatcher and the readers of events have noted, in every run: a job was made of an
outbox row that was due, and the events that were read are rows of the table. -/

namespace CueApi.Messages

open Scheduler (Pid Time UserId OutboxId rowsAt mem_rowsAt mem_keysWhere Picks)
open ReadCommitted Interleaving Prog Trace Recorded

variable {env : MsgEnv} {t₀ : MsgTables} {p : Pid} {w w' : MsgWorld} {s : MsgSys}
variable {W : MsgWrite → Prop} {α β : Type}

/-! ## Truths -/

/-- Time passes and rows are added. -/
structure Onward (w w' : MsgWorld) : Prop where
  clock : w.clock ≤ w'.clock
  grows : w.tables.Grows w'.tables

theorem Onward.refl (w : MsgWorld) : Onward w w := ⟨Int.le_refl _, .refl _⟩

theorem Onward.trans {w'' : MsgWorld} (h : Onward w w') (h' : Onward w' w'') : Onward w w'' :=
  ⟨Int.le_trans h.clock h'.clock, h.grows.trans h'.grows⟩

/-- The dispatcher has made the job of a row that was due. -/
def MadeWhenDue (w : MsgWorld) (n : OutboxId) (j : MsgJob) : Prop :=
  ∃ o, w.tables.outboxRow n = some o ∧ j = ⟨o.taskType, o.payload⟩ ∧
    (o.scheduledAt.all fun at' => at' ≤ w.clock) = true

/-- What a note tells. -/
def Reported (w : MsgWorld) : MsgMark → Prop
  | .enqueued n j => MadeWhenDue w n j
  | .read events => ∀ x ∈ events, ∃ e, w.tables.event x.1 = some e ∧ e.core = x.2.core
  | _ => True

theorem reported_onward (w w' : MsgWorld) (m : MsgMark) (hG : Onward w w') (h : Reported w m) :
    Reported w' m := by
  cases m with
  | enqueued n j =>
    obtain ⟨o, ho, rfl, hdue⟩ := h
    obtain ⟨o', ho', hlater⟩ := hG.grows.outboxRow ho
    refine ⟨o', ho', by rw [hlater.taskType, hlater.payload], ?_⟩
    rw [hlater.scheduledAt]
    cases hat : o.scheduledAt with
    | none => rfl
    | some at' =>
      rw [hat] at hdue
      exact decide_eq_true (Int.le_trans (of_decide_eq_true hdue) hG.clock)
  | read events =>
    intro x hx
    obtain ⟨e, he, hcore⟩ := h x hx
    obtain ⟨e', he', hcore'⟩ := hG.grows.event he
    exact ⟨e', he', hcore'.trans hcore⟩
  | _ => trivial

/-! ## Statements -/

/-- The open writes of `p` are of this kind. -/
def Buffered (W : MsgWrite → Prop) (p : Pid) (w : MsgWorld) : Prop := ∀ wr ∈ w.store.buf p, W wr

theorem Buffered.rely (h : Buffered W p w) (hr : Rely p w w') : Buffered W p w' := by
  unfold Buffered
  rw [hr.store.buf]
  exact h

/-- Each statement of the program, whose writes are of this kind, notes what is true. -/
abbrev Reports (W : MsgWrite → Prop) (p : Pid) (m : MsgProgram α) : Prop :=
  m.Always (fun _ => True) fun w w' => Buffered W p w → Says Onward Reported p w w' ∧ Buffered W p w'

/-- Writes that `pull_events` and the webhook batches have open when they read. -/
def subscriptionWrite : MsgWrite → Prop
  | .updateSubscriptions _ _ => True
  | _ => False

theorem view_subscriptionWrite (h : Buffered subscriptionWrite p w) :
    (w.view p).events = w.tables.events ∧ (w.view p).outbox = w.tables.outbox := by
  unfold Buffered at h
  unfold World.view Store.view World.tables
  generalize w.store.buf p = ws at h
  induction ws with
  | nil => exact ⟨rfl, rfl⟩
  | cons wr ws ih =>
    have ih := ih fun wr' hwr' => h wr' (List.mem_cons_of_mem _ hwr')
    have hwr := h wr List.mem_cons_self
    cases wr with
    | updateSubscriptions ss u => exact ih
    | _ => cases hwr

/-- A statement that leaves the tables, the open writes and the record. -/
theorem reports_quiet {act : MsgWorld → MsgAnswer → Option (β × MsgWorld)}
    (h : ∀ w a r w', act w a = some (r, w') → w'.tables = w.tables ∧ w'.store.buf p = w.store.buf p ∧
      w'.history = w.history ∧ w'.clock = w.clock) : Reports W p (Prog.step act) :=
  Always.step fun w a r w' _ hs hb => by
    obtain ⟨ht, hbuf, hh, hc⟩ := h w a r w' hs
    refine ⟨.quiet ⟨Int.le_of_eq hc.symm, by rw [ht]; exact .refl _⟩ hh, ?_⟩
    unfold Buffered
    rw [hbuf]
    exact hb

theorem reports_clock : Reports W p clock := reports_quiet fun w _ _ _ hs => by
  cases hs
  exact ⟨rfl, rfl, rfl, rfl⟩

theorem reports_select (q : MsgTables → β) : Reports W p (select p q) :=
  reports_quiet fun w _ _ _ hs => by
    cases hs
    exact ⟨rfl, rfl, rfl, rfl⟩

theorem reports_askBool : Reports W p askBool := reports_quiet fun w a _ _ hs => by
  split at hs <;> cases hs
  exact ⟨rfl, rfl, rfl, rfl⟩

theorem reports_selectDueSubscriptions {now : Time} {batchSize : Nat} :
    Reports W p (selectDueSubscriptions p now batchSize) := reports_quiet fun w a _ _ hs => by
  dsimp only at hs
  split at hs
  · split at hs
    · obtain ⟨s, hlock, heq⟩ := Option.map_eq_some_iff.mp hs
      cases heq
      obtain ⟨ht, hbuf, -, -⟩ := Store.lock_eq hlock
      exact ⟨ht, congrFun hbuf p, rfl, rfl⟩
    · cases hs
  · cases hs

/-- The queries of events find rows of the table. -/
theorem reports_readEvents {q : MsgTables → List (EventId × EventRow)}
    (hq : ∀ t, ∀ x ∈ q t, t.event x.1 = some x.2) :
    Reports subscriptionWrite p (readEvents p q) := Always.step fun w a r w' _ hs hb => by
  cases hs
  refine ⟨.note ⟨Int.le_refl _, .refl _⟩ rfl fun x hx => ⟨x.2, ?_, rfl⟩, hb⟩
  have hx := hq _ x hx
  unfold MsgTables.event at hx ⊢
  rw [(view_subscriptionWrite hb).1] at hx
  exact hx

theorem reports_deliverBatch {sub : Subscription} {events : List (EventId × EventRow)} :
    Reports W p (deliverBatch p sub events) := Always.step fun w a r w' _ hs hb => by
  split at hs
  · cases hs
    exact ⟨.note ⟨Int.le_refl _, .refl _⟩ rfl trivial, hb⟩
  · cases hs

theorem Buffered.write {wr : MsgWrite} {st : Store msgSchema Pid} (hb : Buffered W p w) (hW : W wr)
    (hs : w.store.write p wr = some st) : Buffered W p { w with store := st } := by
  unfold Buffered
  rw [show st.buf p = wr :: w.store.buf p by rw [(Store.write_eq hs).2.1, Function.update_self]]
  intro wr' hwr'
  rcases List.mem_cons.mp hwr' with rfl | hwr'
  · exact hW
  · exact hb wr' hwr'

theorem reports_write_of {act : MsgWorld → MsgAnswer → Option (β × MsgWorld)}
    (h : ∀ w a r w', act w a = some (r, w') → ∃ wr st, W wr ∧ w.store.write p wr = some st ∧
      w'.store = st ∧ w'.history = w.history ∧ w'.clock = w.clock) :
    Reports W p (Prog.step act) := Always.step fun w a r w' _ hs hb => by
  obtain ⟨wr, st, hW, hwr, rfl, hh, hc⟩ := h w a r w' hs
  have ht : w'.tables = w.tables := (Store.write_eq hwr).1
  exact ⟨.quiet ⟨Int.le_of_eq hc.symm, by rw [ht]; exact .refl _⟩ hh, hb.write hW hwr⟩

theorem reports_write {wr : MsgWrite} (hW : W wr) : Reports W p (write p wr) :=
  reports_write_of fun w _ _ _ hs => by
    obtain ⟨st, hwr, heq⟩ := Option.map_eq_some_iff.mp hs
    cases heq
    exact ⟨wr, st, hW, hwr, rfl, rfl, rfl⟩

theorem reports_updateSubscriptionsWhere {wh : SubscriptionId → Subscription → Bool}
    {u : SubUpdate} : Reports subscriptionWrite p (updateSubscriptionsWhere p wh u) :=
  reports_write_of fun w _ _ _ hs => by
    obtain ⟨st, hwr, heq⟩ := Option.map_eq_some_iff.mp hs
    cases heq
    exact ⟨_, st, by trivial, hwr, rfl, rfl, rfl⟩

theorem reports_insertEvent {row : EventRow} :
    Reports (fun _ => True) p (insertEvent p row) := Always.step fun w a r w' _ hs _ => by
  dsimp only at hs
  refine ⟨?_, fun _ _ => trivial⟩
  split at hs
  · split at hs
    · cases hs
      exact .quiet ⟨Int.le_refl _, .refl _⟩ rfl
    · split at hs
      · obtain ⟨st, hwr, heq⟩ := Option.map_eq_some_iff.mp hs
        cases heq
        have ht : st.tables = w.tables := (Store.write_eq hwr).1
        exact .quiet ⟨Int.le_refl _, by
          change w.tables.Grows st.tables
          rw [ht]
          exact .refl _⟩ rfl
      · cases hs
  · cases hs

theorem reports_commit : Reports W p (commit p) := Always.step fun w a r w' _ hs _ => by
  cases hs
  refine ⟨.commit ⟨Int.le_refl _, .applyAll _ _⟩ rfl, ?_⟩
  unfold Buffered
  rw [show (w.commit p).store.buf p = [] from Function.update_self p _ _]
  exact fun _ h => absurd h List.not_mem_nil

/-! ## Programs -/

theorem reports_orReply {x : Except Scheduler.ApiError β} {k : β → MsgProgram MsgReply}
    (hk : ∀ b, Reports W p (k b)) : Reports W p (orReply x k) := by
  cases x with
  | error e => trivial
  | ok b => exact hk b

theorem reports_pullEvents {user : UserId} {addr : Address} {since limit : Nat}
    {eventType : Option String} :
    Reports subscriptionWrite p (pullEvents env p user addr since limit eventType) := by
  refine (reports_select _).bind fun agent? => reports_orReply fun agent => ?_
  have hq : ∀ t, ∀ x ∈ pulledEvents t agent.1 since limit eventType, t.event x.1 = some x.2 :=
    fun t x hx => (mem_eventsWhere.mp (List.mem_of_mem_take hx)).1
  refine (reports_readEvents hq).bind fun events => Always.bind ?_ fun _ => trivial
  unfold advanceAckAfterPull
  split
  · trivial
  · exact reports_updateSubscriptionsWhere.bind fun _ => reports_commit

theorem reports_dispatchSubscription {x : SubscriptionId × Subscription} :
    Reports subscriptionWrite p (dispatchSubscription env p x) := by
  have hq : ∀ t, ∀ y ∈ pendingEvents t x.2, t.event y.1 = some y.2 :=
    fun t y hy => (mem_eventsWhere.mp (List.mem_of_mem_take hy)).1
  refine (reports_readEvents hq).bind fun events => ?_
  split
  · trivial
  refine Always.bind ?_ fun fired => ?_
  · unfold applyTierPolicy
    split
    · exact reports_askBool.bind fun _ => trivial
    · trivial
  dsimp only
  split
  · trivial
  refine reports_deliverBatch.bind fun status => reports_clock.bind fun now => ?_
  refine Always.bind ?_ fun _ => trivial
  exact reports_write trivial

theorem reports_dispatchSubscriptionEvents :
    Reports subscriptionWrite p (dispatchSubscriptionEvents env p) := by
  refine reports_clock.bind fun now => reports_selectDueSubscriptions.bind fun subs => ?_
  refine (Always.mapEach (fun x => reports_dispatchSubscription) subs).bind fun attempts => ?_
  exact reports_commit.bind fun _ => trivial

theorem reports_emitDigest {now began : Time} {group : AgentId × List (EventId × EventRow)} :
    Reports (fun _ => True) p (emitDigest env p now began group) := by
  unfold emitDigest
  split
  · trivial
  refine reports_insertEvent.bind fun _ => Always.bind ?_ fun _ => trivial
  exact reports_write trivial

/-! ## Runs -/

/-- What a program with truthful statements notes is true. -/
theorem Reports.tells {m : MsgProgram α} (hm : Reports W p m) (hw : Buffered W p w) :
    Tells Onward Reported p (fun _ w' => Buffered W p w') m w :=
  .of_always reported_onward (fun _ _ => Buffered.rely) hm hw

theorem tells_emitDigests (hw : Buffered subscriptionWrite p w) :
    Tells Onward Reported p (fun _ _ => True) (emitDigests env p) w := by
  have hq : ∀ t, ∀ x ∈ undigested t, t.event x.1 = some x.2 :=
    fun t x hx => (mem_eventsWhere.mp hx).1
  refine Safe.bind (reports_clock.tells hw) fun now w₁ hw₁ => ?_
  refine Safe.bind (reports_clock.tells hw₁) fun began w₂ hw₂ => ?_
  refine Safe.bind ((reports_readEvents hq).tells hw₂) fun events w₃ _ => ?_
  have hrest : Reports (fun _ => True) p (do
      let emitted ← Prog.mapEach (emitDigest env p now began) (groupedByRecipient events)
      commit p
      return MsgReply.count (emitted.filter id).length) := by
    refine (Always.mapEach (fun group => reports_emitDigest) _).bind fun emitted => ?_
    exact reports_commit.bind fun _ => trivial
  exact (hrest.tells fun _ _ => trivial).weaken fun _ _ _ => trivial

theorem tells_dispatchRow {x : OutboxId × MsgOutboxRow} {todo : List (OutboxId × MsgOutboxRow)}
    (hx : ∀ y ∈ x :: todo, MadeWhenDue w y.1 ⟨y.2.taskType, y.2.payload⟩) :
    Tells Onward Reported p
      (fun _ w' => ∀ y ∈ todo, MadeWhenDue w' y.1 ⟨y.2.taskType, y.2.payload⟩)
      (dispatchRow p x) w := by
  have later : ∀ {w'}, Onward w w' → ∀ y ∈ x :: todo, MadeWhenDue w' y.1 ⟨y.2.taskType, y.2.payload⟩ :=
    fun hG y hy => reported_onward _ _ (.enqueued _ _) hG (hx y hy)
  refine Tells.step_bind reported_onward fun w₁ _ hG₁ a sent w₂ hs => ?_
  split at hs
  · cases hs
    have hG₂ : Onward w₁ (note w₁ p (.enqueued x.1 ⟨x.2.taskType, x.2.payload⟩)) :=
      ⟨Int.le_refl _, .refl _⟩
    refine ⟨.note hG₂ rfl (later (hG₁.trans hG₂) x List.mem_cons_self), ?_⟩
    refine Tells.step_bind reported_onward fun w₃ _ hG₃ a r w₄ hs => ?_
    obtain ⟨st, hwr, heq⟩ := Option.map_eq_some_iff.mp hs
    cases heq
    have ht : st.tables = w₃.tables := (Store.write_eq hwr).1
    have hG₄ : Onward w₃ { w₃ with store := st } := ⟨Int.le_refl _, by
      change w₃.tables.Grows st.tables
      rw [ht]
      exact .refl _⟩
    exact ⟨.quiet hG₄ rfl, fun y hy =>
      later (((hG₁.trans hG₂).trans hG₃).trans hG₄) y (List.mem_cons_of_mem _ hy)⟩
  · cases hs
    exact ⟨.quiet (.refl _) rfl, fun y hy => later hG₁ y (List.mem_cons_of_mem _ hy)⟩
  · cases hs

theorem tells_dispatchOutbox (hw : w.store.buf p = []) :
    Tells Onward Reported p (fun _ _ => True) (dispatchOutbox p) w := by
  refine Tells.step_bind reported_onward fun w₁ hr₁ _ a now w₂ hs => ?_
  cases hs
  refine ⟨.quiet (.refl _) rfl, ?_⟩
  refine Tells.step_bind reported_onward fun w₃ hr₃ hG₃ a rows w₄ hs => ?_
  dsimp only at hs
  split at hs
  · rename_i ids
    split at hs
    · rename_i hpick
      obtain ⟨st, hlock, heq⟩ := Option.map_eq_some_iff.mp hs
      cases heq
      have ht : st.tables = w₃.tables := (Store.lock_eq hlock).1
      have hG₄ : Onward w₃ { w₃ with store := st } := ⟨Int.le_refl _, by
        change w₃.tables.Grows st.tables
        rw [ht]
        exact .refl _⟩
      refine ⟨.quiet hG₄ rfl, ?_⟩
      have hbuf : w₃.store.buf p = [] := hr₃.store.buf.trans (hr₁.store.buf.trans hw)
      have hview : w₃.view p = w₃.tables := by
        unfold World.view Store.view
        rw [hbuf]
        rfl
      have hdue : ∀ x ∈ rowsAt (w₃.view p).outbox ids,
          MadeWhenDue { w₃ with store := st } x.1 ⟨x.2.taskType, x.2.payload⟩ := by
        intro x hx
        obtain ⟨hid, hl⟩ := mem_rowsAt hx
        obtain ⟨o, ho, hwh⟩ := (mem_keysWhere _ _ _).mp (hpick.2.2 x.1 hid)
        obtain rfl : x.2 = o := Option.some.inj (hl.symm.trans ho)
        simp only [outboxDue, Bool.and_eq_true] at hwh
        refine ⟨x.2, ?_, rfl, ?_⟩
        · change st.tables.outboxRow x.1 = some x.2
          rw [ht]
          rw [hview] at hl
          exact hl
        · cases hat : x.2.scheduledAt with
          | none => rfl
          | some at' =>
            have hle := hwh.1.2
            rw [hat] at hle
            exact decide_eq_true (Int.le_trans (of_decide_eq_true hle) hG₃.clock)
      refine Safe.bind (Safe.mapEach (J := fun _ todo w => ∀ y ∈ todo,
        MadeWhenDue w y.1 ⟨y.2.taskType, y.2.payload⟩) (fun _ x todo w h => tells_dispatchRow h) []
        hdue) fun sent w₅ _ => ?_
      have hrest : Reports (fun _ => True) p (do
          commit p
          return MsgReply.count (sent.filter id).length) := reports_commit.bind fun _ => trivial
      exact (hrest.tells fun _ _ => trivial).weaken fun _ _ _ => trivial
    · cases hs
  · cases hs

/-- The dispatcher and the readers of events. -/
def MsgCall.reporter (call : MsgCall) : Prop := call = .dispatchOutbox ∨ call.readsEvents = true

theorem truthful (ht : t₀.Blank) :
    Truthful t₀ (MsgAllowed env t₀) (msgProgramOf env) MsgCall.reporter Onward Reported where
  began h p call ha := ha
  refl := .refl
  trans := .trans
  stays := reported_onward
  moves {s s' a} hs hstep := by
    obtain ⟨hs', hsuf⟩ := hs.step (msgKeeps env ht) hstep
    obtain ⟨q, hq⟩ : ∃ q, a.pid ≠ some q := by
      cases hp : a.pid with
      | none => exact ⟨0, by simp⟩
      | some p =>
        obtain ⟨q, hq⟩ := exists_ne p
        exact ⟨q, fun heq => hq (Option.some.inj heq).symm⟩
    refine ⟨(hs.others hstep hq).1.clock, ?_⟩
    rw [hs.good.1.tables, hs'.good.1.tables]
    exact .replayed_suffix hsuf
  tells {p call w} hkind hw := by
    have hbuf : Buffered subscriptionWrite p w := by
      unfold Buffered
      rw [hw.buf]
      exact fun _ h => absurd h List.not_mem_nil
    have done : ∀ {m : MsgProgram MsgReply}, Reports subscriptionWrite p m →
        Tells Onward Reported p (fun _ _ => True) m w :=
      fun hm => (hm.tells hbuf).weaken fun _ _ _ => trivial
    rcases hkind with rfl | hreads
    · exact tells_dispatchOutbox hw.buf
    cases call with
    | pullEvents user addr since limit eventType => exact done reports_pullEvents
    | dispatchSubscriptionEvents => exact done reports_dispatchSubscriptionEvents
    | emitDigests => exact tells_emitDigests hbuf
    | _ => cases hreads

/-- In every run the notes of the dispatcher and of the readers are true. -/
theorem MsgReachable.reported (ht : t₀.Blank) (hr : MsgReachable env t₀ s) {m : MsgMark}
    (hm : .marked p m ∈ s.shared.history) : Reported s.shared m := by
  obtain ⟨h₀, hs⟩ := mem_split hm
  have hl := hr.legal ht
  obtain ⟨call, hc, hmark⟩ := hl.at hs
  have hcall := callOf_suffix (fun _ _ _ ha => ha) hl ((List.suffix_cons _ _).trans hs) hc
  obtain ⟨concurrent, now, as, hrun⟩ := hr
  have told : call.reporter → Reported s.shared m := fun hkind =>
    told_of_run (truthful ht) (msgKeeps env ht) hrun hcall hkind m hm
  cases m with
  | enqueued n j => exact told (.inl hmark.1)
  | read events => exact told (.inr hmark)
  | _ => trivial

end CueApi.Messages
