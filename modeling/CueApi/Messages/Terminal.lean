import CueApi.Library.Guarded
import CueApi.Messages.System
import CueApi.Scheduler.Statements

/-! Acked and expired messages stay as they are, in every run in which the UPDATEs by id (the
routing of a push result, and the flush of `mark_read` and `mark_acked`) do not meet one. -/

namespace CueApi.Messages

open Scheduler ReadCommitted Interleaving Prog

variable {env : MsgEnv} {p q : Pid} {w w' : MsgWorld}

/-! ## The condition -/

/-- The states in which an UPDATE by id may meet its message. -/
def MsgUpdate.mayMeet : MsgUpdate → DeliveryState → Bool
  | .pushDelivered _, st | .pushRetry, st | .pushFailed _, st | .markRead _, st => !st.terminal
  | .markAcked _, st => st ≠ .expired
  | _, _ => true

/-- The statement meets its messages in such states. -/
def meetsOpen (p : Pid) (w w' : MsgWorld) : Bool :=
  match w'.store.buf p with
  | .updateMessages ms u :: ws => ws ≠ w.store.buf p ||
      ms.all fun m => ((w.view p).message m).all fun r => u.mayMeet r.deliveryState
  | _ => true

theorem meetsOpen_spec {ms : List MsgId} {u : MsgUpdate} {m : MsgId} {r : Message}
    (hm : meetsOpen p w w' = true) (hb : w'.store.buf p = .updateMessages ms u :: w.store.buf p)
    (hmem : m ∈ ms) (hr : (w.view p).message m = some r) : u.mayMeet r.deliveryState = true := by
  simp only [meetsOpen, hb, ne_eq, not_true_eq_false, decide_false, Bool.false_or,
    List.all_eq_true] at hm
  simpa [hr] using hm m hmem

/-! ## Statements -/

/-- What the WHERE clause of an UPDATE has seen of a row. -/
def MsgUpdate.Seen : MsgUpdate → Message → Prop
  | .claim expected _, r => r.deliveryState = expected ∧ expected.terminal = false
  | .polled _, r => r.deliveryState = .queued
  | .expire, r => r.deliveryState.terminal = false
  | _, _ => True

/-- The sweep of stale deliveries writes it. -/
def MsgUpdate.stale : MsgUpdate → Bool
  | .staleRetry | .staleFailed _ => true
  | _ => false

/-- Every row that the UPDATE matches is as its WHERE clause says. -/
def Matches (p : Pid) (w : MsgWorld) : MsgWrite → Prop
  | .updateMessages ms u => ∀ m ∈ ms, ∀ r, (w.view p).message m = some r → u.Seen r
  | _ => True

/-- One statement of `p`, with the writes `W`. -/
inductive MsgStmt (p : Pid) (W : MsgWrite → Prop) (w w' : MsgWorld) : Prop
  | quiet : w'.store = w.store → MsgStmt p W w w'
  | locked (ks : List MsgKey) : w.store.lock p ks = some w'.store → MsgStmt p W w w'
  | wrote (wr : MsgWrite) : W wr → Matches p w wr → w.store.write p wr = some w'.store →
      MsgStmt p W w w'
  | committed : w'.store = w.store.commit p → MsgStmt p W w w'

theorem MsgStmt.kept {W : MsgWrite → Prop} (hs : MsgStmt p W w w') (hq : q ≠ p) :
    Store.Kept q w.store w'.store := by
  cases hs with
  | quiet heq => exact heq ▸ .refl q w.store
  | locked ks hl => exact Store.lock_kept hl hq
  | wrote wr _ _ hwr => exact Store.write_kept hwr hq
  | committed heq => exact heq ▸ Store.commit_kept w.store hq

/-! ## The invariant -/

/-- Terminal messages of `t` are as they were in `t'`. -/
def TerminalKept (t t' : MsgTables) : Prop :=
  ∀ m r, t.message m = some r → r.deliveryState.terminal = true →
    ∃ r', t'.message m = some r' ∧ r'.deliveryState = r.deliveryState

theorem TerminalKept.refl (t : MsgTables) : TerminalKept t t := fun _ r hr _ => ⟨r, hr, rfl⟩

theorem TerminalKept.trans {t t' t'' : MsgTables} (h : TerminalKept t t')
    (h' : TerminalKept t' t'') : TerminalKept t t'' := by
  intro m r hr hterm
  obtain ⟨r', hr', hst⟩ := h m r hr hterm
  obtain ⟨r'', hr'', hst'⟩ := h' m r' hr' (by rw [hst]; exact hterm)
  exact ⟨r'', hr'', hst'.trans hst⟩

/-- No open transaction changes the state of a terminal message. -/
def Settled (w : MsgWorld) : Prop := ∀ q, TerminalKept w.tables (w.view q)

structure MsgRely (q : Pid) (w w' : MsgWorld) : Prop where
  store : Store.Kept q w.store w'.store
  terminal : TerminalKept w.tables w'.tables

theorem MsgRely.refl (q : Pid) (w : MsgWorld) : MsgRely q w w := ⟨.refl q w.store, .refl w.tables⟩

theorem MsgRely.trans {w'' : MsgWorld} (h : MsgRely q w w') (h' : MsgRely q w' w'') :
    MsgRely q w w'' := ⟨h.store.trans h'.store, h.terminal.trans h'.terminal⟩

theorem message_congr {m : MsgId} (wr : MsgWrite) (t t' : MsgTables)
    (ht : t'.message m = t.message m) :
    (MsgTables.apply wr t').message m = (MsgTables.apply wr t).message m := by
  rw [MsgTables.message_apply, MsgTables.message_apply]
  cases wr <;> simp only [ht]

/-- A step of `p` is to be checked on the view of `p` only. -/
theorem Settled.of_step (hI : Settled w) (hp : TerminalKept w'.tables (w'.view p))
    (hk : ∀ q, q ≠ p → Store.Kept q w.store w'.store) : Settled w' := by
  intro q
  by_cases hq : q = p
  · subst hq
    exact hp
  · intro m r hr hterm
    rcases Store.view_row_cases (S := msgSchema) (k := MsgKey.message m) (hk q hq).buf
      ((hk q hq).rows _) message_congr with ⟨hview, htab⟩ | hnow
    · change w'.tables.message m = w.tables.message m at htab
      obtain ⟨r', hr', hst⟩ := hI q m r (htab ▸ hr) hterm
      exact ⟨r', Eq.trans hview hr', hst⟩
    · exact ⟨r, Eq.trans hnow hr, rfl⟩

theorem Message.freeKey_deliveryState (entries : List (UserId × String)) (r : Message) :
    (r.freeKey entries).deliveryState = r.deliveryState := by
  unfold Message.freeKey
  split <;> rfl

/-- An UPDATE that has seen an open row, or meets one, leaves a terminal state as it is. -/
theorem MsgUpdate.set_terminal {u : MsgUpdate} {r : Message} (hseen : u.Seen r)
    (hmeet : u.mayMeet r.deliveryState = true)
    (hstale : u.stale = true → r.deliveryState.terminal = false)
    (hterm : r.deliveryState.terminal = true) : (u.set r).deliveryState = r.deliveryState := by
  cases u with
  | claim expected now =>
    obtain ⟨rfl, hno⟩ := hseen
    rw [hno] at hterm
    cases hterm
  | polled now =>
    have hq : r.deliveryState = .queued := hseen
    rw [hq] at hterm
    cases hterm
  | expire =>
    have hno : r.deliveryState.terminal = false := hseen
    rw [hno] at hterm
    cases hterm
  | staleRetry =>
    rw [hstale rfl] at hterm
    cases hterm
  | staleFailed now =>
    rw [hstale rfl] at hterm
    cases hterm
  | markAcked now =>
    have hne : r.deliveryState ≠ .expired := of_decide_eq_true hmeet
    have hacked : r.deliveryState = .acked := by
      simpa [DeliveryState.terminal, hne] using hterm
    exact hacked.symm
  | pushDelivered now => simp [MsgUpdate.mayMeet, hterm] at hmeet
  | pushRetry => simp [MsgUpdate.mayMeet, hterm] at hmeet
  | pushFailed now => simp [MsgUpdate.mayMeet, hterm] at hmeet
  | markRead now => simp [MsgUpdate.mayMeet, hterm] at hmeet

theorem msgView_write {wr : MsgWrite} (hs : w.store.write p wr = some w'.store) :
    w'.view p = MsgTables.apply wr (w.view p) ∧ w'.tables = w.tables := by
  obtain ⟨ht, hb, -, -⟩ := Store.write_eq hs
  refine ⟨?_, ht⟩
  unfold Recorded.World.view Store.view
  rw [ht, hb, Function.update_self]
  rfl

theorem Settled.stmt {W : MsgWrite → Prop} (hI : Settled w) (hs : MsgStmt p W w w')
    (hmeets : meetsOpen p w w' = true)
    (hstale : ∀ ms u, W (.updateMessages ms u) → u.stale = true → ∀ m ∈ ms, ∀ r,
      (w.view p).message m = some r → r.deliveryState.terminal = false) :
    Settled w' ∧ ∀ q, q ≠ p → MsgRely q w w' := by
  have hk : ∀ q, q ≠ p → Store.Kept q w.store w'.store := fun q hq => hs.kept hq
  have hsame : w'.tables = w.tables → TerminalKept w.tables w'.tables := fun ht => by
    rw [ht]
    exact .refl _
  cases hs with
  | quiet heq =>
    have ht : w'.tables = w.tables := congrArg Store.tables heq
    refine ⟨hI.of_step (p := p) ?_ hk, fun q hq => ⟨hk q hq, hsame ht⟩⟩
    rw [ht, show w'.view p = w.view p from congrArg (Store.view · p) heq]
    exact hI p
  | locked ks hl =>
    obtain ⟨ht, hb, -, -⟩ := Store.lock_eq hl
    refine ⟨hI.of_step (p := p) ?_ hk, fun q hq => ⟨hk q hq, hsame ht⟩⟩
    have hv : w'.view p = w.view p := by
      unfold Recorded.World.view Store.view
      rw [ht, hb]
    rw [hv, show w'.tables = w.tables from ht]
    exact hI p
  | wrote wr hW hmatch hwr =>
    obtain ⟨hv, ht⟩ := msgView_write hwr
    refine ⟨hI.of_step (p := p) ?_ hk, fun q hq => ⟨hk q hq, hsame ht⟩⟩
    rw [hv, ht]
    intro m r hr hterm
    obtain ⟨r', hr', hst⟩ := hI p m r hr hterm
    rw [MsgTables.message_apply, hr']
    cases wr with
    | insertMessage m' row =>
      dsimp only
      split <;> exact ⟨r', rfl, hst⟩
    | freeKeys xs =>
      dsimp only
      split
      · exact ⟨_, rfl, (Message.freeKey_deliveryState _ r').trans hst⟩
      · exact ⟨r', rfl, hst⟩
    | updateMessages ms u =>
      dsimp only
      split
      · rename_i hmem
        have hbuf : w'.store.buf p = .updateMessages ms u :: w.store.buf p := by
          rw [(Store.write_eq hwr).2.1, Function.update_self]
        refine ⟨u.set r', rfl, ?_⟩
        rw [← hst]
        refine MsgUpdate.set_terminal (hmatch m hmem r' hr') (meetsOpen_spec hmeets hbuf hmem hr')
          (fun hu => hstale ms u hW hu m hmem r' hr') (by rw [hst]; exact hterm)
      · exact ⟨r', rfl, hst⟩
    | _ => exact ⟨r', rfl, hst⟩
  | committed heq =>
    have ht : w'.tables = w.view p := congrArg Store.tables heq
    have hv : w'.view p = w'.tables := by
      unfold Recorded.World.view Store.view
      rw [heq, show (w.store.commit p).buf p = [] from Function.update_self _ _ _]
      exact congrArg Store.tables heq.symm
    refine ⟨hI.of_step (p := p) ?_ hk, fun q hq => ⟨hk q hq, ?_⟩⟩
    · rw [hv]
      exact .refl _
    · rw [ht]
      exact hI p

/-! ## Programs -/

/-- Each statement of the program is one of `p` with the writes `W`. -/
abbrev MsgStmts {α : Type} (p : Pid) (W : MsgWrite → Prop) (m : MsgProgram α) : Prop :=
  m.Always (fun _ => True) (MsgStmt p W)

/-- No write of the stale sweep. -/
def plainWrite : MsgWrite → Prop
  | .updateMessages _ u => u.stale = false
  | _ => True

section Rules

variable {W : MsgWrite → Prop}

/-- A step that leaves the store. -/
theorem msgStmts_quiet {β : Type} {act : MsgWorld → MsgAnswer → Option (β × MsgWorld)}
    (h : ∀ w a r w', act w a = some (r, w') → w'.store = w.store) :
    MsgStmts p W (Prog.step act) :=
  Always.step fun w a r w' _ hs => .quiet (h w a r w' hs)

theorem msgStmts_clock : MsgStmts p W clock := msgStmts_quiet fun w _ _ _ hs => by
  cases hs
  rfl

theorem msgStmts_select {β : Type} (f : MsgTables → β) : MsgStmts p W (select p f) :=
  msgStmts_quiet fun w _ _ _ hs => by
    cases hs
    rfl

theorem msgStmts_lookup {β : Type} (f : MsgTables → Option β) : MsgStmts p W (lookup p f) :=
  msgStmts_quiet fun w _ _ _ hs => by
    split at hs <;> cases hs <;> rfl

/-- A step that asks elsewhere. -/
theorem msgStmts_selectMessageForUser (user : UserId) (m : MsgId) :
    MsgStmts p W (selectMessageForUser p user m) :=
  msgStmts_quiet fun w _ _ _ hs => by
    split at hs <;> cases hs <;> rfl

theorem msgStmts_countAttempts (m : MsgId) : MsgStmts p W (countAttempts p m) :=
  msgStmts_quiet fun w _ _ _ hs => by
    cases hs
    rfl

theorem msgStmts_askCount : MsgStmts p W askCount := msgStmts_quiet fun w a _ _ hs => by
  split at hs <;> cases hs <;> rfl

theorem msgStmts_askBool : MsgStmts p W askBool := msgStmts_quiet fun w a _ _ hs => by
  split at hs <;> cases hs
  rfl

theorem msgStmts_updateMessagesWhere {wh : MsgId → Message → Bool} {u : MsgUpdate}
    (hW : ∀ ms, (∀ m ∈ ms, ∃ r, wh m r = true) → W (.updateMessages ms u))
    (hseen : ∀ m r, wh m r = true → u.Seen r) : MsgStmts p W (updateMessagesWhere p wh u) :=
  Always.step fun w _ _ _ _ hs => by
    dsimp only at hs
    split at hs
    · cases hs
      exact .quiet rfl
    obtain ⟨s, hwr, heq⟩ := Option.map_eq_some_iff.mp hs
    cases heq
    have hmem := fun m hm => (mem_keysWhere (w.view p).messages wh m).mp hm
    refine .wrote _ (hW _ fun m hm => ?_) (fun m hm r hr => ?_) hwr
    · obtain ⟨v, -, hwh⟩ := hmem m hm
      exact ⟨v, hwh⟩
    obtain ⟨v, hv, hwh⟩ := hmem m hm
    change (w.view p).messages.lookup m = some r at hr
    rw [hr] at hv
    cases hv
    exact hseen m r hwh

theorem msgStmts_updateMessageById {u : MsgUpdate} {m : MsgId}
    (hW : ∀ ms, (∀ m' ∈ ms, m' = m) → W (.updateMessages ms u)) (hseen : ∀ r, u.Seen r) :
    MsgStmts p W (updateMessageById p m u) := by
  refine msgStmts_updateMessagesWhere (fun ms hms => hW ms fun m' hm' => ?_) fun _ r _ => hseen r
  obtain ⟨r, hr⟩ := hms m' hm'
  exact of_decide_eq_true hr

theorem msgStmts_insertOutbox {row : MsgOutboxRow} (hW : ∀ n, W (.insertOutbox n row)) :
    MsgStmts p W (insertOutbox p row) :=
  Always.step fun w a _ _ _ hs => by
    split at hs
    · split at hs
      · obtain ⟨s, hwr, heq⟩ := Option.map_eq_some_iff.mp hs
        cases heq
        exact .wrote _ (hW _) trivial hwr
      · cases hs
    · cases hs

/-- A statement that writes what is no UPDATE of `messages`. -/
theorem msgStmts_write {wr : MsgWrite} (hW : W wr) (hm : ∀ ms u, wr ≠ .updateMessages ms u) :
    MsgStmts p W (write p wr) :=
  Always.step fun w _ _ _ _ hs => by
    obtain ⟨s, hwr, heq⟩ := Option.map_eq_some_iff.mp hs
    cases heq
    refine .wrote _ hW ?_ hwr
    cases wr with
    | updateMessages ms u => exact absurd rfl (hm ms u)
    | _ => trivial

theorem msgStmts_bumpLastSeen {a : AgentId} {now : Time} (hW : W (.bumpLastSeen a now)) :
    MsgStmts p W (write p (.bumpLastSeen a now)) := msgStmts_write hW (by simp)

theorem msgStmts_commit : MsgStmts p W (commit p) := Always.step fun w _ _ _ _ hs => by
  cases hs
  exact .committed rfl

theorem msgStmts_incrBy (user : UserId) (n : Int) : MsgStmts p W (incrBy user n) :=
  msgStmts_quiet fun w a _ _ hs => by
    split at hs <;> cases hs <;> rfl

theorem msgStmts_expireCounter : MsgStmts p W expireCounter :=
  msgStmts_quiet fun w a _ _ hs => by
    split at hs <;> cases hs <;> rfl

theorem msgStmts_deliverMessageToWebhook (m : MsgId) (toAgent : Agent) :
    MsgStmts p W (deliverMessageToWebhook p m toAgent) := by
  unfold deliverMessageToWebhook
  split
  · trivial
  · refine msgStmts_quiet fun w a _ _ hs => ?_
    split at hs <;> cases hs
    rfl

end Rules

theorem msgStmts_loadMessageContext {W : MsgWrite → Prop} {m : MsgId} {a : AgentId} :
    MsgStmts p W (loadMessageContext env p m a) := by
  refine (msgStmts_lookup _).bind fun msg? => ?_
  split
  · trivial
  · refine (msgStmts_lookup _).bind fun toAgent? => ?_
    split
    · trivial
    · refine (msgStmts_lookup _).bind fun sender? => ?_
      split <;> trivial

theorem msgStmts_checkConcurrentCapOrRecycle {user : UserId} {task : MsgTask}
    {payload : MsgPayload} :
    MsgStmts p plainWrite (checkConcurrentCapOrRecycle env p user task payload) := by
  unfold checkConcurrentCapOrRecycle
  split
  · trivial
  · refine (msgStmts_incrBy _ _).bind fun current? => ?_
    split
    · trivial
    · refine msgStmts_expireCounter.bind fun set => ?_
      split
      · trivial
      · split
        · refine (msgStmts_incrBy _ _).bind fun undone? => ?_
          split
          · trivial
          · refine msgStmts_clock.bind fun now => ?_
            refine (msgStmts_insertOutbox fun _ => trivial).bind fun _ => ?_
            exact msgStmts_commit.bind fun _ => trivial
        · trivial

theorem msgStmts_releaseConcurrent {W : MsgWrite → Prop} {user : UserId} {key : Bool} :
    MsgStmts p W (releaseConcurrent env user key) := by
  unfold releaseConcurrent
  split
  · exact (msgStmts_incrBy _ _).bind fun _ => trivial
  · trivial

theorem msgStmts_claimMessage {m : MsgId} {expected : DeliveryState}
    (hexp : expected.terminal = false) : MsgStmts p plainWrite (claimMessage p m expected) := by
  refine msgStmts_clock.bind fun now => ?_
  refine (msgStmts_updateMessagesWhere (fun _ _ => rfl) fun m r hwh => ?_).bind fun claimed => ?_
  · simp only [Bool.and_eq_true, decide_eq_true_eq] at hwh
    exact ⟨hwh.2, hexp⟩
  · exact msgStmts_commit.bind fun _ => trivial

theorem msgStmts_routeAttemptOutcome {m : MsgId} {a : AgentId} {toAgent : Agent} {attempt : Nat}
    {result : DeliveryAttemptResult} :
    MsgStmts p plainWrite (routeAttemptOutcome p m a toAgent attempt result) := by
  have byId : ∀ u : MsgUpdate, u.stale = false → (∀ r, u.Seen r) →
      MsgStmts p plainWrite (do
        let _ ← updateMessageById p m u
        commit p) := fun u hu hseen =>
    (msgStmts_updateMessageById (fun _ _ => hu) hseen).bind fun _ => msgStmts_commit
  refine msgStmts_clock.bind fun now => ?_
  split
  · exact byId _ rfl fun _ => trivial
  · split
    · split
      · trivial
      · exact (msgStmts_insertOutbox fun _ => trivial).bind fun _ => byId _ rfl fun _ => trivial
    · exact byId _ rfl fun _ => trivial

theorem msgStmts_pushMessage {task : MsgTask} {expected : DeliveryState} {attempt : Nat}
    {payload : MsgPayload} (hexp : expected.terminal = false) :
    MsgStmts p plainWrite (pushMessage env p task expected attempt payload) := by
  refine msgStmts_loadMessageContext.bind fun ctx? => ?_
  split
  · trivial
  · refine msgStmts_checkConcurrentCapOrRecycle.bind fun cap => ?_
    split
    · trivial
    · refine (msgStmts_claimMessage hexp).bind fun claimed => ?_
      split
      · refine (msgStmts_select _).bind fun row? => ?_
        split
        · trivial
        · refine (msgStmts_deliverMessageToWebhook _ _).bind fun result => ?_
          exact msgStmts_routeAttemptOutcome.bind fun _ => msgStmts_releaseConcurrent
      · exact msgStmts_releaseConcurrent

theorem msgStmts_listInbox {user : UserId} {q : InboxQuery} :
    MsgStmts p plainWrite (listInbox env p user q) := by
  refine (msgStmts_select _).bind fun agent? => ?_
  split
  · trivial
  · split
    · trivial
    · refine Always.bind ?_ fun counterpart? => ?_
      · unfold resolveCounterpart
        split
        · trivial
        · exact msgStmts_select _
      · split
        · trivial
        · rename_i counterpart
          refine msgStmts_clock.bind fun nowGate => ?_
          dsimp only
          split
          · exact (msgStmts_select _).bind fun n => trivial
          · split
            · refine msgStmts_clock.bind fun updNow => ?_
              refine (msgStmts_updateMessagesWhere (fun _ _ => rfl) fun m r hwh => ?_).bind
                fun _ => ?_
              · simp only [Bool.and_eq_true, decide_eq_true_eq] at hwh
                exact hwh.1.1.2
              · refine (msgStmts_bumpLastSeen trivial).bind fun _ => msgStmts_commit.bind fun _ => ?_
                exact (msgStmts_select _).bind fun total => (msgStmts_select _).bind fun _ => trivial
            · refine (msgStmts_bumpLastSeen trivial).bind fun _ => msgStmts_commit.bind fun _ => ?_
              exact (msgStmts_select _).bind fun total => (msgStmts_select _).bind fun _ => trivial

theorem msgStmts_flushMessage {m : MsgId} {u : MsgUpdate} (hu : u.stale = false)
    (hseen : ∀ r, u.Seen r) : MsgStmts p plainWrite (flushMessage p m u) := by
  refine (msgStmts_updateMessageById (fun _ _ => hu) hseen).bind fun hit => ?_
  split
  · trivial
  · refine msgStmts_commit.bind fun _ => (msgStmts_select _).bind fun row? => ?_
    split <;> trivial

theorem msgStmts_markRead {user : UserId} {m : MsgId} {text : String} :
    MsgStmts p plainWrite (markRead p user m text) := by
  refine (msgStmts_selectMessageForUser _ _).bind fun msg? => ?_
  split
  · trivial
  · split
    · trivial
    · split
      · trivial
      · exact msgStmts_clock.bind fun now => msgStmts_flushMessage rfl fun _ => trivial

theorem msgStmts_markAcked {user : UserId} {m : MsgId} {text : String} :
    MsgStmts p plainWrite (markAcked p user m text) := by
  refine (msgStmts_selectMessageForUser _ _).bind fun msg? => ?_
  split
  · trivial
  · split
    · trivial
    · split
      · trivial
      · exact msgStmts_clock.bind fun now => msgStmts_flushMessage rfl fun _ => trivial

theorem msgStmts_expireOldMessages {dryRun : Bool} :
    MsgStmts p plainWrite (expireOldMessages p dryRun) := by
  refine msgStmts_clock.bind fun now => (msgStmts_select _).bind fun eligible => ?_
  split
  · trivial
  · refine (msgStmts_updateMessagesWhere (fun _ _ => rfl) fun m r hwh => ?_).bind fun hit => ?_
    · simp only [pastTtl, Bool.and_eq_true, Bool.not_eq_true'] at hwh
      exact hwh.2
    · exact msgStmts_commit.bind fun _ => trivial

theorem msgStmts_orReply {β : Type} {W : MsgWrite → Prop} {x : Except ApiError β}
    {k : β → MsgProgram MsgReply} (hk : ∀ b, MsgStmts p W (k b)) : MsgStmts p W (orReply x k) := by
  unfold orReply
  split
  · trivial
  · exact hk _

theorem msgStmts_insertMessage {row : MsgId → Message} :
    MsgStmts p plainWrite (insertMessage p row) :=
  Always.step fun w a _ _ _ hs => by
    split at hs
    · dsimp only at hs
      split at hs
      · split at hs
        · cases hs
          exact .quiet rfl
        · obtain ⟨s, hwr, heq⟩ := Option.map_eq_some_iff.mp hs
          cases heq
          exact .wrote (.insertMessage _ _) trivial trivial hwr
      · cases hs
    · cases hs

theorem msgStmts_insertEvent {row : EventRow} : MsgStmts p plainWrite (insertEvent p row) :=
  Always.step fun w a _ _ _ hs => by
    dsimp only at hs
    split at hs
    · split at hs
      · cases hs
        exact .quiet rfl
      · split at hs
        · obtain ⟨s, hwr, heq⟩ := Option.map_eq_some_iff.mp hs
          cases heq
          exact .wrote (.insertEvent _ _) trivial trivial hwr
        · cases hs
    · cases hs

theorem msgStmts_authorizeMessage {W : MsgWrite → Prop} {replyToAgent : Option AgentId} :
    MsgStmts p W (authorizeMessage replyToAgent) := by
  refine msgStmts_askBool.bind fun primary => ?_
  split
  · trivial
  · split
    · trivial
    · refine msgStmts_askBool.bind fun reply => ?_
      split <;> trivial

theorem msgStmts_incrHourly {W : MsgWrite → Prop} : MsgStmts p W incrHourly := by
  refine msgStmts_askCount.bind fun count? => ?_
  split
  · exact msgStmts_expireCounter.bind fun _ => trivial
  · trivial

theorem msgStmts_checkLimits {W : MsgWrite → Prop} {user : UserId} {priority : Nat} :
    MsgStmts p W (checkLimits env user priority) := by
  unfold checkLimits
  split
  · trivial
  · refine (msgStmts_askCount.bind fun count? => ?_).bind fun rate? => ?_
    · split <;> trivial
    · split
      · trivial
      · unfold checkPriorityHighLimits
        split
        · trivial
        · refine msgStmts_incrHourly.bind fun sender? => ?_
          split
          · trivial
          · split
            · trivial
            · refine msgStmts_incrHourly.bind fun pair? => ?_
              split <;> trivial

theorem msgStmts_checkIdempotency {W : MsgWrite → Prop} {user : UserId} {key : Option String}
    {fields : Fingerprinted} {fingerprint : String} :
    MsgStmts p W (checkIdempotency p user key fields fingerprint) := by
  unfold checkIdempotency
  split
  · trivial
  · refine msgStmts_clock.bind fun now => ?_
    refine (msgStmts_quiet fun w _ _ _ hs => by cases hs; rfl).bind fun existing => ?_
    split
    · trivial
    · split <;> trivial

theorem msgStmts_persist {d : Draft} {downgraded : Bool} :
    MsgStmts p plainWrite (persist env p d downgraded) := by
  unfold persist
  split
  · trivial
  · refine msgStmts_insertMessage.bind fun inserted? => ?_
    split
    · trivial
    · refine (msgStmts_select _).bind fun inlineSub => msgStmts_insertEvent.bind fun _ => ?_
      refine Always.bind ?_ fun _ => msgStmts_clock.bind fun seen => ?_
      · unfold enqueueDelivery
        split
        · exact msgStmts_insertOutbox fun _ => trivial
        · trivial
      · refine (msgStmts_bumpLastSeen trivial).bind fun _ => msgStmts_commit.bind fun _ => ?_
        refine (msgStmts_select _).bind fun row? => ?_
        split <;> trivial

theorem msgStmts_selectAgent {W : MsgWrite → Prop} {addr : Address} :
    MsgStmts p W (selectAgent env p addr) := by
  unfold selectAgent
  split
  · trivial
  · exact msgStmts_select _

theorem msgStmts_sendMessage {user : UserId} {req : SendRequest} :
    MsgStmts p plainWrite (sendMessage env p user req) := by
  refine msgStmts_clock.bind fun createdAt => ?_
  split
  · trivial
  · refine (msgStmts_select _).bind fun fromAgent? => msgStmts_orReply fun fromAgent => ?_
    split
    · trivial
    · refine msgStmts_orReply fun _ => msgStmts_selectAgent.bind fun toAgent? => ?_
      refine msgStmts_orReply fun toAgent => Always.bind ?_ fun replyToAgent? => ?_
      · unfold resolveReplyToAgent
        split
        · trivial
        · exact msgStmts_selectAgent.bind fun _ => trivial
      refine msgStmts_orReply fun replyToAgent => msgStmts_authorizeMessage.bind fun allowed? => ?_
      refine msgStmts_orReply fun _ => msgStmts_checkLimits.bind fun limits? => ?_
      refine msgStmts_orReply fun limits => msgStmts_checkIdempotency.bind fun existing? => ?_
      refine msgStmts_orReply fun existing => ?_
      split
      · trivial
      · refine Always.bind ?_ fun quota? => msgStmts_orReply fun _ => ?_
        · unfold checkMessageQuota
          split
          · trivial
          · refine msgStmts_askCount.bind fun count? => ?_
            dsimp only
            split <;> trivial
        · refine Always.bind ?_ fun parent? => msgStmts_orReply fun parent => ?_
          · unfold resolveReplyTo
            split
            · trivial
            · refine (msgStmts_quiet fun w _ _ _ hs => by cases hs; rfl).bind fun parent? => ?_
              split <;> trivial
          · exact msgStmts_clock.bind fun now => msgStmts_orReply fun sendAt => msgStmts_persist

theorem msgStmts_getMessage {user : UserId} {m : MsgId} {text : String} :
    MsgStmts p plainWrite (getMessage p user m text) := by
  refine (msgStmts_selectMessageForUser _ _).bind fun msg? => ?_
  split <;> trivial

theorem msgStmts_flushAgent {a : AgentId} {url secret : Option (Option String)} :
    MsgStmts p plainWrite (flushAgent p a url secret) := by
  refine Always.bind ?_ fun _ => msgStmts_commit.bind fun _ => ?_
  · unfold flushWebhook
    split
    · exact msgStmts_write trivial (by simp)
    · trivial
  · refine (msgStmts_select _).bind fun row? => ?_
    split <;> trivial

theorem msgStmts_updateAgent {user : UserId} {addr : Address}
    {webhookUrl : Option (Option String)} :
    MsgStmts p plainWrite (updateAgent env p user addr webhookUrl) := by
  refine (msgStmts_select _).bind fun agent? => msgStmts_orReply fun x => ?_
  dsimp only
  split
  · exact msgStmts_flushAgent
  · exact msgStmts_flushAgent
  · split
    · trivial
    · split
      · refine (msgStmts_quiet fun w a _ _ hs => ?_).bind fun secret => msgStmts_flushAgent
        split at hs <;> cases hs
        rfl
      · exact msgStmts_flushAgent

theorem msgStmts_softDeleteAgent {user : UserId} {addr : Address} :
    MsgStmts p plainWrite (softDeleteAgent env p user addr) := by
  refine (msgStmts_select _).bind fun agent? => msgStmts_orReply fun x => ?_
  refine msgStmts_clock.bind fun now => (msgStmts_write trivial (by simp)).bind fun _ => ?_
  exact msgStmts_commit.bind fun _ => trivial

theorem msgStmts_updateSubscriptionsWhere {wh : SubscriptionId → Subscription → Bool}
    {u : SubUpdate} : MsgStmts p plainWrite (updateSubscriptionsWhere p wh u) :=
  Always.step fun w _ _ _ _ hs => by
    obtain ⟨s, hwr, heq⟩ := Option.map_eq_some_iff.mp hs
    cases heq
    exact .wrote (.updateSubscriptions _ _) trivial trivial hwr

theorem msgStmts_readEvents {W : MsgWrite → Prop}
    (q : MsgTables → List (EventId × EventRow)) : MsgStmts p W (readEvents p q) :=
  msgStmts_quiet fun w _ _ _ hs => by
    cases hs
    rfl

theorem msgStmts_pullEvents {user : UserId} {addr : Address} {since limit : Nat}
    {eventType : Option String} :
    MsgStmts p plainWrite (pullEvents env p user addr since limit eventType) := by
  refine (msgStmts_select _).bind fun agent? => msgStmts_orReply fun x => ?_
  refine (msgStmts_readEvents _).bind fun events => Always.bind ?_ fun _ => trivial
  unfold advanceAckAfterPull
  split
  · trivial
  · exact msgStmts_updateSubscriptionsWhere.bind fun _ => msgStmts_commit

theorem msgStmts_dispatchOutbox : MsgStmts p plainWrite (dispatchOutbox p) := by
  refine msgStmts_clock.bind fun now => (Always.step fun w a _ _ _ hs => ?_).bind fun rows => ?_
  · split at hs
    · dsimp only at hs
      split at hs
      · obtain ⟨s, hl, heq⟩ := Option.map_eq_some_iff.mp hs
        cases heq
        exact .locked _ hl
      · cases hs
    · cases hs
  · refine (Always.mapEach (fun x => ?_) rows).bind fun _ => msgStmts_commit.bind fun _ => trivial
    refine (msgStmts_quiet fun w a _ _ hs => ?_).bind fun sent => ?_
    · split at hs <;> cases hs <;> rfl
    · split
      · exact (msgStmts_write trivial (by simp)).bind fun _ => trivial
      · trivial

theorem msgStmts_freeOldIdempotencyKeys {dryRun : Bool} :
    MsgStmts p plainWrite (freeOldIdempotencyKeys p dryRun) := by
  refine msgStmts_clock.bind fun now => (msgStmts_select _).bind fun eligible => ?_
  split
  · trivial
  · refine (Always.step fun w a _ _ _ hs => ?_).bind fun freed => msgStmts_commit.bind fun _ => trivial
    obtain ⟨s, hwr, heq⟩ := Option.map_eq_some_iff.mp hs
    cases heq
    exact .wrote (.freeKeys _) trivial trivial hwr

theorem msgStmts_dispatchSubscription {x : SubscriptionId × Subscription} :
    MsgStmts p plainWrite (dispatchSubscription env p x) := by
  refine (msgStmts_readEvents _).bind fun events => ?_
  split
  · trivial
  · refine Always.bind ?_ fun y => ?_
    · unfold applyTierPolicy
      split
      · exact msgStmts_askBool.bind fun _ => trivial
      · trivial
    · dsimp only
      split
      · trivial
      · refine (msgStmts_quiet fun w a _ _ hs => ?_).bind fun status => ?_
        · split at hs <;> cases hs
          rfl
        · refine msgStmts_clock.bind fun now => ?_
          exact (msgStmts_write trivial (by simp)).bind fun _ => trivial

theorem msgStmts_dispatchSubscriptionEvents :
    MsgStmts p plainWrite (dispatchSubscriptionEvents env p) := by
  refine msgStmts_clock.bind fun now => (Always.step fun w a _ _ _ hs => ?_).bind fun subs => ?_
  · split at hs
    · dsimp only at hs
      split at hs
      · obtain ⟨s, hl, heq⟩ := Option.map_eq_some_iff.mp hs
        cases heq
        exact .locked _ hl
      · cases hs
    · cases hs
  · refine (Always.mapEach (fun x => msgStmts_dispatchSubscription) subs).bind fun _ => ?_
    exact msgStmts_commit.bind fun _ => trivial

theorem msgStmts_emitDigests : MsgStmts p plainWrite (emitDigests env p) := by
  refine msgStmts_clock.bind fun now => msgStmts_clock.bind fun began => ?_
  refine (msgStmts_readEvents _).bind fun events => ?_
  refine (Always.mapEach (fun x => ?_) _).bind fun _ => msgStmts_commit.bind fun _ => trivial
  unfold emitDigest
  split
  · trivial
  · exact msgStmts_insertEvent.bind fun _ => (msgStmts_write trivial (by simp)).bind fun _ => trivial

/-- `SafeIf` for messaging: the UPDATEs by id meet open messages. -/
abbrev MsgSafe {α : Type} (p : Pid) (Q : α → MsgWorld → Prop) (m : MsgProgram α) (w : MsgWorld) :
    Prop := SafeIf (fun w w' => meetsOpen p w w' = true) Settled MsgRely p Q m w

theorem safeIf_msgStmts {α : Type} {m : MsgProgram α} (hm : MsgStmts p plainWrite m) :
    MsgSafe p (fun _ _ => True) m w := by
  refine SafeIf.of_always (K := fun _ => True) hm (fun _ _ _ _ => trivial)
    (fun w w' hI _ hs hmeets => ?_) trivial
  obtain ⟨hI', hR⟩ := hI.stmt hs hmeets fun ms u hW hu => by
    have hno : u.stale = false := hW
    rw [hno] at hu
    cases hu
  exact ⟨hI', trivial, hR⟩

/-! ## The stale sweep -/

/-- The writes of the sweep on the rows it has selected. -/
def sweepWrite (stale : List (MsgId × Message)) : MsgWrite → Prop
  | .updateMessages ms u => u.stale = true ∧ ∀ m ∈ ms, ∃ x ∈ stale, x.1 = m
  | .insertOutbox _ _ => True
  | _ => False

/-- The rows that the sweep has selected are its own, and open. -/
def OpenHeld (p : Pid) (stale : List (MsgId × Message)) (w : MsgWorld) : Prop :=
  ∀ x ∈ stale, w.store.locks (.message x.1) = some p ∧
    ∀ r, (w.view p).message x.1 = some r → r.deliveryState.terminal = false

section Sweep

variable {stale : List (MsgId × Message)}

theorem OpenHeld.kept (hd : OpenHeld p stale w) (hk : Store.Kept p w.store w'.store) :
    OpenHeld p stale w' := by
  intro x hx
  obtain ⟨hl, hopen⟩ := hd x hx
  refine ⟨hk.locks _ hl, fun r hr => hopen r (Eq.trans (Eq.symm ?_) hr)⟩
  exact Store.view_row_congr (S := msgSchema) (k := MsgKey.message x.1) hk.buf (hk.rows _ hl)
    message_congr

theorem stale_open {u : MsgUpdate} (hu : u.stale = true) (r : Message) :
    (u.set r).deliveryState.terminal = false := by
  cases u with
  | staleRetry => rfl
  | staleFailed now => rfl
  | _ => cases hu

theorem OpenHeld.stmt (hd : OpenHeld p stale w) (hs : MsgStmt p (sweepWrite stale) w w')
    (hh : ∀ k, w.store.locks k = some p → w'.store.locks k = some p) : OpenHeld p stale w' := by
  intro x hx
  obtain ⟨hl, hopen⟩ := hd x hx
  refine ⟨hh _ hl, fun r hr => ?_⟩
  cases hs with
  | quiet heq => exact hopen r (Eq.trans (congrArg (fun s => (Store.view s p).message x.1) heq.symm) hr)
  | locked ks hlock =>
    obtain ⟨ht, hb, -, -⟩ := Store.lock_eq hlock
    refine hopen r (Eq.trans ?_ hr)
    unfold Recorded.World.view Store.view
    rw [ht, hb]
  | wrote wr hW _ hwr =>
    rw [(msgView_write hwr).1, MsgTables.message_apply] at hr
    cases wr with
    | updateMessages ms u =>
      dsimp only at hr
      split at hr
      · obtain ⟨r₀, -, rfl⟩ := Option.map_eq_some_iff.mp hr
        exact stale_open hW.1 r₀
      · exact hopen r hr
    | insertMessage m' row => exact hW.elim
    | freeKeys xs => exact hW.elim
    | _ => exact hopen r hr
  | committed heq =>
    refine hopen r (Eq.trans ?_ hr)
    change (w.store.view p).message x.1 = (w'.store.view p).message x.1
    rw [heq]
    unfold Store.view
    rw [show (w.store.commit p).buf p = [] from Function.update_self _ _ _]
    rfl

/-- No statement of the program lets go of a lock of `p`. -/
abbrev MsgHolding {α : Type} (p : Pid) (m : MsgProgram α) : Prop :=
  m.Always (fun _ => True) fun w w' => ∀ k, w.store.locks k = some p → w'.store.locks k = some p

theorem msgHolds_write {wr : MsgWrite} {s : Store msgSchema Pid}
    (hs : w.store.write p wr = some s) (k : MsgKey) (hk : w.store.locks k = some p) :
    s.locks k = some p := by
  rw [(Store.write_eq hs).2.2.1]
  split
  · rfl
  · exact hk

theorem msgHolding_select {β : Type} (f : MsgTables → β) : MsgHolding p (select p f) :=
  Always.step fun w _ _ _ _ hs => by
    cases hs
    exact fun _ hk => hk

theorem msgHolding_insertOutbox (row : MsgOutboxRow) : MsgHolding p (insertOutbox p row) :=
  Always.step fun w a _ _ _ hs => by
    split at hs
    · split at hs
      · obtain ⟨s, hwr, heq⟩ := Option.map_eq_some_iff.mp hs
        cases heq
        exact msgHolds_write hwr
      · cases hs
    · cases hs

theorem msgHolding_countAttempts (m : MsgId) : MsgHolding p (countAttempts p m) :=
  Always.step fun w _ _ _ _ hs => by
    cases hs
    exact fun _ hk => hk

theorem msgHolding_updateMessageById (m : MsgId) (u : MsgUpdate) :
    MsgHolding p (updateMessageById p m u) :=
  Always.step fun w _ _ _ _ hs => by
    dsimp only at hs
    split at hs
    · cases hs
      exact fun _ hk => hk
    obtain ⟨s, hwr, heq⟩ := Option.map_eq_some_iff.mp hs
    cases heq
    exact msgHolds_write hwr

theorem msgHolding_recoverMessage {now : Time} (x : MsgId × Message) :
    MsgHolding p (recoverMessage p now x) := by
  refine (msgHolding_countAttempts _).bind fun prior => (msgHolding_select _).bind fun webhookUrl => ?_
  split
  · refine (msgHolding_insertOutbox _).bind fun _ => ?_
    exact (msgHolding_updateMessageById _ _).bind fun _ => trivial
  · exact (msgHolding_updateMessageById _ _).bind fun _ => trivial

theorem msgStmts_recoverMessage {now : Time} {x : MsgId × Message} (hx : x ∈ stale) :
    MsgStmts p (sweepWrite stale) (recoverMessage p now x) := by
  have update : ∀ u : MsgUpdate, u.stale = true → (∀ r, u.Seen r) →
      MsgStmts p (sweepWrite stale) (updateMessageById p x.1 u) := fun u hu hseen =>
    msgStmts_updateMessageById (fun ms hms => ⟨hu, fun m hm => ⟨x, hx, (hms m hm).symm⟩⟩) hseen
  refine (msgStmts_countAttempts _).bind fun prior => (msgStmts_select _).bind fun webhookUrl => ?_
  split
  · refine (msgStmts_insertOutbox fun _ => trivial).bind fun _ => ?_
    exact (update .staleRetry rfl fun _ => trivial).bind fun _ => trivial
  · exact (update (.staleFailed now) rfl fun _ => trivial).bind fun _ => trivial

theorem safeIf_recoverMessages {now : Time} (hd : OpenHeld p stale w) :
    MsgSafe p (fun _ _ => True) (mapEach (recoverMessage p now) stale) w := by
  have hall : (mapEach (recoverMessage p now) stale).Always (fun _ => True) fun w w' =>
      MsgStmt p (sweepWrite stale) w w' ∧ ∀ k, w.store.locks k = some p →
        w'.store.locks k = some p :=
    (Always.mapEach_mem fun _ hx => msgStmts_recoverMessage hx).and
      (Always.mapEach (fun x => msgHolding_recoverMessage x) stale)
  refine SafeIf.weaken (SafeIf.of_always (K := OpenHeld p stale) hall
    (fun _ _ hd hr => hd.kept hr.store) (fun w w' hI hd hs hm => ?_) hd) fun _ _ _ => trivial
  obtain ⟨hI', hR⟩ := hI.stmt hs.1 hm fun ms u hW _ m hmem r hr => by
    obtain ⟨x, hx, rfl⟩ := hW.2 m hmem
    exact (hd x hx).2 r hr
  exact ⟨hI', hd.stmt hs.1 hs.2, hR⟩

/-- The sweep locks what it selects, and selects only deliveries. -/
theorem safeIf_selectMessagesForUpdate {wh : Message → Bool} {limit : Nat}
    (hwh : ∀ r, wh r = true → r.deliveryState.terminal = false) :
    MsgSafe p (fun stale w => OpenHeld p stale w) (selectMessagesForUpdate p wh limit) w := by
  apply SafeIf.step
  intro w₁ _ hI a stale w₂ hs hm
  split at hs
  · rename_i ids
    dsimp only at hs
    split at hs
    · rename_i hpick
      obtain ⟨s, hl, heq⟩ := Option.map_eq_some_iff.mp hs
      cases heq
      have hstmt : MsgStmt p (fun _ => False) w₁
          (note { w₁ with store := s } p (.selected ids)) := .locked _ hl
      obtain ⟨hI₂, hR⟩ := hI.stmt hstmt hm fun _ _ hW => hW.elim
      refine ⟨hI₂, hR, fun x hx => ?_⟩
      obtain ⟨hid, hrow⟩ := mem_rowsAt hx
      obtain ⟨ht, hb, hlocks, -⟩ := Store.lock_eq hl
      refine ⟨?_, fun r hr => ?_⟩
      · change s.locks _ = _
        rw [hlocks, if_pos (List.mem_map.mpr ⟨x.1, hid, rfl⟩)]
      · have hview : (note { w₁ with store := s } p (.selected ids)).view p = w₁.view p := by
          change msgSchema.applyAll (s.buf p) s.tables = _
          rw [ht, hb]
          rfl
        obtain ⟨v, hv, hp⟩ := (mem_keysWhere _ _ _).mp (hpick.2.1 x.1 hid)
        rw [hview] at hr
        change (w₁.view p).messages.lookup x.1 = some r at hr
        rw [hr] at hv
        cases hv
        exact hwh r (Bool.and_eq_true _ _ ▸ hp).1
    · cases hs
  · cases hs

theorem safeIf_recoverStaleMessageDeliveries {staleSeconds : Nat} :
    MsgSafe p (fun _ _ => True) (recoverStaleMessageDeliveries p staleSeconds) w := by
  refine SafeIf.bind (safeIf_msgStmts msgStmts_clock) fun t w _ => ?_
  refine SafeIf.bind (safeIf_msgStmts msgStmts_clock) fun now w _ => ?_
  refine SafeIf.bind (safeIf_selectMessagesForUpdate fun r hr => ?_) fun stale w hd => ?_
  · have hst : r.deliveryState = .delivering := of_decide_eq_true (Bool.and_eq_true _ _ ▸ hr).1
    rw [hst]
    rfl
  · refine SafeIf.bind (safeIf_recoverMessages hd) fun _ w _ => ?_
    exact safeIf_msgStmts (msgStmts_commit.bind fun _ => trivial)

end Sweep

/-! ## Runs -/

theorem safeIf_msgProgramOf (call : MsgCall) :
    MsgSafe p (fun _ _ => True) (msgProgramOf env p call) w := by
  cases call with
  | deliverMessage payload =>
    exact safeIf_msgStmts ((msgStmts_pushMessage rfl).bind fun _ => trivial)
  | retryMessage payload =>
    exact safeIf_msgStmts ((msgStmts_pushMessage rfl).bind fun _ => trivial)
  | recoverStaleMessageDeliveries staleSeconds => exact safeIf_recoverStaleMessageDeliveries
  | listInbox user q => exact safeIf_msgStmts msgStmts_listInbox
  | markRead user m text => exact safeIf_msgStmts msgStmts_markRead
  | markAcked user m text => exact safeIf_msgStmts msgStmts_markAcked
  | expireOldMessages dryRun => exact safeIf_msgStmts msgStmts_expireOldMessages
  | sendMessage user req => exact safeIf_msgStmts msgStmts_sendMessage
  | getMessage user m text => exact safeIf_msgStmts msgStmts_getMessage
  | updateAgent user addr url => exact safeIf_msgStmts msgStmts_updateAgent
  | softDeleteAgent user addr => exact safeIf_msgStmts msgStmts_softDeleteAgent
  | pullEvents user addr since limit eventType => exact safeIf_msgStmts msgStmts_pullEvents
  | dispatchOutbox => exact safeIf_msgStmts msgStmts_dispatchOutbox
  | freeOldIdempotencyKeys dryRun => exact safeIf_msgStmts msgStmts_freeOldIdempotencyKeys
  | dispatchSubscriptionEvents => exact safeIf_msgStmts msgStmts_dispatchSubscriptionEvents
  | emitDigests => exact safeIf_msgStmts msgStmts_emitDigests

/-- The invariant of a configuration whose statements meet `meetsOpen`. -/
abbrev MsgGood (s : MsgSys) : Prop :=
  Good Settled MsgRely (fun _ _ _ => True) (s.when fun p w w' => meetsOpen p w w' = true)

theorem Settled.rollback (hI : Settled w) (p : Pid) (h : MsgHistory) :
    Settled { w with store := w.store.rollback p, history := h } := by
  refine hI.of_step (p := p) ?_ fun q hq => Store.rollback_kept w.store hq
  have hv : (w.store.rollback p).view p = w.tables := by
    unfold Store.view
    rw [show (w.store.rollback p).buf p = [] from Function.update_self _ _ _]
    rfl
  exact hv.symm ▸ .refl _

theorem MsgGood.step {s s' : MsgSys} {a : MsgAction} (hg : MsgGood s)
    (hs : msgStep env s a = some s') (hm : alongMsgs env meetsOpen s [a] = true) :
    MsgGood s' ∧ TerminalKept s.shared.tables s'.shared.tables := by
  have htrans : ∀ p {a b c : MsgWorld}, MsgRely p a b → MsgRely p b c → MsgRely p a c :=
    fun p {_ _ _} h h' => h.trans h'
  have hQ : ∀ (p : Pid) (a : MsgReply) (w w' : MsgWorld), MsgRely p w w' → True → True :=
    fun _ _ _ _ _ _ => trivial
  have hleft : ∀ (p : Pid) (how : Recorded.Ending MsgReply), MsgGood (Recorded.left s p how) ∧
      TerminalKept s.shared.tables (Recorded.left s p how).shared.tables := by
    intro p how
    refine ⟨?_, .refl _⟩
    unfold MsgGood Recorded.left
    rw [Config.put_when]
    exact hg.put htrans hQ (hg.1.rollback p _)
      (fun q hq => ⟨Store.rollback_kept _ hq, .refl _⟩) (by simp)
  cases a with
  | start p call =>
    simp only [msgStep, Recorded.step] at hs
    split at hs
    · cases hs
      refine ⟨?_, .refl _⟩
      unfold MsgGood
      rw [Config.put_when]
      refine hg.put htrans hQ hg.1 (fun q _ => ⟨.refl q _, .refl _⟩) ?_
      rintro m ⟨⟩
      exact safeIf_msgProgramOf call
    · cases hs
  | advance p a =>
    have hadv := Config.advance_when (C := fun p w w' => meetsOpen p w w' = true) hs
      (by simpa [alongMsgs, hs] using hm)
    refine ⟨hg.advance htrans MsgRely.refl hQ hadv, ?_⟩
    exact (hg.others MsgRely.refl hadv (Nat.succ_ne_self p)).terminal
  | leave p =>
    obtain ⟨prog, -, rfl⟩ := Option.map_eq_some_iff.mp hs
    exact hleft p _
  | raise p =>
    obtain ⟨prog, -, rfl⟩ := Option.map_eq_some_iff.mp hs
    exact hleft p _
  | tick d =>
    cases hs
    exact ⟨hg.drift htrans hQ hg.1 fun q => ⟨.refl q _, .refl _⟩, .refl _⟩

theorem MsgGood.run {s s' : MsgSys} {as : List MsgAction} (hg : MsgGood s)
    (hrun : msgRun env s as = some s') (hal : alongMsgs env meetsOpen s as = true) :
    MsgGood s' ∧ TerminalKept s.shared.tables s'.shared.tables := by
  induction as generalizing s with
  | nil =>
    cases hrun
    exact ⟨hg, .refl _⟩
  | cons a as ih =>
    obtain ⟨s₁, hs, hrun⟩ := Option.bind_eq_some_iff.mp hrun
    change msgStep env s a = some s₁ at hs
    simp only [alongMsgs, hs, Option.all_some, Bool.and_eq_true] at hal
    obtain ⟨hg₁, hkept⟩ := hg.step hs (by simpa [alongMsgs, hs] using hal.1)
    obtain ⟨hg', hkept'⟩ := ih hg₁ hrun hal.2
    exact ⟨hg', hkept.trans hkept'⟩

theorem msgGood_init (t : MsgTables) (concurrent : UserId → Int) (now : Time) :
    MsgGood (msgInit t concurrent now) := by
  refine ⟨fun q => .refl t, fun p prog hp => ?_⟩
  simp [msgInit, Recorded.init, Config.when] at hp

/-- In every run in which the UPDATEs by id meet open messages, a message that is acked or expired
stays so. -/
theorem terminal_absorbing {t : MsgTables} {concurrent : UserId → Int} {now : Time}
    {as bs : List MsgAction} {s s' : MsgSys} {m : MsgId} {r : Message}
    (hrun : msgRun env (msgInit t concurrent now) as = some s)
    (hal : alongMsgs env meetsOpen (msgInit t concurrent now) as = true)
    (hrun' : msgRun env s bs = some s') (hal' : alongMsgs env meetsOpen s bs = true)
    (hr : s.shared.tables.message m = some r) (hterm : r.deliveryState.terminal = true) :
    ∃ r', s'.shared.tables.message m = some r' ∧ r'.deliveryState = r.deliveryState := by
  obtain ⟨hg, -⟩ := (msgGood_init t concurrent now).run hrun hal
  exact (hg.run hrun' hal').2 m r hr hterm

/-- Agent 2 of user 1 has a push endpoint, and message 5 to it is queued. -/
def oneQueued : MsgTables where
  messages := insertNew ∅ 5 { userId := 1, fromAgentId := 1, toAgentId := 2, threadId := 5,
                              body := "hi", createdAt := 0, expiresAt := 1000000 }
  agents := insertNew (insertNew ∅ 1 { userId := 1, slug := "a" }) 2
    { userId := 1, slug := "b", webhookUrl := some "https://b.example", webhookSecret := some "s" }

def oneInit : MsgSys := msgInit oneQueued (fun _ => 0) 0

/-- The push of message 5 up to its POST. -/
def pushInFlight (p : Pid) : List MsgAction :=
  playMsg p (.deliverMessage { messageId := 5, toAgentId := 2 }) (List.replicate 9 .go)

/-- The answer to the POST, and how it is routed. -/
def pushAnswered (p : Pid) : List MsgAction :=
  [.advance p (.push (.response 200 none))] ++ (List.replicate 4 (.advance p .go)) ++ [.leave p]

def ackAll (p : Pid) : List MsgAction :=
  playMsg p (.markAcked 1 5 "msg_5") (List.replicate 5 .go) ++ [.leave p]

/-- `delivery_state` of message 5. -/
def stateOf (s : MsgSys) : Option DeliveryState :=
  (s.shared.tables.message 5).map Message.deliveryState

/-- The recipient acks a message that was pushed. A duplicate of the job and the expiry come
late. -/
def ackedAfterPush : List MsgAction := pushInFlight 1 ++ pushAnswered 1 ++ ackAll 2

def duplicateAndExpiry : List MsgAction :=
  [.tick 2000000] ++ playMsg 3 (.deliverMessage { messageId := 5, toAgentId := 2 })
    (List.replicate 9 .go) ++ playMsg 4 (.expireOldMessages false) (List.replicate 4 .go)

theorem terminal_absorbing_acked : ∃ s s', msgRun oneUser oneInit ackedAfterPush = some s ∧
    msgRun oneUser s duplicateAndExpiry = some s' ∧ stateOf s' = some .acked := by
  have hrun : ((msgRun oneUser oneInit ackedAfterPush).bind fun s =>
      (msgRun oneUser s duplicateAndExpiry).map fun s' =>
        (alongMsgs oneUser meetsOpen s duplicateAndExpiry, stateOf s)) =
      some (true, some .acked) := by decide +kernel
  obtain ⟨s, hs, hrest⟩ := Option.bind_eq_some_iff.mp hrun
  obtain ⟨s', hs', hv⟩ := Option.map_eq_some_iff.mp hrest
  obtain ⟨hal, hstate⟩ := Prod.mk.inj hv
  obtain ⟨r, hr, hacked⟩ := Option.map_eq_some_iff.mp hstate
  have hacked' : r.deliveryState.terminal = true := by rw [hacked]; rfl
  obtain ⟨r', hr', hsame⟩ := terminal_absorbing hs (by decide +kernel) hs' hal hr hacked'
  refine ⟨s, s', hs, hs', ?_⟩
  rw [stateOf, hr', Option.map_some, hsame, hacked]

/-- The recipient acks while the push is in flight, and the answer to the POST takes the message
out of `acked`. -/
theorem acked_then_delivered : ∃ s s',
    msgRun oneUser oneInit (pushInFlight 1 ++ ackAll 2) = some s ∧ stateOf s = some .acked ∧
    msgRun oneUser s (pushAnswered 1) = some s' ∧ stateOf s' = some .delivered := by
  have hrun : ((msgRun oneUser oneInit (pushInFlight 1 ++ ackAll 2)).bind fun s =>
      (msgRun oneUser s (pushAnswered 1)).map fun s' => (stateOf s, stateOf s')) =
      some (some .acked, some .delivered) := by decide +kernel
  obtain ⟨s, hs, hrest⟩ := Option.bind_eq_some_iff.mp hrun
  obtain ⟨s', hs', hv⟩ := Option.map_eq_some_iff.mp hrest
  obtain ⟨hacked, hdelivered⟩ := Prod.mk.inj hv
  exact ⟨s, s', hs, hacked, hs', hdelivered⟩

end CueApi.Messages
