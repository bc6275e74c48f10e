import CueApi.Messages.InboxProofs

/-! The poller keeps to the transactions of `MsgCommits`: `recover_stale_message_deliveries` keeps
the messages it selected locked until its commit, and `dispatch_outbox` the rows it enqueues. -/

namespace CueApi.Messages

open Scheduler (Pid Time UserId OutboxId seconds Table keysWhere mem_keysWhere rowsAt mem_rowsAt
  insertNew)
open ReadCommitted Interleaving Trace Recorded

variable {env : MsgEnv} {t₀ : MsgTables} {p : Pid} {B : List MsgWrite} {E : MsgHistory}
variable {w w' : MsgWorld} {now : Time} {items : List RecoveredMessage}

/-! ## Counting attempts -/

/-- A new row that a WHERE clause does not select leaves what it selects. -/
theorem keysWhere_insertNew {V : Type} {t : Table Nat V} {n : Nat} {v : V} {wh : Nat → V → Bool}
    (hv : wh n v = false) : keysWhere (insertNew t n v) wh = keysWhere t wh := by
  unfold insertNew
  split
  · rfl
  · rename_i hn
    unfold keysWhere
    rw [AList.entries_insert_of_notMem (AList.lookup_eq_none.mp hn),
      List.filter_cons_of_neg (by simpa using hv)]

/-- The write leaves the dispatched rows of the outbox. -/
def MsgWrite.undispatched : MsgWrite → Bool
  | .insertOutbox _ row => !row.dispatched
  | .markDispatched _ => false
  | _ => true

theorem priorAttempts_applyAll {ws : List MsgWrite} (t : MsgTables) (m : MsgId)
    (hws : ∀ wr ∈ ws, wr.undispatched = true) :
    priorAttempts (msgSchema.applyAll ws t) m = priorAttempts t m := by
  induction ws with
  | nil => rfl
  | cons wr ws ih =>
    rw [← ih fun u hu => hws u (by simp [hu])]
    have hwr := hws wr (by simp)
    change priorAttempts (MsgTables.apply wr _) m = _
    cases wr with
    | insertOutbox n row =>
      refine congrArg List.length (keysWhere_insertNew ?_)
      simp only [MsgWrite.undispatched, Bool.not_eq_true'] at hwr
      simp [hwr]
    | markDispatched n => cases hwr
    | _ => rfl

theorem outboxRow_ne_none_of_insert {n : OutboxId} {row : MsgOutboxRow} {t : MsgTables}
    (h : .insertOutbox n row ∈ B) : (msgSchema.applyAll B t).outboxRow n ≠ none := by
  obtain ⟨pre, post, rfl⟩ := List.append_of_mem h
  rw [Schema.applyAll_append, Schema.applyAll_cons]
  have hrow : ∃ o, (MsgTables.apply (.insertOutbox n row) (msgSchema.applyAll post t)).outboxRow n =
      some o := by
    rw [MsgTables.outboxRow_apply]
    cases (msgSchema.applyAll post t).outboxRow n <;> simp
  obtain ⟨o, ho⟩ := hrow
  obtain ⟨o', ho', -⟩ := (MsgTables.Grows.applyAll pre _).outboxRow ho
  intro hnone
  cases hnone.symm.trans ho'

/-! ## Stale deliveries -/

theorem RecoveredMessage.undispatched {i : RecoveredMessage} :
    ∀ wr ∈ i.writes now, wr.undispatched = true := by
  intro wr hwr
  unfold RecoveredMessage.writes at hwr
  split at hwr
  · simp only [List.mem_cons, List.not_mem_nil, or_false] at hwr
    rcases hwr with rfl | rfl <;> rfl
  · simp only [List.mem_singleton] at hwr
    subst hwr
    rfl

/-- Every iteration writes its message. -/
theorem RecoveredMessage.mem_writes (i : RecoveredMessage) (now : Time) :
    ∃ u, .updateMessages [i.m] u ∈ i.writes now := by
  unfold RecoveredMessage.writes
  split
  · exact ⟨.staleRetry, by simp⟩
  · exact ⟨.staleFailed now, by simp⟩

theorem RecoveredMessage.insert_mem {i : RecoveredMessage}
    (hlt : i.prior < messageRetryMaxAttempts + 1) :
    .insertOutbox i.n (i.outbox now) ∈ i.writes now := by
  simp [RecoveredMessage.writes, hlt]

/-- A row id that is free after some iterations is none of theirs. -/
theorem RecoveredMessage.not_mem_inserted {t : MsgTables} {n : OutboxId}
    (hn : (msgSchema.applyAll (items.flatMap (RecoveredMessage.writes now)) t).outboxRow n = none) :
    n ∉ items.filterMap RecoveredMessage.inserted := by
  intro hm
  obtain ⟨i, hi, hin⟩ := List.mem_filterMap.mp hm
  unfold RecoveredMessage.inserted at hin
  split at hin
  · rename_i hlt
    obtain rfl : i.n = n := Option.some.inj hin
    exact outboxRow_ne_none_of_insert (List.mem_flatMap.mpr ⟨i, hi, i.insert_mem hlt⟩) hn
  · cases hin

/-- Everything an iteration rests on is locked by its own writes. -/
theorem RecoveredMessage.Ok.later {i : RecoveredMessage} (hok : i.Ok p w.history (replayed t₀ w.history))
    (hl : Later p w w') (hi : MsgInv env t₀ w) (hi' : MsgInv env t₀ w') (hw : At p B E w)
    (hB : ∀ wr ∈ i.writes now, wr ∈ B) : i.Ok p w'.history (replayed t₀ w'.history) where
  row := by
    obtain ⟨u, hu⟩ := i.mem_writes now
    exact (message_frozen hl hw (hB _ hu) (by simp) hi hi').trans hok.row
  delivering := hok.delivering
  counted := hl.history.mem hok.counted
  fresh hlt := by
    have hm : .insertOutbox i.n (i.outbox now) ∈ B := hB _ (i.insert_mem hlt)
    have h : (replayed t₀ w'.history).outboxRow i.n = (replayed t₀ w.history).outboxRow i.n :=
      hl.frozen hi hi' (k := MsgKey.outbox i.n) (hw.locked hm (by simp [msgSchema, MsgWrite.keys]))
    exact h.trans (hok.fresh hlt)

/-- Between two iterations: what is written and which stale messages wait, locked. -/
structure RecoverState (env : MsgEnv) (t₀ : MsgTables) (p : Pid) (call : MsgCall) (now : Time)
    (ms : List MsgId) (items : List RecoveredMessage) (todo : List (MsgId × Message))
    (w : MsgWorld) : Prop where
  here : ∃ E, At p (items.flatMap (RecoveredMessage.writes now)) E w ∧ callOf p E = some call
  inv : MsgInv env t₀ w
  selected : .marked p (.selected ms) ∈ w.history
  order : (items.map RecoveredMessage.m).reverse ++ todo.map Prod.fst = ms
  nodup : ms.Nodup
  ok : ∀ i ∈ items, i.Ok p w.history (replayed t₀ w.history)
  outboxes : (items.filterMap RecoveredMessage.inserted).Nodup
  todo : ∀ x ∈ todo, (replayed t₀ w.history).message x.1 = some x.2 ∧
    x.2.deliveryState = .delivering ∧ w.store.locks (.message x.1) = some p

section Recover

variable {staleSeconds : Nat} {ms : List MsgId} {x : MsgId × Message}
variable {todo : List (MsgId × Message)}

theorem RecoverState.waiting {call : MsgCall} (hb : RecoverState env t₀ p call now ms items todo w)
    (hl : Later p w w') (hi : MsgInv env t₀ w') {y : MsgId × Message} (hy : y ∈ todo) :
    (replayed t₀ w'.history).message y.1 = some y.2 ∧ y.2.deliveryState = .delivering ∧
      w'.store.locks (.message y.1) = some p := by
  obtain ⟨hrow, hs, hlock⟩ := hb.todo y hy
  have h : (replayed t₀ w'.history).message y.1 = (replayed t₀ w.history).message y.1 :=
    hl.frozen hb.inv hi (k := MsgKey.message y.1) hlock
  exact ⟨h.trans hrow, hs, hl.locks _ hlock⟩

theorem RecoverState.later {call : MsgCall} (hb : RecoverState env t₀ p call now ms items todo w)
    (hl : Later p w w') (hi : MsgInv env t₀ w')
    (hw : At p (items.flatMap (RecoveredMessage.writes now)) E w') (hc : callOf p E = some call) :
    RecoverState env t₀ p call now ms items todo w' where
  here := ⟨E, hw, hc⟩
  inv := hi
  selected := hl.history.mem hb.selected
  order := hb.order
  nodup := hb.nodup
  ok i hm := by
    obtain ⟨E, hw, -⟩ := hb.here
    exact (hb.ok i hm).later hl hb.inv hi hw fun wr hwr => List.mem_flatMap.mpr ⟨i, hm, hwr⟩
  outboxes := hb.outboxes
  todo y hy := hb.waiting hl hi hy

/-- One more iteration has written. -/
theorem RecoverState.push {call : MsgCall} {i : RecoveredMessage}
    (hb : RecoverState env t₀ p call now ms items (x :: todo) w) (hx : i.m = x.1)
    (hl : Later p w w') (hi : MsgInv env t₀ w')
    (hw : At p B E w') (hB : B = (i :: items).flatMap (RecoveredMessage.writes now))
    (hc : callOf p E = some call) (hok : i.Ok p w'.history (replayed t₀ w'.history))
    (hfresh : ∀ n, i.inserted = some n → n ∉ items.filterMap RecoveredMessage.inserted) :
    RecoverState env t₀ p call now ms (i :: items) todo w' where
  here := ⟨E, hB ▸ hw, hc⟩
  inv := hi
  selected := hl.history.mem hb.selected
  order := by
    rw [List.map_cons, List.reverse_cons, List.append_assoc, hx]
    exact hb.order
  nodup := hb.nodup
  ok j hj := by
    rcases List.mem_cons.mp hj with rfl | hj
    · exact hok
    · obtain ⟨E, hw, -⟩ := hb.here
      exact (hb.ok j hj).later hl hb.inv hi hw fun wr hwr => List.mem_flatMap.mpr ⟨j, hj, hwr⟩
  outboxes := by
    cases hins : i.inserted with
    | none => simpa [hins] using hb.outboxes
    | some n => simpa [hins] using ⟨by simpa using hfresh n hins, hb.outboxes⟩
  todo y hy := hb.waiting hl hi (List.mem_cons_of_mem _ hy)

theorem runs_recoverMessage
    (hb : RecoverState env t₀ p (.recoverStaleMessageDeliveries staleSeconds) now ms items
      (x :: todo) w) :
    MsgRuns env t₀ p (fun _ w' => ∃ items, RecoverState env t₀ p
      (.recoverStaleMessageDeliveries staleSeconds) now ms items todo w')
      (recoverMessage p now x) w := by
  obtain ⟨m, r⟩ := x
  obtain ⟨E, hw, hc⟩ := hb.here
  have hB : ∀ wr ∈ items.flatMap (RecoveredMessage.writes now), wr.undispatched = true := by
    intro wr hwr
    obtain ⟨i, -, hwr⟩ := List.mem_flatMap.mp hwr
    exact RecoveredMessage.undispatched wr hwr
  refine runs_countAttempts hw fun w₁ hl₁ hw₁ hi₁ => ?_
  rw [priorAttempts_applyAll _ m hB]
  refine ⟨⟨_, hw₁.callOf_eq.trans hc, ⟨staleSeconds, rfl⟩, rfl, ?_⟩, fun w₂ hl₂ hw₂ hi₂ => ?_⟩
  · obtain ⟨hr, hs, -⟩ := hb.waiting hl₁ hi₁ (y := (m, r)) (by simp)
    exact ⟨r, hr, hs⟩
  refine runs_select hw₂ fun w₃ hl₃ hw₃ hi₃ => ?_
  have hcounted : .marked p (.counted m (priorAttempts (replayed t₀ w₁.history) m)) ∈ w₃.history :=
    hl₃.history.mem (mem_of_own_eq hw₂.own (by simp))
  have hl₁₃ := hl₂.trans hl₃
  obtain ⟨hrow, hdel, -⟩ := hb.waiting hl₁₃ hi₃ (y := (m, r)) (by simp)
  generalize priorAttempts (replayed t₀ w₁.history) m = prior at hcounted ⊢
  generalize ((seen t₀ _ w₃).agent r.toAgentId).bind Agent.webhookUrl = url
  split
  · rename_i hlt
    refine runs_insertOutbox hw₃ fun w₄ n hl₄ hw₄ hi₄ hn => ?_
    refine runs_updateMessageById hw₄ ?_ fun w₅ _ hl₅ hw₅ hi₅ _ => ?_
    · obtain ⟨hr, -⟩ := hb.waiting (hl₁₃.trans hl₄) hi₄ (y := (m, r)) (by simp)
      exact ⟨r, hr⟩
    have hl₁₅ := hl₁₃.trans (hl₄.trans hl₅)
    refine ⟨⟨m, r, prior, url, n⟩ :: items, hb.push rfl hl₁₅ hi₅ hw₅ ?_ hc ?_ ?_⟩
    · simp [RecoveredMessage.writes, RecoveredMessage.outbox, hlt]
    · obtain ⟨hr, hs, -⟩ := hb.waiting hl₁₅ hi₅ (y := (m, r)) (by simp)
      refine ⟨hr, hs, (hl₄.trans hl₅).history.mem hcounted, fun _ => ?_⟩
      have h : (replayed t₀ w₅.history).outboxRow n = (replayed t₀ w₄.history).outboxRow n :=
        hl₅.frozen hi₄ hi₅ (k := MsgKey.outbox n)
          (hw₄.locked (List.mem_cons_self ..) (by simp [msgSchema, MsgWrite.keys]))
      exact h.trans ((MsgTables.Grows.applyAll _ _).outboxRow_none hn)
    · intro n' hins
      obtain rfl : n = n' := by simpa [RecoveredMessage.inserted, hlt] using hins
      exact RecoveredMessage.not_mem_inserted hn
  · rename_i hge
    refine runs_updateMessageById hw₃ ⟨r, hrow⟩ fun w₄ _ hl₄ hw₄ hi₄ _ => ?_
    have hl₁₄ := hl₁₃.trans hl₄
    refine ⟨⟨m, r, prior, url, 0⟩ :: items, hb.push rfl hl₁₄ hi₄ hw₄ ?_ hc ?_ ?_⟩
    · simp [RecoveredMessage.writes, hge]
    · obtain ⟨hr, hs, -⟩ := hb.waiting hl₁₄ hi₄ (y := (m, r)) (by simp)
      exact ⟨hr, hs, hl₄.history.mem hcounted, fun hlt => absurd hlt hge⟩
    · intro n hins
      simp [RecoveredMessage.inserted, hge] at hins

theorem runs_recoverStaleMessageDeliveries
    (hw : At p [] [.began p (.recoverStaleMessageDeliveries staleSeconds)] w) :
    MsgRuns env t₀ p (MsgJustified env t₀ p) (recoverStaleMessageDeliveries p staleSeconds) w := by
  have hc : callOf p ([.began p (.recoverStaleMessageDeliveries staleSeconds)] : MsgHistory) =
      some (.recoverStaleMessageDeliveries staleSeconds) := MsgJob.callOf_began p _
  refine runs_clock hw fun w₁ _ hw₁ _ => runs_clock hw₁ fun w₂ _ hw₂ _ => ?_
  refine runs_selectMessagesForUpdate hw₂ fun w₃ xs _ hw₃ hi₃ hn hxs => ?_
  have hrows : ∀ x ∈ xs, (replayed t₀ w₃.history).message x.1 = some x.2 ∧
      x.2.deliveryState = .delivering ∧ w₃.store.locks (.message x.1) = some p := by
    intro x hx
    obtain ⟨hr, hwh, hlock⟩ := hxs x hx
    simp only [Bool.and_eq_true, decide_eq_true_eq] at hwh
    exact ⟨hr, hwh.1, hlock⟩
  refine ⟨⟨_, hw₃.callOf_eq.trans hc, hw₃.own, hn, ⟨staleSeconds, rfl⟩, fun m hm => ?_⟩,
    fun w₄ hl₄ hw₄ hi₄ => ?_⟩
  · obtain ⟨x, hx, rfl⟩ := List.mem_map.mp hm
    obtain ⟨hr, hs, -⟩ := hrows x hx
    exact ⟨x.2, hr, hs⟩
  have hb : RecoverState env t₀ p (.recoverStaleMessageDeliveries staleSeconds) w₂.clock
      (xs.map Prod.fst) [] xs w₄ := by
    refine ⟨⟨_, hw₄, hc⟩, hi₄, mem_of_own_eq hw₄.own (by simp), by simp, hn, by simp, by simp, ?_⟩
    intro x hx
    obtain ⟨hr, hs, hlock⟩ := hrows x hx
    have h : (replayed t₀ w₄.history).message x.1 = (replayed t₀ w₃.history).message x.1 :=
      hl₄.frozen hi₃ hi₄ (k := MsgKey.message x.1) hlock
    exact ⟨h.trans hr, hs, hl₄.locks _ hlock⟩
  refine Safe.bind (Safe.mapEach (J := fun _ todo w => ∃ items, RecoverState env t₀ p
    (.recoverStaleMessageDeliveries staleSeconds) w₂.clock (xs.map Prod.fst) items todo w)
    (fun _ x todo w h => ?_) [] ⟨[], hb⟩) fun _ w₅ h₅ => ?_
  · obtain ⟨items, h⟩ := h
    exact runs_recoverMessage h
  obtain ⟨items, hb₅⟩ := h₅
  obtain ⟨E, hw₅, hc₅⟩ := hb₅.here
  refine runs_commit hw₅ fun w₆ hl₆ hw₆ hi₆ => ⟨⟨_, hw₆.callOf_eq.trans hc₅, ?_⟩,
    fun w₇ _ hw₇ _ => msgJustified_of (.recoverStaleMessageDeliveries staleSeconds) hw₇ hc₅
      ⟨_, _, mem_of_own_eq hw₇.own List.mem_cons_self⟩⟩
  have hb₆ := hb₅.later hl₆ hi₆ hw₆ hc₅
  have hmap : (items.map RecoveredMessage.m).reverse = xs.map Prod.fst := by
    simpa using hb₆.order
  refine .recovered staleSeconds w₂.clock items (hmap ▸ hb₆.selected) hb₆.ok ?_ hb₆.outboxes
  rw [← List.nodup_reverse, hmap]
  exact hn

end Recover

/-! ## The outbox -/

/-- Between two rows: what is marked dispatched, and which rows wait, locked. -/
structure DispatchState (env : MsgEnv) (t₀ : MsgTables) (p : Pid) (ns : List OutboxId)
    (todo : List (OutboxId × MsgOutboxRow)) (w : MsgWorld) : Prop where
  here : ∃ E, At p (ns.map .markDispatched) E w ∧ callOf p E = some .dispatchOutbox
  inv : MsgInv env t₀ w
  sent : ∀ n ∈ ns, ∃ j, .marked p (.enqueued n j) ∈ w.history
  todo : ∀ x ∈ todo, (replayed t₀ w.history).outboxRow x.1 = some x.2 ∧ x.2.dispatched = false ∧
    w.store.locks (.outbox x.1) = some p

section Dispatch

variable {ns : List OutboxId} {todo : List (OutboxId × MsgOutboxRow)} {x : OutboxId × MsgOutboxRow}

theorem DispatchState.waiting (hb : DispatchState env t₀ p ns todo w) (hl : Later p w w')
    (hi : MsgInv env t₀ w') {y : OutboxId × MsgOutboxRow} (hy : y ∈ todo) :
    (replayed t₀ w'.history).outboxRow y.1 = some y.2 ∧ y.2.dispatched = false ∧
      w'.store.locks (.outbox y.1) = some p := by
  obtain ⟨hrow, hd, hlock⟩ := hb.todo y hy
  have h : (replayed t₀ w'.history).outboxRow y.1 = (replayed t₀ w.history).outboxRow y.1 :=
    hl.frozen hb.inv hi (k := MsgKey.outbox y.1) hlock
  exact ⟨h.trans hrow, hd, hl.locks _ hlock⟩

theorem runs_dispatchRow (hb : DispatchState env t₀ p ns (x :: todo) w) :
    MsgRuns env t₀ p (fun _ w' => ∃ ns, DispatchState env t₀ p ns todo w') (dispatchRow p x) w := by
  obtain ⟨n, o⟩ := x
  obtain ⟨E, hw, hc⟩ := hb.here
  have rest : ∀ {w' : MsgWorld}, Later p w w' → MsgInv env t₀ w' → ∀ y ∈ todo,
      (replayed t₀ w'.history).outboxRow y.1 = some y.2 ∧ y.2.dispatched = false ∧
        w'.store.locks (.outbox y.1) = some p :=
    fun hl hi y hy => hb.waiting hl hi (List.mem_cons_of_mem _ hy)
  have sent : ∀ {w' : MsgWorld}, Later p w w' → ∀ n ∈ ns, ∃ j,
      .marked p (.enqueued n j) ∈ w'.history := by
    intro w' hl n' hn'
    obtain ⟨j, hj⟩ := hb.sent n' hn'
    exact ⟨j, hl.history.mem hj⟩
  refine runs_enqueueJob hw (fun w₁ hl₁ hw₁ hi₁ => ⟨?_, fun w₂ hl₂ hw₂ hi₂ => ?_⟩)
    fun w₁ hl₁ hw₁ hi₁ => ⟨ns, ⟨E, hw₁, hc⟩, hi₁, sent hl₁, rest hl₁ hi₁⟩
  · obtain ⟨hrow, hd, -⟩ := hb.waiting hl₁ hi₁ (y := (n, o)) (by simp)
    exact ⟨_, hw₁.callOf_eq.trans hc, rfl, o, hrow, hd, rfl⟩
  · simp only [if_true]
    refine runs_write hw₂ fun w₃ hl₃ hw₃ hi₃ => ⟨n :: ns, ⟨_, hw₃, hc⟩, hi₃, fun n' hn' => ?_,
      rest (hl₂.trans hl₃) hi₃⟩
    rcases List.mem_cons.mp hn' with rfl | hn'
    · exact ⟨⟨o.taskType, o.payload⟩, mem_of_own_eq hw₃.own (by simp)⟩
    · exact sent (hl₂.trans hl₃) n' hn'

theorem runs_selectOutboxForUpdate {α : Type} {Q : α → MsgWorld → Prop} {now : Time}
    {batchSize : Nat} {k : List (OutboxId × MsgOutboxRow) → MsgProgram α} (hw : At p [] E w)
    (h : ∀ w' xs, Later p w w' → At p [] E w' → MsgInv env t₀ w' →
      (∀ x ∈ xs, (replayed t₀ w'.history).outboxRow x.1 = some x.2 ∧ outboxDue now x.2 = true ∧
        w'.store.locks (.outbox x.1) = some p) → MsgRuns env t₀ p Q (k xs) w') :
    MsgRuns env t₀ p Q (selectOutboxForUpdate p now batchSize >>= k) w := by
  refine runs_step hw fun w' hl hw' hi a r w'' hs => ?_
  dsimp only at hs
  split at hs
  · rename_i ids
    split at hs
    · rename_i hpick
      obtain ⟨s, hlock, heq⟩ := Option.map_eq_some_iff.mp hs
      cases heq
      have hlocked := Stepped.lock hw' hi hlock
      refine ⟨[], E, hlocked, h _ _ (hl.trans (Later.lock hlock)) hlocked.at_ hlocked.inv ?_⟩
      intro x hx
      obtain ⟨hid, hx⟩ := mem_rowsAt hx
      obtain ⟨o, ho, hdue⟩ := (mem_keysWhere _ _ _).mp (hpick.2.2 x.1 hid)
      rw [hx] at ho
      cases ho
      rw [hw'.view hi] at hx
      refine ⟨hx, (Bool.and_eq_true _ _ ▸ hdue).1, ?_⟩
      rw [show _ = _ from (Store.lock_eq hlock).2.2.1 (.outbox x.1),
        if_pos (List.mem_map.mpr ⟨x.1, hid, rfl⟩)]
    · cases hs
  · cases hs

theorem runs_dispatchOutbox (hw : At p [] [.began p .dispatchOutbox] w) :
    MsgRuns env t₀ p (MsgJustified env t₀ p) (dispatchOutbox p) w := by
  have hc : callOf p ([.began p .dispatchOutbox] : MsgHistory) = some .dispatchOutbox :=
    MsgJob.callOf_began p _
  refine runs_clock hw fun w₁ _ hw₁ _ => ?_
  refine runs_selectOutboxForUpdate hw₁ fun w₂ xs _ hw₂ hi₂ hxs => ?_
  have hb : DispatchState env t₀ p [] xs w₂ := by
    refine ⟨⟨_, hw₂, hc⟩, hi₂, by simp, fun x hx => ?_⟩
    obtain ⟨hrow, hdue, hlock⟩ := hxs x hx
    simp only [outboxDue, Bool.and_eq_true, Bool.not_eq_true'] at hdue
    exact ⟨hrow, hdue.1, hlock⟩
  refine Safe.bind (Safe.mapEach
    (J := fun _ todo w => ∃ ns, DispatchState env t₀ p ns todo w)
    (fun _ x todo w h => ?_) [] ⟨[], hb⟩) fun sent w₃ h₃ => ?_
  · obtain ⟨ns, h⟩ := h
    exact runs_dispatchRow h
  obtain ⟨ns, hb₃⟩ := h₃
  obtain ⟨E, hw₃, hc₃⟩ := hb₃.here
  refine runs_commit hw₃ fun w₄ hl₄ hw₄ _ => ⟨⟨_, hw₄.callOf_eq.trans hc₃, .dispatched ns ?_⟩,
    fun w₅ _ hw₅ _ => msgJustified_plain rfl hw₅ hc₃⟩
  intro n hn
  obtain ⟨j, hj⟩ := hb₃.sent n hn
  exact ⟨j, hl₄.history.mem hj⟩

end Dispatch

end CueApi.Messages
