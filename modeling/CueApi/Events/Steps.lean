import CueApi.Events.Stream
import CueApi.Library.Paging
import CueApi.Messages.Statements

/-! What a step does to each part of the stream. -/

namespace CueApi.Events

open Scheduler (Pid Time Table keysWhere rowsAt Picks insertNew lookup_insertNew mem_keysWhere
  mem_rowsAt)
open Messages

variable {s s' : Stream} {a : Action} {p : Pid} {x : EventId} {sub : SubscriptionId}
variable {agent : AgentId} {eventType : Option String}

/-- The steps, with what lets them through. -/
inductive Stepped (s : Stream) : Action → Stream → Prop
  | emit (p : Pid) (row : EventRow) (es : List (Pid × EventId × EventRow))
      (hes : es = s.emitted ∨ es = (p, s.nextId, row) :: s.emitted) :
      Stepped s (.emit p row) { s with nextId := s.nextId + 1, emitted := es }
  | commit (p : Pid) : Stepped s (.commit p) (s.commit p)
  | rollback (p : Pid) : Stepped s (.rollback p) (s.rollback p)
  | digest (xs : List EventId) (now : Time) :
      Stepped s (.digest xs now) { s with tables := s.tables.apply (.markDigested xs now) }
  | cleanup (cutoff : Time) :
      Stepped s (.cleanup cutoff) { s with tables := cleanupOldEvents s.tables cutoff }
  | subscribe (sub : SubscriptionId) (row : Subscription) (t : MsgTables)
      (ht : createSubscription s.tables sub row = some t) :
      Stepped s (.subscribe sub row) { s with tables := t }
  | detach (sub : SubscriptionId) (agent : AgentId) (now : Time) (hfree : s.locks sub = none) :
      Stepped s (.detach sub agent now)
        { s with tables := detachSubscription s.tables sub agent now }
  | ack (sub : SubscriptionId) (agent : AgentId) (acked : EventId) (hfree : s.locks sub = none) :
      Stepped s (.ack sub agent acked)
        { s with tables := ackSubscription s.tables sub agent acked }
  | pull (p : Pid) (q : Pull) (hnone : s.pulls p = none) :
      Stepped s (.pull p q.agent q.since q.limit q.eventType)
        (s.setPull p (some (q.read s.tables)))
  | requery (p : Pid) (q : Pull) (hq : s.pulls p = some q) (hopen : q.acked = none) :
      Stepped s (.requery p) (s.setPull p (some (q.read s.tables)))
  | advance (p : Pid) (stored : Bool) (q : Pull) (hq : s.pulls p = some q) (hopen : q.acked = none) :
      Stepped s (.advance p stored) { s.setPull p (some
          { q with acked := some (stored && !(q.acks s.tables).isEmpty) }) with
        tables := advanceAck s.tables q stored }
  | respond (p : Pid) (q : Pull) (hq : s.pulls p = some q) :
      Stepped s (.respond p) { s.setPull p none with
        returned := fun p' =>
          if p' = p then s.returned p ++ q.page.map Prod.fst else s.returned p' }
  | cancel (p : Pid) : Stepped s (.cancel p) (s.setPull p none)
  | begin (p : Pid) (now : Time) (ids : List SubscriptionId) (hnone : s.cycles p = none)
      (hnodup : ids.Nodup)
      (hdue : ∀ i ∈ ids, s.locks i = none ∧
        ∃ r, s.tables.subscription i = some r ∧ subscriptionDue now r = true) :
      Stepped s (.begin p now ids) { s.setCycle p
          (some { todo := rowsAt s.tables.subscriptions ids }) with
        locks := fun x => if x ∈ ids then some p else s.locks x }
  | fetch (p : Pid) (debounced : Bool) (x : SubscriptionId × Subscription)
      (todo : List (SubscriptionId × Subscription)) (updates : List (SubscriptionId × SubUpdate))
      (hc : s.cycles p = some ⟨x :: todo, none, updates⟩) :
      Stepped s (.fetch p debounced)
        (s.setCycle p (some ⟨todo, batchFor s.tables x debounced, updates⟩))
  | answer (p : Pid) (status : Nat) (now : Time) (b : Batch)
      (todo : List (SubscriptionId × Subscription)) (updates : List (SubscriptionId × SubUpdate))
      (hc : s.cycles p = some ⟨todo, some b, updates⟩) :
      Stepped s (.answer p status now)
        { s.setCycle p (some ⟨todo, none, updates ++ [(b.sub, b.update status now)]⟩) with
          answered := (b, status) :: s.answered }
  | finish (p : Pid) (updates : List (SubscriptionId × SubUpdate))
      (hc : s.cycles p = some ⟨[], none, updates⟩) :
      Stepped s (.finish p)
        { (s.setCycle p none).unlock p with tables := applyUpdates s.tables updates }
  | abort (p : Pid) (c : Cycle) (hc : s.cycles p = some c) :
      Stepped s (.abort p) ((s.setCycle p none).unlock p)

theorem emit_cases {row : EventRow} (h : s.emit p row = some s') :
    Stepped s (.emit p row) s' := by
  unfold Stream.emit at h
  split at h
  · cases h
  · cases h
    refine .emit p row _ ?_
    split
    · exact .inl rfl
    · exact .inr rfl

theorem begin_cases {now : Time} {ids : List SubscriptionId} (h : s.begin p now ids = some s') :
    Stepped s (.begin p now ids) s' := by
  unfold Stream.begin at h
  dsimp only at h
  split at h
  · rename_i hg
    cases h
    refine .begin p now ids (Option.isNone_iff_eq_none.mp hg.1) hg.2.1 fun i hi => ?_
    obtain ⟨r, hr, hdue⟩ := (mem_keysWhere _ _ _).mp (hg.2.2.1 i hi)
    simp only [Bool.and_eq_true, Option.isNone_iff_eq_none] at hdue
    exact ⟨hdue.2, r, hr, hdue.1⟩
  · cases h

theorem step_cases (h : step s a = some s') : Stepped s a s' := by
  cases a with
  | emit p row => exact emit_cases h
  | commit p => cases h; exact .commit p
  | rollback p => cases h; exact .rollback p
  | digest xs now => cases h; exact .digest xs now
  | cleanup cutoff => cases h; exact .cleanup cutoff
  | subscribe sub row =>
    obtain ⟨t, ht, rfl⟩ := Option.map_eq_some_iff.mp h
    exact .subscribe sub row t ht
  | detach sub agent now =>
    simp only [step] at h
    split at h
    · cases h
    · rename_i hfree
      cases h
      exact .detach sub agent now (by simpa using hfree)
  | ack sub agent acked =>
    simp only [step] at h
    split at h
    · cases h
    · rename_i hfree
      cases h
      exact .ack sub agent acked (by simpa using hfree)
  | pull p agent since limit eventType =>
    simp only [step] at h
    split at h
    · cases h
    · rename_i hnone
      cases h
      exact .pull p ⟨agent, since, limit, eventType, [], none⟩ hnone
  | requery p =>
    simp only [step] at h
    split at h
    · cases h
    · rename_i q hq
      split at h
      · rename_i hopen
        cases h
        simp only [Bool.and_eq_true, Option.isNone_iff_eq_none] at hopen
        exact .requery p q hq hopen.2
      · cases h
  | advance p stored =>
    simp only [step] at h
    split at h
    · cases h
    · rename_i q hq
      split at h
      · cases h
      · rename_i hopen
        cases h
        exact .advance p stored q hq (by simpa using hopen)
  | respond p =>
    simp only [step] at h
    split at h
    · cases h
    · rename_i q hq
      split at h
      · cases h
        exact .respond p q hq
      · cases h
  | cancel p => cases h; exact .cancel p
  | begin p now ids => exact begin_cases h
  | fetch p debounced =>
    simp only [step] at h
    split at h
    · rename_i x todo updates hc
      cases h
      exact .fetch p debounced x todo updates hc
    · cases h
  | answer p status now =>
    simp only [step] at h
    split at h
    · rename_i todo b updates hc
      cases h
      exact .answer p status now b todo updates hc
    · cases h
  | finish p =>
    simp only [step] at h
    split at h
    · rename_i updates hc
      cases h
      exact .finish p updates hc
    · cases h
  | abort p =>
    simp only [step] at h
    split at h
    · rename_i c hc
      cases h
      exact .abort p c hc
    · cases h

/-! ## Events -/

/-- What a reader of the agent's events of a type asks for. -/
def matching (agent : AgentId) (eventType : Option String) (r : EventRow) : Bool :=
  r.recipientAgentId = agent && eventType.all fun name => r.payload.type.text = name

/-- An event that exists, of the agent and of the type. -/
def Stands (t : MsgTables) (agent : AgentId) (eventType : Option String) (x : EventId) : Prop :=
  ∃ r, t.event x = some r ∧ matching agent eventType r = true

/-- The id was taken by a committed event of the agent. -/
def Shown (s : Stream) (agent : AgentId) (x : EventId) : Prop :=
  ∃ r, (x, r) ∈ s.visible ∧ r.recipientAgentId = agent

theorem matching_recipient {r : EventRow} (h : matching agent eventType r = true) :
    r.recipientAgentId = agent := by
  simp only [matching, Bool.and_eq_true, decide_eq_true_eq] at h
  exact h.1

theorem text_injective {x y : EventType} (h : x.text = y.text) : x = y := by
  cases x <;> cases y <;> first | rfl | exact absurd h (by decide)

theorem matching_type {r : EventRow} {type : EventType} :
    matching agent (some type.text) r = true ↔
      r.recipientAgentId = agent ∧ r.payload.type = type := by
  simp only [matching, Option.all_some, Bool.and_eq_true, decide_eq_true_eq]
  constructor
  · rintro ⟨ha, ht⟩
    exact ⟨ha, text_injective ht⟩
  · rintro ⟨ha, rfl⟩
    exact ⟨ha, rfl⟩

theorem event_insertEvents {t : MsgTables} {rows : List (EventId × EventRow)} {r : EventRow}
    (h : (insertEvents t rows).event x = some r) : t.event x = some r ∨ (x, r) ∈ rows := by
  induction rows generalizing t with
  | nil => exact .inl h
  | cons y rows ih =>
    rcases ih h with h | h
    · rw [MsgTables.event_apply] at h
      dsimp only at h
      split at h
      · rename_i hxy
        rcases Option.or_eq_some_iff.mp h with h | ⟨-, h⟩
        · exact .inl h
        · cases h
          exact .inr (hxy ▸ List.mem_cons_self)
      · exact .inl h
    · exact .inr (List.mem_cons_of_mem y h)

theorem event_insertEvents_of {t : MsgTables} {rows : List (EventId × EventRow)} {r : EventRow}
    (hr : t.event x = some r) : (insertEvents t rows).event x = some r := by
  induction rows generalizing t with
  | nil => exact hr
  | cons y rows ih =>
    refine ih ?_
    rw [MsgTables.event_apply]
    dsimp only
    split
    · rw [hr, Option.some_or]
    · exact hr

theorem subscriptions_insertEvents (t : MsgTables) (rows : List (EventId × EventRow)) :
    (insertEvents t rows).subscriptions = t.subscriptions := by
  induction rows generalizing t with
  | nil => rfl
  | cons y rows ih => exact ih (t.apply (.insertEvent y.1 y.2))

theorem events_applyUpdates (t : MsgTables) (updates : List (SubscriptionId × SubUpdate)) :
    (applyUpdates t updates).events = t.events := by
  induction updates generalizing t with
  | nil => rfl
  | cons y updates ih => exact ih (t.apply (.updateSubscriptions [y.1] y.2))

theorem lookup_eraseAll {V : Type} {t : Table Nat V} {ks : List Nat} {k : Nat} {v : V}
    (h : (ks.foldl (fun t k => t.erase k) t).lookup k = some v) : t.lookup k = some v := by
  induction ks generalizing t with
  | nil => exact h
  | cons j ks ih =>
    have h := ih h
    by_cases hkj : k = j
    · rw [hkj, AList.lookup_erase] at h
      cases h
    · rwa [AList.lookup_erase_ne hkj] at h

theorem lookup_eraseAll_of {V : Type} {t : Table Nat V} {ks : List Nat} {k : Nat} {v : V}
    (hk : k ∉ ks) (h : t.lookup k = some v) :
    (ks.foldl (fun t k => t.erase k) t).lookup k = some v := by
  induction ks generalizing t with
  | nil => exact h
  | cons j ks ih =>
    rw [List.mem_cons, not_or] at hk
    exact ih hk.2 ((AList.lookup_erase_ne hk.1).trans h)

theorem lookup_eraseAll_mem {V : Type} {t : Table Nat V} {ks : List Nat} {k : Nat} (hk : k ∈ ks) :
    (ks.foldl (fun t k => t.erase k) t).lookup k = none := by
  induction ks generalizing t with
  | nil => cases hk
  | cons j ks ih =>
    by_cases hks : k ∈ ks
    · exact ih hks
    · obtain rfl : k = j := (List.mem_cons.mp hk).resolve_right hks
      refine Option.eq_none_iff_forall_ne_some.mpr fun v hv => ?_
      have hv : (t.erase k).lookup k = some v := lookup_eraseAll hv
      rw [AList.lookup_erase] at hv
      cases hv

theorem createSubscription_cases {t t' : MsgTables} {row : Subscription}
    (h : createSubscription t sub row = some t') :
    t.subscription sub = none ∧ t'.events = t.events ∧ ∀ k, t'.subscription k =
      if k = sub then some {
        subscriberAgentId := row.subscriberAgentId
        eventType := row.eventType
        deliveryTarget := row.deliveryTarget
        webhookUrl := row.webhookUrl
        webhookSecret := row.webhookSecret
        inlineBody := row.inlineBody }
      else t.subscription k := by
  unfold createSubscription at h
  dsimp only at h
  split at h
  · rename_i hg
    simp only [Bool.and_eq_true, Option.isNone_iff_eq_none] at hg
    cases h
    refine ⟨hg.1, rfl, fun k => ?_⟩
    have hnone := hg.1
    unfold MsgTables.subscription at hnone ⊢
    rw [lookup_insertNew]
    split
    · rename_i hk
      rw [hk, hnone, Option.none_or]
    · rfl
  · cases h

theorem events_advanceAck (t : MsgTables) (q : Pull) (stored : Bool) :
    (advanceAck t q stored).events = t.events := by
  unfold advanceAck
  split
  · rfl
  · split <;> rfl

/-- An event after the step was there before, but for `digested_at`, or is committed now. -/
theorem step_event_core (h : step s a = some s') {r' : EventRow}
    (hx : s'.tables.event x = some r') :
    (∃ r, s.tables.event x = some r ∧ r'.core = r.core) ∨
    ∃ p, a = .commit p ∧ (x, r') ∈ s.pending p := by
  have hsame (he : s'.tables.events = s.tables.events) :
      ∃ r, s.tables.event x = some r ∧ r'.core = r.core := by
    unfold MsgTables.event at hx ⊢
    exact ⟨r', he ▸ hx, rfl⟩
  cases step_cases h with
  | commit p =>
    rcases event_insertEvents hx with hx | hx
    · exact .inl ⟨r', hx, rfl⟩
    · exact .inr ⟨p, rfl, hx⟩
  | digest xs now =>
    rw [MsgTables.event_apply] at hx
    dsimp only at hx
    split at hx
    · obtain ⟨r, hr, rfl⟩ := Option.map_eq_some_iff.mp hx
      exact .inl ⟨r, hr, rfl⟩
    · exact .inl ⟨r', hx, rfl⟩
  | cleanup cutoff => exact .inl ⟨r', lookup_eraseAll hx, rfl⟩
  | subscribe sub row t ht => exact .inl (hsame (createSubscription_cases ht).2.1)
  | advance p stored q hq hopen => exact .inl (hsame (events_advanceAck _ q stored))
  | finish p updates hc => exact .inl (hsame (events_applyUpdates _ updates))
  | _ => exact .inl (hsame rfl)

/-- Its recipient and its payload are the same. -/
theorem step_event (h : step s a = some s') {r' : EventRow} (hx : s'.tables.event x = some r') :
    (∃ r, s.tables.event x = some r ∧ r'.recipientAgentId = r.recipientAgentId ∧
      r'.payload = r.payload) ∨
    ∃ p, a = .commit p ∧ (x, r') ∈ s.pending p := by
  refine (step_event_core h hx).imp_left fun ⟨r, hr, hcore⟩ => ⟨r, hr, ?_, ?_⟩
  · exact (congrArg EventRow.recipientAgentId hcore : r'.core.recipientAgentId = r.core.recipientAgentId)
  · exact (congrArg EventRow.payload hcore : r'.core.payload = r.core.payload)

/-- An event stays, but for `digested_at`, unless a cleanup takes it. -/
theorem event_stays (h : step s a = some s') {r : EventRow} (hx : s.tables.event x = some r) :
    (∃ r', s'.tables.event x = some r' ∧ r'.core = r.core) ∨
    ∃ cutoff, a = .cleanup cutoff ∧ r.emittedAt < cutoff := by
  have hsame (he : s'.tables.events = s.tables.events) :
      ∃ r', s'.tables.event x = some r' ∧ r'.core = r.core := by
    unfold MsgTables.event at hx ⊢
    exact ⟨r, he ▸ hx, rfl⟩
  cases step_cases h with
  | commit p => exact .inl ⟨r, event_insertEvents_of hx, rfl⟩
  | digest xs now => exact .inl ((MsgTables.Grows.apply (.markDigested xs now) s.tables).event hx)
  | cleanup cutoff =>
    by_cases hold : r.emittedAt < cutoff
    · exact .inr ⟨cutoff, rfl, hold⟩
    · refine .inl ⟨r, lookup_eraseAll_of (fun hmem => hold ?_) hx, rfl⟩
      obtain ⟨r₁, hr₁, hlt⟩ := (mem_keysWhere _ _ _).mp hmem
      cases hx.symm.trans hr₁
      exact of_decide_eq_true hlt
  | subscribe sub row t ht => exact .inl (hsame (createSubscription_cases ht).2.1)
  | advance p stored q hq hopen => exact .inl (hsame (events_advanceAck _ q stored))
  | finish p updates hc => exact .inl (hsame (events_applyUpdates _ updates))
  | _ => exact .inl (hsame rfl)

theorem step_stands (h : step s a = some s') (hx : Stands s'.tables agent eventType x) :
    Stands s.tables agent eventType x ∨
    ∃ p r, a = .commit p ∧ (x, r) ∈ s.pending p ∧ matching agent eventType r = true := by
  obtain ⟨r', hr', hm⟩ := hx
  rcases step_event h hr' with ⟨r, hr, ha, hp⟩ | ⟨p, rfl, hmem⟩
  · refine .inl ⟨r, hr, ?_⟩
    unfold matching at hm ⊢
    rwa [ha, hp] at hm
  · exact .inr ⟨p, r', rfl, hmem, hm⟩

theorem step_visible (h : step s a = some s') :
    s'.visible = s.visible ∨ ∃ p, a = .commit p ∧ s'.visible = s.pending p ++ s.visible := by
  cases step_cases h with
  | commit p => exact .inr ⟨p, rfl, rfl⟩
  | _ => exact .inl rfl

theorem Shown.after (hx : Shown s agent x) (h : step s a = some s') : Shown s' agent x := by
  obtain ⟨r, hr, ha⟩ := hx
  rcases step_visible h with hv | ⟨p, -, hv⟩
  · exact ⟨r, hv ▸ hr, ha⟩
  · exact ⟨r, by rw [hv]; exact List.mem_append_right _ hr, ha⟩

/-! ## Subscriptions -/

/-- The UPDATEs of a list that are for this row. -/
theorem subscription_applyUpdates (t : MsgTables) (updates : List (SubscriptionId × SubUpdate)) :
    (applyUpdates t updates).subscription sub = (t.subscription sub).map fun r =>
      updates.foldl (fun r y => if y.1 = sub then y.2.set r else r) r := by
  induction updates generalizing t with
  | nil => exact Option.map_id'.symm
  | cons y updates ih =>
    refine (ih _).trans ?_
    have hrow : (t.apply (.updateSubscriptions [y.1] y.2)).subscription sub =
        (t.subscription sub).map fun r => if y.1 = sub then y.2.set r else r := by
      unfold MsgTables.subscription MsgTables.apply
      rw [lookup_modifyAll]
      simp only [List.mem_singleton, eq_comm (a := sub)]
      split
      · rfl
      · exact Option.map_id'.symm
    rw [hrow, Option.map_map]
    rfl

/-- With one UPDATE a row, a row is left as it is or changed by its own. -/
theorem foldl_updates (sub : SubscriptionId) {updates : List (SubscriptionId × SubUpdate)}
    (hn : (updates.map Prod.fst).Nodup) (r : Subscription) :
    (sub ∉ updates.map Prod.fst ∧
      updates.foldl (fun r y => if y.1 = sub then y.2.set r else r) r = r) ∨
    ∃ u, (sub, u) ∈ updates ∧
      updates.foldl (fun r y => if y.1 = sub then y.2.set r else r) r = u.set r := by
  induction updates generalizing r with
  | nil => exact .inl ⟨List.not_mem_nil, rfl⟩
  | cons y updates ih =>
    rw [List.map_cons, List.nodup_cons] at hn
    rw [List.foldl_cons]
    split
    · rename_i hy
      rcases ih hn.2 (y.2.set r) with ⟨-, heq⟩ | ⟨u, hu, -⟩
      · exact .inr ⟨y.2, by rw [← hy]; exact List.mem_cons_self, heq⟩
      · exact absurd (List.mem_map_of_mem (f := Prod.fst) hu) (hy ▸ hn.1)
    · rename_i hy
      rcases ih hn.2 r with ⟨hno, heq⟩ | ⟨u, hu, heq⟩
      · refine .inl ⟨fun hm => ?_, heq⟩
        rcases List.mem_cons.mp hm with hm | hm
        · exact hy hm.symm
        · exact hno hm
      · exact .inr ⟨u, List.mem_cons_of_mem y hu, heq⟩

/-- What a step makes of the row of a subscription. -/
inductive Rewritten (s : Stream) (a : Action) (sub : SubscriptionId) (row : Subscription) :
    Subscription → Prop
  | same : Rewritten s a sub row row
  | detached (now : Time) (hfree : s.locks sub = none) :
      Rewritten s a sub row { row with detachedAt := some now }
  | acked (agent : AgentId) (acked : EventId) (ha : a = .ack sub agent acked)
      (hfree : s.locks sub = none)
      (hlt : (row.lastAckedEventId.all fun old => decide (old < acked)) = true) :
      Rewritten s a sub row { row with lastAckedEventId := some acked }
  | pulled (p : Pid) (q : Pull) (cursor : EventId) (ha : a = .advance p true)
      (hq : s.pulls p = some q) (hc : q.nextCursor = some cursor)
      (hw : ackedBy q.agent cursor q.eventType row = true) :
      Rewritten s a sub row { row with lastAckedEventId := some cursor }
  | dispatched (p : Pid) (updates : List (SubscriptionId × SubUpdate)) (u : SubUpdate)
      (ha : a = .finish p) (hc : s.cycles p = some ⟨[], none, updates⟩)
      (hu : (sub, u) ∈ updates) : Rewritten s a sub row (u.set row)

theorem subscription_modifyWhere (t : MsgTables) (wh : SubscriptionId → Subscription → Bool)
    (f : Subscription → Subscription) :
    (modifyAll t.subscriptions (keysWhere t.subscriptions wh) f).lookup sub =
      (t.subscription sub).map fun r => if wh sub r then f r else r := by
  unfold MsgTables.subscription
  rw [lookup_modifyAll]
  cases hr : t.subscriptions.lookup sub with
  | none => simp
  | some r =>
    have hmem : sub ∈ keysWhere t.subscriptions wh ↔ wh sub r = true := by
      rw [mem_keysWhere]
      simp [hr]
    simp only [hmem, Option.map_some]
    split <;> rfl

theorem subscription_advanceAck (t : MsgTables) (q : Pull) (stored : Bool) (sub : SubscriptionId) :
    ∃ f, (advanceAck t q stored).subscription sub = (t.subscription sub).map f ∧
      ∀ row, f row = row ∨ (stored = true ∧ ∃ cursor, q.nextCursor = some cursor ∧
        ackedBy q.agent cursor q.eventType row = true ∧
        f row = { row with lastAckedEventId := some cursor }) := by
  unfold advanceAck
  split
  · exact ⟨fun r => r, Option.map_id'.symm, fun _ => .inl rfl⟩
  · rename_i cursor hc
    split
    · rename_i hst
      have hacks : q.acks t =
          keysWhere t.subscriptions fun _ r => ackedBy q.agent cursor q.eventType r := by
        unfold Pull.acks
        rw [hc, Option.elim_some]
      rw [hacks]
      refine ⟨_, subscription_modifyWhere t _ _, fun row => ?_⟩
      split
      · rename_i hw
        exact .inr ⟨hst, cursor, hc, hw, rfl⟩
      · exact .inl rfl
    · exact ⟨fun r => r, Option.map_id'.symm, fun _ => .inl rfl⟩

/-- A pull whose ack takes a row has something to acknowledge. -/
theorem acks_ne_nil {q : Pull} {t : MsgTables} {cursor : EventId} {row : Subscription}
    (hr : t.subscription sub = some row) (hc : q.nextCursor = some cursor)
    (hw : ackedBy q.agent cursor q.eventType row = true) : (q.acks t).isEmpty = false := by
  have hmem : sub ∈ q.acks t := by
    unfold Pull.acks
    rw [hc, Option.elim_some]
    exact (mem_keysWhere _ _ _).mpr ⟨row, hr, hw⟩
  exact List.isEmpty_eq_false_iff.mpr (List.ne_nil_of_mem hmem)

/-- The row after the step is a new one, or the one of before, rewritten. -/
theorem step_row (sub : SubscriptionId) (h : step s a = some s')
    (hn : ∀ p c, s.cycles p = some c → (c.updates.map Prod.fst).Nodup) :
    (∃ row row', a = .subscribe sub row ∧ s.tables.subscription sub = none ∧
      s'.tables.subscription sub = some row' ∧
      row'.lastDispatchedEventId = none ∧ row'.lastAckedEventId = none) ∨
    ∃ f, s'.tables.subscription sub = (s.tables.subscription sub).map f ∧
      ∀ row, Rewritten s a sub row (f row) := by
  have hsame (he : s'.tables.subscription sub = s.tables.subscription sub) :
      ∃ f, s'.tables.subscription sub = (s.tables.subscription sub).map f ∧
        ∀ row, Rewritten s a sub row (f row) :=
    ⟨fun r => r, by rw [he]; exact Option.map_id'.symm, fun _ => .same⟩
  cases step_cases h with
  | commit p =>
    refine .inr (hsame ?_)
    unfold MsgTables.subscription
    exact congrArg (AList.lookup sub) (subscriptions_insertEvents _ _)
  | subscribe k row t ht =>
    obtain ⟨hnone, -, hrows⟩ := createSubscription_cases ht
    by_cases hk : sub = k
    · subst hk
      exact .inl ⟨row, _, rfl, hnone, (hrows sub).trans (if_pos rfl), rfl, rfl⟩
    · exact .inr (hsame ((hrows sub).trans (if_neg hk)))
  | detach k agent now hfree =>
    refine .inr ⟨_, subscription_modifyWhere s.tables _ _, fun row => ?_⟩
    split
    · rename_i hw
      simp only [Bool.and_eq_true, decide_eq_true_eq] at hw
      exact .detached now (hw.1.1 ▸ hfree)
    · exact .same
  | ack k agent acked hfree =>
    refine .inr ⟨_, subscription_modifyWhere s.tables _ _, fun row => ?_⟩
    split
    · rename_i hw
      simp only [Bool.and_eq_true, decide_eq_true_eq] at hw
      obtain ⟨⟨⟨rfl, -⟩, -⟩, hlt⟩ := hw
      exact .acked agent acked rfl hfree hlt
    · exact .same
  | advance p stored q hq hopen =>
    obtain ⟨f, hf, hrow⟩ := subscription_advanceAck s.tables q stored sub
    refine .inr ⟨f, hf, fun row => ?_⟩
    rcases hrow row with hrow | ⟨rfl, cursor, hc, hw, hrow⟩
    · rw [hrow]
      exact .same
    · rw [hrow]
      exact .pulled p q cursor rfl hq hc hw
  | finish p updates hc =>
    refine .inr ⟨_, subscription_applyUpdates s.tables updates, fun row => ?_⟩
    rcases foldl_updates sub (hn p _ hc) row with ⟨-, hsame⟩ | ⟨u, hu, hset⟩
    · rw [hsame]
      exact .same
    · rw [hset]
      exact .dispatched p updates u rfl hc hu
  | _ => exact .inr (hsame rfl)

/-- A row stays. -/
theorem step_row_of {row : Subscription} (h : step s a = some s')
    (hn : ∀ p c, s.cycles p = some c → (c.updates.map Prod.fst).Nodup)
    (hr : s.tables.subscription sub = some row) :
    ∃ row', s'.tables.subscription sub = some row' ∧ Rewritten s a sub row row' := by
  rcases step_row sub h hn with ⟨_, _, -, hnone, -⟩ | ⟨f, hf, hrw⟩
  · rw [hr] at hnone
    cases hnone
  · exact ⟨f row, by rw [hf, hr]; rfl, hrw row⟩

end CueApi.Events
