import CueApi.Events.Order

/-! The watermark of a webhook subscription: all that stands at or below `last_dispatched_event_id`
was in a batch that the endpoint accepted. The invariant carries the marks of the UPDATEs that a
cycle has not committed, and the page from which a posted batch was split. -/

namespace CueApi.Events

open Scheduler (Pid Time)
open Messages Paging

variable {s s' : Stream} {a : Action} {p : Pid} {x : EventId} {sub : SubscriptionId}
variable {c c' : Cycle} {row row' : Subscription} {b : Batch} {w : EventId}

/-- `last_dispatched_event_id`, NULL read as 0. -/
def dispatchedUpTo (row : Subscription) : EventId := row.lastDispatchedEventId.getD 0

/-- `last_acked_event_id`, NULL read as 0. -/
def ackedUpTo (row : Subscription) : EventId := row.lastAckedEventId.getD 0

/-! ## Cycles from step to step -/

/-- Where a cycle comes from. -/
inductive Cycled (s : Stream) (p : Pid) (c' : Cycle) : Action → Prop
  | kept (a : Action) (hc : s.cycles p = some c') (ha : a ≠ .finish p) : Cycled s p c' a
  | begun (now : Time) (ids : List SubscriptionId) (hnone : s.cycles p = none)
      (hpost : c'.posting = none) (hupd : c'.updates = []) : Cycled s p c' (.begin p now ids)
  | fetched (debounced : Bool) (y : SubscriptionId × Subscription)
      (todo : List (SubscriptionId × Subscription)) (updates : List (SubscriptionId × SubUpdate))
      (hc : s.cycles p = some ⟨y :: todo, none, updates⟩)
      (hc' : c' = ⟨todo, batchFor s.tables y debounced, updates⟩) :
      Cycled s p c' (.fetch p debounced)
  | answered (status : Nat) (now : Time) (b : Batch)
      (todo : List (SubscriptionId × Subscription)) (updates : List (SubscriptionId × SubUpdate))
      (hc : s.cycles p = some ⟨todo, some b, updates⟩)
      (hc' : c' = ⟨todo, none, updates ++ [(b.sub, b.update status now)]⟩) :
      Cycled s p c' (.answer p status now)

theorem setCycle_cycles {q : Pid} {oc : Option Cycle} :
    (s.setCycle q oc).cycles p = if p = q then oc else s.cycles p := rfl

theorem step_cycle (h : step s a = some s') (hc' : s'.cycles p = some c') : Cycled s p c' a := by
  cases step_cases h with
  | begin q now ids hnone hnodup hdue =>
    change (if p = q then _ else s.cycles p) = some c' at hc'
    split at hc'
    · rename_i hq
      cases hc'
      exact hq ▸ .begun now ids (hq ▸ hnone) rfl rfl
    · exact .kept _ hc' (fun h => by cases h)
  | fetch q debounced y todo updates hc =>
    rw [setCycle_cycles] at hc'
    split at hc'
    · rename_i hq
      cases hc'
      exact hq ▸ .fetched debounced y todo updates (hq ▸ hc) rfl
    · exact .kept _ hc' (fun h => by cases h)
  | answer q status now b todo updates hc =>
    change (if p = q then _ else s.cycles p) = some c' at hc'
    split at hc'
    · rename_i hq
      cases hc'
      exact hq ▸ .answered status now b todo updates (hq ▸ hc) rfl
    · exact .kept _ hc' (fun h => by cases h)
  | finish q updates hc =>
    change (if p = q then none else s.cycles p) = some c' at hc'
    split at hc'
    · cases hc'
    · rename_i hq
      refine .kept _ hc' (fun h => ?_)
      cases h
      exact hq rfl
  | abort q c hc =>
    change (if p = q then none else s.cycles p) = some c' at hc'
    split at hc'
    · cases hc'
    · exact .kept _ hc' (fun h => by cases h)
  | _ => exact .kept _ hc' (fun h => by cases h)

/-- While a cycle goes on, the rows that it has locked stay. -/
theorem Held.row_kept (hs : Held s) (h : step s a = some s') (hc : s.cycles p = some c)
    (hc' : s'.cycles p = some c') (hsub : sub ∈ c.subs)
    (hr' : s'.tables.subscription sub = some row) : s.tables.subscription sub = some row := by
  have hl := hs.locked p c hc sub hsub
  obtain ⟨row₀, hr₀, -⟩ := hs.webhook p sub hl
  rcases hs.row_step hl h hr₀ with hr | ⟨rfl, -⟩
  · rw [hr'] at hr
    cases hr
    exact hr₀
  · cases step_cycle h hc' with
    | kept _ _ ha => exact absurd rfl ha

theorem mem_subs_of_update {u : SubUpdate} (hu : (sub, u) ∈ c.updates) : sub ∈ c.subs :=
  List.mem_append_right _ (List.mem_map_of_mem (f := Prod.fst) hu)

theorem mem_subs_of_posting {todo : List (SubscriptionId × Subscription)}
    {updates : List (SubscriptionId × SubUpdate)} :
    b.sub ∈ (Cycle.mk todo (some b) updates).subs := by
  simp [Cycle.subs, Cycle.unserved]

theorem Held.posting_row (hs : Held s) {todo : List (SubscriptionId × Subscription)}
    {updates : List (SubscriptionId × SubUpdate)} (hc : s.cycles p = some ⟨todo, some b, updates⟩) :
    s.tables.subscription b.sub = some b.row :=
  hs.read p _ hc (b.sub, b.row) (by simp [Cycle.unserved])

/-- An answer is the only step that adds to what the endpoints have answered. -/
theorem step_answered (h : step s a = some s') :
    s'.answered = s.answered ∨ ∃ p status now b todo updates, a = .answer p status now ∧
      s.cycles p = some ⟨todo, some b, updates⟩ ∧ s'.answered = (b, status) :: s.answered := by
  cases step_cases h with
  | answer p status now b todo updates hc =>
    exact .inr ⟨p, status, now, b, todo, updates, rfl, hc, rfl⟩
  | _ => exact .inl rfl

/-! ## The new watermark -/

/-- The watermark stays, or moves to a fired event below all that are put off. -/
theorem newWatermark_cases (row : Subscription) {fire : List (EventId × EventRow)}
    (deferred : List (EventId × EventRow)) (hne : fire ≠ []) :
    newWatermark row fire deferred = dispatchedUpTo row ∨
      ∃ y ∈ fire, y.1 = newWatermark row fire deferred ∧ ∀ d ∈ deferred, y.1 < d.1 := by
  unfold newWatermark
  split
  · rename_i hmin
    have hnil : deferred = [] := by simpa using hmin
    obtain ⟨y, hy⟩ := List.getLast?_isSome.mpr hne |> Option.isSome_iff_exists.mp
    refine .inr ⟨y, List.mem_of_getLast? hy, by simp [hy], ?_⟩
    rw [hnil]
    intro d hd
    cases hd
  · rename_i lowest hmin
    cases hy : (fire.filter fun x => x.1 < lowest).getLast? with
    | none => exact .inl rfl
    | some y =>
      obtain ⟨hmem, hlt⟩ := List.mem_filter.mp (List.mem_of_getLast? hy)
      refine .inr ⟨y, hmem, rfl, fun d hd => ?_⟩
      have hle := (List.min?_eq_some_iff.mp hmin).2 _ (List.mem_map_of_mem (f := Prod.fst) hd)
      exact Nat.lt_of_lt_of_le (of_decide_eq_true hlt) hle

/-- A fired event below all that are put off is at or below the new watermark. -/
theorem le_newWatermark {fire deferred : List (EventId × EventRow)}
    (ho : Ordered Prod.fst fire) {y : EventId × EventRow} (hy : y ∈ fire)
    (hd : ∀ d ∈ deferred, y.1 < d.1) : y.1 ≤ newWatermark row fire deferred := by
  unfold newWatermark
  split
  · obtain ⟨z, hz⟩ := Option.isSome_iff_exists.mp
      (List.getLast?_isSome.mpr (List.ne_nil_of_mem hy))
    rw [hz]
    exact ho.le_getLast hy hz
  · rename_i lowest hmin
    obtain ⟨d, hdm, rfl⟩ := List.mem_map.mp (List.min?_mem hmin)
    have hmem : y ∈ fire.filter fun x => x.1 < d.1 :=
      List.mem_filter.mpr ⟨hy, decide_eq_true (hd d hdm)⟩
    obtain ⟨z, hz⟩ := Option.isSome_iff_exists.mp
      (List.getLast?_isSome.mpr (List.ne_nil_of_mem hmem))
    rw [hz]
    exact (ho.sublist List.filter_sublist).le_getLast hmem hz

/-! ## Batches -/

/-- A batch as it was split from a page of the pending events. -/
structure BatchOf (s : Stream) (b : Batch) : Prop where
  nonempty : b.fire ≠ []
  split : ∃ (events : List (EventId × EventRow)) (debounced : Bool),
    b.fire = events.filter (fun e => !late debounced e) ∧
    b.deferred = events.filter (late debounced) ∧
    PageOf (Stands s.tables b.row.subscriberAgentId (some b.row.eventType.text))
      (Shown s b.row.subscriberAgentId) (dispatchedUpTo b.row) (events.map Prod.fst)

theorem BatchOf.after (hb : BatchOf s b) (hk : Known s) (hc : inOrder s a = true)
    (h : step s a = some s') : BatchOf s' b := by
  obtain ⟨events, debounced, hf, hd, hp⟩ := hb.split
  exact ⟨hb.nonempty, events, debounced, hf, hd,
    hp.grow (hk.inOrder_step hc h _ _) fun x hx => hx.after h⟩

theorem BatchOf.fetched (hk : Known s) {y : SubscriptionId × Subscription} {debounced : Bool}
    (hb : batchFor s.tables y debounced = some b) : BatchOf s b := by
  obtain ⟨-, hrow, hne, hf, hd⟩ := batchFor_cases hb
  exact ⟨hne, _, debounced, hf, hd, hrow ▸ hk.pendingEvents y.2⟩

/-- The event was in a batch of the subscription that the endpoint accepted. -/
def Sent (s : Stream) (sub : SubscriptionId) (x : EventId) : Prop :=
  ∃ y ∈ s.answered, y.1.sub = sub ∧ success y.2 = true ∧ x ∈ y.1.ids

theorem Sent.after (hx : Sent s sub x) (h : step s a = some s') : Sent s' sub x := by
  obtain ⟨y, hy, hrest⟩ := hx
  rcases step_answered h with ha | ⟨_, _, _, _, _, _, -, -, ha⟩
  · exact ⟨y, ha ▸ hy, hrest⟩
  · exact ⟨y, by rw [ha]; exact List.mem_cons_of_mem _ hy, hrest⟩

/-- All that stands for the subscription at or below `w` was sent. -/
abbrev SentUpTo (s : Stream) (sub : SubscriptionId) (row : Subscription) (w : EventId) : Prop :=
  Mark (Stands s.tables row.subscriberAgentId (some row.eventType.text))
    (Shown s row.subscriberAgentId) (Sent s sub) w

theorem SentUpTo.after (hw : SentUpTo s sub row w) (hk : Known s) (hc : inOrder s a = true)
    (h : step s a = some s') : SentUpTo s' sub row w :=
  hw.grow (hk.inOrder_step hc h _ _) (fun _ hx => hx.after h) fun _ hx => hx.after h

/-- A success lets the watermark move. -/
theorem BatchOf.advance (hb : BatchOf s b) (hw : SentUpTo s b.sub b.row (dispatchedUpTo b.row))
    (hold : ∀ x, Sent s b.sub x → Sent s' b.sub x) (hnew : ∀ x ∈ b.ids, Sent s' b.sub x)
    (ht : s'.tables = s.tables) (hv : s'.visible = s.visible) :
    SentUpTo s' b.sub b.row (newWatermark b.row b.fire b.deferred) ∧
      dispatchedUpTo b.row ≤ newWatermark b.row b.fire b.deferred := by
  unfold SentUpTo Shown
  rw [ht, hv]
  obtain ⟨events, debounced, hf, hd, hp⟩ := hb.split
  rcases newWatermark_cases b.row b.deferred hb.nonempty with
    hsame | ⟨y, hy, heq, hlow⟩
  · rw [hsame]
    exact ⟨⟨fun x hx hle => hold x (hw.covered x hx hle), hw.origin⟩, Nat.le_refl _⟩
  · have hmem : y.1 ∈ events.map Prod.fst :=
      List.mem_map_of_mem (List.mem_of_mem_filter (hf ▸ hy))
    rw [← heq]
    refine ⟨hw.advance hp hmem hold fun x hx hle => hnew x ?_, Nat.le_of_lt (hp.above _ hmem)⟩
    -- An event of the page that was put off lies above the watermark.
    obtain ⟨e, he, rfl⟩ := List.mem_map.mp hx
    by_cases hlate : late debounced e = true
    · have hlt := hlow e (by rw [hd]; exact List.mem_filter.mpr ⟨he, hlate⟩)
      exact absurd hlt (Nat.not_lt.mpr hle)
    · refine List.mem_map_of_mem ?_
      rw [hf]
      exact List.mem_filter.mpr ⟨he, by simp [hlate]⟩

/-! ## The invariant -/

structure Served (s : Stream) : Prop where
  row : ∀ sub row, s.tables.subscription sub = some row →
    SentUpTo s sub row (dispatchedUpTo row)
  update : ∀ p c, s.cycles p = some c → ∀ sub w now, (sub, .dispatched w now) ∈ c.updates →
    ∀ row, s.tables.subscription sub = some row →
      SentUpTo s sub row w ∧ dispatchedUpTo row ≤ w
  posting : ∀ p c, s.cycles p = some c → ∀ b, c.posting = some b → BatchOf s b

/-- The rewriting of a row moves its watermark to one that a cycle has settled. -/
theorem Rewritten.watermark (h : Rewritten s a sub row row') :
    dispatchedUpTo row' = dispatchedUpTo row ∨ ∃ p updates w now,
      a = .finish p ∧ s.cycles p = some ⟨[], none, updates⟩ ∧
      (sub, .dispatched w now) ∈ updates ∧ dispatchedUpTo row' = w := by
  cases h with
  | dispatched p updates u ha hc hu =>
    cases u with
    | dispatched w now => exact .inr ⟨p, updates, w, now, ha, hc, hu, rfl⟩
    | failed failures pausedUntil => exact .inl rfl
    | acked w => exact .inl rfl
  | _ => exact .inl rfl

theorem Served.row_after (hs : Served s) (hk : Known s) (hh : Held s) (hc : inOrder s a = true)
    (h : step s a = some s') {row' : Subscription}
    (hr' : s'.tables.subscription sub = some row') :
    SentUpTo s' sub row' (dispatchedUpTo row') := by
  rcases step_row sub h hh.updates_nodup with ⟨_, row₁, -, -, hr₁, hd, -⟩ | ⟨f, hf, hrw⟩
  · rw [hr'] at hr₁
    cases hr₁
    unfold dispatchedUpTo
    rw [hd]
    exact Mark.zero fun x hx => (hk.after h).stands_pos hx
  · rw [hr'] at hf
    obtain ⟨row, hr, heq⟩ := Option.map_eq_some_iff.mp hf.symm
    have hrw := heq ▸ hrw row
    obtain ⟨ha, ht, -⟩ := hrw.fixed
    unfold SentUpTo
    rw [ha, ht]
    rcases hrw.watermark with hsame | ⟨p, updates, w, now, rfl, hcyc, hu, hw⟩
    · rw [hsame]
      exact (hs.row sub row hr).after hk hc h
    · rw [hw]
      exact (hs.update p _ hcyc sub w now hu row hr).1.after hk hc h

theorem Served.after (hs : Served s) (hk : Known s) (hh : Held s) (hc : inOrder s a = true)
    (h : step s a = some s') : Served s' := by
  refine ⟨fun sub row hr => hs.row_after hk hh hc h hr, ?_, ?_⟩
  · intro p c' hc' sub w now hu row hr
    have hold {c : Cycle} (hcyc : s.cycles p = some c) (hu : (sub, .dispatched w now) ∈ c.updates) :
        SentUpTo s' sub row w ∧ dispatchedUpTo row ≤ w := by
      have hr := hh.row_kept h hcyc hc' (mem_subs_of_update hu) hr
      obtain ⟨hw, hle⟩ := hs.update p c hcyc sub w now hu row hr
      exact ⟨hw.after hk hc h, hle⟩
    cases step_cycle h hc' with
    | kept a hcyc ha => exact hold hcyc hu
    | begun now ids hnone hpost hupd =>
      rw [hupd] at hu
      cases hu
    | fetched debounced y todo updates hcyc heq =>
      rw [heq] at hu
      exact hold hcyc hu
    | answered status at' b todo updates hcyc heq =>
      rw [heq] at hu
      rcases List.mem_append.mp hu with hu | hu
      · exact hold hcyc hu
      · have hpair := List.mem_singleton.mp hu
        rw [Prod.mk.injEq] at hpair
        obtain ⟨rfl, hset⟩ := hpair
        have hr := hh.row_kept h hcyc hc' mem_subs_of_posting hr
        rw [hh.posting_row hcyc] at hr
        cases hr
        unfold Batch.update at hset
        split at hset
        · rename_i hok
          cases hset
          refine (hs.posting p _ hcyc b rfl).advance (hs.row _ _ (hh.posting_row hcyc))
            (fun x hx => hx.after h) (fun x hx => ?_) ?_ ?_
          · cases step_cases h with
            | answer _ _ _ b' todo' updates' hcyc' =>
              rw [hcyc] at hcyc'
              cases hcyc'
              exact ⟨_, List.mem_cons_self, rfl, hok, hx⟩
          · cases step_cases h with
            | answer => rfl
          · cases step_cases h with
            | answer => rfl
        · cases hset
  · intro p c' hc' b hb
    cases step_cycle h hc' with
    | kept a hcyc ha => exact (hs.posting p c' hcyc b hb).after hk hc h
    | begun now ids hnone hpost hupd =>
      rw [hpost] at hb
      cases hb
    | fetched debounced y todo updates hcyc heq =>
      rw [heq] at hb
      exact (BatchOf.fetched hk hb).after hk hc h
    | answered status now b' todo updates hcyc heq =>
      rw [heq] at hb
      cases hb

/-! ## Runs -/

theorem Held.start : Held start where
  nodup p c h := by cases h
  locked p c h := by cases h
  read p c h := by cases h
  webhook p sub h := by cases h

theorem Served.start : Served start where
  row sub row h := by cases h
  update p c h := by cases h
  posting p c h := by cases h

/-- What holds along every run in order. -/
structure Settled (s : Stream) : Prop where
  known : Known s
  held : Held s
  served : Served s

theorem Settled.start : Settled start := ⟨.start, .start, .start⟩

theorem Settled.after (hs : Settled s) (hc : inOrder s a = true) (h : step s a = some s') :
    Settled s' :=
  ⟨hs.known.after h, hs.held.after h, hs.served.after hs.known hs.held hc h⟩

theorem Settled.run (hs : Settled s) {as : List Action} (hr : Machine.run step s as = some s')
    (ho : Machine.along step inOrder s as = true) : Settled s' :=
  Machine.invariant hs (fun _ _ _ hs hc h => hs.after hc h) hr ho

/-- No row is lost, and none falls behind `f`. -/
def NoLower (f : Subscription → EventId) (s s' : Stream) : Prop :=
  ∀ sub row, s.tables.subscription sub = some row →
    ∃ row', s'.tables.subscription sub = some row' ∧ f row ≤ f row'

theorem NoLower.refl (f : Subscription → EventId) (s : Stream) : NoLower f s s :=
  fun _ row hr => ⟨row, hr, Nat.le_refl _⟩

theorem NoLower.trans {f : Subscription → EventId} {s₁ s₂ s₃ : Stream} (h : NoLower f s₁ s₂)
    (h' : NoLower f s₂ s₃) : NoLower f s₁ s₃ := by
  intro sub row hr
  obtain ⟨row₂, hr₂, hle₂⟩ := h sub row hr
  obtain ⟨row₃, hr₃, hle₃⟩ := h' sub row₂ hr₂
  exact ⟨row₃, hr₃, Nat.le_trans hle₂ hle₃⟩

theorem Settled.dispatched_mono (hs : Settled s) (h : step s a = some s') :
    NoLower dispatchedUpTo s s' := by
  intro sub row hr
  obtain ⟨row', hr', hrw⟩ := step_row_of h hs.held.updates_nodup hr
  refine ⟨row', hr', ?_⟩
  rcases hrw.watermark with hsame | ⟨p, updates, w, now, -, hcyc, hu, hw⟩
  · exact Nat.le_of_eq hsame.symm
  · rw [hw]
    exact (hs.served.update p _ hcyc sub w now hu row hr).2

/-- Along a run in order, all that stands at or below `last_dispatched_event_id` was in a batch that
the endpoint accepted, and the watermark never falls. -/
theorem dispatch_watermark_sound {as : List Action} {s : Stream}
    (hr : Machine.run step start as = some s)
    (ho : Machine.along step inOrder start as = true) :
    (∀ sub row, s.tables.subscription sub = some row →
      ∀ x, Stands s.tables row.subscriberAgentId (some row.eventType.text) x →
        x ≤ dispatchedUpTo row → Sent s sub x) ∧
    ∀ bs s', Machine.run step s bs = some s' → Machine.along step inOrder s bs = true →
      NoLower dispatchedUpTo s s' := by
  have hs := Settled.start.run hr ho
  constructor
  · intro sub row hrow
    exact (hs.served.row sub row hrow).covered
  · intro bs s' hr' ho'
    exact Machine.related hs (fun _ _ _ hs hc h => hs.after hc h) (.refl _)
      (fun _ _ _ h h' => h.trans h') (fun _ _ _ hs _ h => hs.dispatched_mono h) hr' ho'

def webhookOf (agent : AgentId) : Subscription :=
  { subscriberAgentId := agent
    eventType := .messageDelivered
    deliveryTarget := .webhook
    webhookUrl := some "https://agent.example/events" }

def deliveredTo (agent : AgentId) (m : MsgId) (priority : Nat) : EventRow :=
  { recipientAgentId := agent
    payload := .delivered ⟨m, 9, agent, m, none, priority, none, none, .absent⟩
    emittedAt := 0
    idempotencyKey := .messageDelivered m }

def digestTo (agent : AgentId) : EventRow :=
  { recipientAgentId := agent
    payload := .digest agent 0 0 []
    emittedAt := 0
    idempotencyKey := .messageDigest agent 0 }

/-- A webhook subscription, a message event for it, and a digest event of the same agent. -/
def oneWaiting : List Action :=
  [.subscribe 1 (webhookOf 7), .emit 1 (deliveredTo 7 1 4), .commit 1, .emit 1 (digestTo 7),
    .commit 1]

/-- A cycle with that subscription. -/
def cycleOf (debounced : Bool) (status : Nat) : List Action :=
  [.begin 2 0 [1], .fetch 2 debounced, .answer 2 status 0, .finish 2]

theorem dispatch_watermark_sound_one : ∃ s row,
    Machine.run step start (oneWaiting ++ cycleOf false 200) = some s ∧
      s.tables.subscription 1 = some row ∧ dispatchedUpTo row = 1 ∧
      ∀ x, Stands s.tables 7 (some row.eventType.text) x → x ≤ 1 → Sent s 1 x := by
  have hrun : ((Machine.run step start (oneWaiting ++ cycleOf false 200)).bind fun s =>
      (s.tables.subscription 1).map fun r => (r.subscriberAgentId, dispatchedUpTo r)) =
        some (7, 1) := by
    decide +kernel
  obtain ⟨s, hs, hrow⟩ := Option.bind_eq_some_iff.mp hrun
  obtain ⟨row, hr, heq⟩ := Option.map_eq_some_iff.mp hrow
  rw [Prod.mk.injEq] at heq
  have hsound := (dispatch_watermark_sound hs (by decide +kernel)).1 1 row hr
  rw [heq.1, heq.2] at hsound
  exact ⟨s, row, hs, hr, heq.2, hsound⟩

end CueApi.Events
