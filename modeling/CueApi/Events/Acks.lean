import CueApi.Events.Dispatch

/-! The ack watermark. `advance_ack_watermark` and `ack_subscription` compare before they write; the
success branch of `dispatch_subscription_events` writes its own watermark over whatever is there. -/

namespace CueApi.Events

open Scheduler (Pid Time)
open Messages Paging

variable {s s' : Stream} {a : Action} {p : Pid} {sub : SubscriptionId}
variable {c c' : Cycle} {row row' : Subscription} {b : Batch} {w : EventId}

/-! ## Batches in any run -/

/-- The fired events lie above the watermark of the row, in the order of their ids. -/
structure Arranged (b : Batch) : Prop where
  nonempty : b.fire ≠ []
  ordered : Ordered Prod.fst b.fire
  above : ∀ y ∈ b.fire, dispatchedUpTo b.row < y.1

theorem pendingEvents_ordered (t : MsgTables) (row : Subscription) :
    Ordered Prod.fst (pendingEvents t row) :=
  (eventsWhere_ordered _ _).sublist (List.take_sublist _ _)

theorem pendingEvents_above {t : MsgTables} {y : EventId × EventRow}
    (hy : y ∈ pendingEvents t row) : dispatchedUpTo row < y.1 := by
  have hw := (mem_eventsWhere.mp (List.mem_of_mem_take hy)).2
  simp only [Bool.and_eq_true, decide_eq_true_eq] at hw
  exact hw.2

theorem Arranged.fetched {t : MsgTables} {y : SubscriptionId × Subscription} {debounced : Bool}
    (hb : batchFor t y debounced = some b) : Arranged b := by
  obtain ⟨-, hrow, hne, hf, -⟩ := batchFor_cases hb
  refine ⟨hne, ?_, fun e he => ?_⟩
  · rw [hf]
    exact (pendingEvents_ordered _ _).sublist List.filter_sublist
  · rw [hrow]
    rw [hf] at he
    exact pendingEvents_above (List.mem_of_mem_filter he)

theorem Arranged.le_newWatermark (hb : Arranged b) :
    dispatchedUpTo b.row ≤ newWatermark b.row b.fire b.deferred := by
  rcases newWatermark_cases b.row b.deferred hb.nonempty with hsame | ⟨y, hy, heq, -⟩
  · exact Nat.le_of_eq hsame.symm
  · rw [← heq]
    exact Nat.le_of_lt (hb.above y hy)

/-- Every batch that is posted is arranged, in any run. -/
def Posted (s : Stream) : Prop :=
  ∀ p c, s.cycles p = some c → ∀ b, c.posting = some b → Arranged b

theorem Posted.start : Posted start := by
  intro p c h
  cases h

theorem Posted.after (hs : Posted s) (h : step s a = some s') : Posted s' := by
  intro p c' hc' b hb
  cases step_cycle h hc' with
  | kept a hcyc ha => exact hs p c' hcyc b hb
  | begun now ids hnone hpost hupd =>
    rw [hpost] at hb
    cases hb
  | fetched debounced y todo updates hcyc heq =>
    rw [heq] at hb
    exact .fetched hb
  | answered status now b' todo updates hcyc heq =>
    rw [heq] at hb
    cases hb

/-! ## The condition -/

/-- The row was not acknowledged beyond its dispatch watermark, or not beyond a fired event below
all that are put off. -/
def Batch.coversAck (b : Batch) : Bool :=
  ackedUpTo b.row ≤ dispatchedUpTo b.row ||
    b.fire.any fun y => ackedUpTo b.row ≤ y.1 && b.deferred.all fun d => y.1 < d.1

/-- No explicit ack has run ahead of a batch that is accepted. -/
def ackBehind (s : Stream) : Action → Bool
  | .answer p status _ => !success status ||
      ((s.cycles p).bind Cycle.posting).all Batch.coversAck
  | _ => true

theorem Arranged.acked_le (hb : Arranged b) (hc : b.coversAck = true) :
    ackedUpTo b.row ≤ newWatermark b.row b.fire b.deferred := by
  simp only [Batch.coversAck, Bool.or_eq_true, decide_eq_true_eq, List.any_eq_true,
    Bool.and_eq_true, List.all_eq_true] at hc
  rcases hc with hle | ⟨y, hy, hle, hlow⟩
  · exact Nat.le_trans hle hb.le_newWatermark
  · exact Nat.le_trans hle (CueApi.Events.le_newWatermark hb.ordered hy hlow)

/-- The UPDATEs of a cycle do not take an ack back. -/
structure Acks (s : Stream) : Prop where
  held : Held s
  posted : Posted s
  update : ∀ p c, s.cycles p = some c → ∀ sub u, (sub, u) ∈ c.updates →
    ∀ row, s.tables.subscription sub = some row → ackedUpTo row ≤ ackedUpTo (u.set row)

theorem Acks.start : Acks start where
  held := .start
  posted := .start
  update p c h := by cases h

theorem Acks.after (hs : Acks s) (hc : ackBehind s a = true) (h : step s a = some s') :
    Acks s' := by
  refine ⟨hs.held.after h, hs.posted.after h, ?_⟩
  intro p c' hc' sub u hu row hr
  have hold {c : Cycle} (hcyc : s.cycles p = some c) (hu : (sub, u) ∈ c.updates) :
      ackedUpTo row ≤ ackedUpTo (u.set row) :=
    hs.update p c hcyc sub u hu row
      (hs.held.row_kept h hcyc hc' (mem_subs_of_update hu) hr)
  cases step_cycle h hc' with
  | kept a hcyc ha => exact hold hcyc hu
  | begun now ids hnone hpost hupd =>
    rw [hupd] at hu
    cases hu
  | fetched debounced y todo updates hcyc heq =>
    rw [heq] at hu
    exact hold hcyc hu
  | answered status now b todo updates hcyc heq =>
    rw [heq] at hu
    rcases List.mem_append.mp hu with hu | hu
    · exact hold hcyc hu
    · have hpair := List.mem_singleton.mp hu
      rw [Prod.mk.injEq] at hpair
      obtain ⟨rfl, rfl⟩ := hpair
      have hr := hs.held.row_kept h hcyc hc' mem_subs_of_posting hr
      rw [hs.held.posting_row hcyc] at hr
      cases hr
      unfold Batch.update
      split
      · rename_i hok
        simp only [ackBehind, hok, hcyc, Bool.not_true, Option.bind_some, Option.all_some,
          Bool.false_or] at hc
        exact (hs.posted p _ hcyc b rfl).acked_le hc
      · exact Nat.le_refl _

theorem Acks.acked_mono (hs : Acks s) (h : step s a = some s') : NoLower ackedUpTo s s' := by
  intro sub row hr
  obtain ⟨row', hr', hrw⟩ := step_row_of h hs.held.updates_nodup hr
  refine ⟨row', hr', ?_⟩
  have hlt {new : EventId} (h : (row.lastAckedEventId.all fun old => decide (old < new)) = true) :
      ackedUpTo row ≤ new := by
    unfold ackedUpTo
    cases hrow : row.lastAckedEventId with
    | none => exact Nat.zero_le _
    | some old =>
      rw [hrow] at h
      exact Nat.le_of_lt (of_decide_eq_true h)
  cases hrw with
  | same => exact Nat.le_refl _
  | detached now hfree => exact Nat.le_refl _
  | acked agent acked ha hfree hnew => exact hlt hnew
  | pulled p q cursor ha hq hc hw =>
    simp only [ackedBy, Bool.and_eq_true] at hw
    exact hlt hw.1.2
  | dispatched p updates u ha hc hu => exact hs.update p _ hc sub u hu row hr

/-- Along a run in which no explicit ack runs ahead of an accepted batch, `last_acked_event_id`
never falls. -/
theorem ack_watermark_monotone {as bs : List Action} {s s' : Stream}
    (hr : Machine.run step start as = some s) (hr' : Machine.run step s bs = some s')
    (hc : Machine.along step ackBehind start (as ++ bs) = true) : NoLower ackedUpTo s s' := by
  obtain ⟨ha, hb⟩ := (Machine.along_append hr).mp hc
  have hs := Machine.invariant Acks.start (fun _ _ _ hs hc h => hs.after hc h) hr ha
  exact Machine.related hs (fun _ _ _ hs hc h => hs.after hc h) (.refl _)
    (fun _ _ _ h h' => h.trans h') (fun _ _ _ hs _ h => hs.acked_mono h) hr' hb

theorem ack_watermark_monotone_one : ∃ s s', Machine.run step start oneWaiting = some s ∧
    Machine.run step s (cycleOf false 200) = some s' ∧ NoLower ackedUpTo s s' := by
  have hrun : (Machine.run step start (oneWaiting ++ cycleOf false 200)).isSome = true := by
    decide +kernel
  obtain ⟨s', hrun⟩ := Option.isSome_iff_exists.mp hrun
  rw [Machine.run_append] at hrun
  obtain ⟨s, hs, hs'⟩ := Option.bind_eq_some_iff.mp hrun
  exact ⟨s, s', hs, hs', ack_watermark_monotone hs hs' (by decide +kernel)⟩

/-- The agent has acknowledged its second event; the dispatch of the first takes the ack back. -/
theorem ack_watermark_falls : ¬ ∀ (as bs : List Action) (s s' : Stream),
    Machine.run step start as = some s → Machine.run step s bs = some s' →
      NoLower ackedUpTo s s' := by
  intro hall
  have hbefore : ((Machine.run step start (oneWaiting ++ [.ack 1 7 2])).bind fun s =>
      (s.tables.subscription 1).map ackedUpTo) = some 2 := by
    decide +kernel
  have hafter : ((Machine.run step start (oneWaiting ++ [.ack 1 7 2] ++ cycleOf false 200)).bind
      fun s => (s.tables.subscription 1).map ackedUpTo) = some 1 := by
    decide +kernel
  obtain ⟨s, hs, hrow⟩ := Option.bind_eq_some_iff.mp hbefore
  rw [Machine.run_append, hs, Option.bind_some] at hafter
  obtain ⟨s', hs', hrow'⟩ := Option.bind_eq_some_iff.mp hafter
  obtain ⟨row, hr, heq⟩ := Option.map_eq_some_iff.mp hrow
  obtain ⟨row₁, hr₁, hle⟩ := hall _ _ s s' hs hs' 1 row hr
  obtain ⟨row', hr', heq'⟩ := Option.map_eq_some_iff.mp hrow'
  rw [hr₁] at hr'
  cases hr'
  rw [heq, heq'] at hle
  exact absurd hle (by decide)

end CueApi.Events
