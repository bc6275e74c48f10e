import CueApi.Events.Acks

/-! Which events a webhook subscription gets once. A batch settles its fired events below all that
were put off; those above are fired again with them. -/

namespace CueApi.Events

open Scheduler (Pid Time keysWhere rowsAt)
open Messages Paging

variable {s s' : Stream} {a : Action} {p : Pid} {sub : SubscriptionId}
variable {c c' : Cycle} {row row' : Subscription} {b : Batch} {w : EventId}

/-- No cycle is rolled back. -/
def noAbort (_ : Stream) : Action → Bool
  | .abort _ => false
  | _ => true

/-- The fired events below all that are put off. -/
def Batch.settled (b : Batch) : List EventId :=
  (b.fire.filter fun y => b.deferred.all fun d => y.1 < d.1).map Prod.fst

theorem Arranged.settled_le (hb : Arranged b) {x : EventId} (hx : x ∈ b.settled) :
    x ≤ newWatermark b.row b.fire b.deferred := by
  obtain ⟨y, hy, rfl⟩ := List.mem_map.mp hx
  obtain ⟨hmem, hlow⟩ := List.mem_filter.mp hy
  simp only [List.all_eq_true, decide_eq_true_eq] at hlow
  exact CueApi.Events.le_newWatermark hb.ordered hmem hlow

theorem Arranged.ids_ordered (hb : Arranged b) : b.ids.Pairwise (· < ·) :=
  List.pairwise_map.mpr hb.ordered

theorem Arranged.ids_above (hb : Arranged b) {x : EventId} (hx : x ∈ b.ids) :
    dispatchedUpTo b.row < x := by
  obtain ⟨y, hy, rfl⟩ := List.mem_map.mp hx
  exact hb.above y hy

/-- The subscription has been served up to `w`, or its cycle will commit so. -/
def Reached (s : Stream) (sub : SubscriptionId) (w : EventId) : Prop :=
  ∃ row, s.tables.subscription sub = some row ∧
    (w ≤ dispatchedUpTo row ∨ ∃ p c u, s.cycles p = some c ∧ (sub, u) ∈ c.updates ∧
      w ≤ dispatchedUpTo (u.set row))

/-- The later of two answers has only events above what the earlier has settled. -/
def Apart (later earlier : Batch × Nat) : Prop :=
  later.1.sub = earlier.1.sub → success earlier.2 = true →
    ∀ x ∈ earlier.1.settled, ∀ y ∈ later.1.ids, x < y

structure Forward (s : Stream) : Prop where
  held : Held s
  posted : Posted s
  update : ∀ p c, s.cycles p = some c → ∀ sub u, (sub, u) ∈ c.updates →
    ∀ row, s.tables.subscription sub = some row →
      dispatchedUpTo row ≤ dispatchedUpTo (u.set row)
  reached : ∀ y ∈ s.answered, success y.2 = true →
    Reached s y.1.sub (newWatermark y.1.row y.1.fire y.1.deferred)
  arranged : ∀ y ∈ s.answered, Arranged y.1
  apart : s.answered.Pairwise Apart

theorem Forward.start : Forward start where
  held := .start
  posted := .start
  update p c h := by cases h
  reached y h := (List.not_mem_nil h).elim
  arranged y h := (List.not_mem_nil h).elim
  apart := List.Pairwise.nil

/-- A cycle that goes on keeps its UPDATEs. -/
theorem cycle_keeps (h : step s a = some s') (hc : s.cycles p = some c) (ha : noAbort s a = true)
    (hfin : a ≠ .finish p) : ∃ c', s'.cycles p = some c' ∧ c.updates ⊆ c'.updates := by
  cases step_cases h with
  | begin q now ids hnone hnodup hdue =>
    change ∃ c', (if p = q then _ else s.cycles p) = some c' ∧ _
    split
    · rename_i hq
      rw [← hq, hc] at hnone
      cases hnone
    · exact ⟨c, hc, List.Subset.refl _⟩
  | fetch q debounced y todo updates hcyc =>
    rw [setCycle_cycles]
    split
    · rename_i hq
      rw [← hq, hc] at hcyc
      cases hcyc
      exact ⟨_, rfl, List.Subset.refl _⟩
    · exact ⟨c, hc, List.Subset.refl _⟩
  | answer q status now b todo updates hcyc =>
    change ∃ c', (if p = q then _ else s.cycles p) = some c' ∧ _
    split
    · rename_i hq
      rw [← hq, hc] at hcyc
      cases hcyc
      exact ⟨_, rfl, List.subset_append_left _ _⟩
    · exact ⟨c, hc, List.Subset.refl _⟩
  | finish q updates hcyc =>
    change ∃ c', (if p = q then none else s.cycles p) = some c' ∧ _
    split
    · rename_i hq
      exact absurd (congrArg Action.finish hq.symm) hfin
    · exact ⟨c, hc, List.Subset.refl _⟩
  | abort q c hcyc => cases ha
  | _ => exact ⟨c, hc, List.Subset.refl _⟩

theorem Held.finish_row (hs : Held s) (h : step s (.finish p) = some s')
    (hc : s.cycles p = some c) {u : SubUpdate} (hu : (sub, u) ∈ c.updates)
    (hr : s.tables.subscription sub = some row) :
    s'.tables.subscription sub = some (u.set row) := by
  cases step_cases h with
  | finish _ updates hcyc =>
    rw [hc] at hcyc
    cases hcyc
    have hn := hs.updates_nodup p _ hc
    refine (subscription_applyUpdates s.tables updates).trans ?_
    rw [hr, Option.map_some]
    rcases foldl_updates sub hn row with ⟨hno, -⟩ | ⟨u', hu', hset⟩
    · exact absurd (List.mem_map_of_mem (f := Prod.fst) hu) hno
    · have heq := List.inj_on_of_nodup_map hn hu hu' rfl
      rw [hset, (Prod.mk.inj heq).2]

theorem Forward.dispatched_mono (hs : Forward s) (h : step s a = some s') :
    NoLower dispatchedUpTo s s' := by
  intro sub row hr
  obtain ⟨row', hr', hrw⟩ := step_row_of h hs.held.updates_nodup hr
  refine ⟨row', hr', ?_⟩
  cases hrw with
  | dispatched p updates u ha hc hu => exact hs.update p _ hc sub u hu row hr
  | _ => exact Nat.le_refl _

theorem Forward.reached_after (hs : Forward s) (ha : noAbort s a = true)
    (h : step s a = some s') (hw : Reached s sub w) : Reached s' sub w := by
  obtain ⟨row, hr, hw⟩ := hw
  obtain ⟨row', hr', hle⟩ := hs.dispatched_mono h sub row hr
  rcases hw with hw | ⟨p, c, u, hc, hu, hw⟩
  · exact ⟨row', hr', .inl (Nat.le_trans hw hle)⟩
  · have hl := hs.held.update_locked hc hu
    by_cases hfin : a = .finish p
    · subst hfin
      exact ⟨_, hs.held.finish_row h hc hu hr, .inl hw⟩
    · rcases hs.held.row_step hl h hr with hsame | ⟨heq, -⟩
      · obtain ⟨c', hc', hsub⟩ := cycle_keeps h hc ha hfin
        exact ⟨row, hsame, .inr ⟨p, c', u, hc', hsub hu, hw⟩⟩
      · exact absurd heq hfin

/-- A subscription that is about to be served, or whose batch waits, has no UPDATE waiting. -/
theorem Held.no_update (hs : Held s) (hc : s.cycles p = some c)
    {y : SubscriptionId × Subscription} (hy : y ∈ c.unserved) {q : Pid} {c₁ : Cycle}
    (hc₁ : s.cycles q = some c₁) (u : SubUpdate) : (y.1, u) ∉ c₁.updates := by
  intro hu
  have hmem := List.mem_map_of_mem (f := Prod.fst) hy
  have hp := hs.locked p c hc y.1 (List.mem_append_left _ hmem)
  rw [hs.update_locked hc₁ hu] at hp
  cases hp
  rw [hc] at hc₁
  cases hc₁
  exact (List.nodup_append.mp (hs.nodup p c hc)).2.2 y.1 hmem y.1
    (List.mem_map_of_mem (f := Prod.fst) hu) rfl

/-- What was settled before lies below a batch that waits for its answer. -/
theorem Forward.below_posting (hs : Forward s) {todo : List (SubscriptionId × Subscription)}
    {updates : List (SubscriptionId × SubUpdate)} (hc : s.cycles p = some ⟨todo, some b, updates⟩)
    {y : Batch × Nat} (hy : y ∈ s.answered) (status : Nat) : Apart (b, status) y := by
  intro hsub hok x hx z hz
  have hb : b.sub = y.1.sub := hsub
  obtain ⟨row, hr, hw⟩ := hs.reached y hy hok
  rw [← hb, hs.held.posting_row hc] at hr
  cases hr
  have hle := (hs.arranged y hy).settled_le hx
  have habove := (hs.posted p _ hc b rfl).ids_above hz
  rcases hw with hw | ⟨q, c, u, hc', hu, -⟩
  · exact Nat.lt_of_le_of_lt (Nat.le_trans hle hw) habove
  · rw [← hb] at hu
    exact absurd hu (hs.held.no_update (y := (b.sub, b.row)) hc (by simp [Cycle.unserved]) hc' u)

theorem Arranged.update_mono (hb : Arranged b) (status : Nat) (now : Time) :
    dispatchedUpTo b.row ≤ dispatchedUpTo ((b.update status now).set b.row) := by
  unfold Batch.update
  split
  · exact hb.le_newWatermark
  · exact Nat.le_refl _

theorem Held.reached_answer (hs : Held s) {status : Nat} {now : Time}
    (h : step s (.answer p status now) = some s') {todo : List (SubscriptionId × Subscription)}
    {updates : List (SubscriptionId × SubUpdate)} (hc : s.cycles p = some ⟨todo, some b, updates⟩)
    (hok : success status = true) :
    Reached s' b.sub (newWatermark b.row b.fire b.deferred) := by
  cases step_cases h with
  | answer _ _ _ b' todo' updates' hc' =>
    rw [hc] at hc'
    cases hc'
    refine ⟨b.row, hs.posting_row hc, .inr ⟨p, _, b.update status now, if_pos rfl, ?_, ?_⟩⟩
    · exact List.mem_append_right _ List.mem_cons_self
    · unfold Batch.update
      rw [if_pos hok]
      exact Nat.le_refl _

theorem Forward.after (hs : Forward s) (ha : noAbort s a = true) (h : step s a = some s') :
    Forward s' := by
  refine ⟨hs.held.after h, hs.posted.after h, ?_, ?_, ?_, ?_⟩
  · intro p c' hc' sub u hu row hr
    have hold {c : Cycle} (hcyc : s.cycles p = some c) (hu : (sub, u) ∈ c.updates) :
        dispatchedUpTo row ≤ dispatchedUpTo (u.set row) :=
      hs.update p c hcyc sub u hu row
        (hs.held.row_kept h hcyc hc' (mem_subs_of_update hu) hr)
    cases step_cycle h hc' with
    | kept a hcyc ha => exact hold hcyc hu
    | begun now ids hnone hpost hupd =>
      rw [hupd] at hu
      cases hu
    | fetched debounced y todo updates hcyc heq =>
      rw [heq] at hu
      exact hold hcyc hu
    | answered status now b todo updates hcyc heq =>
      rw [heq] at hu
      rcases List.mem_append.mp hu with hu | hu
      · exact hold hcyc hu
      · have hpair := List.mem_singleton.mp hu
        rw [Prod.mk.injEq] at hpair
        obtain ⟨rfl, rfl⟩ := hpair
        have hr := hs.held.row_kept h hcyc hc' mem_subs_of_posting hr
        rw [hs.held.posting_row hcyc] at hr
        cases hr
        exact (hs.posted p _ hcyc b rfl).update_mono status now
  all_goals
    rcases step_answered h with hans | ⟨p, status, now, b, todo, updates, rfl, hcyc, hans⟩
  · rw [hans]
    exact fun y hy hok => hs.reached_after ha h (hs.reached y hy hok)
  · rw [hans]
    intro y hy hok
    rcases List.mem_cons.mp hy with rfl | hy
    · exact hs.held.reached_answer h hcyc hok
    · exact hs.reached_after ha h (hs.reached y hy hok)
  · rw [hans]
    exact hs.arranged
  · rw [hans]
    intro y hy
    rcases List.mem_cons.mp hy with rfl | hy
    · exact hs.posted p _ hcyc b rfl
    · exact hs.arranged y hy
  · rw [hans]
    exact hs.apart
  · rw [hans]
    exact List.pairwise_cons.mpr ⟨fun y hy => hs.below_posting hcyc hy status, hs.apart⟩

/-- Without a rollback, what a batch has settled is in no later batch of its subscription, and every
later batch lies above it; the ids of a batch increase. -/
theorem settled_once {as : List Action} {s : Stream} (hr : Machine.run step start as = some s)
    (ha : Machine.along step noAbort start as = true) :
    s.answered.Pairwise (fun later earlier => later.1.sub = earlier.1.sub →
      success earlier.2 = true → ∀ x ∈ earlier.1.settled,
        x ∉ later.1.ids ∧ ∀ y ∈ later.1.ids, x < y) ∧
    ∀ y ∈ s.answered, y.1.ids.Pairwise (· < ·) := by
  have hs := Machine.invariant Forward.start (fun _ _ _ hs ha h => hs.after ha h) hr ha
  refine ⟨hs.apart.imp fun hap hsub hok x hx => ?_, fun y hy => (hs.arranged y hy).ids_ordered⟩
  exact ⟨fun hmem => Nat.lt_irrefl _ (hap hsub hok x hx x hmem), hap hsub hok x hx⟩

theorem settled_once_one : ∃ s, Machine.run step start
      (oneWaiting ++ cycleOf false 200 ++ [.emit 1 (deliveredTo 7 3 4), .commit 1] ++
        cycleOf false 200) = some s ∧
    (s.answered.map fun y => (y.1.ids, y.1.settled)) = [([3], [3]), ([1], [1])] ∧
    s.answered.Pairwise (fun later earlier => later.1.sub = earlier.1.sub →
      success earlier.2 = true → ∀ x ∈ earlier.1.settled,
        x ∉ later.1.ids ∧ ∀ y ∈ later.1.ids, x < y) := by
  have hrun : ((Machine.run step start
      (oneWaiting ++ cycleOf false 200 ++ [.emit 1 (deliveredTo 7 3 4), .commit 1] ++
        cycleOf false 200)).map fun s => s.answered.map fun y => (y.1.ids, y.1.settled)) =
        some [([3], [3]), ([1], [1])] := by
    decide +kernel
  obtain ⟨s, hs, hans⟩ := Option.map_eq_some_iff.mp hrun
  exact ⟨s, hs, hans, (settled_once hs (by decide +kernel)).1⟩

/-! ## Fired again -/

/-- `step` with a sort that evaluates in a fetch. -/
def stepSorted (s : Stream) : Action → Option Stream
  | .fetch p debounced =>
      match s.cycles p with
      | some ⟨x :: todo, none, updates⟩ =>
          let wh (y : EventId) (r : EventRow) : Bool :=
            r.recipientAgentId = x.2.subscriberAgentId && r.payload.type = x.2.eventType &&
              x.2.lastDispatchedEventId.getD 0 < y
          let rows := rowsAt s.tables.events (keysWhere s.tables.events wh)
          some (s.setCycle p (some ⟨todo, splitEvents x debounced
            ((rows.insertionSort fun x y => x.1 ≤ y.1).take 50), updates⟩))
      | _ => none
  | a => step s a

theorem stepSorted_eq : stepSorted = step := by
  funext s a
  cases a with
  | fetch p debounced =>
    rcases hc : s.cycles p with _ | ⟨_ | ⟨x, todo⟩, _ | b, updates⟩ <;>
      simp only [stepSorted, step, hc, batchFor, pendingEvents, eventsWhere_insertionSort]
  | _ => rfl

/-- A priority 4 event is put off, the priority 5 event after it is fired, and again with it. -/
def firedTwice : List Action :=
  [.subscribe 1 (webhookOf 7), .emit 1 (deliveredTo 7 1 4), .commit 1,
    .emit 1 (deliveredTo 7 2 5), .commit 1] ++ cycleOf true 200 ++ cycleOf false 200

theorem fired_again : ¬ ∀ (as : List Action) (s : Stream), Machine.run step start as = some s →
    Machine.along step noAbort start as = true →
      s.answered.Pairwise fun later earlier => later.1.sub = earlier.1.sub →
        success later.2 = true → success earlier.2 = true →
          ∀ x ∈ earlier.1.ids, x ∉ later.1.ids ∧ ∀ y ∈ later.1.ids, x < y := by
  intro hall
  have hrun : ((Machine.run stepSorted start firedTwice).map fun s =>
      s.answered.map fun y => (y.1.sub, y.2, y.1.ids)) = some [(1, 200, [1, 2]), (1, 200, [2])] := by
    decide +kernel
  have halong : Machine.along stepSorted noAbort start firedTwice = true := by
    decide +kernel
  rw [stepSorted_eq] at hrun halong
  obtain ⟨s, hs, hans⟩ := Option.map_eq_some_iff.mp hrun
  obtain ⟨later, rest, hlater, hpair, hrest⟩ := List.map_eq_cons_iff.mp hans
  obtain ⟨earlier, _, hearlier, heq, -⟩ := List.map_eq_cons_iff.mp hrest
  rw [Prod.mk.injEq, Prod.mk.injEq] at hpair heq
  have hapart := hall _ s hs halong
  rw [hlater, hearlier] at hapart
  have hno := List.rel_of_pairwise_cons hapart List.mem_cons_self (hpair.1.trans heq.1.symm)
    (by rw [hpair.2.1]; rfl) (by rw [heq.2.1]; rfl) 2 (by rw [heq.2.2]; exact List.mem_cons_self)
  rw [hpair.2.2] at hno
  exact hno.1 (by decide)

end CueApi.Events
