import CueApi.Events.Cycles
import Mathlib.Data.List.Sort

/-! The order in which events become visible, and what a query of them finds. -/

namespace CueApi.Events

open Scheduler (Pid Time keysWhere rowsAt mem_rowsAt rowsAt_nodup mem_keysWhere keysWhere_nodup)
open Messages Paging

variable {s s' : Stream} {a : Action} {p : Pid} {x : EventId}
variable {agent : AgentId} {eventType : Option String}

/-- A commit whose events come after all that their recipients could see. -/
def inOrder (s : Stream) : Action → Bool
  | .commit p => (s.pending p).all fun x => s.visible.all fun y =>
      y.2.recipientAgentId ≠ x.2.recipientAgentId || y.1 < x.1
  | _ => true

structure Known (s : Stream) : Prop where
  shown : ∀ x r, s.tables.event x = some r → Shown s r.recipientAgentId x
  positive : ∀ y ∈ s.visible, 0 < y.1
  emitted : ∀ y ∈ s.emitted, 0 < y.2.1
  next : 0 < s.nextId

theorem Known.start : Known start where
  shown x r h := by cases h
  positive y h := (List.not_mem_nil h).elim
  emitted y h := (List.not_mem_nil h).elim
  next := Nat.zero_lt_one

theorem mem_pending {y : EventId × EventRow} : y ∈ s.pending p ↔ (p, y) ∈ s.emitted := by
  unfold Stream.pending
  rw [List.mem_map]
  constructor
  · rintro ⟨⟨q, y'⟩, hm, rfl⟩
    obtain ⟨hm, hq⟩ := List.mem_filter.mp hm
    have hqp : q = p := of_decide_eq_true hq
    exact hqp ▸ hm
  · exact fun hm => ⟨_, List.mem_filter.mpr ⟨hm, decide_eq_true rfl⟩, rfl⟩

theorem Known.after (hs : Known s) (h : step s a = some s') : Known s' := by
  constructor
  · intro x r' hx
    rcases step_event h hx with ⟨r, hr, ha, -⟩ | ⟨p, rfl, hmem⟩
    · rw [ha]
      exact (hs.shown x r hr).after h
    · cases h
      exact ⟨r', List.mem_append_left _ hmem, rfl⟩
  · intro y hy
    rcases step_visible h with hv | ⟨p, -, hv⟩
    · exact hs.positive y (hv ▸ hy)
    · rw [hv] at hy
      rcases List.mem_append.mp hy with hy | hy
      · exact hs.emitted _ (mem_pending.mp hy)
      · exact hs.positive y hy
  · intro y hy
    cases step_cases h with
    | emit p row es hes =>
      rcases hes with rfl | rfl
      · exact hs.emitted y hy
      · rcases List.mem_cons.mp hy with rfl | hy
        · exact hs.next
        · exact hs.emitted y hy
    | commit p => exact hs.emitted y (List.mem_of_mem_filter hy)
    | rollback p => exact hs.emitted y (List.mem_of_mem_filter hy)
    | _ => exact hs.emitted y hy
  · cases step_cases h with
    | emit p row es hes => exact Nat.succ_pos _
    | _ => exact hs.next

theorem Known.stands_shown (hs : Known s) (hx : Stands s.tables agent eventType x) :
    Shown s agent x := by
  obtain ⟨r, hr, hm⟩ := hx
  exact matching_recipient hm ▸ hs.shown x r hr

theorem Known.stands_pos (hs : Known s) (hx : Stands s.tables agent eventType x) : 0 < x := by
  obtain ⟨r, hr, -⟩ := hs.stands_shown hx
  exact hs.positive _ hr

/-- A run in order lets new events of an agent appear above all that it could see. -/
theorem Known.inOrder_step (hs : Known s) (hc : inOrder s a = true) (h : step s a = some s')
    (agent : AgentId) (eventType : Option String) :
    InOrder (Stands s.tables agent eventType) (Shown s agent)
      (Stands s'.tables agent eventType) := by
  intro x hx
  rcases step_stands h hx with hx | ⟨p, r, rfl, hmem, hm⟩
  · exact .inl hx
  · refine .inr ⟨hs.emitted _ (mem_pending.mp hmem), ?_⟩
    rintro y ⟨r', hr', ha'⟩
    simp only [inOrder, List.all_eq_true, Bool.or_eq_true, decide_eq_true_eq] at hc
    rcases hc (x, r) hmem (y, r') hr' with hne | hlt
    · exact absurd (ha'.trans (matching_recipient hm).symm) hne
    · exact hlt

/-! ## Queries -/

/-- A query answers in the order of the ids. -/
theorem eventsWhere_ordered (t : MsgTables) (wh : EventId → EventRow → Bool) :
    Ordered Prod.fst (eventsWhere t wh) := by
  have hle : (eventsWhere t wh).Pairwise fun x y => x.1 ≤ y.1 := by
    let le (x y : EventId × EventRow) : Bool := x.1 ≤ y.1
    have htrans (x y z : EventId × EventRow) (hxy : le x y) (hyz : le y z) : le x z :=
      decide_eq_true (Nat.le_trans (of_decide_eq_true hxy) (of_decide_eq_true hyz))
    have htotal (x y : EventId × EventRow) : (le x y || le y x) = true := by
      simp only [le, Bool.or_eq_true, decide_eq_true_eq]
      exact Nat.le_total _ _
    exact (List.pairwise_mergeSort htrans htotal _).imp fun h => of_decide_eq_true h
  have hn : ((eventsWhere t wh).map Prod.fst).Nodup :=
    (((List.mergeSort_perm _ _).map Prod.fst).nodup_iff).mpr
      (rowsAt_nodup _ (keysWhere_nodup _ _))
  have hne : (eventsWhere t wh).Pairwise fun x y => x.1 ≠ y.1 := List.pairwise_map.mp hn
  refine (hle.and hne).imp ?_
  intro x y h
  exact Nat.lt_of_le_of_ne h.1 h.2

/-- `eventsWhere` with a sort that evaluates. -/
theorem eventsWhere_insertionSort (t : MsgTables) (wh : EventId → EventRow → Bool) :
    eventsWhere t wh =
      (rowsAt t.events (keysWhere t.events wh)).insertionSort fun x y => x.1 ≤ y.1 := by
  have hperm : (eventsWhere t wh).Perm
      ((rowsAt t.events (keysWhere t.events wh)).insertionSort fun x y => x.1 ≤ y.1) :=
    (List.mergeSort_perm _ _).trans (List.perm_insertionSort _ _).symm
  have : Std.Total fun x y : EventId × EventRow => x.1 ≤ y.1 := ⟨fun x y => Nat.le_total x.1 y.1⟩
  have : IsTrans (EventId × EventRow) fun x y => x.1 ≤ y.1 := ⟨fun _ _ _ => Nat.le_trans⟩
  refine hperm.eq_of_pairwise (fun x y hx hy hxy hyx => ?_)
    ((eventsWhere_ordered t wh).imp fun h => Nat.le_of_lt h) (List.pairwise_insertionSort _ _)
  exact (eventsWhere_ordered t wh).eq_of_key hx (hperm.mem_iff.mpr hy) (Nat.le_antisymm hxy hyx)

theorem mem_pullEvents {t : MsgTables} {since : EventId} {y : EventId × EventRow} :
    y ∈ eventsWhere t (fun x r => r.recipientAgentId = agent && since < x &&
      eventType.all fun name => r.payload.type.text = name) ↔
    t.event y.1 = some y.2 ∧ matching agent eventType y.2 = true ∧ since < y.1 := by
  rw [mem_eventsWhere]
  simp only [matching, Bool.and_eq_true, decide_eq_true_eq]
  grind

/-- What a query of the agent's events above `since` finds, up to a limit. -/
theorem Known.pageOf (hs : Known s) (since : EventId) (l : List (EventId × EventRow)) (n : Nat)
    (ho : Ordered Prod.fst l)
    (hl : ∀ y, y ∈ l ↔ s.tables.event y.1 = some y.2 ∧ matching agent eventType y.2 = true ∧
      since < y.1) :
    PageOf (Stands s.tables agent eventType) (Shown s agent) since ((l.take n).map Prod.fst) := by
  refine ho.pageOf (fun y hy => ((hl y).mp hy).2.2) ?_ ?_
  · intro y hy
    obtain ⟨hr, hm, -⟩ := (hl y).mp hy
    exact hs.stands_shown ⟨y.2, hr, hm⟩
  · rintro y ⟨r, hr, hm⟩ hlt
    exact ⟨(y, r), (hl (y, r)).mpr ⟨hr, hm, hlt⟩, rfl⟩

theorem Known.pulled (hs : Known s) (q : Pull) :
    PageOf (Stands s.tables q.agent q.eventType) (Shown s q.agent) q.since
      ((q.read s.tables).page.map Prod.fst) :=
  hs.pageOf q.since _ _ (eventsWhere_ordered _ _) fun _ => mem_pullEvents

theorem Known.pendingEvents (hs : Known s) (row : Subscription) :
    PageOf (Stands s.tables row.subscriberAgentId (some row.eventType.text))
      (Shown s row.subscriberAgentId) (row.lastDispatchedEventId.getD 0)
      ((pendingEvents s.tables row).map Prod.fst) := by
  refine hs.pageOf _ _ _ (eventsWhere_ordered _ _) fun y => ?_
  rw [mem_eventsWhere, matching_type]
  simp only [Bool.and_eq_true, decide_eq_true_eq]

end CueApi.Events
