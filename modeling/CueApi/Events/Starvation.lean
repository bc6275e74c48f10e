import CueApi.Events.Isolation
import CueApi.Scheduler.Alone

/-! Whether a cycle of `dispatch_subscription_events` reaches a subscription that has something to
send. Its SELECT takes 100 subscriptions by watermark before it looks at any event. -/

namespace CueApi.Events

open Scheduler (Pid Time Picks picks_exists keysWhere rowsAt mem_keysWhere mem_rowsAt
  keysWhere_nodup)
open Messages

/-! ## Rows under a limit -/

section Picks

variable {limit : Nat} {order : Nat → Int} {all ids : List Nat} {f : Nat → Bool} {i x : Nat}

/-- The rows without `f` that may be taken before `x`. -/
def ahead (order : Nat → Int) (f : Nat → Bool) (all : List Nat) (x : Nat) : List Nat :=
  all.filter fun i => !f i && order i ≤ order x

theorem mem_ahead : i ∈ ahead order f all x ↔ i ∈ all ∧ f i = false ∧ order i ≤ order x := by
  simp [ahead]

/-- A row with too few ahead of it is taken, or one with `f` is in its place. -/
theorem picked_of_ahead (hp : Picks limit order all ids) (hx : x ∈ all) (hf : f x = true)
    (hlt : (ahead order f all x).length < limit) : ∃ i ∈ ids, f i = true := by
  by_contra hno
  simp only [not_exists, not_and, Bool.not_eq_true] at hno
  obtain ⟨hn, hmem, hlen, -, hleast⟩ := hp
  have hxids : x ∉ ids := fun h => by
    rw [hno x h] at hf
    cases hf
  have hsub : ids ⊆ ahead order f all x := fun i hi =>
    mem_ahead.mpr ⟨hmem i hi, hno i hi, hleast i hi x hx hxids⟩
  have hall : (x :: ids).length ≤ all.length :=
    (List.subperm_of_subset (List.nodup_cons.mpr ⟨hxids, hn⟩)
      (List.cons_subset.mpr ⟨hx, hmem⟩)).length_le
  have hle := (List.subperm_of_subset hn hsub).length_le
  rw [List.length_cons] at hall
  omega

/-- The order that puts the rows without `f` first among equals. -/
def idleFirst (order : Nat → Int) (f : Nat → Bool) (i : Nat) : Int :=
  2 * order i + if f i then 1 else 0

theorem idleFirst_le {j : Nat} (h : idleFirst order f i ≤ idleFirst order f j) :
    order i ≤ order j := by
  unfold idleFirst at h
  split at h <;> split at h <;> omega

theorem idleFirst_lt (hi : f i = false) (hx : f x = true) (hle : order i ≤ order x) :
    idleFirst order f i < idleFirst order f x := by
  simp only [idleFirst, hi, hx, if_true, Bool.false_eq_true, if_false]
  omega

theorem picks_of_idleFirst (hp : Picks limit (idleFirst order f) all ids) :
    Picks limit order all ids := by
  obtain ⟨hn, hmem, hlen, hsort, hleast⟩ := hp
  exact ⟨hn, hmem, hlen, hsort.imp idleFirst_le, fun i hi j hj hni =>
    idleFirst_le (hleast i hi j hj hni)⟩

/-- Every answer to the query has a row with `f` exactly when some row with `f` has too few ahead
of it. -/
theorem picks_all_iff (hn : all.Nodup) :
    (∀ ids, Picks limit order all ids → ∃ i ∈ ids, f i = true) ↔
      ∃ x ∈ all, f x = true ∧ (ahead order f all x).length < limit := by
  constructor
  · intro hevery
    obtain ⟨ids, hp⟩ := picks_exists limit (idleFirst order f) hn
    obtain ⟨x, hx, hf⟩ := hevery ids (picks_of_idleFirst hp)
    obtain ⟨hnodup, hmem, hlen, -, hleast⟩ := hp
    refine ⟨x, hmem x hx, hf, ?_⟩
    -- What is ahead of `x` was taken with it.
    have htaken : x :: ahead order f all x ⊆ ids := by
      refine List.cons_subset.mpr ⟨hx, fun i hi => ?_⟩
      obtain ⟨hi, hfi, hle⟩ := mem_ahead.mp hi
      by_contra hni
      exact absurd (hleast x hx i hi hni) (Int.not_le.mpr (idleFirst_lt hfi hf hle))
    have hnodup' : (x :: ahead order f all x).Nodup := by
      refine List.nodup_cons.mpr ⟨fun h => ?_, hn.filter _⟩
      rw [(mem_ahead.mp h).2.1] at hf
      cases hf
    have hle := (List.subperm_of_subset hnodup' htaken).length_le
    rw [List.length_cons] at hle
    omega
  · rintro ⟨x, hx, hf, hlt⟩ ids hp
    exact picked_of_ahead hp hx hf hlt

end Picks

/-! ## Requests of a cycle -/

variable {window : Time} {marks : AgentId → Option Time} {world : SubscriptionId → Sight}
variable {s s' : Stream} {p : Pid} {now : Time} {x : SubscriptionId}

/-- A cycle makes a request exactly when one of its subscriptions has a batch to begin with: until
then the markers stay. -/
theorem Loop.requested_ne_nil {l : Loop} {subs : List (SubscriptionId × Subscription)} :
    l.requested window world subs ≠ [] ↔ ∃ x ∈ subs, (l.batch window world x).isSome = true := by
  induction subs with
  | nil => simp [Loop.requested]
  | cons x subs ih =>
    rw [Loop.requested_cons]
    cases hb : l.batch window world x with
    | none =>
      rw [Loop.serve_of_none hb]
      simp [hb, ih]
    | some b => simp [hb]

/-- The subscriptions that the SELECT of a cycle may take. -/
def Stream.due (s : Stream) (now : Time) : List SubscriptionId :=
  keysWhere s.tables.subscriptions fun x r => subscriptionDue now r && (s.locks x).isNone

/-- The key of its ORDER BY; NULL comes first. -/
def Stream.watermark (s : Stream) (x : SubscriptionId) : Time :=
  ((s.tables.subscriptions.lookup x).bind Subscription.lastDispatchedEventId).elim (-1) Int.ofNat

section Waiting

variable (window : Time) (marks : AgentId → Option Time) (world : SubscriptionId → Sight)

/-- What the tier policy puts off for a subscription. -/
def putOff (x : SubscriptionId × Subscription) (y : EventId × EventRow) : Bool :=
  late (isP4Debounced window marks x.2.subscriberAgentId (world x.1)) y

/-- An event is pending for a subscription that is due, and the tier policy does not defer it. -/
def Waiting (s : Stream) (now : Time) : Prop :=
  ∃ x ∈ s.due now, ∃ row, s.tables.subscription x = some row ∧ ∃ y r,
    s.tables.event y = some r ∧ r.recipientAgentId = row.subscriberAgentId ∧
      r.payload.type = row.eventType ∧ dispatchedUpTo row < y ∧
      putOff window marks world (x, row) (y, r) = false

/-- Such an event is among the first 50 that are pending for the subscription. -/
def fires (s : Stream) (x : SubscriptionId) : Bool :=
  (s.tables.subscription x).any fun row =>
    (pendingEvents s.tables row).any fun y => !putOff window marks world (x, row) y

/-- Every cycle that begins here makes a request. -/
def Attempts (s : Stream) (p : Pid) (now : Time) : Prop :=
  ∀ ids s' c, s.begin p now ids = some s' → s'.cycles p = some c →
    (Loop.mk marks []).requested window world c.todo ≠ []

/-- A subscription that is due has such an event, and fewer than 100 of those that are due and have
none are ahead of it. -/
def InReach (s : Stream) (now : Time) : Prop :=
  ∃ x ∈ s.due now, fires window marks world s x = true ∧
    (ahead s.watermark (fires window marks world s) (s.due now) x).length < 100

end Waiting

theorem batchFor_isSome {t : MsgTables} {x : SubscriptionId × Subscription} {debounced : Bool} :
    (batchFor t x debounced).isSome = (pendingEvents t x.2).any fun y => !late debounced y := by
  unfold batchFor splitEvents
  dsimp only
  rw [Bool.eq_iff_iff, List.any_eq_true]
  split
  · rename_i hempty
    rw [List.isEmpty_iff, List.filter_eq_nil_iff] at hempty
    simpa using hempty
  · rename_i hne
    rw [List.isEmpty_iff, List.filter_eq_nil_iff] at hne
    simpa using hne

theorem requested_iff {subs : List (SubscriptionId × Subscription)}
    (hw : ∀ x, (world x).tables = s.tables)
    (hrows : ∀ y ∈ subs, s.tables.subscription y.1 = some y.2) :
    (Loop.mk marks []).requested window world subs ≠ [] ↔
      ∃ y ∈ subs, fires window marks world s y.1 = true := by
  rw [Loop.requested_ne_nil]
  have hfires (y : SubscriptionId × Subscription) (hy : y ∈ subs) :
      ((Loop.mk marks []).batch window world y).isSome = fires window marks world s y.1 := by
    rw [Loop.batch, batchFor_isSome, hw, fires, hrows y hy]
    rfl
  constructor
  · rintro ⟨y, hy, hb⟩
    exact ⟨y, hy, (hfires y hy).symm.trans hb⟩
  · rintro ⟨y, hy, hf⟩
    exact ⟨y, hy, (hfires y hy).trans hf⟩

/-- A cycle can begin with every answer to its SELECT, and with no other. -/
theorem begin_iff {ids : List SubscriptionId} (hp : s.cycles p = none) :
    (∃ s', s.begin p now ids = some s') ↔ Picks 100 s.watermark (s.due now) ids := by
  unfold Stream.begin
  simp only [hp, Option.isNone_none, true_and]
  constructor
  · rintro ⟨s', h⟩
    split at h
    · assumption
    · cases h
  · intro hpick
    exact ⟨_, if_pos hpick⟩

theorem begin_cycle {ids : List SubscriptionId} (h : s.begin p now ids = some s') :
    s'.cycles p = some { todo := rowsAt s.tables.subscriptions ids } := by
  unfold Stream.begin at h
  dsimp only at h
  split at h
  · cases h
    exact if_pos rfl
  · cases h

theorem fires_iff : fires window marks world s x = true ↔
    ∃ row, s.tables.subscription x = some row ∧
      ∃ y ∈ pendingEvents s.tables row, putOff window marks world (x, row) y = false := by
  unfold fires
  rw [Option.any_eq_true]
  simp only [List.any_eq_true, Bool.not_eq_true']

/-- What may be sent waits. -/
theorem waiting_of_fires (hx : x ∈ s.due now) (hf : fires window marks world s x = true) :
    Waiting window marks world s now := by
  obtain ⟨row, hr, ⟨y, r⟩, hy, hoff⟩ := fires_iff.mp hf
  obtain ⟨hevent, hwhere⟩ := mem_eventsWhere.mp (List.mem_of_mem_take hy)
  simp only [Bool.and_eq_true, decide_eq_true_eq] at hwhere
  exact ⟨x, hx, row, hr, y, r, hevent, hwhere.1.1, hwhere.1.2, hwhere.2, hoff⟩

theorem attempts_iff (hp : s.cycles p = none) (hw : ∀ x, (world x).tables = s.tables) :
    Attempts window marks world s p now ↔ InReach window marks world s now := by
  refine Iff.trans ?_ (picks_all_iff (keysWhere_nodup _ _))
  have hfires (ids : List SubscriptionId) :
      (Loop.mk marks []).requested window world (rowsAt s.tables.subscriptions ids) ≠ [] ↔
        ∃ i ∈ ids, fires window marks world s i = true := by
    rw [requested_iff hw fun y hy => (mem_rowsAt hy).2]
    constructor
    · rintro ⟨y, hy, hf⟩
      exact ⟨y.1, (mem_rowsAt hy).1, hf⟩
    · rintro ⟨i, hi, hf⟩
      obtain ⟨row, hr, -⟩ := fires_iff.mp hf
      exact ⟨(i, row), List.mem_filterMap.mpr ⟨i, hi, congrArg (Option.map _) hr⟩, hf⟩
  constructor
  · intro h ids hpick
    obtain ⟨s', hs⟩ := (begin_iff hp).mpr hpick
    exact (hfires ids).mp (h ids s' _ hs (begin_cycle hs))
  · intro h ids s' c hs hc
    rw [begin_cycle hs] at hc
    cases hc
    exact (hfires ids).mpr (h ids ((begin_iff hp).mp ⟨s', hs⟩))

/-- A cycle that begins while an event waits is sure to make a request exactly when a subscription
with something to send is within the reach of its SELECT. -/
theorem no_starvation_iff {window : Time} {marks : AgentId → Option Time}
    {world : SubscriptionId → Sight} {s : Stream} {p : Pid} {now : Time}
    (hp : s.cycles p = none) (hw : ∀ x, (world x).tables = s.tables) :
    (Waiting window marks world s now → Attempts window marks world s p now) ↔
      (Waiting window marks world s now → InReach window marks world s now) := by
  rw [attempts_iff hp hw]

/-- The tables stay as they are while the cycle runs, and every endpoint accepts. -/
def steady (s : Stream) : SubscriptionId → Sight := fun _ => { tables := s.tables }

/-- Webhook subscriptions of agents to which nothing is sent. -/
def idleSubs (n : Nat) : List Action :=
  (List.range n).map fun i => .subscribe (i + 2) (webhookOf (i + 100))

/-- The subscription 1 has been served once, and a new event of its agent is committed. -/
def busyAgain : List Action :=
  oneWaiting ++ cycleOf false 200 ++ [.emit 1 (deliveredTo 7 2 3), .commit 1]

/-- With 99 idle subscriptions before it, the busy one is served. -/
theorem attempts_behind_idle : ∃ s, Machine.run step start (busyAgain ++ idleSubs 99) = some s ∧
    (ahead s.watermark (fires 0 (fun _ => none) (steady s) s) (s.due 0) 1).length = 99 ∧
    Attempts 0 (fun _ => none) (steady s) s 3 0 := by
  have hrun : ((Machine.run step start (busyAgain ++ idleSubs 99)).any fun s =>
      (s.cycles 3).isNone && decide (1 ∈ s.due 0) && fires 0 (fun _ => none) (steady s) s 1 &&
        decide ((ahead s.watermark (fires 0 (fun _ => none) (steady s) s) (s.due 0) 1).length =
          99)) = true := by
    decide +kernel
  obtain ⟨s, hs, hreach⟩ := (Option.any_eq_true _ _).mp hrun
  simp only [Bool.and_eq_true, decide_eq_true_eq, Option.isNone_iff_eq_none] at hreach
  obtain ⟨⟨⟨hp, hdue⟩, hf⟩, hahead⟩ := hreach
  refine ⟨s, hs, hahead, (no_starvation_iff hp fun _ => rfl).mpr (fun _ => ?_)
    (waiting_of_fires hdue hf)⟩
  exact ⟨1, hdue, hf, by omega⟩

/-- With 100 idle subscriptions before it, a busy one is passed over. -/
theorem busy_passed_over : ¬ ∀ (window : Time) (marks : AgentId → Option Time)
    (world : SubscriptionId → Sight) (as : List Action) (s : Stream) (p : Pid) (now : Time),
      Machine.run step start as = some s → s.cycles p = none →
        (∀ x, (world x).tables = s.tables) → Waiting window marks world s now →
          Attempts window marks world s p now := by
  intro hall
  have hrun : ((Machine.run step start (busyAgain ++ idleSubs 100)).any fun s =>
      (s.cycles 3).isNone && decide (1 ∈ s.due 0) && fires 0 (fun _ => none) (steady s) s 1 &&
        (s.due 0).all fun x => !fires 0 (fun _ => none) (steady s) s x || decide (100 ≤
          (ahead s.watermark (fires 0 (fun _ => none) (steady s) s) (s.due 0) x).length)) =
      true := by
    decide +kernel
  obtain ⟨s, hs, hover⟩ := (Option.any_eq_true _ _).mp hrun
  simp only [Bool.and_eq_true, decide_eq_true_eq, Option.isNone_iff_eq_none, List.all_eq_true,
    Bool.or_eq_true, Bool.not_eq_true'] at hover
  obtain ⟨⟨⟨hp, hdue⟩, hf⟩, hbehind⟩ := hover
  have hattempts := hall 0 (fun _ => none) (steady s) _ s 3 0 hs hp (fun _ => rfl)
    (waiting_of_fires hdue hf)
  obtain ⟨x, hx, hfx, hlt⟩ := (attempts_iff hp fun _ => rfl).mp hattempts
  rcases hbehind x hx with hidle | hle
  · rw [hfx] at hidle
    cases hidle
  · exact Nat.not_lt.mpr hle hlt

end CueApi.Events
