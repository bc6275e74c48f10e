import CueApi.Events.Dispatch

/-! One cycle of `dispatch_subscription_events` as the loop that it is, with the debounce markers in
Redis and the ways in which a webhook request can end. All its UPDATEs are in one transaction, so
what one request raises is taken from all. -/

namespace CueApi.Events

open Scheduler (Pid Time)
open Messages

/-- How a webhook request ends: a response, `httpx.TimeoutException`, `httpx.NetworkError`, or
another exception, among them `ProtocolError`, `UnsupportedProtocol`, `DecodingError` and
`InvalidURL`. -/
inductive Outcome
  | response (status : Nat)
  | timeout
  | networkError
  | raised
  deriving DecidableEq, Repr

/-- The status that `_deliver_webhook` returns; other exceptions go through. -/
def Outcome.status : Outcome → Option Nat
  | .response status => some status
  | .timeout | .networkError => some 0
  | .raised => none

/-- What the loop meets at one subscription: the tables that its SELECT sees, whether Redis works,
the readings of the clock, and the end of its request. -/
structure Sight where
  tables : MsgTables
  redisGets : Bool := true
  redisSets : Bool := true
  checkedAt : Time := 0
  stampedAt : Time := 0
  answeredAt : Time := 0
  outcome : Outcome := .response 200

/-- The debounce markers of the agents, and the UPDATEs of the transaction. -/
structure Loop where
  marks : AgentId → Option Time
  updates : List (SubscriptionId × SubUpdate) := []

/-- `_is_p4_debounced`; `window` is `PRIORITY_4_DEBOUNCE_SECONDS`. -/
def isP4Debounced (window : Time) (marks : AgentId → Option Time) (agent : AgentId) (w : Sight) :
    Bool :=
  w.redisGets && (marks agent).any fun fired => w.checkedAt - fired < window

/-- `stamp_dispatch_markers`. -/
def stampDispatchMarkers (marks : AgentId → Option Time) (b : Batch) (w : Sight) :
    AgentId → Option Time :=
  if w.redisSets && b.fire.any fun y => eventPriority y.2 = 4 then
    fun agent => if agent = b.row.subscriberAgentId then some w.stampedAt else marks agent
  else marks

section Loop

variable (window : Time) (world : SubscriptionId → Sight)

def Loop.batch (l : Loop) (x : SubscriptionId × Subscription) : Option Batch :=
  batchFor (world x.1).tables x (isP4Debounced window l.marks x.2.subscriberAgentId (world x.1))

/-- One round of the loop. -/
def Loop.serve (l : Loop) (x : SubscriptionId × Subscription) : Option Loop :=
  match l.batch window world x with
  | none => some l
  | some b => (world x.1).outcome.status.map fun status => {
      marks := if success status then stampDispatchMarkers l.marks b (world x.1) else l.marks
      updates := l.updates ++ [(b.sub, b.update status (world x.1).answeredAt)] }

def Loop.serveAll (l : Loop) : List (SubscriptionId × Subscription) → Option Loop
  | [] => some l
  | x :: subs => (l.serve window world x).bind fun l => l.serveAll subs

/-- The subscriptions to which the cycle makes a request. -/
def Loop.requested (l : Loop) : List (SubscriptionId × Subscription) → List SubscriptionId
  | [] => []
  | x :: subs =>
      let rest := ((l.serve window world x).map fun l => l.requested subs).getD []
      if (l.batch window world x).isSome then x.1 :: rest else rest

/-- What the cycle commits: an exception rolls its transaction back. -/
def dispatchCycle (t : MsgTables) (marks : AgentId → Option Time)
    (subs : List (SubscriptionId × Subscription)) : MsgTables :=
  (((Loop.mk marks []).serveAll window world subs).map fun l => applyUpdates t l.updates).getD t

end Loop

variable {window : Time} {world : SubscriptionId → Sight} {l l' l₁ : Loop} {b : Batch}
variable {x : SubscriptionId × Subscription} {subs : List (SubscriptionId × Subscription)}
variable {f g sub : SubscriptionId} {row : Subscription} {t : MsgTables}

/-! ## Rounds -/

theorem Loop.serve_of_none (hb : l.batch window world x = none) :
    l.serve window world x = some l := by
  unfold Loop.serve
  rw [hb]

theorem Loop.serve_of_some (hb : l.batch window world x = some b) :
    l.serve window world x = (world x.1).outcome.status.map fun status => {
      marks := if success status then stampDispatchMarkers l.marks b (world x.1) else l.marks
      updates := l.updates ++ [(x.1, b.update status (world x.1).answeredAt)] } := by
  unfold Loop.serve
  rw [hb]
  have hsub : b.sub = x.1 := (batchFor_cases hb).1
  simp only [hsub]

theorem Outcome.status_isSome (o : Outcome) : o.status.isSome = true ↔ o ≠ .raised := by
  cases o <;> simp [Outcome.status]

/-- A round goes on unless its request raises. -/
theorem Loop.serve_isSome : (l.serve window world x).isSome = true ↔
    ((l.batch window world x).isSome = true → (world x.1).outcome ≠ .raised) := by
  cases hb : l.batch window world x with
  | none => simp [Loop.serve_of_none hb]
  | some b =>
    rw [Loop.serve_of_some hb, Option.isSome_map, Outcome.status_isSome]
    simp

theorem Loop.requested_cons :
    l.requested window world (x :: subs) =
      if (l.batch window world x).isSome then
        x.1 :: ((l.serve window world x).map fun l => l.requested window world subs).getD []
      else ((l.serve window world x).map fun l => l.requested window world subs).getD [] := rfl

/-- The loop ends unless a request raises. -/
theorem Loop.serveAll_isSome : (l.serveAll window world subs).isSome = true ↔
    ∀ g ∈ l.requested window world subs, (world g).outcome ≠ .raised := by
  induction subs generalizing l with
  | nil => simp [Loop.serveAll, Loop.requested]
  | cons x subs ih =>
    have hserve := @Loop.serve_isSome window world l x
    rw [Loop.serveAll, Loop.requested_cons]
    cases hs : l.serve window world x with
    | none =>
      rw [hs] at hserve
      simp only [Option.isSome_none, Bool.false_eq_true, false_iff, Classical.not_imp,
        not_not] at hserve
      simp [hserve.1, hserve.2]
    | some l' =>
      have hgoes := hserve.mp (by rw [hs]; rfl)
      rw [Option.bind_some, ih, Option.map_some, Option.getD_some]
      split
      · rename_i hb
        simp [hgoes hb]
      · rfl

/-! ## Without one subscription -/

/-- The loops of a cycle with `f` and of one without. -/
structure Without (f : SubscriptionId) (l l₁ : Loop) : Prop where
  marks : l₁.marks = l.marks
  updates : l₁.updates = l.updates.filter fun y => y.1 ≠ f

/-- A round of `f` that fails leaves the others as they are. -/
theorem Without.skip (h : Without x.1 l l₁) (hs : l.serve window world x = some l')
    (hfail : (world x.1).outcome.status.all (fun status => !success status) = true) :
    Without x.1 l' l₁ := by
  cases hb : l.batch window world x with
  | none =>
    rw [Loop.serve_of_none hb] at hs
    cases hs
    exact h
  | some b =>
    rw [Loop.serve_of_some hb] at hs
    obtain ⟨status, hst, rfl⟩ := Option.map_eq_some_iff.mp hs
    rw [hst, Option.all_some, Bool.not_eq_true'] at hfail
    refine ⟨?_, ?_⟩
    · rw [hfail]
      exact h.marks
    · rw [List.filter_append, h.updates]
      simp

/-- Another round does the same in both. -/
theorem Without.same (h : Without f l l₁) (hne : x.1 ≠ f)
    (hs : l.serve window world x = some l') :
    ∃ l₁', l₁.serve window world x = some l₁' ∧ Without f l' l₁' := by
  have hbatch : l₁.batch window world x = l.batch window world x := by
    unfold Loop.batch
    rw [h.marks]
  cases hb : l.batch window world x with
  | none =>
    rw [Loop.serve_of_none hb] at hs
    cases hs
    exact ⟨l₁, Loop.serve_of_none (hbatch.trans hb), h⟩
  | some b =>
    rw [Loop.serve_of_some hb] at hs
    obtain ⟨status, hst, rfl⟩ := Option.map_eq_some_iff.mp hs
    refine ⟨_, by rw [Loop.serve_of_some (hbatch.trans hb), hst]; rfl, ?_, ?_⟩
    · simp only [h.marks]
    · simp [List.filter_append, h.updates, hne]

theorem Without.all (h : Without f l l₁)
    (hfail : (world f).outcome.status.all (fun status => !success status) = true)
    (hs : l.serveAll window world subs = some l') :
    ∃ l₁', l₁.serveAll window world (subs.filter fun x => x.1 ≠ f) = some l₁' ∧
      Without f l' l₁' := by
  induction subs generalizing l l₁ with
  | nil =>
    cases hs
    exact ⟨l₁, rfl, h⟩
  | cons x subs ih =>
    obtain ⟨l₂, hx, hs⟩ := Option.bind_eq_some_iff.mp hs
    by_cases hf : x.1 = f
    · subst hf
      rw [List.filter_cons_of_neg (by simp)]
      exact ih (h.skip hx hfail) hs
    · rw [List.filter_cons_of_pos (by simpa using hf)]
      obtain ⟨l₃, hx₁, h₃⟩ := h.same hf hx
      obtain ⟨l₁', hs₁, h'⟩ := ih h₃ hs
      exact ⟨l₁', by rw [Loop.serveAll, hx₁]; exact hs₁, h'⟩

/-- The rows of the others do not see the UPDATE of `f`. -/
theorem applyUpdates_filter (t : MsgTables) (updates : List (SubscriptionId × SubUpdate))
    (hne : sub ≠ f) : (applyUpdates t (updates.filter fun y => y.1 ≠ f)).subscription sub =
      (applyUpdates t updates).subscription sub := by
  rw [subscription_applyUpdates, subscription_applyUpdates]
  refine congrArg (fun g => (t.subscription sub).map g) (funext fun r => ?_)
  induction updates generalizing r with
  | nil => rfl
  | cons y updates ih =>
    by_cases hy : y.1 = f
    · have hno : y.1 ≠ sub := fun h => hne (h.symm.trans hy)
      rw [List.filter_cons_of_neg (by simpa using hy), List.foldl_cons, if_neg hno, ih]
    · rw [List.filter_cons_of_pos (by simpa using hy), List.foldl_cons, List.foldl_cons, ih]

/-! ## The UPDATE of one subscription -/

theorem Loop.serve_updates (hs : l.serve window world x = some l') :
    ∃ new, l'.updates = l.updates ++ new ∧ (new.map Prod.fst).Sublist [x.1] := by
  cases hb : l.batch window world x with
  | none =>
    rw [Loop.serve_of_none hb] at hs
    cases hs
    exact ⟨[], (List.append_nil _).symm, List.nil_sublist _⟩
  | some b =>
    rw [Loop.serve_of_some hb] at hs
    obtain ⟨status, -, rfl⟩ := Option.map_eq_some_iff.mp hs
    exact ⟨_, rfl, List.Sublist.refl _⟩

/-- One UPDATE a subscription. -/
theorem Loop.serveAll_updates (hs : l.serveAll window world subs = some l') :
    ∃ new, l'.updates = l.updates ++ new ∧ (new.map Prod.fst).Sublist (subs.map Prod.fst) := by
  induction subs generalizing l with
  | nil =>
    cases hs
    exact ⟨[], (List.append_nil _).symm, List.Sublist.slnil⟩
  | cons x subs ih =>
    obtain ⟨l₂, hx, hs⟩ := Option.bind_eq_some_iff.mp hs
    obtain ⟨new₁, heq₁, hsub₁⟩ := Loop.serve_updates hx
    obtain ⟨new₂, heq₂, hsub₂⟩ := ih hs
    refine ⟨new₁ ++ new₂, by rw [heq₂, heq₁, List.append_assoc], ?_⟩
    rw [List.map_append, List.map_cons]
    exact hsub₁.append hsub₂

theorem Loop.requested_subset (hg : g ∈ l.requested window world subs) :
    g ∈ subs.map Prod.fst := by
  induction subs generalizing l with
  | nil => cases hg
  | cons x subs ih =>
    rw [Loop.requested_cons] at hg
    have hrest (hg : g ∈ ((l.serve window world x).map fun l =>
        l.requested window world subs).getD []) : g ∈ (x :: subs).map Prod.fst := by
      cases hs : l.serve window world x with
      | none =>
        rw [hs] at hg
        cases hg
      | some l' =>
        rw [hs] at hg
        exact List.mem_cons_of_mem _ (ih hg)
    split at hg
    · rcases List.mem_cons.mp hg with rfl | hg
      · exact List.mem_cons_self
      · exact hrest hg
    · exact hrest hg

/-- A request that fails leaves the UPDATE that counts it. -/
theorem Loop.failure_counted (hn : (subs.map Prod.fst).Nodup) (hrow : (f, row) ∈ subs)
    (hreq : f ∈ l.requested window world subs)
    (hfail : (world f).outcome.status.all (fun status => !success status) = true)
    (hs : l.serveAll window world subs = some l') :
    ∃ pausedUntil, (f, .failed (row.consecutiveFailures + 1) pausedUntil) ∈ l'.updates := by
  induction subs generalizing l with
  | nil => cases hrow
  | cons x subs ih =>
    rw [List.map_cons, List.nodup_cons] at hn
    obtain ⟨l₂, hx, hrest⟩ := Option.bind_eq_some_iff.mp hs
    clear hs
    rw [Loop.requested_cons, hx, Option.map_some, Option.getD_some] at hreq
    rcases List.mem_cons.mp hrow with rfl | hrow
    · obtain ⟨new, heq, -⟩ := Loop.serveAll_updates hrest
      cases hb : l.batch window world (f, row) with
      | none =>
        rw [hb, Option.isSome_none, if_neg Bool.false_ne_true] at hreq
        exact absurd (Loop.requested_subset hreq) hn.1
      | some b =>
        rw [Loop.serve_of_some hb] at hx
        obtain ⟨status, hst, rfl⟩ := Option.map_eq_some_iff.mp hx
        rw [hst, Option.all_some, Bool.not_eq_true'] at hfail
        have hb := batchFor_cases hb
        refine ⟨pausedAfter row (world f).answeredAt, ?_⟩
        have hupdate : b.update status (world f).answeredAt =
            .failed (row.consecutiveFailures + 1) (pausedAfter row (world f).answeredAt) := by
          rw [Batch.update, hfail, if_neg Bool.false_ne_true, hb.2.1]
        rw [heq, hupdate]
        simp
    · have hne : f ≠ x.1 := fun h => hn.1 (h ▸ List.mem_map_of_mem (f := Prod.fst) hrow)
      refine ih hn.2 hrow ?_ hrest
      split at hreq
      · exact (List.mem_cons.mp hreq).resolve_left hne
      · exact hreq

/-! ## The cycle -/

/-- The failure of `f` is counted, and the others commit what they would without it. -/
def Isolated (window : Time) (world : SubscriptionId → Sight) (t : MsgTables)
    (marks : AgentId → Option Time) (subs : List (SubscriptionId × Subscription))
    (f : SubscriptionId) (row : Subscription) : Prop :=
  (∃ row', (dispatchCycle window world t marks subs).subscription f = some row' ∧
    row'.consecutiveFailures = row.consecutiveFailures + 1) ∧
  ∀ sub, sub ≠ f → (dispatchCycle window world t marks subs).subscription sub =
    (dispatchCycle window world t marks (subs.filter fun x => x.1 ≠ f)).subscription sub

/-- A subscription whose request fails is isolated from the others exactly when no request of the
cycle raises an exception that `_deliver_webhook` lets through. -/
theorem isolated_iff {window : Time} {world : SubscriptionId → Sight} {t : MsgTables}
    {marks : AgentId → Option Time} {subs : List (SubscriptionId × Subscription)}
    {f : SubscriptionId} {row : Subscription}
    (hn : (subs.map Prod.fst).Nodup) (hrows : ∀ x ∈ subs, t.subscription x.1 = some x.2)
    (hrow : (f, row) ∈ subs) (hreq : f ∈ (Loop.mk marks []).requested window world subs)
    (hfail : (world f).outcome.status.all (fun status => !success status) = true) :
    Isolated window world t marks subs f row ↔
      ∀ g ∈ (Loop.mk marks []).requested window world subs, (world g).outcome ≠ .raised := by
  rw [← Loop.serveAll_isSome]
  cases hs : (Loop.mk marks []).serveAll window world subs with
  | none =>
    -- Nothing is committed, so the failure is not counted.
    simp only [Option.isSome_none, Bool.false_eq_true, iff_false]
    rintro ⟨⟨row', hr', hcount⟩, -⟩
    rw [dispatchCycle, hs, Option.map_none, Option.getD_none, hrows _ hrow] at hr'
    cases hr'
    exact absurd hcount (Nat.ne_of_lt (Nat.lt_succ_self _))
  | some l =>
    simp only [Option.isSome_some, iff_true]
    obtain ⟨new, heq, hsub⟩ := Loop.serveAll_updates hs
    have hnodup : (l.updates.map Prod.fst).Nodup := by
      rw [heq, List.nil_append]
      exact hsub.nodup hn
    constructor
    · obtain ⟨pausedUntil, hmem⟩ := Loop.failure_counted hn hrow hreq hfail hs
      rw [dispatchCycle, hs, Option.map_some, Option.getD_some, subscription_applyUpdates,
        hrows _ hrow, Option.map_some]
      rcases foldl_updates f hnodup row with ⟨hno, -⟩ | ⟨u, hu, hset⟩
      · exact absurd (List.mem_map_of_mem (f := Prod.fst) hmem) hno
      · have hu := (Prod.mk.inj (List.inj_on_of_nodup_map hnodup hmem hu rfl)).2
        exact ⟨_, rfl, by rw [hset, ← hu]; rfl⟩
    · intro sub hne
      obtain ⟨l₁, hs₁, hw⟩ := Without.all (f := f) ⟨rfl, rfl⟩ hfail hs
      rw [dispatchCycle, hs, Option.map_some, Option.getD_some, dispatchCycle, hs₁,
        Option.map_some, Option.getD_some, hw.updates, applyUpdates_filter _ _ hne]

/-- Two webhook subscriptions of two agents, with an event for each. -/
def bothDue : MsgTables :=
  insertEvents (((createSubscription {} 1 (webhookOf 7)).bind fun t =>
    createSubscription t 2 (webhookOf 8)).getD {}) [(1, deliveredTo 7 1 3), (2, deliveredTo 8 2 3)]

def dueSubs : List (SubscriptionId × Subscription) := [(1, webhookOf 7), (2, webhookOf 8)]

/-- The first endpoint accepts, and the request to the second ends so. -/
def secondEnds (outcome : Outcome) (f : SubscriptionId) : Sight :=
  { tables := bothDue, outcome := if f = 2 then outcome else .response 200 }

theorem isolated_two : Isolated 0 (secondEnds (.response 503)) bothDue (fun _ => none) dueSubs 2
    (webhookOf 8) :=
  (isolated_iff (by decide) (by decide +kernel) (by decide) (by decide +kernel) (by decide)).mpr
    (by decide +kernel)

/-- A protocol error of the second endpoint takes the progress of the first back, and is not
counted. -/
theorem raised_not_isolated : ¬ ∀ (window : Time) (world : SubscriptionId → Sight) (t : MsgTables)
    (marks : AgentId → Option Time) (subs : List (SubscriptionId × Subscription))
    (f : SubscriptionId) (row : Subscription), (subs.map Prod.fst).Nodup →
      (∀ x ∈ subs, t.subscription x.1 = some x.2) → (f, row) ∈ subs →
        f ∈ (Loop.mk marks []).requested window world subs →
          (world f).outcome.status.all (fun status => !success status) = true →
            Isolated window world t marks subs f row := by
  intro hall
  obtain ⟨⟨row', hr', hcount⟩, -⟩ := hall 0 (secondEnds .raised) bothDue (fun _ => none) dueSubs 2
    (webhookOf 8) (by decide) (by decide +kernel) (by decide) (by decide +kernel) (by decide)
  have hkept : ((dispatchCycle 0 (secondEnds .raised) bothDue (fun _ => none) dueSubs).subscription
      2).map Subscription.consecutiveFailures = some 0 := by
    decide +kernel
  rw [hr', Option.map_some, hcount] at hkept
  cases hkept

/-! ## The loop and the machine -/

variable {s : Stream} {p : Pid} {updates : List (SubscriptionId × SubUpdate)}

/-- One round of the loop in steps of the machine, when nobody else runs. -/
theorem Loop.serve_run (window : Time) (hc : s.cycles p = some ⟨x :: subs, none, l.updates⟩)
    (ht : (world x.1).tables = s.tables) :
    ∃ as s', Machine.run step s as = some s' ∧ s'.tables = s.tables ∧
      (∀ l', l.serve window world x = some l' → s'.cycles p = some ⟨subs, none, l'.updates⟩) ∧
      (l.serve window world x = none → ∃ b, s'.cycles p = some ⟨subs, some b, l.updates⟩) := by
  let debounced := isP4Debounced window l.marks x.2.subscriberAgentId (world x.1)
  have hfetch : step s (.fetch p debounced) =
      some (s.setCycle p (some ⟨subs, l.batch window world x, l.updates⟩)) := by
    simp only [step, hc, Loop.batch, ht]
    rfl
  cases hb : l.batch window world x with
  | none =>
    rw [hb] at hfetch
    rw [Loop.serve_of_none hb]
    refine ⟨[.fetch p debounced], s.setCycle p _, Machine.run_of_step hfetch, rfl, ?_, ?_⟩
    · intro l' hs
      cases hs
      exact if_pos rfl
    · intro h
      cases h
  | some b =>
    rw [hb] at hfetch
    rw [Loop.serve_of_some hb]
    let posted := s.setCycle p (some ⟨subs, some b, l.updates⟩)
    have hposting : posted.cycles p = some ⟨subs, some b, l.updates⟩ := if_pos rfl
    cases hst : (world x.1).outcome.status with
    | none =>
      refine ⟨[.fetch p debounced], posted, Machine.run_of_step hfetch, rfl, ?_, ?_⟩
      · intro l' hs
        cases hs
      · exact fun _ => ⟨b, hposting⟩
    | some status =>
      let updates := l.updates ++ [(b.sub, b.update status (world x.1).answeredAt)]
      have hanswer : step posted (.answer p status (world x.1).answeredAt) =
          some { posted.setCycle p (some ⟨subs, none, updates⟩) with
            answered := (b, status) :: s.answered } := by
        simp only [step, hposting]
        rfl
      refine ⟨[.fetch p debounced, .answer p status (world x.1).answeredAt], _,
        (Machine.run_of_step hfetch).trans (Machine.run_of_step hanswer), rfl, ?_, ?_⟩
      · intro l' hs
        cases hs
        have hsub : b.sub = x.1 := (batchFor_cases hb).1
        refine Eq.trans (if_pos rfl) ?_
        simp only [updates, hsub]
      · intro h
        cases h

theorem Loop.serveAll_run (window : Time) (hc : s.cycles p = some ⟨subs, none, l.updates⟩)
    (ht : ∀ x ∈ subs, (world x.1).tables = s.tables) :
    ∃ as s', Machine.run step s as = some s' ∧ s'.tables = s.tables ∧
      (∀ l', l.serveAll window world subs = some l' →
        s'.cycles p = some ⟨[], none, l'.updates⟩) ∧
      (l.serveAll window world subs = none → ∃ c, s'.cycles p = some c) := by
  induction subs generalizing s l with
  | nil =>
    refine ⟨[], s, rfl, rfl, ?_, ?_⟩
    · intro l' hs
      cases hs
      exact hc
    · intro h
      cases h
  | cons x subs ih =>
    obtain ⟨as, s₁, hr, ht₁, hgoes, hraised⟩ :=
      Loop.serve_run window hc (ht x List.mem_cons_self)
    rw [Loop.serveAll]
    cases hx : l.serve window world x with
    | none =>
      obtain ⟨b, hb⟩ := hraised hx
      refine ⟨as, s₁, hr, ht₁, ?_, fun _ => ⟨_, hb⟩⟩
      intro l' hs
      cases hs
    | some l₁ =>
      obtain ⟨bs, s₂, hr₂, ht₂, hend⟩ := ih (hgoes l₁ hx) fun y hy =>
        (ht y (List.mem_cons_of_mem x hy)).trans ht₁.symm
      refine ⟨as ++ bs, s₂, ?_, ht₂.trans ht₁, hend⟩
      rw [Machine.run_append, hr, Option.bind_some, hr₂]

/-- A cycle that nobody interrupts is a run of the machine, which ends with its commit or with a
rollback. -/
theorem cycle_run {marks : AgentId → Option Time}
    (hc : s.cycles p = some ⟨subs, none, []⟩) (ht : ∀ x ∈ subs, (world x.1).tables = s.tables) :
    ∃ as s', Machine.run step s as = some s' ∧
      s'.tables = dispatchCycle window world s.tables marks subs := by
  obtain ⟨as, s₁, hr, ht₁, hend, hraised⟩ :=
    Loop.serveAll_run (l := ⟨marks, []⟩) window hc ht
  unfold dispatchCycle
  cases hs : (Loop.mk marks []).serveAll window world subs with
  | none =>
    obtain ⟨c, hc₁⟩ := hraised hs
    have habort : step s₁ (.abort p) = some ((s₁.setCycle p none).unlock p) := by
      simp only [step, hc₁]
    refine ⟨as ++ [.abort p], (s₁.setCycle p none).unlock p, ?_, ht₁⟩
    rw [Machine.run_append, hr]
    exact Machine.run_of_step habort
  | some l =>
    have hfinish : step s₁ (.finish p) = some { (s₁.setCycle p none).unlock p with
        tables := applyUpdates s₁.tables l.updates } := by
      simp only [step, hend l hs]
    rw [Option.map_some, Option.getD_some, ← ht₁]
    refine ⟨as ++ [.finish p], { (s₁.setCycle p none).unlock p with
      tables := applyUpdates s₁.tables l.updates }, ?_, rfl⟩
    rw [Machine.run_append, hr]
    exact Machine.run_of_step hfinish

end CueApi.Events
