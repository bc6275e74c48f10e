import CueApi.Library.CircuitBreaker
import CueApi.Events.Dispatch

/-! The circuit breaker of a webhook subscription: `consecutive_failures`, `paused_until` and the
condition of `_fetch_dispatch_due_subs`. The stream is watched with a clock, and the attempts are
written down as they are answered. The row of a subscription that a cycle has served is behind its
attempts until the cycle commits. -/

namespace CueApi.Events

open Scheduler (Pid Time seconds mem_rowsAt)
open Messages CircuitBreaker

variable {s s' : Stream} {a : Action} {p : Pid} {sub : SubscriptionId} {row row' r : Subscription}
variable {c : Cycle} {b : Batch}

/-- `CIRCUIT_BREAKER_THRESHOLD`. -/
def circuitBreakerThreshold : Nat := 10

/-- `CIRCUIT_BREAKER_PAUSE_SECONDS`. -/
def circuitBreakerPause : Time := seconds 3600

/-- The stream at a time. `started` is when the last POST of a process began, `attempts` the
answered ones of a subscription, latest first. -/
structure Watched where
  stream : Stream := start
  clock : Time
  started : Pid → Time := fun _ => 0
  attempts : SubscriptionId → List Attempt := fun _ => []

structure Timed where
  time : Time
  action : Action

/-- The readings of the clock: the SELECT of the due rows gets one of before. -/
def readsClock (time : Time) : Action → Bool
  | .begin _ now _ => now ≤ time
  | .answer _ _ now => now = time
  | _ => true

/-- A fetch at a time begins the POST of the process. -/
def Watched.starts (w : Watched) (x : Timed) : Pid → Time :=
  match x.action with
  | .fetch p _ => Function.update w.started p x.time
  | _ => w.started

/-- An answer ends the attempt of the POST. -/
def Watched.logs (w : Watched) (x : Timed) : SubscriptionId → List Attempt :=
  match x.action with
  | .answer p status _ =>
      match (w.stream.cycles p).bind Cycle.posting with
      | some b => Function.update w.attempts b.sub
          (⟨w.started p, success status⟩ :: w.attempts b.sub)
      | none => w.attempts
  | _ => w.attempts

/-- One step of the stream, at a time that is not before the last. -/
def watch (w : Watched) (x : Timed) : Option Watched :=
  if w.clock ≤ x.time ∧ readsClock x.time x.action then
    (step w.stream x.action).map fun s => ⟨s, x.time, w.starts x, w.logs x⟩
  else none

/-- No cycle is rolled back. -/
def unaborted (_ : Watched) (x : Timed) : Bool :=
  match x.action with
  | .abort _ => false
  | _ => true

/-! ## Rows and what is ahead of them -/

/-- The breaker that a row stands for. -/
def breakerOf (row : Subscription) : Breaker := ⟨row.consecutiveFailures, row.pausedUntil⟩

/-- An answer changes the row as the breaker asks. -/
theorem breakerOf_update (b : Batch) (status : Nat) (now : Time) :
    breakerOf ((b.update status now).set b.row) =
      (breakerOf b.row).record circuitBreakerThreshold circuitBreakerPause (success status) now := by
  unfold Batch.update Breaker.record
  split
  · rfl
  · rfl

theorem admits_of_due {now : Time} (h : subscriptionDue now row = true) :
    (breakerOf row).admits now = true := by
  simp only [subscriptionDue, Bool.and_eq_true] at h
  exact h.2

/-- What the row of a subscription will be when the cycle that has served it, if any, commits. -/
inductive Ahead (s : Stream) (sub : SubscriptionId) (row : Subscription) : Subscription → Prop
  | unserved (h : ∀ p c u, s.cycles p = some c → (sub, u) ∉ c.updates) : Ahead s sub row row
  | served (p : Pid) (c : Cycle) (u : SubUpdate) (hc : s.cycles p = some c)
      (hu : (sub, u) ∈ c.updates) : Ahead s sub row (u.set row)

/-- A cycle keeps its UPDATEs up to its end. -/
theorem updates_kept (h : step s a = some s') (hc : s.cycles p = some c) (hfin : a ≠ .finish p)
    (habort : a ≠ .abort p) : ∃ c', s'.cycles p = some c' ∧ c.updates ⊆ c'.updates := by
  have other : ∀ {q : Pid} {oc : Option Cycle}, p ≠ q →
      ∃ c', (if p = q then oc else s.cycles p) = some c' ∧ c.updates ⊆ c'.updates :=
    fun hp => ⟨c, (if_neg hp).trans hc, List.Subset.refl _⟩
  cases step_cases h with
  | begin q now ids hnone =>
    refine other fun hp => ?_
    rw [← hp, hc] at hnone
    cases hnone
  | fetch q debounced y todo updates hq =>
    by_cases hp : p = q
    · subst hp
      cases hc.symm.trans hq
      exact ⟨_, if_pos rfl, List.Subset.refl _⟩
    · exact other hp
  | answer q status now b todo updates hq =>
    by_cases hp : p = q
    · subst hp
      cases hc.symm.trans hq
      exact ⟨_, if_pos rfl, List.subset_append_left _ _⟩
    · exact other hp
  | finish q updates hq => exact other fun hp => hfin (hp ▸ rfl)
  | abort q c hq => exact other fun hp => habort (hp ▸ rfl)
  | _ => exact ⟨c, hc, List.Subset.refl _⟩

/-- What a step of a run without rollbacks has done to the row that is to come. -/
inductive Counted (s : Stream) (a : Action) (sub : SubscriptionId) (r : Subscription) : Prop
  | created (hnone : s.tables.subscription sub = none) (hr : breakerOf r = {})
  | kept (row r₀ : Subscription) (hrow : s.tables.subscription sub = some row)
      (hahead : Ahead s sub row r₀) (hr : breakerOf r = breakerOf r₀)
      (hquiet : ∀ p status now b, a = .answer p status now →
        (s.cycles p).bind Cycle.posting = some b → b.sub ≠ sub)
  | answered (p : Pid) (status : Nat) (now : Time) (b : Batch) (ha : a = .answer p status now)
      (hb : (s.cycles p).bind Cycle.posting = some b) (hsub : b.sub = sub)
      (hrow : s.tables.subscription sub = some b.row) (hahead : Ahead s sub b.row b.row)
      (hr : r = (b.update status now).set b.row)

/-- What a cycle posts is not for a row that a cycle has served. -/
theorem Held.posting_unserved (hs : Held s) {q : Pid} {u : SubUpdate} (hc : s.cycles p = some c)
    (hu : (sub, u) ∈ c.updates) (hb : (s.cycles q).bind Cycle.posting = some b) : b.sub ≠ sub := by
  rintro rfl
  obtain ⟨c₁, hc₁, hpost⟩ := Option.bind_eq_some_iff.mp hb
  have hmem : b.sub ∈ c₁.unserved.map Prod.fst := by simp [Cycle.unserved, hpost]
  have hq := hs.locked q c₁ hc₁ b.sub (List.mem_append_left _ hmem)
  rw [hs.update_locked hc hu] at hq
  cases hq
  cases hc.symm.trans hc₁
  exact (List.nodup_append.mp (hs.nodup p c hc)).2.2 b.sub hmem b.sub
    (List.mem_map_of_mem (f := Prod.fst) hu) rfl

/-- The end of a cycle makes the row what it was to be. -/
theorem counted_finish (h : step s (.finish p) = some s') (hs : Held s)
    (hr' : s'.tables.subscription sub = some row')
    (hno : ∀ q c u, s'.cycles q = some c → (sub, u) ∉ c.updates) :
    Counted s (.finish p) sub row' := by
  cases step_cases h with
  | finish _ updates hc =>
    obtain ⟨row, hrow, rfl⟩ := Option.map_eq_some_iff.mp
      ((subscription_applyUpdates s.tables updates).symm.trans hr')
    have quiet : ∀ q status now b, Action.finish p = .answer q status now →
        (s.cycles q).bind Cycle.posting = some b → b.sub ≠ sub := fun _ _ _ _ ha => by cases ha
    rcases foldl_updates sub (hs.updates_nodup p _ hc) row with ⟨hnone, heq⟩ | ⟨u, hu, heq⟩
    · refine .kept row row hrow (.unserved fun q c u hq hu => ?_) (by rw [heq]) quiet
      by_cases hqp : q = p
      · subst hqp
        cases hc.symm.trans hq
        exact hnone (List.mem_map_of_mem (f := Prod.fst) hu)
      · exact hno q c u ((if_neg hqp).trans hq) hu
    · exact .kept row (u.set row) hrow (.served p _ u hc hu) (by rw [heq]) quiet

/-- A row that no cycle has served after a step. -/
theorem counted_unserved (h : step s a = some s') (hs : Held s) (habort : ∀ p, a ≠ .abort p)
    (hr' : s'.tables.subscription sub = some row')
    (hno : ∀ q c u, s'.cycles q = some c → (sub, u) ∉ c.updates) : Counted s a sub row' := by
  by_cases hfin : ∃ p, a = .finish p
  · obtain ⟨p, rfl⟩ := hfin
    exact counted_finish h hs hr' hno
  have hno₀ : ∀ q c u, s.cycles q = some c → (sub, u) ∉ c.updates := by
    intro q c u hc hu
    obtain ⟨c', hc', hsub⟩ := updates_kept h hc (fun ha => hfin ⟨q, ha⟩) (habort q)
    exact hno q c' u hc' (hsub hu)
  have quiet : ∀ q status now b, a = .answer q status now →
      (s.cycles q).bind Cycle.posting = some b → b.sub ≠ sub := by
    rintro q status now b rfl hb rfl
    cases step_cases h with
    | answer _ _ _ b' todo updates hc =>
      rw [hc] at hb
      cases hb
      exact hno q _ _ (if_pos rfl) (List.mem_append_right _ List.mem_cons_self)
  have rewritten : ∀ row, s.tables.subscription sub = some row → Rewritten s a sub row row' →
      Counted s a sub row' := by
    intro row hrow hrw
    cases hrw with
    | dispatched p updates u ha hc hu => exact absurd ⟨p, ha⟩ hfin
    | _ => exact .kept _ _ hrow (.unserved hno₀) rfl quiet
  rcases step_row sub h hs.updates_nodup with ⟨row, row₁, rfl, hnone, hr₁, -⟩ | ⟨f, hf, hrw⟩
  · refine .created hnone ?_
    cases step_cases h with
    | subscribe _ _ t ht =>
      have hrows := (createSubscription_cases ht).2.2 sub
      rw [if_pos rfl, show t.subscription sub = some row' from hr'] at hrows
      cases hrows
      rfl
  · obtain ⟨row, hrow, heq⟩ := Option.map_eq_some_iff.mp (hf.symm.trans hr')
    exact rewritten row hrow (heq ▸ hrw row)

/-- The step lemma of rows. -/
theorem counted_of_step (h : step s a = some s') (hs : Held s) (habort : ∀ p, a ≠ .abort p)
    (hr' : s'.tables.subscription sub = some row') (hahead : Ahead s' sub row' r) :
    Counted s a sub r := by
  cases hahead with
  | unserved hno => exact counted_unserved h hs habort hr' hno
  | served p c' u hc' hu =>
    -- the cycle had the UPDATE before
    have older : ∀ {c : Cycle}, s.cycles p = some c → (sub, u) ∈ c.updates →
        Counted s a sub (u.set row') := fun hc hu =>
      .kept row' _ (hs.row_kept h hc hc' (mem_subs_of_update hu) hr') (.served p _ u hc hu) rfl
        fun q status now b _ hb => hs.posting_unserved hc hu hb
    cases step_cycle h hc' with
    | kept _ hc _ => exact older hc hu
    | begun now ids hnone hpost hupd =>
      rw [hupd] at hu
      cases hu
    | fetched debounced y todo updates hc heq =>
      subst heq
      exact older hc hu
    | answered status now b todo updates hc heq =>
      subst heq
      rcases List.mem_append.mp hu with hu | hu
      · exact older hc hu
      · cases List.mem_singleton.mp hu
        have hrow := hs.row_kept h hc hc' mem_subs_of_posting hr'
        have hbrow := hs.posting_row hc
        obtain rfl := Option.some.inj (hrow.symm.trans hbrow)
        refine .answered p status now b rfl (by rw [hc]; rfl) rfl hbrow (.unserved ?_) rfl
        intro q c u' hq hu'
        exact hs.posting_unserved hq hu' (by rw [hc]; rfl) rfl

/-! ## The invariant -/

/-- The breaker of a subscription stands as its log says. -/
abbrev Tallied (row : Subscription) (log : List Attempt) : Prop :=
  Tallies circuitBreakerThreshold circuitBreakerPause (breakerOf row) log

/-- The rows that are to come stand as the attempts say, and what a cycle has still to do was due
when it began. -/
structure Broken (w : Watched) : Prop where
  held : Held w.stream
  unknown : ∀ sub, w.stream.tables.subscription sub = none → w.attempts sub = []
  tallied : ∀ sub row r, w.stream.tables.subscription sub = some row →
    Ahead w.stream sub row r → Tallied r (w.attempts sub)
  due : ∀ p c, w.stream.cycles p = some c → ∀ y ∈ c.todo, (breakerOf y.2).admits w.clock = true
  posted : ∀ p c b, w.stream.cycles p = some c → c.posting = some b →
    (breakerOf b.row).admits (w.started p) = true ∧ w.started p ≤ w.clock

theorem admits_later {b : Breaker} {now now' : Time} (h : b.admits now = true) (hle : now ≤ now') :
    b.admits now' = true := by
  simp only [Breaker.admits, Option.all_eq_true, decide_eq_true_eq] at h ⊢
  exact fun t ht => Int.lt_of_lt_of_le (h t ht) hle

section Step

variable {w w' : Watched} {x : Timed}

theorem watch_cases (h : watch w x = some w') : ∃ s', step w.stream x.action = some s' ∧
    w.clock ≤ x.time ∧ readsClock x.time x.action = true ∧
    w' = ⟨s', x.time, w.starts x, w.logs x⟩ := by
  unfold watch at h
  split at h
  · rename_i hg
    obtain ⟨s', hs, rfl⟩ := Option.map_eq_some_iff.mp h
    exact ⟨s', hs, hg.1, hg.2, rfl⟩
  · cases h

/-- A subscription whose POST has not been answered keeps its log. -/
theorem logs_quiet (hquiet : ∀ p status now b, x.action = .answer p status now →
    (w.stream.cycles p).bind Cycle.posting = some b → b.sub ≠ sub) :
    w.logs x sub = w.attempts sub := by
  unfold Watched.logs
  cases ha : x.action with
  | answer p status now =>
    dsimp only
    cases hb : (w.stream.cycles p).bind Cycle.posting with
    | some b => exact Function.update_of_ne (hquiet p status now b ha hb).symm _ _
    | none => rfl
  | _ => rfl

theorem logs_answered {status : Nat} {now : Time} (ha : x.action = .answer p status now)
    (hb : (w.stream.cycles p).bind Cycle.posting = some b) :
    w.logs x b.sub = ⟨w.started p, success status⟩ :: w.attempts b.sub := by
  unfold Watched.logs
  rw [ha]
  simp only [hb]
  exact Function.update_self _ _ _

theorem unaborted_ne (hc : unaborted w x = true) (p : Pid) : x.action ≠ .abort p := by
  intro ha
  simp only [unaborted, ha] at hc
  cases hc

/-- There is no POST for a subscription that is not there. -/
theorem Broken.logs_unknown (hw : Broken w) (hnone : w.stream.tables.subscription sub = none) :
    w.logs x sub = [] := by
  rw [← hw.unknown sub hnone]
  refine logs_quiet fun p status now b ha hb heq => ?_
  obtain ⟨c, hcyc, hpost⟩ := Option.bind_eq_some_iff.mp hb
  have hread := hw.held.read p c hcyc (b.sub, b.row) (by simp [Cycle.unserved, hpost])
  rw [heq, hnone] at hread
  cases hread

theorem Broken.tallied_step (hw : Broken w) (hc : unaborted w x = true) (h : watch w x = some w')
    (hrow : w'.stream.tables.subscription sub = some row) (hahead : Ahead w'.stream sub row r) :
    Tallied r (w'.attempts sub) := by
  obtain ⟨s', hs, hle, hreads, rfl⟩ := watch_cases h
  change Tallied r (w.logs x sub)
  cases counted_of_step hs hw.held (unaborted_ne hc) hrow hahead with
  | created hnone hr =>
    rw [hw.logs_unknown hnone, Tallied, hr]
    exact .fresh
  | kept row₀ r₀ hrow₀ hahead₀ hr hquiet =>
    rw [logs_quiet hquiet, Tallied, hr]
    exact hw.tallied sub row₀ r₀ hrow₀ hahead₀
  | answered p status now b ha hb hsub hrow₀ hahead₀ hr =>
    subst hsub
    obtain ⟨c, hcyc, hpost⟩ := Option.bind_eq_some_iff.mp hb
    obtain ⟨hadmits, hstarted⟩ := hw.posted p c b hcyc hpost
    rw [ha] at hreads
    have hnow : now = x.time := of_decide_eq_true hreads
    rw [logs_answered ha hb, hr, Tallied, breakerOf_update]
    exact (hw.tallied b.sub b.row b.row hrow₀ hahead₀).record (by decide) (by decide) hadmits
      (Int.le_refl _) (hnow ▸ Int.le_trans hstarted hle) _

theorem begun_due {now : Time} {ids : List SubscriptionId}
    (h : step s (.begin p now ids) = some s') (hc : s'.cycles p = some c) :
    ∀ y ∈ c.todo, subscriptionDue now y.2 = true := by
  cases step_cases h with
  | begin _ _ _ hnone hnodup hdue =>
    change (if p = p then _ else s.cycles p) = some c at hc
    rw [if_pos rfl] at hc
    cases hc
    intro y hy
    obtain ⟨hid, hrow⟩ := mem_rowsAt hy
    obtain ⟨-, row, hrow', hdue⟩ := hdue y.1 hid
    cases hrow.symm.trans hrow'
    exact hdue

theorem Broken.due_step (hw : Broken w) (h : watch w x = some w')
    (hc' : w'.stream.cycles p = some c) :
    ∀ y ∈ c.todo, (breakerOf y.2).admits w'.clock = true := by
  obtain ⟨s', hs, hle, hreads, rfl⟩ := watch_cases h
  intro y hy
  have older : ∀ {c₀ : Cycle}, w.stream.cycles p = some c₀ → y ∈ c₀.todo →
      (breakerOf y.2).admits x.time = true := fun hc hy => admits_later (hw.due p _ hc y hy) hle
  obtain ⟨time, action⟩ := x
  cases step_cycle hs hc' with
  | kept _ hc _ => exact older hc hy
  | begun now ids hnone hpost hupd =>
    exact admits_later (admits_of_due (begun_due hs hc' y hy)) (of_decide_eq_true hreads)
  | fetched debounced z todo updates hc heq =>
    subst heq
    exact older hc (List.mem_cons_of_mem _ hy)
  | answered status now b todo updates hc heq =>
    subst heq
    exact older hc hy

/-- A cycle with a POST under way keeps its start. -/
theorem starts_posting (hs : step w.stream x.action = some s') (hc : w.stream.cycles p = some c)
    (hpost : c.posting = some b) : w.starts x p = w.started p := by
  obtain ⟨time, action⟩ := x
  cases action with
  | fetch q debounced =>
    refine Function.update_of_ne (fun hpq => ?_) _ _
    subst hpq
    cases step_cases hs with
    | fetch _ _ y todo updates hcyc =>
      cases hc.symm.trans hcyc
      cases hpost
  | _ => rfl

theorem Broken.posted_step (hw : Broken w) (h : watch w x = some w')
    (hc' : w'.stream.cycles p = some c) (hpost : c.posting = some b) :
    (breakerOf b.row).admits (w'.started p) = true ∧ w'.started p ≤ w'.clock := by
  obtain ⟨s', hs, hle, hreads, rfl⟩ := watch_cases h
  obtain ⟨time, action⟩ := x
  cases step_cycle hs hc' with
  | kept _ hc _ =>
    obtain ⟨hadmits, hstarted⟩ := hw.posted p c b hc hpost
    have hsame : w.starts ⟨time, action⟩ p = w.started p := starts_posting hs hc hpost
    change (breakerOf b.row).admits (w.starts ⟨time, action⟩ p) = true ∧
      w.starts ⟨time, action⟩ p ≤ time
    rw [hsame]
    exact ⟨hadmits, Int.le_trans hstarted hle⟩
  | begun now ids hnone hnopost hupd =>
    rw [hnopost] at hpost
    cases hpost
  | fetched debounced y todo updates hc heq =>
    subst heq
    have hrow := (batchFor_cases hpost).2.1
    have hdue := hw.due p _ hc y List.mem_cons_self
    change (breakerOf b.row).admits (Function.update w.started p time p) = true ∧
      Function.update w.started p time p ≤ time
    rw [Function.update_self, hrow]
    exact ⟨admits_later hdue hle, Int.le_refl _⟩
  | answered status now b' todo updates hc heq =>
    subst heq
    cases hpost

/-- The step lemma. -/
theorem Broken.after (hw : Broken w) (hc : unaborted w x = true) (h : watch w x = some w') :
    Broken w' where
  held := by
    obtain ⟨s', hs, -, -, rfl⟩ := watch_cases h
    exact hw.held.after hs
  unknown sub hnone := by
    obtain ⟨s', hs, -, -, rfl⟩ := watch_cases h
    refine hw.logs_unknown ?_
    cases hrow : w.stream.tables.subscription sub with
    | none => rfl
    | some row =>
      obtain ⟨row', hrow', -⟩ := step_row_of hs hw.held.updates_nodup hrow
      rw [show s'.tables.subscription sub = none from hnone] at hrow'
      cases hrow'
  tallied sub row r := hw.tallied_step hc h
  due p c hc' := hw.due_step h hc'
  posted p c b hc' hpost := hw.posted_step h hc' hpost

end Step

/-- Nothing has happened yet. -/
def watchFrom (clock : Time) : Watched := { clock := clock }

theorem Broken.start (clock : Time) : Broken (watchFrom clock) where
  held := Held.start
  unknown sub _ := rfl
  tallied sub row r h := by cases h
  due p c h := by cases h
  posted p c b h := by cases h

/-- In every run without rollbacks, `consecutive_failures` is the number of failed attempts since
the last success whenever no cycle holds the row, and from the tenth on until a success any two
attempts begin an hour apart, the one that waits for its answer included. -/
theorem circuit_breaker_law {clock : Time} {xs : List Timed} {w : Watched}
    (hr : Machine.run watch (watchFrom clock) xs = some w)
    (ha : Machine.along watch unaborted (watchFrom clock) xs = true) :
    (∀ sub row, w.stream.tables.subscription sub = some row → w.stream.locks sub = none →
      row.consecutiveFailures = failures (w.attempts sub)) ∧
    (∀ sub, Spaced circuitBreakerThreshold circuitBreakerPause (w.attempts sub)) ∧
    ∀ p c b, w.stream.cycles p = some c → c.posting = some b →
      Apart circuitBreakerThreshold circuitBreakerPause (w.started p) (w.attempts b.sub) := by
  have hw : Broken w := Machine.invariant (Broken.start clock)
    (fun _ _ _ hw hc h => hw.after hc h) hr ha
  refine ⟨fun sub row hrow hfree => ?_, fun sub => ?_, fun p c b hc hpost => ?_⟩
  · refine (hw.tallied sub row row hrow (.unserved fun p c u hc hu => ?_)).failures
    rw [hw.held.update_locked hc hu] at hfree
    cases hfree
  · cases hrow : w.stream.tables.subscription sub with
    | none =>
      rw [hw.unknown sub hrow]
      trivial
    | some row =>
      by_cases hserved : ∃ p c u, w.stream.cycles p = some c ∧ (sub, u) ∈ c.updates
      · obtain ⟨p, c, u, hc, hu⟩ := hserved
        exact (hw.tallied sub row _ hrow (.served p c u hc hu)).spaced
      · refine (hw.tallied sub row row hrow (.unserved fun p c u hc hu => ?_)).spaced
        exact hserved ⟨p, c, u, hc, hu⟩
  · have hread := hw.held.read p c hc (b.sub, b.row) (by simp [Cycle.unserved, hpost])
    have hahead : Ahead w.stream b.sub b.row b.row := .unserved fun q c' u hq hu =>
      hw.held.posting_unserved hq hu (by rw [hc]; exact hpost) rfl
    exact (hw.tallied b.sub b.row b.row hread hahead).apart (by decide) (hw.posted p c b hc hpost).1
      (Int.le_refl _)

/-- A cycle of process 2 at a time, with the answer of the endpoint. -/
def cycleAt (time : Time) (status : Nat) : List Timed :=
  [.begin 2 time [1], .fetch 2 false, .answer 2 status time, .finish 2].map (Timed.mk time)

/-- Ten failures in ten seconds, and one more when the pause is over. -/
def elevenFailures : List Timed :=
  oneWaiting.map (Timed.mk 0) ++ (List.range 10).flatMap (fun i => cycleAt (seconds i) 500) ++
    cycleAt (seconds 3610) 503

theorem circuit_breaker_law_eleven : ∃ w row, Machine.run watch (watchFrom 0) elevenFailures = some w ∧
    w.stream.tables.subscription 1 = some row ∧ row.consecutiveFailures = 11 ∧
    row.consecutiveFailures = failures (w.attempts 1) ∧
    Spaced circuitBreakerThreshold circuitBreakerPause (w.attempts 1) := by
  have hrun : ((Machine.run watch (watchFrom 0) elevenFailures).bind fun w =>
      (w.stream.tables.subscription 1).map fun row =>
        (w.stream.locks 1, row.consecutiveFailures)) = some (none, 11) := by
    decide +kernel
  obtain ⟨w, hw, hrow⟩ := Option.bind_eq_some_iff.mp hrun
  obtain ⟨row, hrow, heq⟩ := Option.map_eq_some_iff.mp hrow
  rw [Prod.mk.injEq] at heq
  obtain ⟨hcount, hspaced, -⟩ := circuit_breaker_law hw (by decide +kernel)
  exact ⟨w, row, hw, hrow, heq.2, hcount 1 row hrow heq.1, hspaced 1⟩

end CueApi.Events
