import CueApi.Events.Steps

/-! What the cycles of `dispatch_subscription_events` hold on to: the subscriptions of a cycle are
locked by it, so their rows stay as it has read them until it ends. -/

namespace CueApi.Events

open Scheduler (Pid Time keysWhere rowsAt mem_rowsAt rowsAt_nodup)
open Messages

variable {s s' : Stream} {a : Action} {p : Pid} {x : EventId} {sub : SubscriptionId}
variable {c : Cycle} {row row' : Subscription}

/-- The subscriptions that a cycle has read and not yet served. -/
def Cycle.unserved (c : Cycle) : List (SubscriptionId × Subscription) :=
  c.posting.toList.map (fun b => (b.sub, b.row)) ++ c.todo

def Cycle.subs (c : Cycle) : List SubscriptionId :=
  c.unserved.map Prod.fst ++ c.updates.map Prod.fst

structure Held (s : Stream) : Prop where
  nodup : ∀ p c, s.cycles p = some c → c.subs.Nodup
  locked : ∀ p c, s.cycles p = some c → ∀ sub ∈ c.subs, s.locks sub = some p
  read : ∀ p c, s.cycles p = some c → ∀ y ∈ c.unserved, s.tables.subscription y.1 = some y.2
  webhook : ∀ p sub, s.locks sub = some p →
    ∃ row, s.tables.subscription sub = some row ∧ row.deliveryTarget = .webhook

theorem Held.updates_nodup (hs : Held s) (p : Pid) (c : Cycle) (hc : s.cycles p = some c) :
    (c.updates.map Prod.fst).Nodup :=
  (List.nodup_append.mp (hs.nodup p c hc)).2.1

theorem Held.update_locked (hs : Held s) (hc : s.cycles p = some c) {u : SubUpdate}
    (hu : (sub, u) ∈ c.updates) : s.locks sub = some p :=
  hs.locked p c hc sub (List.mem_append_right _ (List.mem_map_of_mem (f := Prod.fst) hu))

/-- The row of a locked subscription changes by the end of its cycle only. -/
theorem Held.row_step (hs : Held s) (hl : s.locks sub = some p) (h : step s a = some s')
    (hr : s.tables.subscription sub = some row) :
    s'.tables.subscription sub = some row ∨ (a = .finish p ∧ ∃ updates u,
      s.cycles p = some ⟨[], none, updates⟩ ∧ (sub, u) ∈ updates ∧
      s'.tables.subscription sub = some (u.set row)) := by
  obtain ⟨row', hr', hrw⟩ := step_row_of h hs.updates_nodup hr
  cases hrw with
  | same => exact .inl hr'
  | detached now hfree =>
    rw [hl] at hfree
    cases hfree
  | acked agent acked ha hfree hlt =>
    rw [hl] at hfree
    cases hfree
  | pulled p' q cursor ha hq hc hw =>
    obtain ⟨row₁, hr₁, htarget⟩ := hs.webhook p sub hl
    rw [hr] at hr₁
    cases hr₁
    simp only [ackedBy, htarget, Bool.and_eq_true, decide_eq_true_eq, reduceCtorEq, and_false,
      false_and] at hw
  | dispatched p' updates u ha hc hu =>
    have hp := hs.update_locked hc hu
    rw [hl] at hp
    cases hp
    exact .inr ⟨ha, updates, u, hc, hu, hr'⟩

/-- A webhook subscription stays one. -/
theorem Rewritten.fixed (h : Rewritten s a sub row row') :
    row'.subscriberAgentId = row.subscriberAgentId ∧ row'.eventType = row.eventType ∧
      row'.deliveryTarget = row.deliveryTarget := by
  cases h with
  | dispatched p updates u ha hc hu => cases u <;> exact ⟨rfl, rfl, rfl⟩
  | _ => exact ⟨rfl, rfl, rfl⟩

theorem Held.webhook_step (hs : Held s) (h : step s a = some s')
    (hl : s.locks sub = some p) :
    ∃ row, s'.tables.subscription sub = some row ∧ row.deliveryTarget = .webhook := by
  obtain ⟨row, hr, htarget⟩ := hs.webhook p sub hl
  obtain ⟨row', hr', hrw⟩ := step_row_of h hs.updates_nodup hr
  exact ⟨row', hr', hrw.fixed.2.2.trans htarget⟩

/-- A step that leaves the cycles and the locks. -/
theorem Held.aside (hs : Held s) (h : step s a = some s') (hc : s'.cycles = s.cycles)
    (hl : s'.locks = s.locks) (ha : ∀ p, a ≠ .finish p) : Held s' where
  nodup p c h := hs.nodup p c (hc ▸ h)
  locked p c h := hl ▸ hs.locked p c (hc ▸ h)
  read p c hcyc y hy := by
    rw [hc] at hcyc
    have hlock := hs.locked p c hcyc y.1
      (List.mem_append_left _ (List.mem_map_of_mem (f := Prod.fst) hy))
    rcases hs.row_step hlock h (hs.read p c hcyc y hy) with hr | ⟨hfin, -⟩
    · exact hr
    · exact absurd hfin (ha p)
  webhook p sub hlock := hs.webhook_step h (hl ▸ hlock)

/-- A step of one cycle that keeps the tables and the locks, and holds no more than before. -/
theorem Held.narrow (hs : Held s) (hc : s.cycles p = some c) {c' : Cycle} {s' : Stream}
    (hcyc : s'.cycles = (s.setCycle p (some c')).cycles) (hl : s'.locks = s.locks)
    (ht : s'.tables.subscriptions = s.tables.subscriptions)
    (hsub : c'.subs.Nodup ∧ c'.subs ⊆ c.subs) (hun : c'.unserved ⊆ c.unserved) : Held s' where
  nodup q c₁ h := by
    rw [hcyc] at h
    unfold Stream.setCycle at h
    dsimp only at h
    split at h
    · cases h
      exact hsub.1
    · exact hs.nodup q c₁ h
  locked q c₁ h sub hmem := by
    rw [hcyc] at h
    rw [hl]
    unfold Stream.setCycle at h
    dsimp only at h
    split at h
    · rename_i hq
      cases h
      exact hq ▸ hs.locked p c hc sub (hsub.2 hmem)
    · exact hs.locked q c₁ h sub hmem
  read q c₁ h y hy := by
    rw [hcyc] at h
    unfold MsgTables.subscription
    rw [ht]
    unfold Stream.setCycle at h
    dsimp only at h
    split at h
    · cases h
      exact hs.read p c hc y (hun hy)
    · exact hs.read q c₁ h y hy
  webhook q sub hlock := by
    unfold MsgTables.subscription
    rw [ht]
    exact hs.webhook q sub (hl ▸ hlock)

/-- The end of a cycle. -/
theorem Held.release (hs : Held s) (h : step s a = some s')
    (ha : a = .finish p ∨ a = .abort p)
    (hc : s'.cycles = (s.setCycle p none).cycles) (hl : s'.locks = (s.unlock p).locks) :
    Held s' := by
  have hcyc {q : Pid} {c : Cycle} (h : s'.cycles q = some c) : q ≠ p ∧ s.cycles q = some c := by
    rw [hc] at h
    unfold Stream.setCycle at h
    dsimp only at h
    split at h
    · cases h
    · rename_i hq
      exact ⟨hq, h⟩
  have hlock {q : Pid} {sub : SubscriptionId} :
      s'.locks sub = some q ↔ q ≠ p ∧ s.locks sub = some q := by
    rw [hl]
    unfold Stream.unlock
    dsimp only
    split
    · rename_i hp
      rw [hp]
      constructor
      · intro h
        cases h
      · rintro ⟨hne, hq⟩
        cases hq
        exact absurd rfl hne
    · rename_i hp
      constructor
      · intro hq
        exact ⟨fun heq => hp (heq ▸ hq), hq⟩
      · exact fun h => h.2
  constructor
  · exact fun q c h => hs.nodup q c (hcyc h).2
  · exact fun q c h sub hmem => hlock.mpr ⟨(hcyc h).1, hs.locked q c (hcyc h).2 sub hmem⟩
  · intro q c hq y hy
    obtain ⟨hne, hq⟩ := hcyc hq
    have hyl := hs.locked q c hq y.1
      (List.mem_append_left _ (List.mem_map_of_mem (f := Prod.fst) hy))
    rcases hs.row_step hyl h (hs.read q c hq y hy) with hr | ⟨hfin, -⟩
    · exact hr
    · rcases ha with rfl | rfl
      · cases hfin
        exact absurd rfl hne
      · cases hfin
  · exact fun q sub hq => hs.webhook_step h (hlock.mp hq).2

theorem batchFor_cases {t : MsgTables} {y : SubscriptionId × Subscription} {debounced : Bool}
    {b : Batch} (h : batchFor t y debounced = some b) :
    b.sub = y.1 ∧ b.row = y.2 ∧ b.fire ≠ [] ∧
      b.fire = (pendingEvents t y.2).filter (fun e => !late debounced e) ∧
      b.deferred = (pendingEvents t y.2).filter (late debounced) := by
  unfold batchFor splitEvents at h
  dsimp only at h
  split at h
  · cases h
  · rename_i hne
    cases h
    exact ⟨rfl, rfl, fun hnil => hne (List.isEmpty_iff.mpr hnil), rfl, rfl⟩

/-- A fetch drops the subscription or posts its batch. -/
theorem unserved_fetch (t : MsgTables) (debounced : Bool) (y : SubscriptionId × Subscription)
    (todo : List (SubscriptionId × Subscription)) (updates : List (SubscriptionId × SubUpdate)) :
    (Cycle.unserved ⟨todo, batchFor t y debounced, updates⟩).Sublist
      (Cycle.unserved ⟨y :: todo, none, updates⟩) := by
  unfold Cycle.unserved
  cases hb : batchFor t y debounced with
  | none => exact (List.Sublist.refl todo).cons y
  | some b =>
    obtain ⟨hsub, hrow, -⟩ := batchFor_cases hb
    have hy : (b.sub, b.row) = y := by rw [hsub, hrow]
    simp [hy]

/-- An answer moves the subscription of the batch to those that are served. -/
theorem subs_answer (b : Batch) (todo : List (SubscriptionId × Subscription))
    (updates : List (SubscriptionId × SubUpdate)) (u : SubUpdate) :
    (Cycle.subs ⟨todo, some b, updates⟩).Perm
      (Cycle.subs ⟨todo, none, updates ++ [(b.sub, u)]⟩) := by
  simp only [Cycle.subs, Cycle.unserved, Option.toList_some, Option.toList_none, List.map_cons,
    List.map_nil, List.nil_append, List.map_append, List.cons_append]
  rw [← List.append_assoc]
  exact (List.perm_append_singleton b.sub _).symm

theorem Held.after (hs : Held s) (h : step s a = some s') : Held s' := by
  cases step_cases h with
  | begin p now ids hnone hnodup hdue =>
    have hrows {y : SubscriptionId × Subscription}
        (hy : y ∈ rowsAt s.tables.subscriptions ids) := mem_rowsAt hy
    have hfree {q : Pid} {c : Cycle} (hc : s.cycles q = some c) {k : SubscriptionId}
        (hk : k ∈ c.subs) : k ∉ ids := by
      intro hmem
      have hq := hs.locked q c hc k hk
      rw [(hdue k hmem).1] at hq
      cases hq
    constructor
    · intro q c hc
      change (if q = p then _ else s.cycles q) = some c at hc
      split at hc
      · cases hc
        simpa [Cycle.subs, Cycle.unserved] using rowsAt_nodup s.tables.subscriptions hnodup
      · exact hs.nodup q c hc
    · intro q c hc k hk
      change (if q = p then _ else s.cycles q) = some c at hc
      change (if k ∈ ids then some p else s.locks k) = some q
      split at hc
      · rename_i hq
        cases hc
        simp only [Cycle.subs, Cycle.unserved, Option.toList_none, List.map_nil, List.nil_append,
          List.append_nil] at hk
        obtain ⟨y, hy, rfl⟩ := List.mem_map.mp hk
        rw [if_pos (hrows hy).1, hq]
      · rw [if_neg (hfree hc hk)]
        exact hs.locked q c hc k hk
    · intro q c hc y hy
      change (if q = p then _ else s.cycles q) = some c at hc
      split at hc
      · cases hc
        simp only [Cycle.unserved, Option.toList_none, List.map_nil, List.nil_append] at hy
        exact (hrows hy).2
      · exact hs.read q c hc y hy
    · intro q k hk
      change (if k ∈ ids then some p else s.locks k) = some q at hk
      split at hk
      · rename_i hmem
        obtain ⟨-, r, hr, hdue⟩ := hdue k hmem
        simp only [subscriptionDue, Bool.and_eq_true, decide_eq_true_eq] at hdue
        exact ⟨r, hr, hdue.1.1⟩
      · exact hs.webhook q k hk
  | fetch p debounced y todo updates hc =>
    have hun := unserved_fetch s.tables debounced y todo updates
    have hsub := (hun.map Prod.fst).append_right (updates.map Prod.fst)
    exact hs.narrow hc rfl rfl rfl ⟨hsub.nodup (hs.nodup p _ hc), hsub.subset⟩ hun.subset
  | answer p status now b todo updates hc =>
    have hperm := subs_answer b todo updates (b.update status now)
    exact hs.narrow hc rfl rfl rfl
      ⟨hperm.nodup (hs.nodup p _ hc), hperm.symm.subset⟩ (List.subset_cons_self _ _)
  | finish p updates hc => exact hs.release h (.inl rfl) rfl rfl
  | abort p c hc => exact hs.release h (.inr rfl) rfl rfl
  | _ => exact hs.aside h rfl rfl (fun p hp => by cases hp)

end CueApi.Events
