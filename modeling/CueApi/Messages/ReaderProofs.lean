import CueApi.Messages.SendProofs

/-! The readers of events, pull, webhook batches and digests, write nothing that a message or the
outbox is read from: their commits are the asides of `MsgCommits`. What they show they have read. -/

namespace CueApi.Messages

open Scheduler (Pid Time UserId)
open ReadCommitted Interleaving Trace Recorded

variable {env : MsgEnv} {t₀ : MsgTables} {p : Pid} {B : List MsgWrite} {E : MsgHistory}
variable {w w' : MsgWorld} {call : MsgCall} {α : Type} {Q : α → MsgWorld → Prop}

/-! ## Asides -/

theorem EventPayload.Bundles.suffix {payload : EventPayload} {h h' : MsgHistory}
    (hb : payload.Bundles p h) (hs : h <:+ h') : payload.Bundles p h' := by
  cases payload with
  | delivered payload => exact hb
  | digest recipient periodStart periodEnd bundled =>
    obtain ⟨xs, events, hread, hsub, heq⟩ := hb
    exact ⟨xs, events, hs.mem hread, hsub, heq⟩

theorem MsgWrite.Aside.suffix {wr : MsgWrite} {h h' : MsgHistory} (hw : wr.Aside p h)
    (hs : h <:+ h') : wr.Aside p h' := by
  cases wr with
  | insertEvent x row => exact ⟨hw.1.suffix hs, hw.2⟩
  | markDigested xs now => trivial
  | updateSubscriptions ss u => trivial
  | _ => exact hw

/-- A reader in the middle of its work. -/
structure Reading (p : Pid) (call : MsgCall) (B : List MsgWrite)
    (E : MsgHistory) (w : MsgWorld) : Prop where
  here : At p B E w
  running : callOf p E = some call
  reads : call.readsEvents = true
  aside : ∀ wr ∈ B, wr.Aside p w.history

/-- Somewhere in the middle of its work. -/
def Reads (p : Pid) (call : MsgCall) (w : MsgWorld) : Prop :=
  ∃ B E, Reading p call B E w

theorem Reading.later (h : Reading p call B E w) (hl : Later p w w') (hw : At p B E w') :
    Reading p call B E w' :=
  ⟨hw, h.running, h.reads, fun wr hwr => (h.aside wr hwr).suffix hl.history⟩

theorem Reading.wrote {wr : MsgWrite} (h : Reading p call B E w) (hl : Later p w w')
    (hw : At p (wr :: B) E w') (hwr : wr.Aside p w'.history) :
    Reading p call (wr :: B) E w' := by
  refine ⟨hw, h.running, h.reads, fun wr' hm => ?_⟩
  rcases List.mem_cons.mp hm with rfl | hm
  · exact hwr
  · exact (h.aside wr' hm).suffix hl.history

theorem Reading.marked {mark : MsgMark} (h : Reading p call B E w) (hl : Later p w w')
    (hw : At p B (.marked p mark :: E) w') : Reading p call B (.marked p mark :: E) w' :=
  ⟨hw, h.running, h.reads, fun wr hwr => (h.aside wr hwr).suffix hl.history⟩

theorem Reading.began (hw : At p [] [.began p call] w) (hr : call.readsEvents = true) :
    Reading p call [] [.began p call] w :=
  ⟨hw, MsgJob.callOf_began p call, hr, by simp⟩

/-! ## Statements -/

theorem Reading.runs_readEvents {q : MsgTables → List (EventId × EventRow)}
    {k : List (EventId × EventRow) → MsgProgram α} (hb : Reading p call B E w)
    (h : ∀ w' events, Later p w w' → .marked p (.read events) ∈ w'.history →
      Reading p call B (.marked p (.read events) :: E) w' →
      MsgRuns env t₀ p Q (k events) w') :
    MsgRuns env t₀ p Q (readEvents p q >>= k) w :=
  Messages.runs_readEvents hb.here fun w₁ events _ hw₁ _ _ =>
    ⟨⟨call, hw₁.callOf_eq.trans hb.running, hb.reads⟩, fun w₂ hl₂ hw₂ _ =>
      h w₂ events hl₂ (mem_of_own_eq hw₂.own (by simp)) (hb.marked hl₂ hw₂)⟩

theorem Reading.runs_commit {k : Unit → MsgProgram α} (hb : Reading p call B E w)
    (h : ∀ w' time, w.history <:+ w'.history →
      Reading p call [] (.commit p time B :: E) w' → MsgRuns env t₀ p Q (k ()) w') :
    MsgRuns env t₀ p Q (commit p >>= k) w := by
  refine Messages.runs_commit hb.here fun w₁ hl₁ hw₁ _ => ?_
  have hb₁ := hb.later hl₁ hw₁
  refine ⟨⟨call, hw₁.callOf_eq.trans hb.running, .aside call B hb.reads hb₁.aside⟩,
    fun w₂ hh₂ hw₂ _ => h w₂ w₁.clock ?_ ⟨hw₂, hb.running, hb.reads, by simp⟩⟩
  rw [hh₂]
  exact hl₁.history.trans (List.suffix_cons _ _)

theorem Reading.runs_write {wr : MsgWrite} {k : Unit → MsgProgram α}
    (hb : Reading p call B E w) (hwr : wr.Aside p w.history)
    (h : ∀ w', Later p w w' → Reading p call (wr :: B) E w' →
      MsgRuns env t₀ p Q (k ()) w') :
    MsgRuns env t₀ p Q (write p wr >>= k) w :=
  Messages.runs_write hb.here fun w₁ hl₁ hw₁ _ =>
    h w₁ hl₁ (hb.wrote hl₁ hw₁ (hwr.suffix hl₁.history))

theorem Reading.runs_updateSubscriptionsWhere {wh : SubscriptionId → Subscription → Bool}
    {u : SubUpdate} {k : Unit → MsgProgram α} (hb : Reading p call B E w)
    (h : ∀ w' wr, Later p w w' → Reading p call (wr :: B) E w' →
      MsgRuns env t₀ p Q (k ()) w') :
    MsgRuns env t₀ p Q (updateSubscriptionsWhere p wh u >>= k) w := by
  refine runs_step hb.here fun w₁ hl₁ hw₁ hi₁ a r w₂ hs => ?_
  dsimp only at hs
  obtain ⟨s, hwr, heq⟩ := Option.map_eq_some_iff.mp hs
  cases heq
  have hstep := Stepped.write hw₁ hi₁ hwr
  have hl₂ := hl₁.trans (Later.write hwr)
  exact ⟨_, E, hstep, h _ _ hl₂ (hb.wrote hl₂ hstep.at_ trivial)⟩

theorem Reading.runs_selectDueSubscriptions {now : Time} {batchSize : Nat}
    {k : List (SubscriptionId × Subscription) → MsgProgram α} (hb : Reading p call B E w)
    (h : ∀ w' subs, Later p w w' → Reading p call B E w' →
      MsgRuns env t₀ p Q (k subs) w') :
    MsgRuns env t₀ p Q (selectDueSubscriptions p now batchSize >>= k) w := by
  refine runs_step hb.here fun w₁ hl₁ hw₁ hi₁ a r w₂ hs => ?_
  dsimp only at hs
  split at hs
  · rename_i ids
    split at hs
    · obtain ⟨s, hlock, heq⟩ := Option.map_eq_some_iff.mp hs
      cases heq
      have hstep := Stepped.lock hw₁ hi₁ hlock
      have hl₂ := hl₁.trans (Later.lock hlock)
      exact ⟨B, E, hstep, h _ _ hl₂ (hb.later hl₂ hstep.at_)⟩
    · cases hs
  · cases hs

theorem Reading.runs_deliverBatch {s : Subscription} {events : List (EventId × EventRow)}
    {k : Nat → MsgProgram α} (hb : Reading p call B E w) (hp : Posts p w.history events)
    (h : ∀ w' status, Later p w w' →
      Reading p call B (.marked p (.posted s events) :: E) w' →
      MsgRuns env t₀ p Q (k status) w') :
    MsgRuns env t₀ p Q (deliverBatch p s events >>= k) w := by
  refine runs_marked hb.here fun w₁ hl₁ hw₁ _ a r w₂ hs => ?_
  split at hs
  · cases hs
    obtain ⟨xs, hread, hsub⟩ := hp
    exact .inr ⟨_, rfl, ⟨call, hw₁.callOf_eq.trans hb.running, hb.reads, xs,
      hl₁.history.mem hread, hsub⟩, fun _ hl₂ hw₂ => h _ _ hl₂ (hb.marked hl₂ hw₂)⟩
  · cases hs

/-- The session may end here. -/
theorem Reads.justified {reply : MsgReply} (hp : call.plain reply = true)
    (h : Reads p call w) : MsgJustified env t₀ p reply w := by
  obtain ⟨B, E, hb⟩ := h
  exact msgJustified_plain hp hb.here hb.running

/-! ## Pull -/

theorem runs_advanceAckAfterPull {recipient : AgentId} {nextCursor : Option EventId}
    {eventType : Option String} (hb : Reading p call [] E w) :
    MsgRuns env t₀ p (fun _ w' => Reads p call w')
      (advanceAckAfterPull p recipient nextCursor eventType) w := by
  cases nextCursor with
  | none => exact ⟨[], E, hb⟩
  | some cursor =>
    change MsgRuns env t₀ p _ (updateSubscriptionsWhere p _ _ >>= fun _ => commit p >>= pure) w
    refine hb.runs_updateSubscriptionsWhere fun w₁ wr _ hb₁ => ?_
    exact hb₁.runs_commit fun w₂ time _ hb₂ => ⟨[], _, hb₂⟩

theorem runs_pullEvents {user : UserId} {addr : Address} {since limit : Nat}
    {eventType : Option String}
    (hw : At p [] [.began p (.pullEvents user addr since limit eventType)] w) :
    MsgRuns env t₀ p (MsgJustified env t₀ p)
      (pullEvents env p user addr since limit eventType) w := by
  refine runs_select hw fun w₁ _ hw₁ _ => ?_
  refine runs_orReply (fun e _ => began_justified rfl hw₁) fun x _ => ?_
  refine (Reading.began hw₁ rfl).runs_readEvents fun w₂ events _ hread hb₂ => ?_
  refine Safe.bind (Runs.since (runs_advanceAckAfterPull hb₂)) fun _ w₃ h₃ => ?_
  obtain ⟨⟨B, E, hb₃⟩, hsuf⟩ := h₃
  exact msgJustified_of _ hb₃.here hb₃.running (hsuf.mem hread)

/-! ## Webhook batches -/

theorem runs_applyTierPolicy {events : List (EventId × EventRow)}
    (hb : Reading p call B E w) :
    MsgRuns env t₀ p (fun x w' => Reading p call B E w' ∧ ∀ y ∈ x.1, y ∈ events)
      (applyTierPolicy env events) w := by
  unfold applyTierPolicy
  split
  · refine runs_askBool hb.here fun w₁ debounced hl₁ hw₁ _ => ⟨hb.later hl₁ hw₁, fun y hy => ?_⟩
    exact (List.mem_filter.mp hy).1
  · exact ⟨hb, fun y hy => hy⟩

theorem runs_dispatchSubscription {x : SubscriptionId × Subscription}
    (h : Reads p call w) :
    MsgRuns env t₀ p (fun _ w' => Reads p call w') (dispatchSubscription env p x) w := by
  obtain ⟨B, E, hb⟩ := h
  refine hb.runs_readEvents fun w₁ events _ hread hb₁ => ?_
  split
  · exact ⟨B, _, hb₁⟩
  refine Safe.bind (Runs.since (runs_applyTierPolicy hb₁)) fun fired w₂ h₂ => ?_
  obtain ⟨⟨hb₂, hsub⟩, hsuf⟩ := h₂
  dsimp only
  split
  · exact ⟨B, _, hb₂⟩
  refine hb₂.runs_deliverBatch ⟨events, hsuf.mem hread, hsub⟩ fun w₃ status _ hb₃ => ?_
  refine runs_clock hb₃.here fun w₄ hl₄ hw₄ _ => ?_
  refine (hb₃.later hl₄ hw₄).runs_write ?_ fun w₅ _ hb₅ => ⟨_, _, hb₅⟩
  trivial

theorem runs_dispatchSubscriptionEvents
    (hw : At p [] [.began p .dispatchSubscriptionEvents] w) :
    MsgRuns env t₀ p (MsgJustified env t₀ p) (dispatchSubscriptionEvents env p) w := by
  refine runs_clock hw fun w₁ _ hw₁ _ => ?_
  refine (Reading.began hw₁ rfl).runs_selectDueSubscriptions fun w₂ subs _ hb₂ => ?_
  refine Safe.bind (Safe.mapEach
    (J := fun _ _ w => Reads p .dispatchSubscriptionEvents w)
    (fun _ x _ w h => runs_dispatchSubscription h) [] ⟨[], _, hb₂⟩) fun attempts w₃ h₃ => ?_
  obtain ⟨B, E, hb₃⟩ := h₃
  exact hb₃.runs_commit fun w₄ time _ hb₄ => Reads.justified rfl ⟨[], _, hb₄⟩

/-! ## Digests -/

theorem mem_groupedByRecipient {events : List (EventId × EventRow)}
    {group : AgentId × List (EventId × EventRow)} (hg : group ∈ groupedByRecipient events) :
    ∀ x ∈ group.2, x ∈ events := by
  obtain ⟨a, -, rfl⟩ := List.mem_map.mp hg
  exact fun x hx => (List.mem_filter.mp hx).1

theorem runs_emitDigest {now began : Time} {group : AgentId × List (EventId × EventRow)}
    {events : List (EventId × EventRow)} (h : Reads p call w)
    (hread : .marked p (.read events) ∈ w.history) (hsub : ∀ x ∈ group.2, x ∈ events) :
    MsgRuns env t₀ p (fun _ w' => Reads p call w') (emitDigest env p now began group) w := by
  obtain ⟨B, E, hb⟩ := h
  have marked : ∀ {w' : MsgWorld} {B' : List MsgWrite}, Reading p call B' E w' →
      MsgRuns env t₀ p (fun _ w' => Reads p call w') (do
        write p (.markDigested (group.2.map Prod.fst) began)
        return true) w' := by
    intro w' B' hb'
    refine hb'.runs_write ?_ fun w₂ _ hb₂ => ⟨_, E, hb₂⟩
    trivial
  unfold emitDigest
  split
  · exact ⟨B, E, hb⟩
  refine runs_insertEvent hb.here (fun w₁ x hl₁ hw₁ _ _ => ?_)
    fun w₁ hl₁ hw₁ _ _ => marked (hb.later hl₁ hw₁)
  exact marked (hb.wrote hl₁ hw₁ ⟨⟨events, group.2, hl₁.history.mem hread, hsub, rfl⟩, rfl⟩)

theorem runs_emitDigests (hw : At p [] [.began p .emitDigests] w) :
    MsgRuns env t₀ p (MsgJustified env t₀ p) (emitDigests env p) w := by
  refine runs_clock hw fun w₁ _ hw₁ _ => runs_clock hw₁ fun w₂ _ hw₂ _ => ?_
  refine (Reading.began hw₂ rfl).runs_readEvents fun w₃ events _ hread hb₃ => ?_
  refine Safe.bind (Safe.mapEach (J := fun _ todo w => Reads p .emitDigests w ∧
      .marked p (.read events) ∈ w.history ∧ ∀ g ∈ todo, g ∈ groupedByRecipient events)
    (fun _ group todo w h => ?_) [] ⟨⟨[], _, hb₃⟩, hread, fun _ hg => hg⟩) fun emitted w₄ h₄ => ?_
  · obtain ⟨hreads, hread, htodo⟩ := h
    refine (Runs.since (runs_emitDigest hreads hread
      (mem_groupedByRecipient (htodo group (by simp))))).weaken fun _ w' h' => ?_
    exact ⟨h'.1, h'.2.mem hread, fun g hg => htodo g (by simp [hg])⟩
  · obtain ⟨⟨B, E, hb₄⟩, -⟩ := h₄
    exact hb₄.runs_commit fun w₅ time _ hb₅ => Reads.justified rfl ⟨[], _, hb₅⟩

end CueApi.Messages
