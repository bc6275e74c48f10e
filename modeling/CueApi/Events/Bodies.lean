import CueApi.Events.Walks

/-! Which deliveries contain `payload.body`. `emit_event` looks for an active subscription with
`inline_body` once, before it writes the row; the row is then the payload of every reader. -/

namespace CueApi.Events

open Scheduler (Pid Time keysWhere mem_keysWhere)
open Messages

/-- What `emit_event` has before its INSERT: the tables of its SELECT, and the message. -/
structure Look where
  tables : MsgTables
  message : MsgId
  draft : Draft

def Look.event (w : Look) : EventRow :=
  w.draft.event w.message (maybeEmbedBody (hasInlineSub w.tables w.draft.toAgent) w.draft.data.body)

/-- The row that a sending transaction is about to insert, and all that was looked at, latest
first. -/
structure Mail where
  stream : Stream := {}
  composed : Pid → Option EventRow := fun _ => none
  looked : List Look := []

def Mail.setComposed (s : Mail) (p : Pid) (row : Option EventRow) : Mail :=
  { s with composed := fun q => if q = p then row else s.composed q }

def Action.emits : Action → Bool
  | .emit _ _ => true
  | _ => false

/-- The SELECT and the INSERT of `emit_event`, and what everybody else does. -/
inductive MailAction
  | look (p : Pid) (m : MsgId) (d : Draft)
  | insert (p : Pid)
  | crash (p : Pid)
  | other (a : Action)

def mailStep (s : Mail) : MailAction → Option Mail
  | .look p m d =>
      if (s.composed p).isSome then none
      else
        let w : Look := ⟨s.stream.tables, m, d⟩
        some { s.setComposed p (some w.event) with looked := w :: s.looked }
  | .insert p =>
      match s.composed p with
      | none => none
      | some row =>
          (s.stream.emit p row).map fun stream => { s.setComposed p none with stream := stream }
  | .crash p => some { s.setComposed p none with stream := s.stream.rollback p }
  | .other a =>
      if a.emits then none else (step s.stream a).map fun stream => { s with stream := stream }

/-- The payload has the key `body`. -/
def carriesBody (r : EventRow) : Bool :=
  match r.payload with
  | .delivered payload => match payload.body with
    | .inline _ => true
    | .absent | .tooLarge _ => false
  | .digest _ _ _ _ => false

/-- An active subscription of the agent to `message.delivered` has `inline_body`. -/
def OptedIn (t : MsgTables) (agent : AgentId) : Prop :=
  ∃ sub row, t.subscription sub = some row ∧ row.subscriberAgentId = agent ∧
    row.eventType = .messageDelivered ∧ row.detachedAt = none ∧ row.inlineBody = true

/-- The events that go to a subscription: the batch of a webhook, or the page of a client with a
pull subscription. -/
inductive Delivery (s : Stream) : Subscription → List (EventId × EventRow) → Prop
  | webhook (p : Pid) (c : Cycle) (b : Batch) (hc : s.cycles p = some c) (hb : c.posting = some b) :
      Delivery s b.row b.fire
  | pull (p : Pid) (q : Pull) (sub : SubscriptionId) (row : Subscription) (hq : s.pulls p = some q)
      (hr : s.tables.subscription sub = some row) (hagent : row.subscriberAgentId = q.agent)
      (htarget : row.deliveryTarget = .pull) (hactive : row.detachedAt = none) :
      Delivery s row q.page

variable {s s' : Mail} {a : MailAction} {w : Look} {r r' : EventRow} {t : MsgTables}
variable {agent : AgentId}

theorem hasInlineSub_iff : hasInlineSub t agent = true ↔ OptedIn t agent := by
  unfold hasInlineSub OptedIn MsgTables.subscription
  rw [Bool.not_eq_true', List.isEmpty_eq_false_iff_exists_mem]
  simp only [mem_keysWhere, Bool.and_eq_true, decide_eq_true_eq, Option.isNone_iff_eq_none,
    and_assoc]

/-- The row of a look carries the body when it has seen such a subscription, and the body fits. -/
theorem Look.carriesBody_iff (w : Look) : carriesBody w.event = true ↔
    OptedIn w.tables w.draft.toAgent ∧ w.draft.data.body.utf8ByteSize ≤ inlineBodyMaxBytes := by
  rw [← hasInlineSub_iff]
  unfold carriesBody Look.event Draft.event maybeEmbedBody
  dsimp only
  cases hasInlineSub w.tables w.draft.toAgent with
  | false => simp
  | true =>
    by_cases hle : w.draft.data.body.utf8ByteSize ≤ inlineBodyMaxBytes
    · simp [hle]
    · simp [hle]

/-! ## Where the rows come from -/

/-- The row is that of a look, but for `digested_at`. -/
def Mail.Looked (s : Mail) (r : EventRow) : Prop :=
  ∃ w ∈ s.looked, r.recipientAgentId = w.draft.toAgent ∧ r.payload = w.event.payload

/-- Every row that is stored, or on its way, is that of a look. -/
structure Sourced (s : Mail) : Prop where
  composed : ∀ p row, s.composed p = some row → s.Looked row
  event : ∀ x r, s.stream.tables.event x = some r → s.Looked r
  emitted : ∀ y ∈ s.stream.emitted, s.Looked y.2.2
  page : ∀ p q, s.stream.pulls p = some q → ∀ y ∈ q.page, s.Looked y.2
  fire : ∀ p c b, s.stream.cycles p = some c → c.posting = some b → ∀ y ∈ b.fire, s.Looked y.2

theorem Mail.Looked.congr (h : s.Looked r) (ha : r'.recipientAgentId = r.recipientAgentId)
    (hp : r'.payload = r.payload) : s.Looked r' := by
  obtain ⟨w, hw, hwa, hwp⟩ := h
  exact ⟨w, hw, ha.trans hwa, hp.trans hwp⟩

theorem step_emitted {s s' : Stream} {a : Action} (h : step s a = some s')
    (ha : a.emits = false) : s'.emitted ⊆ s.emitted := by
  cases step_cases h with
  | emit p row es hes => cases ha
  | commit p => exact List.filter_subset_self _
  | rollback p => exact List.filter_subset_self _
  | _ => exact List.Subset.refl _

/-- A page holds rows of the table. -/
theorem Sourced.page_of (hs : Sourced s) (q : Pull) {y : EventId × EventRow}
    (hy : y ∈ (q.read s.stream.tables).page) : s.Looked y.2 := by
  obtain ⟨hr, -⟩ := mem_eventsWhere.mp (List.mem_of_mem_take hy)
  exact hs.event y.1 y.2 hr

/-- So does a batch. -/
theorem Sourced.batch_of (hs : Sourced s) {x : SubscriptionId × Subscription} {debounced : Bool}
    {b : Batch} (hb : batchFor s.stream.tables x debounced = some b) {y : EventId × EventRow}
    (hy : y ∈ b.fire) : s.Looked y.2 := by
  obtain ⟨-, -, -, hfire, -⟩ := batchFor_cases hb
  rw [hfire] at hy
  obtain ⟨hr, -⟩ := mem_eventsWhere.mp (List.mem_of_mem_take (List.mem_of_mem_filter hy))
  exact hs.event y.1 y.2 hr

theorem Sourced.other (hs : Sourced s) {a : Action} {stream : Stream} (ha : a.emits = false)
    (h : step s.stream a = some stream) : Sourced { s with stream := stream } where
  composed := hs.composed
  event x r' hr' := by
    rcases step_event h hr' with ⟨r, hr, hagent, hp⟩ | ⟨p, rfl, hmem⟩
    · exact (hs.event x r hr).congr hagent hp
    · exact hs.emitted _ (mem_pending.mp hmem)
  emitted y hy := hs.emitted y (step_emitted h ha hy)
  page p q' hq' y hy := by
    rcases step_pull h hq' with ⟨acked, hq, -⟩ | ⟨-, -, -, q, rfl, -⟩
    · exact hs.page p _ hq y hy
    · exact hs.page_of q hy
  fire p c' b hc' hb y hy := by
    cases step_cycle h hc' with
    | kept a hcyc ha => exact hs.fire p c' b hcyc hb y hy
    | begun now ids hnone hpost hupd =>
      rw [hpost] at hb
      cases hb
    | fetched debounced x todo updates hcyc heq =>
      rw [heq] at hb
      exact hs.batch_of hb hy
    | answered status now b' todo updates hcyc heq =>
      rw [heq] at hb
      cases hb

/-- Nothing has been sent. -/
def noMail : Mail := {}

theorem Sourced.start : Sourced noMail where
  composed p row h := by cases h
  event x r h := by cases h
  emitted y h := (List.not_mem_nil h).elim
  page p q h := by cases h
  fire p c b h := by cases h

theorem setComposed_composed {p q : Pid} {row row' : Option EventRow}
    (h : (s.setComposed p row).composed q = row') : row' = row ∨ row' = s.composed q := by
  rw [← h]
  unfold Mail.setComposed
  dsimp only
  split
  · exact .inl rfl
  · exact .inr rfl

theorem Sourced.after (hs : Sourced s) (h : mailStep s a = some s') : Sourced s' := by
  cases a with
  | look p m d =>
    simp only [mailStep] at h
    split at h
    · cases h
    · cases h
      have hgrow {r : EventRow} (hr : s.Looked r) :
          ∃ w ∈ (⟨s.stream.tables, m, d⟩ : Look) :: s.looked,
            r.recipientAgentId = w.draft.toAgent ∧ r.payload = w.event.payload := by
        obtain ⟨w, hw, hrow⟩ := hr
        exact ⟨w, List.mem_cons_of_mem _ hw, hrow⟩
      refine ⟨fun q row hrow => ?_, fun x r hr => hgrow (hs.event x r hr),
        fun y hy => hgrow (hs.emitted y hy), fun q pull hq y hy => hgrow (hs.page q pull hq y hy),
        fun q c b hc hb y hy => hgrow (hs.fire q c b hc hb y hy)⟩
      rcases setComposed_composed hrow with hrow | hrow
      · cases hrow
        exact ⟨⟨s.stream.tables, m, d⟩, List.mem_cons_self, rfl, rfl⟩
      · exact hgrow (hs.composed q row hrow.symm)
  | insert p =>
    simp only [mailStep] at h
    split at h
    · cases h
    · rename_i row hrow
      obtain ⟨stream, he, rfl⟩ := Option.map_eq_some_iff.mp h
      have hcomposed (q : Pid) (row' : EventRow)
          (h : (s.setComposed p none).composed q = some row') : s.Looked row' := by
        rcases setComposed_composed h with h | h
        · cases h
        · exact hs.composed q row' h.symm
      cases emit_cases he with
      | emit _ _ es hes =>
        refine ⟨hcomposed, hs.event, fun y hy => ?_, hs.page, hs.fire⟩
        rcases hes with rfl | rfl
        · exact hs.emitted y hy
        · rcases List.mem_cons.mp hy with rfl | hy
          · exact hs.composed p row hrow
          · exact hs.emitted y hy
  | crash p =>
    cases h
    refine ⟨fun q row h => ?_, hs.event, fun y hy => hs.emitted y (List.mem_of_mem_filter hy),
      hs.page, hs.fire⟩
    rcases setComposed_composed h with h | h
    · cases h
    · exact hs.composed q row h.symm
  | other a =>
    simp only [mailStep] at h
    split at h
    · cases h
    · rename_i ha
      obtain ⟨stream, hstep, rfl⟩ := Option.map_eq_some_iff.mp h
      exact hs.other (Bool.eq_false_iff.mpr ha) hstep

theorem Sourced.delivered (hs : Sourced s) {row : Subscription}
    {events : List (EventId × EventRow)} (hd : Delivery s.stream row events) :
    ∀ y ∈ events, s.Looked y.2 := by
  cases hd with
  | webhook p c b hc hb => exact hs.fire p c b hc hb
  | pull p q sub row hq hr hagent htarget hactive => exact hs.page p q hq

theorem carriesBody_congr (h : r'.payload = r.payload) : carriesBody r' = carriesBody r := by
  unfold carriesBody
  rw [h]

/-- A look was a step of the run, in a state with these tables. -/
theorem looked_step {as : List MailAction} {w : Look} (hr : Machine.run mailStep s as = some s')
    (hw : w ∈ s'.looked) : w ∈ s.looked ∨ ∃ bs s₁ p,
      bs ++ [.look p w.message w.draft] <+: as ∧ Machine.run mailStep s bs = some s₁ ∧
        w.tables = s₁.stream.tables := by
  induction as generalizing s with
  | nil =>
    cases hr
    exact .inl hw
  | cons a as ih =>
    obtain ⟨s₁, hstep, hrest⟩ := Machine.run_cons.mp hr
    rcases ih hrest with hold | ⟨bs, s₂, p, hbs, hrun, htables⟩
    · cases a with
      | look p m d =>
        simp only [mailStep] at hstep
        split at hstep
        · cases hstep
        · cases hstep
          rcases List.mem_cons.mp hold with rfl | hold
          · exact .inr ⟨[], s, p, List.cons_prefix_cons.mpr ⟨rfl, List.nil_prefix⟩, rfl, rfl⟩
          · exact .inl hold
      | insert p =>
        simp only [mailStep] at hstep
        split at hstep
        · cases hstep
        · obtain ⟨stream, -, rfl⟩ := Option.map_eq_some_iff.mp hstep
          exact .inl hold
      | crash p =>
        cases hstep
        exact .inl hold
      | other a =>
        simp only [mailStep] at hstep
        split at hstep
        · cases hstep
        · obtain ⟨stream, -, rfl⟩ := Option.map_eq_some_iff.mp hstep
          exact .inl hold
    · exact .inr ⟨a :: bs, s₂, p, List.cons_prefix_cons.mpr ⟨rfl, hbs⟩,
        (Machine.run_of_step hstep).trans hrun, htables⟩

/-- In every delivery, whatever the subscription asks for, an event has `payload.body` exactly when
an active subscription of its agent had `inline_body` at the SELECT of its `emit_event`, and the
body fits. -/
theorem body_opt_in {as : List MailAction} {s : Mail} {row : Subscription}
    {events : List (EventId × EventRow)} (hr : Machine.run mailStep noMail as = some s)
    (hd : Delivery s.stream row events) :
    ∀ y ∈ events, ∃ bs s₁ p m d,
      bs ++ [.look p m d] <+: as ∧ Machine.run mailStep noMail bs = some s₁ ∧
        y.2.recipientAgentId = d.toAgent ∧
        y.2.payload = (Look.event ⟨s₁.stream.tables, m, d⟩).payload ∧
        (carriesBody y.2 = true ↔ OptedIn s₁.stream.tables d.toAgent ∧
          d.data.body.utf8ByteSize ≤ inlineBodyMaxBytes) := by
  have hs : Sourced s := Machine.invariant Sourced.start
    (fun _ _ _ hs _ h => hs.after h) hr (Machine.along_true noMail as)
  intro y hy
  obtain ⟨⟨t, m, d⟩, hw, hagent, hp⟩ := hs.delivered hd y hy
  rcases looked_step hr hw with hnone | ⟨bs, s₁, p, hbs, hrun, rfl⟩
  · cases hnone
  · refine ⟨bs, s₁, p, m, d, hbs, hrun, hagent, hp, ?_⟩
    rw [carriesBody_congr hp]
    exact Look.carriesBody_iff _

/-- A pull subscription without bodies. -/
def plainPull : Subscription :=
  { subscriberAgentId := 7, eventType := .messageDelivered, deliveryTarget := .pull }

/-- A message with a body for that agent. -/
def hello : Draft where
  user := 1
  fromAgent := 9
  toAgent := 7
  webhookUrl := none
  replyToAgent := none
  parent := none
  priority := 3
  fingerprint := "f"
  key := none
  sendAt := none
  createdAt := 0
  now := 0
  data := { toAgent := .id 7 "agt_7", body := "hello" }

/-- The message is sent, and the client of the pull subscription pulls. -/
def sentAndPulled : List MailAction :=
  [.look 1 1 hello, .insert 1, .other (.commit 1), .other (.pull 2 7 0 100 none)]

theorem body_opt_in_plain : ∃ s row events,
    Machine.run mailStep noMail (.other (.subscribe 1 plainPull) :: sentAndPulled) = some s ∧
      Delivery s.stream row events ∧ events.map Prod.fst = [1] ∧
      ∀ y ∈ events, ∃ bs s₁ p m d,
        bs ++ [.look p m d] <+: .other (.subscribe 1 plainPull) :: sentAndPulled ∧
          Machine.run mailStep noMail bs = some s₁ ∧ y.2.recipientAgentId = d.toAgent ∧
          y.2.payload = (Look.event ⟨s₁.stream.tables, m, d⟩).payload ∧
          (carriesBody y.2 = true ↔ OptedIn s₁.stream.tables d.toAgent ∧
            d.data.body.utf8ByteSize ≤ inlineBodyMaxBytes) := by
  have hrun : ((Machine.run mailStep noMail
      (.other (.subscribe 1 plainPull) :: sentAndPulled)).any fun s =>
        (s.stream.pulls 2).any fun q => decide (q.page.map Prod.fst = [1] ∧ q.agent = 7) &&
          (s.stream.tables.subscription 1).any fun row => decide (row = plainPull)) = true := by
    decide +kernel
  obtain ⟨s, hs, hpull⟩ := (Option.any_eq_true _ _).mp hrun
  obtain ⟨q, hq, hboth⟩ := (Option.any_eq_true _ _).mp hpull
  obtain ⟨hpage, hrow⟩ := (Bool.and_eq_true _ _).mp hboth
  obtain ⟨hpage, hagent⟩ := of_decide_eq_true hpage
  obtain ⟨row, hr, heq⟩ := (Option.any_eq_true _ _).mp hrow
  obtain rfl := of_decide_eq_true heq
  have hd := Delivery.pull 2 q 1 plainPull hq hr hagent.symm rfl rfl
  exact ⟨s, plainPull, q.page, hs, hd, hpage, body_opt_in hs hd⟩

/-- A webhook subscription of the same agent asks for bodies, and the client of the other one gets
them too. -/
theorem body_to_plain : ¬ ∀ (as : List MailAction) (s : Mail) (row : Subscription)
    (events : List (EventId × EventRow)), Machine.run mailStep noMail as = some s →
      Delivery s.stream row events → row.inlineBody = false →
        ∀ y ∈ events, carriesBody y.2 = false := by
  intro hall
  have hrun : ((Machine.run mailStep noMail (.other (.subscribe 1 plainPull) ::
      .other (.subscribe 2 { webhookOf 7 with inlineBody := true }) :: sentAndPulled)).any fun s =>
        (s.stream.pulls 2).any fun q => decide (q.agent = 7) && q.page.any (fun y =>
            carriesBody y.2) &&
          (s.stream.tables.subscription 1).any fun row => decide (row = plainPull)) = true := by
    decide +kernel
  obtain ⟨s, hs, hpull⟩ := (Option.any_eq_true _ _).mp hrun
  obtain ⟨q, hq, hboth⟩ := (Option.any_eq_true _ _).mp hpull
  simp only [Bool.and_eq_true, decide_eq_true_eq, List.any_eq_true] at hboth
  obtain ⟨⟨hagent, y, hy, hbody⟩, hrow⟩ := hboth
  obtain ⟨row, hr, heq⟩ := (Option.any_eq_true _ _).mp hrow
  obtain rfl := of_decide_eq_true heq
  have hd := Delivery.pull 2 q 1 plainPull hq hr hagent.symm rfl rfl
  have hno := hall _ s plainPull q.page hs hd rfl y hy
  rw [hbody] at hno
  cases hno

end CueApi.Events
