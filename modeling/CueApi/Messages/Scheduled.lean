import CueApi.Messages.Idempotency
import CueApi.Messages.Reports
import CueApi.Messages.Retries

/-! Messages before their `send_at`. The inbox has a gate and so has the outbox; the event of a
message is there for its readers from the start. A message can also be named by a reply to it. -/

namespace CueApi.Messages

open Scheduler (Pid Time UserId OutboxId)
open ReadCommitted Interleaving Trace Recorded

variable {env : MsgEnv} {t₀ : MsgTables} {h h' : MsgHistory} {ev : MsgEvent} {p : Pid} {m : MsgId}
variable {s : MsgSys} {time : Time} {ws : List MsgWrite} {n : OutboxId} {j : MsgJob}

/-! ## Surfaces -/

/-- The messages that a message names as it is shown. -/
def Message.names (m : MsgId) (r : Message) : List MsgId := m :: r.threadId :: r.replyTo.toList

/-- The messages that an event names. -/
def EventPayload.names : EventPayload → List MsgId
  | .delivered payload => payload.messageId :: payload.threadId :: payload.replyTo.toList
  | .digest _ _ _ bundled => bundled.map BundledMessage.messageId

def namesOf (events : List (EventId × EventRow)) : List MsgId :=
  events.flatMap fun x => x.2.payload.names

/-- The messages that are named in what goes to a recipient: a page of its inbox, a push, a page of
events, a webhook batch. A digest is an event. -/
def shown (t₀ : MsgTables) (h : MsgHistory) : MsgEvent → List MsgId
  | .ended p (.returned reply) =>
      match callOf p h, reply with
      | some (.listInbox _ _), .inbox rows _ _ _ => rows.flatMap fun x => x.2.names x.1
      | some (.pullEvents _ _ _ _ _), .events events _ _ => namesOf events
      | _, _ => []
  | .marked _ (.pushed m answer) =>
      if answer.sent then ((replayed t₀ h).message m).elim [m] (Message.names m) else []
  | .marked _ (.posted _ events) => namesOf events
  | _ => []

/-- arq starts a push job that is in its queue. -/
def fromQueue (h : MsgHistory) : MsgEvent → Bool
  | .began _ call => call.job.all fun j => j ∈ queuedJobs h
  | _ => true

/-- The event of the message itself. -/
def EventPayload.tells (m : MsgId) : EventPayload → Bool
  | .delivered payload => payload.messageId = m
  | .digest _ _ _ _ => false

/-- No reader of events selects the event of the message, and no message replies to it. -/
def passesBy (m : MsgId) : MsgEvent → Bool
  | .marked _ (.read events) => events.all fun x => !x.2.payload.tells m
  | .commit _ _ ws => ws.all fun wr =>
      match wr with
      | .insertMessage _ row => row.replyTo ≠ some m
      | _ => true
  | _ => true

/-! ## Jobs -/

/-- The job has been in the queue. -/
def Queued (h : MsgHistory) (j : MsgJob) : Prop := ∃ p n, .marked p (.enqueued n j) ∈ h

theorem Queued.suffix (hq : Queued h j) (hs : h <:+ h') : Queued h' j := by
  obtain ⟨p, n, hm⟩ := hq
  exact ⟨p, n, hs.mem hm⟩

theorem queued_of_queuedJobs (hq : Along (fun h ev => fromQueue h ev = true) h) :
    (∀ j ∈ queuedJobs h, Queued h j) ∧ ∀ p j, .began p (MsgJob.call j) ∈ h → Queued h j := by
  induction h with
  | nil => exact ⟨fun j hj => (List.not_mem_nil hj).elim, fun p j hm => (List.not_mem_nil hm).elim⟩
  | cons ev h ih =>
    obtain ⟨hwait, hran⟩ := ih hq.2
    have later : ∀ {j}, Queued h j → Queued (ev :: h) j :=
      fun h' => h'.suffix (List.suffix_cons _ _)
    constructor
    · intro j hj
      cases ev with
      | began p call =>
        simp only [queuedJobs] at hj
        split at hj
        · exact later (hwait j (List.mem_of_mem_erase hj))
        · exact later (hwait j hj)
      | commit p time ws => exact later (hwait j hj)
      | marked p mark =>
        cases mark with
        | enqueued n j' =>
          rcases List.mem_cons.mp hj with rfl | hj
          · exact ⟨p, n, List.mem_cons_self⟩
          · exact later (hwait j hj)
        | _ => exact later (hwait j hj)
      | ended p how =>
        cases how with
        | crashed =>
          simp only [queuedJobs] at hj
          split at hj
          · rename_i j' hjob
            rcases List.mem_cons.mp hj with rfl | hj
            · obtain ⟨call, hc, hcall⟩ := Option.bind_eq_some_iff.mp hjob
              exact later (hran p j (MsgCall.job_eq_some.mp hcall ▸ began_of_callOf hc))
            · exact later (hwait j hj)
          · exact later (hwait j hj)
        | _ => exact later (hwait j hj)
    · intro p j hm
      rcases List.mem_cons.mp hm with rfl | hm
      · have hin := hq.1
        simp only [fromQueue, MsgCall.job_eq_some.mpr rfl, Option.all_some, decide_eq_true_eq] at hin
        exact later (hwait j hin)
      · exact later (hran p j hm)

/-! ## The push -/

/-- The message waits at time `c`: its push is scheduled for later, and no push job of it has
begun. -/
structure Waits (t₀ : MsgTables) (h : MsgHistory) (m : MsgId) (c : Time) : Prop where
  row : ∀ n o, (replayed t₀ h).outboxRow n = some o → o.payload.messageId = m →
    ∃ at', o.scheduledAt = some at' ∧ c < at'
  still : stateAt t₀ h m ≠ some .delivering
  idle : ∀ p j, MsgJob.message j = m → .began p j.call ∉ h

theorem Answered.began {result : DeliveryAttemptResult} (ha : Answered p j h result) :
    .began p j.call ∈ h := by
  cases ha with
  | unconfigured time now hown => exact mem_of_own_eq hown (by simp [claimedBy])
  | pushed answer time now hown => exact mem_of_own_eq hown (by simp [claimedBy])

/-- The outbox row of a message is for its recipient and its `send_at`. -/
theorem stored_outbox {user : UserId} {req : SendRequest} {o : MsgOutboxRow}
    (ha : MsgAllowed env t₀ h (.commit p time ws)) (hc : callOf p h = some (.sendMessage user req))
    (hnone : (replayed t₀ h).outboxRow n = none)
    (ho : (replayed t₀ (.commit p time ws :: h)).outboxRow n = some o) :
    ∃ d m, o.payload.messageId = m ∧ o.payload.toAgentId = d.toAgent ∧ o.scheduledAt = d.sendAt ∧
      (replayed t₀ (.commit p time ws :: h)).message m = some (Draft.row env d m) := by
  obtain ⟨m, d, hst⟩ := stores_of_send ha hc
  obtain ⟨x, n', inlineSub, seen, rfl⟩ := hst.writes
  rcases outboxRow_origin ho with ⟨o', ho', -⟩ | ⟨row, hm, hlater⟩
  · rw [hnone] at ho'
    cases ho'
  · have hrow : row = d.outbox m := by
      change _ ∈ d.writes env m x n' inlineSub seen at hm
      by_cases hurl : d.webhookUrl.isSome <;> simp [Draft.writes, hurl] at hm
      exact hm.2
    subst hrow
    exact ⟨d, m, by rw [hlater.payload]; rfl, by rw [hlater.payload]; rfl, hlater.scheduledAt,
      row_of_insert ha d.insert_mem⟩

section Final

variable {r : Message} {due : Time}

/-- The final state, in which the message is not due. -/
structure Undue (env : MsgEnv) (t₀ : MsgTables) (s : MsgSys) (m : MsgId) (r : Message)
    (due : Time) : Prop where
  blank : t₀.Blank
  reach : MsgReachable env t₀ s
  row : s.shared.tables.message m = some r
  gated : r.sendAt = some due
  early : s.shared.clock < due

theorem Undue.legal (hu : Undue env t₀ s m r due) : MsgLegal env t₀ s.shared.history :=
  hu.reach.legal hu.blank

/-- The message has had its `send_at` from the start. -/
theorem Undue.sendAt_eq (hu : Undue env t₀ s m r due) (hs : h <:+ s.shared.history)
    {r' : Message} (hr : (replayed t₀ h).message m = some r') : r'.sendAt = some due := by
  obtain ⟨r'', hr'', hcore⟩ := (MsgTables.Grows.replayed_suffix hs).message hr
  rw [← hu.reach.tables_eq hu.blank, hu.row] at hr''
  cases hr''
  rw [← hu.gated]
  exact (congrArg Message.sendAt hcore : r.core.sendAt = r'.core.sendAt).symm

theorem Undue.not_gate (hu : Undue env t₀ s m r due) {r' : Message} (hr : r'.sendAt = some due)
    {now : Time} (hnow : now ≤ s.shared.clock) : sendAtGate now r' ≠ true := by
  intro hgate
  rw [sendAtGate, hr] at hgate
  have hle : due ≤ now := of_decide_eq_true hgate
  exact absurd hu.early (Int.not_lt.mpr (Int.le_trans hle hnow))

/-- A row of the outbox that waits has not been made a job of. -/
theorem Undue.not_queued (hu : Undue env t₀ s m r due) (hs : h <:+ s.shared.history)
    (hw : Waits t₀ h m s.shared.clock) (hj : j.message = m) : ¬ Queued h j := by
  rintro ⟨p, n, hm⟩
  obtain ⟨o, ho, hjo⟩ := enqueued_row (hu.legal.suffix hs) hm
  obtain ⟨at', hat, hlt⟩ := hw.row n o ho (by rw [← hj, hjo]; rfl)
  obtain ⟨o', ho', -, hdue⟩ : MadeWhenDue s.shared n j := hu.reach.reported hu.blank (hs.mem hm)
  obtain ⟨o'', ho'', hlater⟩ := (MsgTables.Grows.replayed_suffix hs).outboxRow ho
  rw [← hu.reach.tables_eq hu.blank, ho'] at ho''
  cases ho''
  rw [hlater.scheduledAt, hat] at hdue
  exact absurd hlt (Int.not_lt.mpr (of_decide_eq_true hdue))

/-- The step lemma: no event ends the wait. -/
theorem Waits.step (hu : Undue env t₀ s m r due) (hs : ev :: h <:+ s.shared.history)
    (hq : Along (fun h ev => fromQueue h ev = true) s.shared.history)
    (hw : Waits t₀ h m s.shared.clock) : Waits t₀ (ev :: h) m s.shared.clock := by
  have ha := hu.legal.at hs
  have hsh := (List.suffix_cons ev h).trans hs
  have not_began : ∀ {p j}, .began p (MsgJob.call j) ∈ h → j.message ≠ m :=
    fun hm hj => hw.idle _ _ hj hm
  have not_only : ∀ {p j}, own p h = [.began p (MsgJob.call j)] → j.message ≠ m :=
    fun {p _} hown => not_began (p := p) (mem_of_own_eq hown List.mem_cons_self)
  refine ⟨fun n o ho hom => ?_, fun hst => ?_, fun p j hj hm => ?_⟩
  · cases outbox_moves ha n with
    | same hsame => exact hw.row n o (hsame.symm.trans ho) hom
    | inserted p time ws call o' hev hc hnone hrow he =>
      obtain rfl : o' = o := Option.some.inj (hrow.symm.trans ho)
      subst hev
      cases he with
      | recycled j now hown =>
        exact absurd hom (not_only hown)
      | retried j result url at' hans hlt hws => exact absurd hom (not_began hans.began)
      | recovered staleSeconds now i hok hlt hws =>
        obtain rfl : i.m = m := hom
        exact absurd (stateAt_eq_some.mpr ⟨i.row, hok.row, hok.delivering⟩) hw.still
      | created user req d m' x n' inlineSub seen hnew =>
        obtain ⟨d', m₁, hm₁, -, hat, hr⟩ := stored_outbox ha hc hnone hrow
        obtain rfl : m₁ = m := hm₁.symm.trans hom
        exact ⟨due, hat.trans (hu.sendAt_eq hs hr), hu.early⟩
    | dispatched p time ns j o' hev hmark hrow hrow' =>
      obtain rfl := Option.some.inj (hrow'.symm.trans ho)
      exact hw.row n o' hrow hom
  · cases state_moves ha m with
    | same hsame => exact hw.still (hsame.symm.trans hst)
    | created hnone hqueued =>
      rw [hqueued] at hst
      cases hst
    | updated p time ws call ms u r' hev hc hws hm hr hst' hupd =>
      rw [hst'] at hst
      cases hupd with
      | claim j now hjm hown hexp =>
        exact not_only hown hjm.symm
      | marked call user u seen h₀ hmark hown hsuf hseen => cases hmark <;> cases hst
      | _ => cases hst
  · rcases List.mem_cons.mp hm with rfl | hm
    · have hin := hq.at hs
      simp only [fromQueue, MsgCall.job_eq_some.mpr rfl, Option.all_some, decide_eq_true_eq] at hin
      exact hu.not_queued hsh hw hj ((queued_of_queuedJobs (hq.suffix hsh)).1 j hin)
    · exact hw.idle p j hj hm

theorem Undue.waits (hu : Undue env t₀ s m r due)
    (hq : Along (fun h ev => fromQueue h ev = true) s.shared.history)
    (hs : h <:+ s.shared.history) : Waits t₀ h m s.shared.clock := by
  induction h with
  | nil =>
    refine ⟨fun n o ho => ?_, fun hst => ?_, fun p j _ hm => (List.not_mem_nil hm).elim⟩
    · rw [show (replayed t₀ []).outboxRow n = none from hu.blank.outboxRow n] at ho
      cases ho
    · rw [stateAt, show (replayed t₀ []).message m = none from hu.blank.message m] at hst
      cases hst
  | cons ev h ih => exact (ih ((List.suffix_cons _ _).trans hs)).step hu hs hq

/-! ## The inbox -/

/-- No other message names the message. -/
def Unnamed (t : MsgTables) (m : MsgId) : Prop :=
  ∀ m' r', t.message m' = some r' → m' ≠ m → r'.replyTo ≠ some m ∧ r'.threadId ≠ m

theorem Unnamed.names {t : MsgTables} (hu : Unnamed t m) {m' : MsgId} {r' : Message}
    (hr : t.message m' = some r') (hne : m' ≠ m) : m ∉ r'.names m' := by
  obtain ⟨hreply, hthread⟩ := hu m' r' hr hne
  intro hm
  rcases List.mem_cons.mp hm with heq | hm
  · exact hne heq.symm
  rcases List.mem_cons.mp hm with heq | hm
  · exact hthread heq.symm
  · exact hreply (Option.mem_toList.mp hm)

theorem unnamed_replayed (ht : t₀.Blank) (hl : MsgLegal env t₀ h)
    (hp : ∀ ev ∈ h, passesBy m ev = true) : Unnamed (replayed t₀ h) m := by
  induction h with
  | nil =>
    intro m' r' hr
    rw [show (replayed t₀ []).message m' = none from ht.message m'] at hr
    cases hr
  | cons ev h ih =>
    have ih := ih hl.2 fun ev' hev' => hp ev' (List.mem_cons_of_mem _ hev')
    intro m' r' hr hne
    rcases row_before hl.1 hr with ⟨r₀, hr₀, hcore, -⟩ | ⟨p, time, ws, user, req, d, rfl, rfl, hst⟩
    · obtain ⟨hreply, hthread⟩ := ih m' r₀ hr₀ hne
      rw [show r'.replyTo = r₀.replyTo from
          (congrArg Message.replyTo hcore : r'.core.replyTo = r₀.core.replyTo),
        show r'.threadId = r₀.threadId from
          (congrArg Message.threadId hcore : r'.core.threadId = r₀.core.threadId)]
      exact ⟨hreply, hthread⟩
    · obtain ⟨x, n, inlineSub, seen, rfl⟩ := hst.writes
      have hpass := hp _ List.mem_cons_self
      simp only [passesBy, List.all_eq_true] at hpass
      have hreply : (Draft.row env d m').replyTo ≠ some m :=
        of_decide_eq_true (hpass _ d.insert_mem)
      refine ⟨hreply, ?_⟩
      cases hparent : d.parent with
      | none =>
        rw [show (Draft.row env d m').threadId = m' by simp [Draft.row, hparent]]
        exact hne
      | some parent =>
        obtain ⟨thread, m₁⟩ := parent
        have hne₁ : m₁ ≠ m := fun heq => hreply (by simp [Draft.row, hparent, heq])
        obtain ⟨r₁, hr₁, rfl⟩ := hst.ok.parent thread m₁ hparent
        rw [show (Draft.row env d m').threadId = r₁.threadId by simp [Draft.row, hparent]]
        exact (ih m₁ r₁ hr₁ hne₁).2

theorem Undue.inbox (hu : Undue env t₀ s m r due) (hs : h <:+ s.shared.history)
    (hp : ∀ ev ∈ s.shared.history, passesBy m ev = true) {rows : List (MsgId × Message)}
    (hshow : ShowsInbox p t₀ h rows) : ∀ x ∈ rows, m ∉ x.2.names x.1 := by
  obtain ⟨time, now, ws, h', hm, hle, hsuf, hrows⟩ := hshow
  intro x hx
  obtain ⟨hr, hgate⟩ := hrows x hx
  have hsh := hsuf.trans hs
  have hunnamed := unnamed_replayed hu.blank (hu.legal.suffix hsh) fun ev hev => hp ev (hsh.mem hev)
  refine hunnamed.names hr fun heq => ?_
  have hnow := Int.le_trans hle (hu.reach.clock hu.blank (hs.mem hm))
  exact hu.not_gate (hu.sendAt_eq hsh (heq ▸ hr)) hnow hgate

/-! ## Events -/

/-- Where an event has its messages from. -/
def EventPayload.Comes (t : MsgTables) (h : MsgHistory) : EventPayload → Prop
  | .delivered payload => ∃ r, t.message payload.messageId = some r ∧
      payload.threadId = r.threadId ∧ payload.replyTo = r.replyTo
  | .digest _ _ _ bundled => ∃ (p : Pid) (xs events : List (EventId × EventRow)),
      .marked p (.read xs) ∈ h ∧ (∀ x ∈ events, x ∈ xs) ∧ bundled = events.filterMap bundle

theorem EventPayload.Comes.later {payload : EventPayload}
    (hc : payload.Comes (replayed t₀ h) h) (hs : h <:+ h') : payload.Comes (replayed t₀ h') h' := by
  cases payload with
  | delivered payload =>
    obtain ⟨r, hr, hthread, hreply⟩ := hc
    obtain ⟨r', hr', hcore⟩ := (MsgTables.Grows.replayed_suffix hs).message hr
    refine ⟨r', hr', hthread.trans ?_, hreply.trans ?_⟩
    · exact (congrArg Message.threadId hcore : r'.core.threadId = r.core.threadId).symm
    · exact (congrArg Message.replyTo hcore : r'.core.replyTo = r.core.replyTo).symm
  | digest recipient periodStart periodEnd bundled =>
    obtain ⟨p, xs, events, hm, hsub, heq⟩ := hc
    exact ⟨p, xs, events, hs.mem hm, hsub, heq⟩

/-- An event of a message is stored with it, and a digest bundles events that were read. -/
theorem event_comes (ht : t₀.Blank) (hl : MsgLegal env t₀ h) {x : EventId} {e : EventRow}
    (he : (replayed t₀ h).event x = some e) : e.payload.Comes (replayed t₀ h) h := by
  induction h generalizing e with
  | nil =>
    rw [show (replayed t₀ []).event x = none from ht.event x] at he
    cases he
  | cons ev h ih =>
    have payload_eq : ∀ {e' : EventRow}, e.core = e'.core → e.payload = e'.payload := fun {e'} hcore =>
      (congrArg EventRow.payload hcore : e.core.payload = e'.core.payload)
    have older : ∀ e', (replayed t₀ h).event x = some e' → e.core = e'.core →
        e.payload.Comes (replayed t₀ (ev :: h)) (ev :: h) := by
      intro e' he' hcore
      rw [payload_eq hcore]
      exact (ih hl.2 he').later (List.suffix_cons _ _)
    cases ev with
    | commit p time ws =>
      obtain ⟨⟨call, -, hcm⟩, -⟩ := hl.1
      rcases event_applyAll he with ⟨e', he', hcore⟩ | ⟨row, hm, hcore⟩
      · exact older e' he' hcore
      rw [payload_eq hcore]
      rcases insertEvent_of_commits hcm hm with
        ⟨d, m', n, inlineSub, seen, rfl, rfl⟩ | ⟨hbundles, -⟩
      · exact ⟨d.row env m', row_of_insert hl.1 d.insert_mem, rfl, rfl⟩
      · cases hpay : row.payload with
        | delivered payload =>
          rw [hpay] at hbundles
          cases hbundles
        | digest recipient periodStart periodEnd bundled =>
          rw [hpay] at hbundles
          obtain ⟨xs, events, hread, hsub, heq⟩ := hbundles
          exact ⟨p, xs, events, List.mem_cons_of_mem _ hread, hsub, heq⟩
    | began p call => exact older e he rfl
    | marked p mark => exact older e he rfl
    | ended p how => exact older e he rfl

/-- What the readers of events select does not name the message. -/
theorem Undue.read (hu : Undue env t₀ s m r due)
    (hp : ∀ ev ∈ s.shared.history, passesBy m ev = true) {events : List (EventId × EventRow)}
    (hm : .marked p (.read events) ∈ s.shared.history) : ∀ x ∈ events, m ∉ x.2.payload.names := by
  have hunnamed := unnamed_replayed hu.blank hu.legal hp
  have passed : ∀ {q xs}, .marked q (.read xs) ∈ s.shared.history → ∀ y ∈ xs,
      y.2.payload.tells m = false := by
    intro q xs hread y hy
    have hpass := hp _ hread
    simp only [passesBy, List.all_eq_true, Bool.not_eq_true'] at hpass
    exact hpass y hy
  intro x hx hname
  obtain ⟨e, he, hcore⟩ : ∃ e, s.shared.tables.event x.1 = some e ∧ e.core = x.2.core :=
    hu.reach.reported hu.blank hm x hx
  have hpay : e.payload = x.2.payload :=
    (congrArg EventRow.payload hcore : e.core.payload = x.2.core.payload)
  rw [hu.reach.tables_eq hu.blank] at he
  have hcomes := event_comes hu.blank hu.legal he
  rw [hpay] at hcomes
  have htells := passed hm x hx
  cases hpayload : x.2.payload with
  | delivered payload =>
    rw [hpayload] at hcomes hname htells
    obtain ⟨r', hr', hthread, hreply⟩ := hcomes
    have hne : payload.messageId ≠ m := of_decide_eq_false htells
    have hnames := hunnamed.names hr' hne
    rw [Message.names, ← hthread, ← hreply] at hnames
    exact hnames hname
  | digest recipient periodStart periodEnd bundled =>
    rw [hpayload] at hcomes hname
    obtain ⟨q, xs, ys, hread, hsub, rfl⟩ := hcomes
    obtain ⟨b, hb, rfl⟩ := List.mem_map.mp hname
    obtain ⟨y, hy, hbundle⟩ := List.mem_filterMap.mp hb
    have htells := passed hread y (hsub y hy)
    unfold bundle at hbundle
    cases hy' : y.2.payload with
    | delivered payload =>
      rw [hy'] at hbundle htells
      cases hbundle
      exact of_decide_eq_false htells rfl
    | digest a b c d =>
      rw [hy'] at hbundle
      cases hbundle

end Final

/-- Before its `send_at` nothing that goes to a recipient names a message, in every run in which no
reader of events selects its event and no message replies to it. -/
theorem scheduled_hidden (ht : t₀.Blank) (hr : MsgReachable env t₀ s)
    (hq : Along (fun h ev => fromQueue h ev = true) s.shared.history)
    (hp : ∀ ev ∈ s.shared.history, passesBy m ev = true) {r : Message}
    (hm : s.shared.tables.message m = some r) (hdue : sendAtGate s.shared.clock r = false)
    (hs : ev :: h <:+ s.shared.history) : m ∉ shown t₀ h ev := by
  obtain ⟨due, hsend, hlt⟩ : ∃ due, r.sendAt = some due ∧ s.shared.clock < due := by
    rw [sendAtGate] at hdue
    cases hsend : r.sendAt with
    | none =>
      rw [hsend] at hdue
      cases hdue
    | some due =>
      rw [hsend] at hdue
      exact ⟨due, rfl, Int.not_le.mp (of_decide_eq_false hdue)⟩
  have hu : Undue env t₀ s m r due := ⟨ht, hr, hm, hsend, hlt⟩
  have hsh := (List.suffix_cons ev h).trans hs
  have ha := hu.legal.at hs
  have named : ∀ {events}, (∀ x ∈ events, m ∉ x.2.payload.names) → m ∉ namesOf events := by
    intro events hnone hmem
    obtain ⟨x, hx, hmem⟩ := List.mem_flatMap.mp hmem
    exact hnone x hx hmem
  cases ev with
  | began p call => exact List.not_mem_nil
  | commit p time ws => exact List.not_mem_nil
  | marked p mark =>
    obtain ⟨call, hc, hmark⟩ := ha
    cases mark with
    | pushed m' answer =>
      obtain ⟨j, time, now, rfl, hown⟩ := hmark
      have hne : j.message ≠ m := fun hj =>
        (hu.waits hq hsh).idle p j hj (mem_of_own_eq hown (by simp [claimedBy]))
      have hunnamed := unnamed_replayed ht (hu.legal.suffix hsh) fun ev hev => hp ev (hsh.mem hev)
      simp only [shown]
      split
      · cases hrow : (replayed t₀ h).message j.message with
        | none => exact fun hmem => hne (List.mem_singleton.mp hmem).symm
        | some r' => exact hunnamed.names hrow hne
      · exact List.not_mem_nil
    | posted sub events =>
      obtain ⟨-, xs, hread, hsub⟩ := hmark
      exact named fun x hx => hu.read hp (hsh.mem hread) x (hsub x hx)
    | _ => exact List.not_mem_nil
  | ended p how =>
    cases how with
    | returned reply =>
      obtain ⟨call, hc, hret⟩ := ha
      simp only [shown, hc]
      split
      · rename_i heq
        cases heq
        intro hmem
        obtain ⟨x, hx, hmem⟩ := List.mem_flatMap.mp hmem
        exact hu.inbox hsh hp hret x hx hmem
      · rename_i heq
        cases heq
        exact named fun x hx => hu.read hp (hsh.mem hret) x hx
      · exact List.not_mem_nil
    | _ => exact List.not_mem_nil

/-- The message is for time 100. -/
def laterHello : SendRequest := { hello with data := { hello.data with sendAt := some ⟨100, true⟩ } }

/-- A cycle of the dispatcher and a poll of the recipient's inbox come before that. -/
def storedForLater : List MsgAction :=
  playMsgAll 1 (.sendMessage 1 laterHello) (stores 5 7) ++
    playMsgAll 2 .dispatchOutbox [.go, .rows [], .go] ++
    playMsgAll 3 (.listInbox 2 { agent := .id 2 "agt_2" }) (List.replicate 8 .go)

/-- The gate of a message, the names in the last thing that happened, and the conditions. -/
def hiddenFacts (m : MsgId) (s : MsgSys) : Option Bool × List MsgId × Bool × Bool :=
  ((s.shared.tables.message m).map (sendAtGate s.shared.clock),
    s.shared.history.head?.elim [] (shown twoUsers s.shared.history.tail),
    decide (Along (fun h ev => fromQueue h ev = true) s.shared.history),
    s.shared.history.all (passesBy m))

theorem scheduled_hidden_polled : ∃ s r, MsgReachable oneUser twoUsers s ∧
    s.shared.tables.message 5 = some r ∧ sendAtGate s.shared.clock r = false ∧
    ∀ ev h, ev :: h <:+ s.shared.history → 5 ∉ shown twoUsers h ev := by
  obtain ⟨s, hr, hv⟩ := reachable_of_run storedForLater (hiddenFacts 5)
    (v := (some false, [], true, true)) (by decide +kernel)
  simp only [hiddenFacts, Prod.mk.injEq, decide_eq_true_eq, List.all_eq_true] at hv
  obtain ⟨hgate, -, hq, hp⟩ := hv
  obtain ⟨r, hm, hdue⟩ := Option.map_eq_some_iff.mp hgate
  exact ⟨s, r, hr, hm, hdue, fun ev h hs => scheduled_hidden blank_twoUsers hr hq hp hm hdue hs⟩

/-- The recipient pulls its events, and the message is among them. -/
theorem scheduled_pulled : ¬ ∀ (env : MsgEnv) (t₀ : MsgTables) (s : MsgSys) (m : MsgId)
    (r : Message) (ev : MsgEvent) (h : MsgHistory), t₀.Blank → MsgReachable env t₀ s →
    Along (fun h ev => fromQueue h ev = true) s.shared.history →
    s.shared.tables.message m = some r → sendAtGate s.shared.clock r = false →
    ev :: h <:+ s.shared.history → m ∉ shown t₀ h ev := by
  intro hall
  obtain ⟨s, hr, hv⟩ := reachable_of_run
    (storedForLater ++ playMsgAll 4 (.pullEvents 2 (.id 2 "agt_2") 0 100 none) (List.replicate 4 .go))
    (hiddenFacts 5) (v := (some false, [5, 5], true, false)) (by decide +kernel)
  simp only [hiddenFacts, Prod.mk.injEq, decide_eq_true_eq] at hv
  obtain ⟨hgate, hshown, hq, -⟩ := hv
  obtain ⟨r, hm, hdue⟩ := Option.map_eq_some_iff.mp hgate
  cases hh : s.shared.history with
  | nil =>
    rw [hh] at hshown
    cases hshown
  | cons ev h =>
    refine hall oneUser twoUsers s 5 r ev h blank_twoUsers hr hq hm hdue (by rw [hh]) ?_
    rw [hh] at hshown
    change shown twoUsers h ev = [5, 5] at hshown
    rw [hshown]
    exact List.mem_cons_self

end CueApi.Messages
