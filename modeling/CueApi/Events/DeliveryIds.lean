import CueApi.Events.Once
import Mathlib.Data.List.Basic
import Std.Data.String.ToNat

/-! The `delivery_id` of a webhook body, which names the first and the last of its events, and what
lies between them. The tier policy may put off an event in between and fire it the next time; an
event may also become visible late, or be cleaned up, between two bodies. -/

namespace CueApi.Events

open Scheduler (Pid Time mem_keysWhere)
open Messages Paging

variable {s s' : Stream} {a : Action} {p : Pid} {x : EventId} {sub : SubscriptionId}
variable {t : MsgTables} {b b' : Batch} {e : EventId × EventRow} {text : SubscriptionId → String}

/-! ## Bodies -/

/-- `_serialize_event`. -/
structure SerializedEvent where
  id : EventId
  eventType : String
  payload : EventPayload
  emittedAt : Time
  deriving DecidableEq, Repr

def serializeEvent (e : EventId × EventRow) : SerializedEvent :=
  ⟨e.1, e.2.payload.type.text, e.2.payload, e.2.emittedAt⟩

structure WebhookBody where
  deliveryId : String
  subscriptionId : String
  events : List SerializedEvent
  deriving DecidableEq, Repr

def deliveryId (subscriptionId : String) (firstId lastId : EventId) : String :=
  "dlv_" ++ subscriptionId ++ "_" ++ firstId.repr ++ "_" ++ lastId.repr

def Batch.firstId (b : Batch) : EventId := (b.fire.head?.map Prod.fst).getD 0

def Batch.lastId (b : Batch) : EventId := (b.fire.getLast?.map Prod.fst).getD 0

/-- `_build_webhook_body`; `text` spells the id of a subscription. -/
def buildWebhookBody (text : SubscriptionId → String) (b : Batch) : WebhookBody where
  deliveryId := deliveryId (text b.sub) b.firstId b.lastId
  subscriptionId := text b.sub
  events := b.fire.map serializeEvent

/-- The id tells the two events. -/
theorem deliveryId_ends {subscriptionId : String} {first first' last last' : EventId}
    (h : deliveryId subscriptionId first last = deliveryId subscriptionId first' last') :
    first = first' ∧ last = last' := by
  have no_underscore : ∀ n : Nat, '_' ∉ n.repr.toList := fun n => by simp [Nat.repr]
  simp only [deliveryId, String.append_assoc, String.append_right_inj] at h
  have hl : first.repr.toList ++ '_' :: last.repr.toList =
      first'.repr.toList ++ '_' :: last'.repr.toList := by
    simpa using congrArg String.toList h
  obtain ⟨hfirst, -, hlast⟩ :=
    (List.append_cons_inj_of_notMem (no_underscore first) (no_underscore last)).mp hl
  exact ⟨Nat.repr_injective (String.toList_inj.mp hfirst),
    Nat.repr_injective (String.toList_inj.mp hlast)⟩

theorem Batch.first_spec (hne : b.fire ≠ []) : ∃ e, b.fire.head? = some e ∧ b.firstId = e.1 := by
  obtain ⟨e, he⟩ := Option.isSome_iff_exists.mp (List.isSome_head?.mpr hne)
  exact ⟨e, he, by simp [Batch.firstId, he]⟩

theorem Batch.last_spec (hne : b.fire ≠ []) : ∃ e, b.fire.getLast? = some e ∧ b.lastId = e.1 := by
  obtain ⟨e, he⟩ := Option.isSome_iff_exists.mp (List.getLast?_isSome.mpr hne)
  exact ⟨e, he, by simp [Batch.lastId, he]⟩

/-! ## Posted batches -/

/-- `posted` records the batches of all POSTs, latest first. -/
structure Mailed where
  stream : Stream := start
  posted : List Batch := []

/-- A fetch that finds events to fire posts them. -/
def newlyPosted (s' : Stream) : Action → List Batch
  | .fetch p _ => ((s'.cycles p).bind Cycle.posting).toList
  | _ => []

def Mailed.stepBy (step : Stream → Action → Option Stream) (m : Mailed) (a : Action) :
    Option Mailed :=
  (step m.stream a).map fun s' => ⟨s', newlyPosted s' a ++ m.posted⟩

def Mailed.step : Mailed → Action → Option Mailed := Mailed.stepBy Events.step

/-- No event that is put off lies between two that are fired. -/
def unbroken (debounced : Bool) (events : List (EventId × EventRow)) : Bool :=
  events.all fun d => !late debounced d ||
    (events.all fun e => late debounced e || d.1 < e.1) ||
    events.all fun e => late debounced e || e.1 < d.1

theorem not_late_between {debounced : Bool} {events : List (EventId × EventRow)}
    (hc : unbroken debounced events = true) {d z w : EventId × EventRow} (hd : d ∈ events)
    (hz : z ∈ events ∧ late debounced z = false) (hw : w ∈ events ∧ late debounced w = false)
    (hfirst : z.1 ≤ d.1) (hlast : d.1 ≤ w.1) : late debounced d = false := by
  simp only [unbroken, List.all_eq_true, Bool.or_eq_true, Bool.not_eq_true',
    decide_eq_true_eq] at hc
  rcases hc d hd with (hlate | hbelow) | hover
  · exact hlate
  · rcases hbelow z hz.1 with hl | hlt
    · rw [hz.2] at hl
      cases hl
    · exact absurd hfirst (Nat.not_le.mpr hlt)
  · rcases hover w hw.1 with hl | hlt
    · rw [hw.2] at hl
      cases hl
    · exact absurd hlast (Nat.not_le.mpr hlt)

/-- An event that a batch of the subscription would hold. -/
def Batch.asks (b : Batch) (r : EventRow) : Bool :=
  matching b.row.subscriberAgentId (some b.row.eventType.text) r

/-- One of the two events in the id is older than the cutoff. -/
def Batch.endOlder (b : Batch) (cutoff : Time) : Bool :=
  b.fire.any fun e => (e.1 = b.firstId || e.1 = b.lastId) && e.2.emittedAt < cutoff

/-- A POST puts off nothing between its events; a commit adds nothing between the events of a
posted batch, and a cleanup takes nothing between them but with an end. -/
def undisturbed (m : Mailed) : Action → Bool
  | .fetch p debounced => match m.stream.cycles p with
      | some ⟨x :: _, none, _⟩ => unbroken debounced (pendingEvents m.stream.tables x.2)
      | _ => true
  | .commit p => m.posted.all fun b => (m.stream.pending p).all fun e =>
      !b.asks e.2 || e.1 < b.firstId || b.lastId < e.1
  | .cleanup cutoff => m.posted.all fun b =>
      b.endOlder cutoff || b.fire.all fun e => cutoff ≤ e.2.emittedAt
  | _ => true

theorem Batch.asks_core {r r' : EventRow} (h : r'.core = r.core) : b.asks r' = b.asks r := by
  have ha : r'.recipientAgentId = r.recipientAgentId := congrArg (fun r => r.recipientAgentId) h
  have hp : r'.payload = r.payload := congrArg (fun r => r.payload) h
  unfold Batch.asks matching
  rw [ha, hp]

/-- The event stands, for the agent and of the type of the batch. -/
def Asked (t : MsgTables) (b : Batch) (x : EventId) : Prop :=
  Stands t b.row.subscriberAgentId (some b.row.eventType.text) x

/-- What is true of a batch from its POST on. -/
structure Carried (t : MsgTables) (b : Batch) : Prop where
  nonempty : b.fire ≠ []
  ordered : Ordered Prod.fst b.fire
  row : ∃ row, t.subscription b.sub = some row ∧
    row.subscriberAgentId = b.row.subscriberAgentId ∧ row.eventType = b.row.eventType
  between : ∀ x r, t.event x = some r → b.asks r = true → b.firstId ≤ x → x ≤ b.lastId →
    ∃ e ∈ b.fire, e.1 = x ∧ r.core = e.2.core
  whole : Asked t b b.firstId → Asked t b b.lastId → ∀ e ∈ b.fire, Asked t b e.1

theorem Carried.ends (hb : Carried t b) (he : e ∈ b.fire) : b.firstId ≤ e.1 ∧ e.1 ≤ b.lastId := by
  obtain ⟨z, hz, hfirst⟩ := b.first_spec hb.nonempty
  obtain ⟨y, hy, hlast⟩ := b.last_spec hb.nonempty
  rw [hfirst, hlast]
  exact ⟨hb.ordered.head_le he hz, hb.ordered.le_getLast he hy⟩

theorem Carried.ends_le (hb : Carried t b) : b.firstId ≤ b.lastId := by
  obtain ⟨z, hz, -⟩ := b.first_spec hb.nonempty
  have hends := hb.ends (List.mem_of_head? hz)
  exact Nat.le_trans hends.1 hends.2

/-- An event of the batch that stands is the one that was fired. -/
theorem Carried.same (hb : Carried t b) (he : e ∈ b.fire) {r : EventRow}
    (hr : t.event e.1 = some r) (ha : b.asks r = true) : r.core = e.2.core := by
  have hends := hb.ends he
  obtain ⟨e', he', hid, hcore⟩ := hb.between e.1 r hr ha hends.1 hends.2
  rwa [hb.ordered.eq_of_key he' he hid] at hcore

theorem Carried.emittedAt (hb : Carried t b) (he : e ∈ b.fire) {r : EventRow}
    (hr : t.event e.1 = some r) (ha : b.asks r = true) : r.emittedAt = e.2.emittedAt :=
  congrArg (fun r => r.emittedAt) (hb.same he hr ha)

theorem cleanup_older {cutoff : Time} {r : EventRow} (hr : t.event x = some r)
    (hold : r.emittedAt < cutoff) : (cleanupOldEvents t cutoff).event x = none :=
  lookup_eraseAll_mem ((mem_keysWhere _ _ _).mpr ⟨r, hr, decide_eq_true hold⟩)

/-- A cleanup that leaves both ends of a batch has taken none of its events. -/
theorem Carried.young (hb : Carried t b) (hall : ∀ e ∈ b.fire, Asked t b e.1) {cutoff : Time}
    (hc : b.endOlder cutoff = true ∨ ∀ e ∈ b.fire, cutoff ≤ e.2.emittedAt)
    (hfirst : Asked (cleanupOldEvents t cutoff) b b.firstId)
    (hlast : Asked (cleanupOldEvents t cutoff) b b.lastId) :
    ∀ e ∈ b.fire, cutoff ≤ e.2.emittedAt := by
  rcases hc with holder | hyoung
  · simp only [Batch.endOlder, List.any_eq_true, Bool.and_eq_true, Bool.or_eq_true,
      decide_eq_true_eq] at holder
    obtain ⟨z, hz, hend, hzold⟩ := holder
    obtain ⟨rz, hrz, haz⟩ := hall z hz
    have hgone := cleanup_older hrz (hb.emittedAt hz hrz haz ▸ hzold)
    have hstands : Asked (cleanupOldEvents t cutoff) b z.1 := by
      rcases hend with hend | hend
      · exact hend ▸ hfirst
      · exact hend ▸ hlast
    obtain ⟨r', hr', -⟩ := hstands
    rw [hgone] at hr'
    cases hr'
  · exact hyoung

variable {m m' : Mailed}

/-- In an undisturbed step no event appears between the events of a posted batch. -/
theorem asked_after (hc : undisturbed m a = true) (h : step m.stream a = some s') (hm : b ∈ m.posted)
    {r' : EventRow} (hr' : s'.tables.event x = some r') (ha : b.asks r' = true)
    (hfirst : b.firstId ≤ x) (hlast : x ≤ b.lastId) :
    ∃ r, m.stream.tables.event x = some r ∧ r'.core = r.core ∧ b.asks r = true := by
  rcases step_event_core h hr' with ⟨r, hr, hcore⟩ | ⟨p, rfl, hmem⟩
  · exact ⟨r, hr, hcore, Batch.asks_core hcore ▸ ha⟩
  · simp only [undisturbed, List.all_eq_true, Bool.or_eq_true, Bool.not_eq_true',
      decide_eq_true_eq] at hc
    rcases hc b hm (x, r') hmem with (hno | hlt) | hlt
    · rw [ha] at hno
      cases hno
    · exact absurd hfirst (Nat.not_le.mpr hlt)
    · exact absurd hlast (Nat.not_le.mpr hlt)

/-- An undisturbed step keeps what is known of a posted batch. -/
theorem Carried.after (hb : Carried m.stream.tables b) (hh : Held m.stream) (hm : b ∈ m.posted)
    (hc : undisturbed m a = true) (h : step m.stream a = some s') : Carried s'.tables b where
  nonempty := hb.nonempty
  ordered := hb.ordered
  row := by
    obtain ⟨row, hr, hagent, htype⟩ := hb.row
    obtain ⟨row', hr', hrw⟩ := step_row_of h hh.updates_nodup hr
    exact ⟨row', hr', hrw.fixed.1.trans hagent, hrw.fixed.2.1.trans htype⟩
  between x r' hr' ha hfirst hlast := by
    obtain ⟨r, hr, hcore, ha⟩ := asked_after hc h hm hr' ha hfirst hlast
    obtain ⟨e, he, hx, hsame⟩ := hb.between x r hr ha hfirst hlast
    exact ⟨e, he, hx, hcore.trans hsame⟩
  whole hfirst hlast e he := by
    have before {x : EventId} (hx : Asked s'.tables b x) (hlow : b.firstId ≤ x) (hhigh : x ≤ b.lastId) :
        Asked m.stream.tables b x := by
      obtain ⟨r', hr', ha⟩ := hx
      obtain ⟨r, hr, -, ha⟩ := asked_after hc h hm hr' ha hlow hhigh
      exact ⟨r, hr, ha⟩
    have hle := hb.ends_le
    have hall := hb.whole (before hfirst (Nat.le_refl _) hle) (before hlast hle (Nat.le_refl _))
    obtain ⟨r, hr, ha⟩ := hall e he
    rcases event_stays h hr with ⟨r', hr', hcore⟩ | ⟨cutoff, rfl, hold⟩
    · exact ⟨r', hr', (Batch.asks_core hcore).trans ha⟩
    · cases h
      simp only [undisturbed, List.all_eq_true, Bool.or_eq_true, decide_eq_true_eq] at hc
      have hyoung := hb.young hall (hc b hm) hfirst hlast e he
      exact absurd (hb.emittedAt he hr ha ▸ hold) (Int.not_lt.mpr hyoung)

/-! ## A new batch -/

/-- A batch of a fetch, in the state that it has read. -/
structure Fetched (t : MsgTables) (b : Batch) : Prop where
  carried : Carried t b
  read : t.subscription b.sub = some b.row
  stands : ∀ e ∈ b.fire, t.event e.1 = some e.2 ∧ b.asks e.2 = true

theorem mem_pendingEvents {t : MsgTables} {row : Subscription}
    (he : e ∈ pendingEvents t row) :
    t.event e.1 = some e.2 ∧ matching row.subscriberAgentId (some row.eventType.text) e.2 = true := by
  obtain ⟨hr, hw⟩ := mem_eventsWhere.mp (List.mem_of_mem_take he)
  simp only [Bool.and_eq_true, decide_eq_true_eq] at hw
  exact ⟨hr, matching_type.mpr hw.1⟩

theorem Fetched.of_batchFor (hk : Known s) {y : SubscriptionId × Subscription} {debounced : Bool}
    (hread : s.tables.subscription y.1 = some y.2)
    (hc : unbroken debounced (pendingEvents s.tables y.2) = true)
    (hb : batchFor s.tables y debounced = some b) : Fetched s.tables b := by
  obtain ⟨hsub, hrow, hne, hf, -⟩ := batchFor_cases hb
  have hpage := hk.pendingEvents y.2
  have hfire {e : EventId × EventRow} :
      e ∈ b.fire ↔ e ∈ pendingEvents s.tables y.2 ∧ late debounced e = false := by
    rw [hf, List.mem_filter]
    simp
  have hstands : ∀ e ∈ b.fire, s.tables.event e.1 = some e.2 ∧ b.asks e.2 = true := by
    intro e he
    unfold Batch.asks
    rw [hrow]
    exact mem_pendingEvents (hfire.mp he).1
  rw [← hsub, ← hrow] at hread
  refine ⟨⟨hne, ?_, ⟨b.row, hread, rfl, rfl⟩, ?_, ?_⟩, hread, hstands⟩
  · rw [hf]
    exact ((eventsWhere_ordered _ _).sublist (List.take_sublist _ _)).sublist List.filter_sublist
  · intro x r hr ha hfirst hlast
    obtain ⟨z, hz, hzfirst⟩ := b.first_spec hne
    obtain ⟨w, hw, hwlast⟩ := b.last_spec hne
    have hz := hfire.mp (List.mem_of_head? hz)
    have hw := hfire.mp (List.mem_of_getLast? hw)
    rw [hzfirst] at hfirst
    rw [hwlast] at hlast
    have habove := hpage.above z.1 (List.mem_map_of_mem hz.1)
    unfold Batch.asks at ha
    rw [hrow] at ha
    obtain ⟨e, he, rfl⟩ := List.mem_map.mp (hpage.complete w.1 (List.mem_map_of_mem hw.1) x ⟨r, hr, ha⟩
      (Nat.lt_of_lt_of_le habove hfirst) hlast)
    have hsame : e.2 = r := by
      have hr' := (mem_pendingEvents he).1
      rw [hr] at hr'
      exact (Option.some.inj hr').symm
    have hnow : late debounced e = false := not_late_between hc he hz hw hfirst hlast
    exact ⟨e, hfire.mpr ⟨he, hnow⟩, rfl, by rw [hsame]⟩
  · intro _ _ e he
    exact ⟨e.2, hstands e he⟩

theorem serializeEvent_core {e e' : EventId × EventRow} (hid : e.1 = e'.1)
    (h : e.2.core = e'.2.core) : serializeEvent e = serializeEvent e' := by
  have hp : e.2.payload = e'.2.payload := congrArg (fun r => r.payload) h
  have hat : e.2.emittedAt = e'.2.emittedAt := congrArg (fun r => r.emittedAt) h
  unfold serializeEvent
  rw [hid, hp, hat]

/-- A new batch with the ends of an old one holds its events. -/
theorem Fetched.alike (hb' : Fetched t b') (hb : Carried t b) (hsub : b.sub = b'.sub)
    (hfirst : b.firstId = b'.firstId) (hlast : b.lastId = b'.lastId) :
    b.fire.map serializeEvent = b'.fire.map serializeEvent := by
  have hasks : ∀ r, b.asks r = b'.asks r := by
    obtain ⟨row, hr, hagent, htype⟩ := hb.row
    rw [hsub, hb'.read] at hr
    cases hr
    intro r
    unfold Batch.asks
    rw [hagent, htype]
  -- What stands between the ends is in both.
  have both {x : EventId} {r : EventRow} (hr : t.event x = some r) (ha : b.asks r = true)
      (hlow : b.firstId ≤ x) (hhigh : x ≤ b.lastId) :
      ∃ e ∈ b.fire, ∃ e' ∈ b'.fire, e.1 = x ∧ e'.1 = x ∧ serializeEvent e = serializeEvent e' := by
    obtain ⟨e, he, hx, hsame⟩ := hb.between x r hr ha hlow hhigh
    obtain ⟨e', he', hx', hsame'⟩ :=
      hb'.carried.between x r hr (hasks r ▸ ha) (hfirst ▸ hlow) (hlast ▸ hhigh)
    exact ⟨e, he, e', he', hx, hx',
      serializeEvent_core (hx.trans hx'.symm) (hsame.symm.trans hsame')⟩
  have asked {e' : EventId × EventRow} (he' : e' ∈ b'.fire) : Asked t b e'.1 := by
    obtain ⟨hs, ha⟩ := hb'.stands e' he'
    exact ⟨e'.2, hs, (hasks e'.2).trans ha⟩
  have ordered {b : Batch} (hb : Carried t b) :
      Ordered SerializedEvent.id (b.fire.map serializeEvent) := hb.ordered.map fun _ => rfl
  refine (ordered hb).ext (ordered hb'.carried) fun y => ?_
  simp only [List.mem_map]
  constructor
  · rintro ⟨e, he, rfl⟩
    obtain ⟨z, hz, hzfirst⟩ := b'.first_spec hb'.carried.nonempty
    obtain ⟨w, hw, hwlast⟩ := b'.last_spec hb'.carried.nonempty
    have hends := hb.ends he
    obtain ⟨r, hr, ha⟩ := hb.whole (hfirst.trans hzfirst ▸ asked (List.mem_of_head? hz))
      (hlast.trans hwlast ▸ asked (List.mem_of_getLast? hw)) e he
    obtain ⟨e₁, he₁, e', he', hx₁, -, hsame⟩ := both hr ha hends.1 hends.2
    rw [hb.ordered.eq_of_key he₁ he hx₁] at hsame
    exact ⟨e', he', hsame.symm⟩
  · rintro ⟨e', he', rfl⟩
    obtain ⟨r, hr, ha⟩ := asked he'
    have hends := hb'.carried.ends he'
    obtain ⟨e, he, e₁, he₁, -, hx₁, hsame⟩ :=
      both hr ha (hfirst ▸ hends.1) (hlast ▸ hends.2)
    rw [hb'.carried.ordered.eq_of_key he₁ he' hx₁] at hsame
    exact ⟨e, he, hsame⟩

/-! ## Runs -/

/-- Bodies of a subscription with one `delivery_id` hold the same events. -/
def Identified (text : SubscriptionId → String) (posted : List Batch) : Prop :=
  ∀ b ∈ posted, ∀ b' ∈ posted, b.sub = b'.sub →
    (buildWebhookBody text b).deliveryId = (buildWebhookBody text b').deliveryId →
    (buildWebhookBody text b).events = (buildWebhookBody text b').events

structure Mailing (text : SubscriptionId → String) (m : Mailed) : Prop where
  known : Known m.stream
  held : Held m.stream
  carried : ∀ b ∈ m.posted, Carried m.stream.tables b
  identified : Identified text m.posted

theorem Mailing.fetched (hm : Mailing text m) (hc : undisturbed m a = true)
    (h : step m.stream a = some s') (hb : b ∈ newlyPosted s' a) : Fetched m.stream.tables b := by
  cases a with
  | fetch p debounced =>
    cases step_cases h with
    | fetch _ _ y todo updates hcyc =>
      simp only [newlyPosted, setCycle_cycles, if_pos, Option.bind_some,
        Option.mem_toList] at hb
      simp only [undisturbed, hcyc] at hc
      exact .of_batchFor hm.known (hm.held.read p _ hcyc y (by simp [Cycle.unserved])) hc hb
  | _ => cases hb

theorem newlyPosted_tables (h : step s a = some s') (hb : b ∈ newlyPosted s' a) :
    s'.tables = s.tables := by
  cases a with
  | fetch p debounced =>
    cases step_cases h with
    | fetch _ _ y todo updates hcyc => rfl
  | _ => cases hb

theorem newlyPosted_eq {b b' : Batch} (hb : b ∈ newlyPosted s' a) (hb' : b' ∈ newlyPosted s' a) :
    b = b' := by
  cases a with
  | fetch p debounced =>
    simp only [newlyPosted, Option.mem_toList] at hb hb'
    exact Option.mem_unique hb hb'
  | _ => cases hb

theorem Mailing.after (hm : Mailing text m) (hc : undisturbed m a = true)
    (h : m.step a = some m') : Mailing text m' := by
  obtain ⟨s', hs, rfl⟩ := Option.map_eq_some_iff.mp h
  have hnew {b : Batch} (hb : b ∈ newlyPosted s' a) : Fetched m.stream.tables b := hm.fetched hc hs hb
  have alike {b b' : Batch} (hb : Carried m.stream.tables b) (hb' : b' ∈ newlyPosted s' a)
      (hsub : b.sub = b'.sub)
      (hid : (buildWebhookBody text b).deliveryId = (buildWebhookBody text b').deliveryId) :
      (buildWebhookBody text b).events = (buildWebhookBody text b').events := by
    unfold buildWebhookBody at hid
    dsimp only at hid
    rw [hsub] at hid
    obtain ⟨hfirst, hlast⟩ := deliveryId_ends hid
    exact (hnew hb').alike hb hsub hfirst hlast
  refine ⟨hm.known.after hs, hm.held.after hs, fun b hb => ?_, fun b hb b' hb' hsub hid => ?_⟩
  · rcases List.mem_append.mp hb with hb | hb
    · exact newlyPosted_tables hs hb ▸ (hnew hb).carried
    · exact (hm.carried b hb).after hm.held hb hc hs
  · rcases List.mem_append.mp hb with hb | hb <;> rcases List.mem_append.mp hb' with hb' | hb'
    · rw [newlyPosted_eq hb hb']
    · exact (alike (hm.carried b' hb') hb hsub.symm hid.symm).symm
    · exact alike (hm.carried b hb) hb' hsub hid
    · exact hm.identified b hb b' hb' hsub hid

/-- Along a run that puts off nothing between the events of a body, commits in order and cleans up
the oldest first, the `delivery_id` of a subscription's body tells its events. -/
theorem delivery_id_identifies (text : SubscriptionId → String) {as : List Action} {m : Mailed}
    (hr : Machine.run Mailed.step {} as = some m)
    (hc : Machine.along Mailed.step undisturbed {} as = true) :
    Identified text m.posted := by
  have hstart : Mailing text {} := by
    refine ⟨.start, .start, fun b hb => ?_, fun b hb => ?_⟩
    · cases hb
    · cases hb
  exact (Machine.invariant hstart (fun _ _ _ hm hc h => hm.after hc h) hr hc).identified

theorem delivery_id_identifies_retry : ∃ m,
    Machine.run Mailed.step {} (oneWaiting ++ cycleOf false 500 ++ cycleOf false 200) = some m ∧
      m.posted.map Batch.ids = [[1], [1]] ∧ Identified (fun _ => "1") m.posted := by
  have hrun : (Machine.run Mailed.step {}
      (oneWaiting ++ cycleOf false 500 ++ cycleOf false 200)).map (fun m => m.posted.map Batch.ids) =
        some [[1], [1]] := by
    decide +kernel
  obtain ⟨m, hm, hids⟩ := Option.map_eq_some_iff.mp hrun
  exact ⟨m, hm, hids, delivery_id_identifies _ hm (by decide +kernel)⟩

/-- Of three events the second has priority 4: it is put off, the POST of the others fails, and all
three are fired. -/
def putOffBetween : List Action :=
  [.subscribe 1 (webhookOf 7), .emit 1 (deliveredTo 7 1 3), .emit 1 (deliveredTo 7 2 4),
    .emit 1 (deliveredTo 7 3 3), .commit 1] ++ cycleOf true 500 ++ cycleOf false 200

theorem put_off_event_unnamed : ¬ ∀ (text : SubscriptionId → String) (as : List Action) (m : Mailed),
    Machine.run Mailed.step {} as = some m → Identified text m.posted := by
  intro hall
  have hrun : (Machine.run (Mailed.stepBy stepSorted) {} putOffBetween).map (fun m =>
      m.posted.map fun b => (b.sub, (buildWebhookBody (fun _ => "1") b).deliveryId, b.ids)) =
        some [(1, "dlv_1_1_3", [1, 2, 3]), (1, "dlv_1_1_3", [1, 3])] := by
    decide +kernel
  rw [stepSorted_eq] at hrun
  obtain ⟨m, hm, hposted⟩ := Option.map_eq_some_iff.mp hrun
  obtain ⟨later, rest, hlater, hpair, hrest⟩ := List.map_eq_cons_iff.mp hposted
  obtain ⟨earlier, _, hearlier, heq, -⟩ := List.map_eq_cons_iff.mp hrest
  rw [Prod.mk.injEq, Prod.mk.injEq] at hpair heq
  have hsame := hall (fun _ => "1") _ m hm later (by simp [hlater]) earlier
    (by simp [hlater, hearlier]) (hpair.1.trans heq.1.symm) (hpair.2.1.trans heq.2.1.symm)
  have hlen := congrArg List.length hsame
  have hids := congrArg List.length hpair.2.2
  have hids' := congrArg List.length heq.2.2
  simp only [buildWebhookBody, Batch.ids, List.length_map] at hlen hids hids'
  rw [hlen, hids'] at hids
  exact absurd hids (by decide)

end CueApi.Events
