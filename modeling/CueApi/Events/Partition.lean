import CueApi.Events.DigestProofs
import CueApi.Library.Batching
import Mathlib.Data.List.Dedup

/-! The partition of the low priority events among the digests: each in at most one, and
`digested_at` set on those that are listed. -/

namespace CueApi.Events

open Scheduler (Pid Time keysWhere rowsAt)
open Messages Batching

variable {s s' : Digests} {stream stream' : Stream} {p q : Pid} {x x' d : EventId}
variable {r r' row : EventRow} {m m' : MsgId} {t t' : MsgTables} {g : Group} {run : DigestRun}
variable {now began : Time} {done : List Group}

/-! ## Events and messages -/

/-- The messages that an event bundles. -/
def bundledIds (r : EventRow) : List MsgId :=
  match r.payload with
  | .delivered _ => []
  | .digest _ _ _ bundled => bundled.map BundledMessage.messageId

/-- The event is the `message.delivered` event of the message. -/
def delivers (r : EventRow) (m : MsgId) : Prop :=
  ∃ payload, r.payload = .delivered payload ∧ payload.messageId = m

/-- A `message.delivered` event of priority 1 or 2. -/
def lowPriority (r : EventRow) : Bool :=
  match r.payload with
  | .delivered payload => payload.priority = 1 || payload.priority = 2
  | .digest _ _ _ _ => false

/-- The digest `d` lists the event. -/
def Lists (t : MsgTables) (d : EventId) (r : EventRow) : Prop :=
  ∃ m rd, delivers r m ∧ t.event d = some rd ∧ m ∈ bundledIds rd

/-- An event of low priority is in at most one digest, and `digested_at` is set on the events that
are in one. -/
structure Partition (t : MsgTables) : Prop where
  once : ∀ x r, t.event x = some r → lowPriority r = true →
    ∀ d d', Lists t d r → Lists t d' r → d = d'
  marked : ∀ x r, t.event x = some r → (r.digestedAt.isSome = true ↔ ∃ d, Lists t d r)

/-- The message has a marked event. -/
def MarkedMessage (t : MsgTables) (m : MsgId) : Prop :=
  ∃ x r, t.event x = some r ∧ delivers r m ∧ r.digestedAt.isSome = true

def ListsMessage (t : MsgTables) (d : EventId) (m : MsgId) : Prop :=
  ∃ rd, t.event d = some rd ∧ m ∈ bundledIds rd

/-- The message has an event of low priority. -/
def LowMessage (t : MsgTables) (m : MsgId) : Prop :=
  ∃ x r, t.event x = some r ∧ delivers r m ∧ lowPriority r = true

theorem delivers_unique (h : delivers r m) (h' : delivers r m') : m = m' := by
  obtain ⟨payload, hp, rfl⟩ := h
  obtain ⟨payload', hp', rfl⟩ := h'
  rw [hp] at hp'
  cases hp'
  rfl

theorem delivers_congr (h : r'.payload = r.payload) : delivers r' m ↔ delivers r m := by
  unfold delivers
  rw [h]

theorem bundledIds_congr (h : r'.payload = r.payload) : bundledIds r' = bundledIds r := by
  unfold bundledIds
  rw [h]

theorem lowPriority_congr (h : r'.payload = r.payload) : lowPriority r' = lowPriority r := by
  unfold lowPriority
  rw [h]

theorem delivers_of_lowPriority (h : lowPriority r = true) : ∃ m, delivers r m := by
  unfold lowPriority at h
  split at h
  · rename_i payload hp
    exact ⟨payload.messageId, payload, hp, rfl⟩
  · cases h

theorem LowMessage.mono (hk : Kept t t') (h : LowMessage t m) : LowMessage t' m := by
  obtain ⟨x, r, hr, hm, hlow⟩ := h
  obtain ⟨r', hr', -, hp, -⟩ := hk x r hr
  exact ⟨x, r', hr', (delivers_congr hp).mpr hm, (lowPriority_congr hp).trans hlow⟩

theorem taken_mono (hk : Kept t t') {key : EventKey} (h : taken t key = true) :
    taken t' key = true := by
  obtain ⟨x, r, hr, hkey⟩ := taken_iff.mp h
  obtain ⟨r', hr', -, -, hk'⟩ := hk x r hr
  exact taken_iff.mpr ⟨x, r', hr', hk'.trans hkey⟩

/-! ## What the rows hold -/

structure Contents (stream : Stream) : Prop where
  keyed : Keyed stream
  key : ∀ x r m, InRow stream x r → delivers r m → r.idempotencyKey = .messageDelivered m
  unmarked : ∀ y ∈ stream.emitted, y.2.2.digestedAt = none
  marked : ∀ x r, stream.tables.event x = some r → r.digestedAt.isSome = true → ∃ m, delivers r m
  bundled : ∀ d rd, InRow stream d rd → ∀ m ∈ bundledIds rd, LowMessage stream.tables m

/-- A message has one event. -/
theorem Contents.event_unique (hs : Contents stream) (hr : stream.tables.event x = some r)
    (hm : delivers r m) (hr' : stream.tables.event x' = some r') (hm' : delivers r' m) :
    x = x' ∧ r = r' := by
  have hx : x = x' := hs.keyed.key x x' r r' (.inl hr) (.inl hr')
    ((hs.key x r m (.inl hr) hm).trans (hs.key x' r' m (.inl hr') hm').symm)
  subst hx
  rw [hr] at hr'
  exact ⟨rfl, Option.some.inj hr'⟩

/-- The partition of the events is one of their messages. -/
theorem Contents.partition_iff (hs : Contents stream) : Partition stream.tables ↔
    Exact (MarkedMessage stream.tables) (ListsMessage stream.tables) := by
  constructor
  · intro hp
    constructor
    · rintro m d d' ⟨rd, hrd, hm⟩ ⟨rd', hrd', hm'⟩
      obtain ⟨x, r, hr, hdel, hlow⟩ := hs.bundled d rd (.inl hrd) m hm
      exact hp.once x r hr hlow d d' ⟨m, rd, hdel, hrd, hm⟩ ⟨m, rd', hdel, hrd', hm'⟩
    · intro m
      constructor
      · rintro ⟨x, r, hr, hdel, hmark⟩
        obtain ⟨d, m', rd, hdel', hrd, hm⟩ := (hp.marked x r hr).mp hmark
        exact ⟨d, rd, hrd, delivers_unique hdel' hdel ▸ hm⟩
      · rintro ⟨d, rd, hrd, hm⟩
        obtain ⟨x, r, hr, hdel, -⟩ := hs.bundled d rd (.inl hrd) m hm
        exact ⟨x, r, hr, hdel, (hp.marked x r hr).mpr ⟨d, m, rd, hdel, hrd, hm⟩⟩
  · intro he
    constructor
    · rintro x r hr - d d' ⟨m, rd, hdel, hrd, hm⟩ ⟨m', rd', hdel', hrd', hm'⟩
      obtain rfl := delivers_unique hdel hdel'
      exact he.once m d d' ⟨rd, hrd, hm⟩ ⟨rd', hrd', hm'⟩
    · intro x r hr
      constructor
      · intro hmark
        obtain ⟨m, hdel⟩ := hs.marked x r hr hmark
        obtain ⟨d, rd, hrd, hm⟩ := (he.marked_iff m).mp ⟨x, r, hr, hdel, hmark⟩
        exact ⟨d, m, rd, hdel, hrd, hm⟩
      · rintro ⟨d, m, rd, hdel, hrd, hm⟩
        obtain ⟨x', r', hr', hdel', hmark⟩ := (he.marked_iff m).mpr ⟨d, rd, hrd, hm⟩
        rwa [(hs.event_unique hr hdel hr' hdel').2]

theorem Contents.emit (hs : Contents stream) (h : stream.emit p row = some stream')
    (hkey : ∀ m, delivers row m → row.idempotencyKey = .messageDelivered m)
    (hun : row.digestedAt = none) (hb : ∀ m ∈ bundledIds row, LowMessage stream.tables m) :
    Contents stream' where
  keyed := hs.keyed.emit h
  key x r m hr hm := by
    rcases hr.of_emit h with hr | ⟨-, rfl⟩
    · exact hs.key x r m hr hm
    · exact hkey m hm
  unmarked y hy := by
    rcases mem_emitted_emit h hy with hy | rfl
    · exact hs.unmarked y hy
    · exact hun
  marked x r hr := hs.marked x r (emit_tables h ▸ hr)
  bundled d rd hrd m hm := by
    rw [emit_tables h]
    rcases hrd.of_emit h with hrd | ⟨-, rfl⟩
    · exact hs.bundled d rd hrd m hm
    · exact hb m hm

theorem Contents.rollback (hs : Contents stream) (p : Pid) : Contents (stream.rollback p) where
  keyed := hs.keyed.rollback p
  key x r m hr := hs.key x r m hr.of_rollback
  unmarked y hy := hs.unmarked y (List.mem_of_mem_filter hy)
  marked := hs.marked
  bundled d rd hrd := hs.bundled d rd hrd.of_rollback

theorem Contents.commit (hs : Contents stream) (p : Pid) : Contents (stream.commit p) where
  keyed := hs.keyed.commit p
  key x r m hr := hs.key x r m hr.of_commit
  unmarked y hy := hs.unmarked y (List.mem_of_mem_filter hy)
  marked x r hr hmark := by
    rcases event_insertEvents hr with hr | hr
    · exact hs.marked x r hr hmark
    · rw [hs.unmarked _ (mem_pending.mp hr)] at hmark
      cases hmark
  bundled d rd hrd m hm := (hs.bundled d rd hrd.of_commit m hm).mono (kept_insertEvents _ _)

theorem Contents.markDigested (hs : Contents stream) {xs : List EventId} (now : Time)
    (hxs : ∀ x ∈ xs, ∀ r, stream.tables.event x = some r → ∃ m, delivers r m) :
    Contents { stream with tables := stream.tables.apply (.markDigested xs now) } := by
  have hrows {x : EventId} {r : EventRow}
      (hr : InRow { stream with tables := stream.tables.apply (.markDigested xs now) } x r) :
      ∃ r₀, InRow stream x r₀ ∧ r.payload = r₀.payload ∧ r.idempotencyKey = r₀.idempotencyKey := by
    rcases hr with hr | ⟨q, hq⟩
    · rcases event_markDigested hr with ⟨-, hr⟩ | ⟨-, r₀, hr₀, rfl⟩
      · exact ⟨r, .inl hr, rfl, rfl⟩
      · exact ⟨r₀, .inl hr₀, rfl, rfl⟩
    · exact ⟨r, .inr ⟨q, hq⟩, rfl, rfl⟩
  refine ⟨hs.keyed.markDigested xs now, fun x r m hr hm => ?_, hs.unmarked, fun x r hr hmark => ?_,
    fun d rd hrd m hm => ?_⟩
  · obtain ⟨r₀, hr₀, hp, hk⟩ := hrows hr
    rw [hk]
    exact hs.key x r₀ m hr₀ ((delivers_congr hp).mp hm)
  · rcases event_markDigested hr with ⟨-, hr⟩ | ⟨hx, r₀, hr₀, rfl⟩
    · exact hs.marked x r hr hmark
    · exact hxs x hx r₀ hr₀
  · obtain ⟨r₀, hr₀, hp, -⟩ := hrows hrd
    rw [bundledIds_congr hp] at hm
    exact (hs.bundled d r₀ hr₀ m hm).mono (kept_markDigested _ _ _)

/-! ## What the runs hold -/

/-- The groups whose digest the run has emitted. -/
def DigestRun.handled (run : DigestRun) : List Group := run.done ++ run.posted.toList

def DigestRun.groups (run : DigestRun) : List Group := run.handled ++ run.todo

/-- The events of a group stand, are of its recipient and of low priority. -/
def GroupOf (t : MsgTables) (g : Group) : Prop :=
  ∀ y ∈ g.2, ∃ r, t.event y.1 = some r ∧ r.recipientAgentId = g.1 ∧ r.payload = y.2.payload ∧
    lowPriority r = true

/-- A run with the rows that its transaction has not committed. -/
structure RunOf (t : MsgTables) (rows : List (EventId × EventRow)) (run : DigestRun) : Prop where
  groups : ∀ g ∈ run.groups, GroupOf t g
  apart : (run.groups.map Prod.fst).Nodup
  emitted : ∀ y ∈ rows, ∃ g ∈ run.handled, y.2 = digestOf run.now run.began g
  handled : ∀ g ∈ run.handled, taken t (digestKey g) = true ∨
    ∃ y ∈ rows, y.2 = digestOf run.now run.began g

/-- Who has no run sends messages. -/
structure Running (s : Digests) : Prop where
  contents : Contents s.stream
  run : ∀ p run, s.runs p = some run → RunOf s.tables (s.stream.pending p) run
  sender : ∀ p, s.runs p = none → ∀ y ∈ s.stream.pending p, bundledIds y.2 = []

theorem GroupOf.mono (hk : Kept t t') (h : GroupOf t g) : GroupOf t' g := by
  intro y hy
  obtain ⟨r, hr, ha, hp, hlow⟩ := h y hy
  obtain ⟨r', hr', ha', hp', -⟩ := hk y.1 r hr
  exact ⟨r', hr', ha'.trans ha, hp'.trans hp, (lowPriority_congr hp').trans hlow⟩

theorem RunOf.mono {rows : List (EventId × EventRow)} (hk : Kept t t') (h : RunOf t rows run) :
    RunOf t' rows run where
  groups g hg := (h.groups g hg).mono hk
  apart := h.apart
  emitted := h.emitted
  handled g hg := (h.handled g hg).imp_left (taken_mono hk)

/-- What a step of `p` leaves of the others: what they have open, and all rows. -/
structure Beside (p : Pid) (s s' : Digests) : Prop where
  contents : Contents s'.stream
  kept : Kept s.tables s'.tables
  runs : ∀ q, q ≠ p → s'.runs q = s.runs q
  pending : ∀ q, q ≠ p → s'.stream.pending q = s.stream.pending q

theorem Running.of_beside (hs : Running s) (hb : Beside p s s')
    (hrun : ∀ run, s'.runs p = some run → RunOf s'.tables (s'.stream.pending p) run)
    (hsend : s'.runs p = none → ∀ y ∈ s'.stream.pending p, bundledIds y.2 = []) : Running s' where
  contents := hb.contents
  run q run hq := by
    by_cases hqp : q = p
    · subst hqp
      exact hrun run hq
    · rw [hb.pending q hqp]
      exact (hs.run q run (hb.runs q hqp ▸ hq)).mono hb.kept
  sender q hq y hy := by
    by_cases hqp : q = p
    · subst hqp
      exact hsend hq y hy
    · exact hs.sender q (hb.runs q hqp ▸ hq) y (hb.pending q hqp ▸ hy)

/-- After a step of a run. -/
theorem Running.step_run (hs : Running s) (hb : Beside p s s') (hp : s'.runs p = some run)
    (hrun : RunOf s'.tables (s'.stream.pending p) run) : Running s' := by
  refine hs.of_beside hb (fun run' h => ?_) (fun h => ?_)
  · rw [hp] at h
    cases h
    exact hrun
  · rw [hp] at h
    cases h

/-- After a step of a sender, or the end of a run. -/
theorem Running.step_sender (hs : Running s) (hb : Beside p s s') (hp : s'.runs p = none)
    (hsend : ∀ y ∈ s'.stream.pending p, bundledIds y.2 = []) : Running s' := by
  refine hs.of_beside hb (fun run h => ?_) (fun _ => hsend)
  rw [hp] at h
  cases h

/-- The entries of a digest are the messages of its group. -/
theorem mem_bundledIds_digestOf :
    m ∈ bundledIds (digestOf now began g) ↔ ∃ y ∈ g.2, delivers y.2 m := by
  simp only [bundledIds, digestOf, List.mem_map, List.mem_filterMap]
  constructor
  · rintro ⟨entry, ⟨y, hy, hb⟩, rfl⟩
    refine ⟨y, hy, ?_⟩
    unfold bundle at hb
    split at hb
    · rename_i payload hp
      cases hb
      exact ⟨payload, hp, rfl⟩
    · cases hb
  · rintro ⟨y, hy, payload, hp, rfl⟩
    have hb : bundle y = some ⟨payload.messageId, payload.senderAgentId, payload.subject,
        payload.priority, y.2.emittedAt⟩ := by
      unfold bundle
      rw [hp]
    exact ⟨_, ⟨y, hy, hb⟩, rfl⟩

theorem GroupOf.lowMessage (h : GroupOf t g) (hm : m ∈ bundledIds (digestOf now began g)) :
    LowMessage t m := by
  obtain ⟨y, hy, hdel⟩ := mem_bundledIds_digestOf.mp hm
  obtain ⟨r, hr, -, hp, hlow⟩ := h y hy
  exact ⟨y.1, r, hr, (delivers_congr hp).mpr hdel, hlow⟩

theorem digestOf_key_inj {g' : Group} {now' began' : Time}
    (h : (digestOf now began g).idempotencyKey = (digestOf now' began' g').idempotencyKey) :
    g.1 = g'.1 := by
  injection h

/-- The SELECT of a run. -/
theorem groupOf_read {minBatch : Nat} (hg : g ∈ groupsToBundle minBatch t) : GroupOf t g := by
  have hg := (List.mem_filter.mp hg).1
  intro y hy
  obtain ⟨hr, hlow⟩ := mem_eventsWhere.mp (mem_groupedByRecipient hg y hy)
  obtain ⟨a, -, rfl⟩ := List.mem_map.mp hg
  simp only [Bool.and_eq_true] at hlow
  refine ⟨y.2, hr, of_decide_eq_true (List.mem_filter.mp hy).2, rfl, ?_⟩
  unfold lowPriority
  exact hlow.2

theorem groups_apart (minBatch : Nat) (t : MsgTables) :
    ((groupsToBundle minBatch t).map Prod.fst).Nodup := by
  have hn : ((groupedByRecipient (undigested t)).map Prod.fst).Nodup := by
    unfold groupedByRecipient
    rw [List.map_map]
    change (List.map id _).Nodup
    rw [List.map_id]
    exact (List.mergeSort_perm _ _).nodup_iff.mpr (List.nodup_dedup _)
  exact (List.filter_sublist.map Prod.fst).nodup hn

/-! ## Steps -/

variable {minBatch : Nat} {a : DigestAction}

/-- The UPSERT of a run adds the digest, or finds its key in the table: the keys of its other
digests are those of other recipients. -/
theorem RunOf.insert {todo : List Group}
    (h : RunOf stream.tables (stream.pending p) ⟨now, began, g :: todo, none, done⟩)
    (he : stream.emit p (digestOf now began g) = some stream') :
    RunOf stream'.tables (stream'.pending p) ⟨now, began, todo, some g, done⟩ := by
  have hgroups : DigestRun.groups ⟨now, began, todo, some g, done⟩ =
      DigestRun.groups ⟨now, began, g :: todo, none, done⟩ := by
    simp [DigestRun.groups, DigestRun.handled]
  have hdone {g' : Group} : g' ∈ DigestRun.handled ⟨now, began, g :: todo, none, done⟩ ↔
      g' ∈ done := by
    simp [DigestRun.handled]
  have hkept := kept_emit he
  constructor
  · intro g' hg'
    exact (h.groups g' (hgroups ▸ hg')).mono hkept
  · rw [hgroups]
    exact h.apart
  · intro y hy
    rcases mem_pending_emit he hy with hy | hrow
    · obtain ⟨g', hg', heq⟩ := h.emitted y hy
      exact ⟨g', List.mem_append_left _ (hdone.mp hg'), heq⟩
    · exact ⟨g, by simp [DigestRun.handled], hrow⟩
  · intro g' hg'
    rcases List.mem_append.mp hg' with hg' | hg'
    · refine (h.handled g' (hdone.mpr hg')).imp (taken_mono hkept) ?_
      rintro ⟨y, hy, heq⟩
      exact ⟨y, pending_emit_subset he hy, heq⟩
    · rw [Option.toList_some, List.mem_singleton] at hg'
      subst hg'
      rcases emit_outcome he with ⟨rfl, -⟩ | ⟨rfl, ⟨y, hy, hkey⟩ | htaken⟩
      · exact .inr ⟨(stream.nextId, _), mem_pending.mpr List.mem_cons_self, rfl⟩
      · obtain ⟨g', hg', heq⟩ := h.emitted y hy
        rw [heq] at hkey
        have hsame := digestOf_key_inj hkey
        have hn := h.apart
        simp only [DigestRun.groups, DigestRun.handled, Option.toList_none, List.append_nil,
          List.map_append, List.map_cons, List.nodup_append] at hn
        have hmem := List.mem_map_of_mem (f := Prod.fst) (hdone.mp hg')
        exact absurd hsame (hn.2.2 _ hmem _ List.mem_cons_self)
      · exact .inl htaken

theorem RunOf.mark {todo : List Group}
    (h : RunOf t (stream.pending p) ⟨now, began, todo, some g, done⟩) :
    RunOf t (stream.pending p) ⟨now, began, todo, none, done ++ [g]⟩ := by
  have hhandled : DigestRun.handled ⟨now, began, todo, none, done ++ [g]⟩ =
      DigestRun.handled ⟨now, began, todo, some g, done⟩ := by
    simp [DigestRun.handled]
  have hgroups : DigestRun.groups ⟨now, began, todo, none, done ++ [g]⟩ =
      DigestRun.groups ⟨now, began, todo, some g, done⟩ := by
    rw [DigestRun.groups, hhandled, DigestRun.groups]
  exact ⟨hgroups ▸ h.groups, hgroups ▸ h.apart, hhandled ▸ h.emitted, hhandled ▸ h.handled⟩

/-- The rows that a run marks are those of its groups. -/
theorem mem_markedIds {gs : List Group} : x ∈ markedIds gs ↔ ∃ g ∈ gs, ∃ y ∈ g.2, y.1 = x := by
  simp [markedIds]

/-- The state of the stream that a run leaves. -/
def finished (stream : Stream) (p : Pid) (done : List Group) (began : Time) : Stream :=
  { stream.commit p with
    tables := (stream.commit p).tables.apply (.markDigested (markedIds done) began) }

theorem kept_finished (stream : Stream) (p : Pid) (done : List Group) (began : Time) :
    Kept stream.tables (finished stream p done began).tables :=
  (kept_insertEvents _ _).trans (kept_markDigested _ _ _)

theorem Contents.finish (hs : Contents stream)
    (hg : ∀ g ∈ done, GroupOf stream.tables g) (p : Pid) (began : Time) :
    Contents (finished stream p done began) := by
  refine (hs.commit p).markDigested began fun x hx r hr => ?_
  obtain ⟨g, hgm, y, hy, rfl⟩ := mem_markedIds.mp hx
  obtain ⟨r', hr', -, -, hlow⟩ := hg g hgm y hy
  have hkept : (stream.commit p).tables.event y.1 = some r' := event_insertEvents_of hr'
  cases hr.symm.trans hkept
  exact delivers_of_lowPriority hlow

theorem Running.after (hs : Running s) (h : digestStep minBatch s a = some s') : Running s' := by
  cases digestStep_cases h with
  | send p recipient payload now stream hnone he =>
    have hkey (m : MsgId) (hm : delivers (deliveredRow recipient payload now) m) :
        (deliveredRow recipient payload now).idempotencyKey = .messageDelivered m := by
      obtain ⟨_, hp, rfl⟩ := hm
      cases hp
      rfl
    have hc := hs.contents.emit he hkey rfl fun m hm => (List.not_mem_nil hm).elim
    refine hs.step_sender (p := p) ⟨hc, kept_emit he, fun _ _ => rfl, fun _ => pending_emit he⟩
      hnone fun y hy => ?_
    rcases mem_pending_emit he hy with hy | hrow
    · exact hs.sender p hnone y hy
    · rw [hrow]
      rfl
  | commit p hnone =>
    refine hs.step_sender (p := p) ⟨hs.contents.commit p, kept_insertEvents _ _, fun _ _ => rfl,
      fun _ => pending_filter⟩ hnone fun y hy => ?_
    exact (not_mem_pending_rollback hy).elim
  | rollback p hnone =>
    refine hs.step_sender (p := p) ⟨hs.contents.rollback p, .refl _, fun _ _ => rfl,
      fun _ => pending_filter⟩ hnone fun y hy => ?_
    exact (not_mem_pending_rollback hy).elim
  | read p now began hnone hpending =>
    refine hs.step_run (p := p) ⟨hs.contents, .refl _, fun _ hq => if_neg hq, fun _ _ => rfl⟩
      (if_pos rfl) ⟨fun g hg => groupOf_read hg, groups_apart minBatch _, fun y hy => ?_,
        fun g hg => ?_⟩
    · change y ∈ s.stream.pending p at hy
      rw [hpending] at hy
      cases hy
    · cases hg
  | insert p now began g todo done stream hr he =>
    have hrun := hs.run p _ hr
    have hkey (m : MsgId) (hm : delivers (digestOf now began g) m) :
        (digestOf now began g).idempotencyKey = .messageDelivered m := by
      obtain ⟨_, hp, -⟩ := hm
      cases hp
    have hgroup := hrun.groups g (by simp [DigestRun.groups])
    have hc := hs.contents.emit he hkey rfl fun m => hgroup.lowMessage
    exact hs.step_run (p := p) ⟨hc, kept_emit he, fun _ hq => if_neg hq, fun _ => pending_emit he⟩
      (if_pos rfl) (hrun.insert he)
  | mark p now began g todo done hr =>
    exact hs.step_run (p := p) ⟨hs.contents, .refl _, fun _ hq => if_neg hq, fun _ _ => rfl⟩
      (if_pos rfl) (hs.run p _ hr).mark
  | finish p now began done hr =>
    have hrun := hs.run p _ hr
    have hgroups (g : Group) (hg : g ∈ done) : GroupOf s.tables g :=
      hrun.groups g (by simpa [DigestRun.groups, DigestRun.handled] using hg)
    refine hs.step_sender (p := p) ⟨hs.contents.finish hgroups p began,
      kept_finished s.stream p done began, fun _ hq => if_neg hq, fun _ => pending_filter⟩
      (if_pos rfl) fun y hy => ?_
    exact (not_mem_pending_rollback hy).elim
  | crash p run hr =>
    refine hs.step_sender (p := p) ⟨hs.contents.rollback p, .refl _, fun _ hq => if_neg hq,
      fun _ => pending_filter⟩ (if_pos rfl) fun y hy => ?_
    exact (not_mem_pending_rollback hy).elim

/-! ## The commit of a run -/

/-- The digest of a group, if its key was free, with the messages of the group. -/
def bundleOf (stream : Stream) (p : Pid) (now began : Time) (g : Group) :
    Option EventId × List MsgId :=
  (((stream.pending p).find? fun y => y.2 = digestOf now began g).map Prod.fst,
    bundledIds (digestOf now began g))

theorem bundleOf_pending (h : (bundleOf stream p now began g).1 = some d) :
    (p, d, digestOf now began g) ∈ stream.emitted := by
  obtain ⟨y, hy, rfl⟩ := Option.map_eq_some_iff.mp h
  have hrow : y.2 = digestOf now began g := by simpa using List.find?_some hy
  rw [← hrow]
  exact mem_pending.mp (List.mem_of_find?_eq_some hy)

theorem bundleOf_some (hs : Contents stream) (hd : (d, digestOf now began g) ∈ stream.pending p) :
    (bundleOf stream p now began g).1 = some d := by
  cases hf : (bundleOf stream p now began g).1 with
  | none =>
    rw [bundleOf, Option.map_eq_none_iff, List.find?_eq_none] at hf
    exact absurd (decide_eq_true rfl) (hf _ hd)
  | some e =>
    exact congrArg some (hs.keyed.key e d _ _ (.inr ⟨p, bundleOf_pending hf⟩)
      (.inr ⟨p, mem_pending.mp hd⟩) rfl)

theorem finished_event (h : (finished stream p done began).tables.event x = some r') :
    ∃ r, (stream.commit p).tables.event x = some r ∧ r'.payload = r.payload ∧
      (r'.digestedAt.isSome = true ↔ x ∈ markedIds done ∨ r.digestedAt.isSome = true) := by
  rcases event_markDigested h with ⟨hx, hr⟩ | ⟨hx, r, hr, rfl⟩
  · exact ⟨r', hr, rfl, by simp [hx]⟩
  · exact ⟨r, hr, rfl, by simp [hx]⟩

/-- The event is marked in the table. -/
def digested (t : MsgTables) (x : EventId) : Bool :=
  (t.event x).any fun r => r.digestedAt.isSome

/-- The events of the bundle are unmarked if its key is free, and marked if it is taken. -/
def whole (t : MsgTables) (g : Group) : Bool :=
  g.2.all fun y => digested t y.1 == taken t (digestKey g)

section Commit

variable (hs : Contents stream)
  (h : RunOf stream.tables (stream.pending p) ⟨now, began, [], none, done⟩)

include h

theorem RunOf.done_groups (hg : g ∈ done) : GroupOf stream.tables g :=
  h.groups g (by simpa [DigestRun.groups, DigestRun.handled] using hg)

include hs

/-- A group has a digest of its own exactly when its key is not in the table. -/
theorem bundleOf_none (hg : g ∈ done) :
    (bundleOf stream p now began g).1 = none ↔ taken stream.tables (digestKey g) = true := by
  constructor
  · intro hnone
    rcases h.handled g (by simpa [DigestRun.handled] using hg) with htaken | ⟨y, hy, heq⟩
    · exact htaken
    · have hrow : y.2 = digestOf now began g := heq
      have hmem : (y.1, digestOf now began g) ∈ stream.pending p := by
        rw [← hrow]
        exact hy
      exact absurd (hnone.symm.trans (bundleOf_some hs hmem)) (by simp)
  · intro htaken
    obtain ⟨x, r, hr, hkey⟩ := taken_iff.mp htaken
    cases hf : (bundleOf stream p now began g).1 with
    | none => rfl
    | some d =>
      have hmem := bundleOf_pending hf
      have hid : d = x := hs.keyed.key d x _ r (.inr ⟨p, hmem⟩) (.inl hr) hkey.symm
      exact absurd ((hid ▸ hr).symm.trans (hs.keyed.fresh _ hmem)) (by simp)

theorem filed_marks : MarkedMessage (finished stream p done began).tables m ↔
    MarkedMessage stream.tables m ∨ ∃ g ∈ done, m ∈ bundledIds (digestOf now began g) := by
  have hkept := kept_finished stream p done began
  constructor
  · rintro ⟨x, r', hr', hdel, hmark⟩
    obtain ⟨r, hr, hp, hiff⟩ := finished_event hr'
    have hdel := (delivers_congr hp).mp hdel
    rcases hiff.mp hmark with hx | hmark
    · obtain ⟨g, hg, y, hy, rfl⟩ := mem_markedIds.mp hx
      obtain ⟨r₀, hr₀, -, hp₀, -⟩ := h.done_groups hg y hy
      cases hr.symm.trans (event_insertEvents_of hr₀)
      exact .inr ⟨g, hg, mem_bundledIds_digestOf.mpr ⟨y, hy, (delivers_congr hp₀).mp hdel⟩⟩
    · rcases event_insertEvents hr with hr | hr
      · exact .inl ⟨x, r, hr, hdel, hmark⟩
      · rw [hs.unmarked _ (mem_pending.mp hr)] at hmark
        cases hmark
  · rintro (⟨x, r, hr, hdel, hmark⟩ | ⟨g, hg, hm⟩)
    · obtain ⟨r', hr', -, hp, -⟩ := hkept x r hr
      obtain ⟨r₀, hr₀, -, hiff⟩ := finished_event hr'
      cases hr₀.symm.trans (event_insertEvents_of hr)
      exact ⟨x, r', hr', (delivers_congr hp).mpr hdel, hiff.mpr (.inr hmark)⟩
    · obtain ⟨y, hy, hdel⟩ := mem_bundledIds_digestOf.mp hm
      obtain ⟨r, hr, -, hp₀, -⟩ := h.done_groups hg y hy
      obtain ⟨r', hr', -, hp, -⟩ := hkept y.1 r hr
      obtain ⟨r₀, -, -, hiff⟩ := finished_event hr'
      exact ⟨y.1, r', hr', (delivers_congr (hp.trans hp₀)).mpr hdel,
        hiff.mpr (.inl (mem_markedIds.mpr ⟨g, hg, y, hy, rfl⟩))⟩

theorem filed_entries : ListsMessage (finished stream p done began).tables d m ↔
    ListsMessage stream.tables d m ∨ ∃ g ∈ done, (bundleOf stream p now began g).1 = some d ∧
      m ∈ bundledIds (digestOf now began g) := by
  constructor
  · rintro ⟨rd', hrd', hm⟩
    obtain ⟨rd, hrd, hp, -⟩ := finished_event hrd'
    rw [bundledIds_congr hp] at hm
    rcases event_insertEvents hrd with hrd | hrd
    · exact .inl ⟨rd, hrd, hm⟩
    · obtain ⟨g, hg, hrow⟩ := h.emitted _ hrd
      dsimp only at hrow
      subst hrow
      exact .inr ⟨g, by simpa [DigestRun.handled] using hg, bundleOf_some hs hrd, hm⟩
  · rintro (⟨rd, hrd, hm⟩ | ⟨g, hg, hd, hm⟩)
    · obtain ⟨rd', hrd', -, hp, -⟩ := kept_finished stream p done began d rd hrd
      exact ⟨rd', hrd', bundledIds_congr hp ▸ hm⟩
    · have hcommitted := hs.keyed.committed (mem_pending.mpr (bundleOf_pending hd))
      obtain ⟨rd', hrd', -, hp, -⟩ := kept_markDigested _ (markedIds done) began d _ hcommitted
      exact ⟨rd', hrd', bundledIds_congr hp ▸ hm⟩

theorem filed_apart {g' : Group} (hg : g ∈ done) (hg' : g' ∈ done)
    (hm : m ∈ bundledIds (digestOf now began g)) (hm' : m ∈ bundledIds (digestOf now began g')) :
    g = g' := by
  obtain ⟨y, hy, hdel⟩ := mem_bundledIds_digestOf.mp hm
  obtain ⟨y', hy', hdel'⟩ := mem_bundledIds_digestOf.mp hm'
  obtain ⟨r, hr, ha, hp, -⟩ := h.done_groups hg y hy
  obtain ⟨r', hr', ha', hp', -⟩ := h.done_groups hg' y' hy'
  obtain ⟨-, rfl⟩ := hs.event_unique hr ((delivers_congr hp).mpr hdel) hr'
    ((delivers_congr hp').mpr hdel')
  have hn : (done.map Prod.fst).Nodup := by
    simpa [DigestRun.groups, DigestRun.handled] using h.apart
  exact List.inj_on_of_nodup_map hn hg hg' (ha.symm.trans ha')

/-- What a run commits files its bundles. -/
theorem filed : Filed (done.map (bundleOf stream p now began)) (MarkedMessage stream.tables)
    (ListsMessage stream.tables) (MarkedMessage (finished stream p done began).tables)
    (ListsMessage (finished stream p done began).tables) where
  marks m := by
    simp only [List.mem_map, exists_exists_and_eq_and]
    exact filed_marks hs h
  entries d m := by
    simp only [List.mem_map, exists_exists_and_eq_and]
    exact filed_entries hs h
  fresh b hb d hd m := by
    obtain ⟨g, hg, rfl⟩ := List.mem_map.mp hb
    rintro ⟨rd, hrd, -⟩
    exact absurd (hrd.symm.trans (hs.keyed.fresh _ (bundleOf_pending hd))) (by simp)
  apart b hb c hc m hm hm' := by
    obtain ⟨g, hg, rfl⟩ := List.mem_map.mp hb
    obtain ⟨g', hg', rfl⟩ := List.mem_map.mp hc
    rw [filed_apart hs h hg hg' hm hm']

theorem marked_iff_digested (hg : g ∈ done) {y : EventId × EventRow} (hy : y ∈ g.2)
    (hdel : delivers y.2 m) :
    MarkedMessage stream.tables m ↔ digested stream.tables y.1 = true := by
  obtain ⟨r, hr, -, hp, -⟩ := h.done_groups hg y hy
  have hdel := (delivers_congr hp).mpr hdel
  unfold digested
  rw [hr, Option.any_some]
  constructor
  · rintro ⟨x, r', hr', hdel', hmark⟩
    obtain ⟨-, rfl⟩ := hs.event_unique hr hdel hr' hdel'
    exact hmark
  · exact fun hmark => ⟨y.1, r, hr, hdel, hmark⟩

/-- Each bundle is whole: its key is free and its events are unmarked, or neither. -/
theorem whole_iff : (∀ b ∈ done.map (bundleOf stream p now began), ∀ m ∈ b.2,
      b.1 = none ↔ MarkedMessage stream.tables m) ↔
    done.all (whole stream.tables) = true := by
  simp only [List.mem_map, forall_exists_index, and_imp, forall_apply_eq_imp_iff₂, List.all_eq_true,
    whole, beq_iff_eq]
  constructor
  · intro hall g hg y hy
    obtain ⟨r, -, -, hp, hlow⟩ := h.done_groups hg y hy
    obtain ⟨m, hdel⟩ := delivers_of_lowPriority hlow
    have hdel := (delivers_congr hp).mp hdel
    have hm : m ∈ bundledIds (digestOf now began g) := mem_bundledIds_digestOf.mpr ⟨y, hy, hdel⟩
    rw [Bool.eq_iff_iff, ← marked_iff_digested hs h hg hy hdel, ← bundleOf_none hs h hg]
    exact (hall g hg m hm).symm
  · intro hall g hg m hm
    have hm : m ∈ bundledIds (digestOf now began g) := hm
    obtain ⟨y, hy, hdel⟩ := mem_bundledIds_digestOf.mp hm
    rw [bundleOf_none hs h hg, marked_iff_digested hs h hg hy hdel, hall g hg y hy]

end Commit

/-- A transaction that sends messages leaves the marks and the digests. -/
theorem exact_commit (hs : Contents stream)
    (hsend : ∀ y ∈ stream.pending p, bundledIds y.2 = [])
    (he : Exact (MarkedMessage stream.tables) (ListsMessage stream.tables)) :
    Exact (MarkedMessage (stream.commit p).tables) (ListsMessage (stream.commit p).tables) := by
  refine he.congr (fun m => ?_) (fun d m => ?_)
  · constructor
    · rintro ⟨x, r, hr, hdel, hmark⟩
      rcases event_insertEvents hr with hr | hr
      · exact ⟨x, r, hr, hdel, hmark⟩
      · rw [hs.unmarked _ (mem_pending.mp hr)] at hmark
        cases hmark
    · rintro ⟨x, r, hr, hdel, hmark⟩
      exact ⟨x, r, event_insertEvents_of hr, hdel, hmark⟩
  · constructor
    · rintro ⟨rd, hrd, hm⟩
      rcases event_insertEvents hrd with hrd | hrd
      · exact ⟨rd, hrd, hm⟩
      · rw [hsend _ hrd] at hm
        cases hm
    · rintro ⟨rd, hrd, hm⟩
      exact ⟨rd, event_insertEvents_of hrd, hm⟩

/-- Of each bundle that a run commits, the key is free and no event is marked, or the key is taken
and all are marked. -/
def bundlesWhole (s : Digests) : DigestAction → Bool
  | .finish p => (s.runs p).all fun run => run.done.all (whole s.tables)
  | _ => true

/-- A step keeps the partition exactly when the bundles that it commits are whole. -/
theorem Running.partition_step (hs : Running s) (hp : Partition s.tables)
    (h : digestStep minBatch s a = some s') :
    Partition s'.tables ↔ bundlesWhole s a = true := by
  have he := hs.contents.partition_iff.mp hp
  have hs' := hs.after h
  rw [hs'.contents.partition_iff]
  cases digestStep_cases h with
  | commit p hnone =>
    exact iff_of_true (exact_commit hs.contents (hs.sender p hnone) he) rfl
  | finish p now began done hr =>
    have hrun := hs.run p _ hr
    refine ((filed hs.contents hrun).exact_iff he).trans ((whole_iff hs.contents hrun).trans ?_)
    rw [bundlesWhole, hr, Option.all_some]
  | send p recipient payload now stream hnone hemit =>
    rcases emit_outcome hemit with ⟨rfl, -⟩ | ⟨rfl, -⟩
    · exact iff_of_true he rfl
    · exact iff_of_true he rfl
  | insert p now began g todo done stream hr hemit =>
    rcases emit_outcome hemit with ⟨rfl, -⟩ | ⟨rfl, -⟩
    · exact iff_of_true he rfl
    · exact iff_of_true he rfl
  | _ => exact iff_of_true he rfl

/-! ## Runs -/

/-- No event has been emitted. -/
def noDigests : Digests := {}

theorem not_inRow_start : ¬ InRow noDigests.stream x r := by
  rintro (hr | ⟨q, hq⟩)
  · cases hr
  · cases hq

theorem Contents.start : Contents noDigests.stream where
  keyed := {
    below := fun _ _ hr => (not_inRow_start hr).elim
    fresh := fun _ hy => (List.not_mem_nil hy).elim
    nodup := List.nodup_nil
    key := fun _ _ _ _ hr => (not_inRow_start hr).elim }
  key _ _ _ hr := (not_inRow_start hr).elim
  unmarked _ hy := (List.not_mem_nil hy).elim
  marked _ _ hr := by cases hr
  bundled _ _ hr := (not_inRow_start hr).elim

theorem Running.start : Running noDigests where
  contents := .start
  run p run hr := by cases hr
  sender p _ y hy := by cases hy

theorem partition_start : Partition noDigests.tables where
  once x r hr := by cases hr
  marked x r hr := by cases hr

/-- Every state of a run is partitioned exactly when every commit of `emit_digests` along it has
whole bundles only. -/
theorem digest_partition_iff {minBatch : Nat} {as : List DigestAction} {s : Digests}
    (hr : Machine.run (digestStep minBatch) noDigests as = some s) :
    (∀ bs s₁, bs <+: as → Machine.run (digestStep minBatch) noDigests bs = some s₁ →
      Partition s₁.tables) ↔
    Machine.along (digestStep minBatch) bundlesWhole noDigests as = true :=
  Machine.along_iff Running.start partition_start (fun _ _ _ hs h => hs.after h)
    (fun _ _ _ hs hp h => hs.partition_step hp h) hr

def lowPayload (m : MsgId) : DeliveredPayload := ⟨m, 9, 7, m, none, 1, none, none, .absent⟩

/-- Two replicas: an event is committed between their SELECTs. -/
def laterReads : List DigestAction :=
  [.send 1 7 (lowPayload 1) 0, .commit 1, .read 2 0 0, .send 1 7 (lowPayload 2) 0, .commit 1,
    .read 3 0 0]

/-- The statements of a run with one recipient. -/
def digestRun (p : Pid) : List DigestAction := [.insert p, .mark p, .finish p]

/-- The second of two overlapping runs finds the key taken, and is a no-op. -/
def sameReads : List DigestAction :=
  [.send 1 7 (lowPayload 1) 0, .commit 1, .read 2 0 0, .read 3 0 0] ++ digestRun 2 ++ digestRun 3

theorem partition_same_reads : ∃ s, Machine.run (digestStep 1) noDigests sameReads = some s ∧
    Partition s.tables := by
  have hrun : (Machine.run (digestStep 1) noDigests sameReads).isSome = true := by decide +kernel
  obtain ⟨s, hs⟩ := Option.isSome_iff_exists.mp hrun
  have hall := (digest_partition_iff hs).mpr (by decide +kernel)
  exact ⟨s, hs, hall sameReads s (List.prefix_refl _) hs⟩

/-- `undigested` with a sort that evaluates. -/
def undigestedSorted (t : MsgTables) : List (EventId × EventRow) :=
  (rowsAt t.events (keysWhere t.events fun _ r => r.digestedAt.isNone && match r.payload with
    | .delivered payload => payload.priority = 1 || payload.priority = 2
    | .digest _ _ _ _ => false)).insertionSort fun x y => x.1 ≤ y.1

theorem undigestedSorted_eq (t : MsgTables) : undigestedSorted t = undigested t :=
  (eventsWhere_insertionSort t _).symm

/-- `digestStep` with that sort in a SELECT. -/
def digestStepSorted (minBatch : Nat) (s : Digests) : DigestAction → Option Digests
  | .read p now began =>
      if (s.runs p).isNone && (s.stream.pending p).isEmpty then
        let groups := (groupedByRecipient (undigestedSorted s.tables)).filter fun g =>
          !decide (g.2.length < minBatch)
        some (s.setRun p (some { now, began, todo := groups }))
      else none
  | a => digestStep minBatch s a

theorem digestStepSorted_eq (minBatch : Nat) : digestStepSorted minBatch = digestStep minBatch := by
  funext s a
  cases a with
  | read p now began =>
    simp only [digestStepSorted, digestStep, groupsToBundle, undigestedSorted_eq]
  | _ => rfl

/-- The replica that read first bundles one event, and the other bundles it again. -/
theorem listed_twice : ¬ ∀ (minBatch : Nat) (as : List DigestAction) (s : Digests),
    Machine.run (digestStep minBatch) noDigests as = some s → Partition s.tables := by
  intro hall
  have hrun : ((Machine.run (digestStepSorted 1) noDigests
      (laterReads ++ digestRun 2 ++ digestRun 3)).any fun s =>
        ((s.tables.event 1).any fun r => r.payload = .delivered (lowPayload 1)) &&
          ((s.tables.event 3).any fun r => bundledIds r = [1]) &&
            ((s.tables.event 4).any fun r => bundledIds r = [1, 2])) = true := by
    decide +kernel
  rw [digestStepSorted_eq] at hrun
  obtain ⟨s, hs, hboth⟩ := (Option.any_eq_true _ _).mp hrun
  simp only [Bool.and_eq_true] at hboth
  obtain ⟨⟨hevent, hfirst⟩, hsecond⟩ := hboth
  obtain ⟨r, hr, hp⟩ := (Option.any_eq_true _ _).mp hevent
  obtain ⟨rd, hrd, hids⟩ := (Option.any_eq_true _ _).mp hfirst
  obtain ⟨rd', hrd', hids'⟩ := (Option.any_eq_true _ _).mp hsecond
  have hp : r.payload = .delivered (lowPayload 1) := of_decide_eq_true hp
  have hdel : delivers r 1 := ⟨_, hp, rfl⟩
  have hlow : lowPriority r = true := by
    rw [lowPriority, hp]
    rfl
  have hone : (3 : EventId) = 4 := (hall 1 _ s hs).once 1 r hr hlow 3 4
    ⟨1, rd, hdel, hrd, by rw [of_decide_eq_true hids]; decide⟩
    ⟨1, rd', hdel, hrd', by rw [of_decide_eq_true hids']; decide⟩
  exact absurd hone (by decide)

end CueApi.Events
