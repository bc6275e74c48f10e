import CueApi.Scheduler.History

/-! What survives every later event: rows are never removed, and the columns that
no statement writes keep their values. -/

namespace CueApi.Scheduler

open ReadCommitted Interleaving Trace

/-! ## Tables only grow -/

/-- The columns of an execution that no statement writes. -/
structure ExecFixed (r r' : Execution) : Prop where
  cueId : r'.cueId = r.cueId
  scheduledFor : r'.scheduledFor = r.scheduledFor
  triggeredBy : r'.triggeredBy = r.triggeredBy

theorem ExecFixed.refl (r : Execution) : ExecFixed r r := ⟨rfl, rfl, rfl⟩

theorem ExecFixed.trans {a b c : Execution} (h : ExecFixed a b) (h' : ExecFixed b c) :
    ExecFixed a c :=
  ⟨h'.cueId.trans h.cueId, h'.scheduledFor.trans h.scheduledFor,
    h'.triggeredBy.trans h.triggeredBy⟩

theorem ExecUpdate.set_fixed (u : ExecUpdate) (r : Execution) : ExecFixed r (u.set r) :=
  ⟨by simp, by simp, by simp⟩

def Execution.outcomeColumns (r : Execution) :
    Option Bool × Option String × Option String × Option Json × Option Time :=
  (r.outcomeSuccess, r.outcomeResult, r.outcomeError, r.outcomeMetadata, r.outcomeRecordedAt)

/-- Only an outcome writes the outcome columns. -/
theorem ExecUpdate.outcomeColumns_set {u : ExecUpdate} (r : Execution)
    (hne : ∀ transport mode body now, u ≠ .outcome transport mode body now) :
    (u.set r).outcomeColumns = r.outcomeColumns := by
  cases u <;> try rfl
  case outcome transport mode body now => exact absurd rfl (hne transport mode body now)

/-- The columns of an outbox row that no statement writes. -/
structure OutboxFixed (o o' : OutboxRow) : Prop where
  executionId : o'.executionId = o.executionId
  taskType : o'.taskType = o.taskType
  payload : o'.payload = o.payload

theorem OutboxFixed.refl (o : OutboxRow) : OutboxFixed o o := ⟨rfl, rfl, rfl⟩

theorem OutboxFixed.trans {a b c : OutboxRow} (h : OutboxFixed a b) (h' : OutboxFixed b c) :
    OutboxFixed a c :=
  ⟨h'.executionId.trans h.executionId, h'.taskType.trans h.taskType,
    h'.payload.trans h.payload⟩

theorem OutboxUpdate.set_fixed (u : OutboxUpdate) (o : OutboxRow) : OutboxFixed o (u.set o) := by
  cases u <;> exact ⟨rfl, rfl, rfl⟩

/-- Every row of `t` is in `t'`, with its fixed columns. -/
structure Tables.Grows (t t' : Tables) : Prop where
  execution : ∀ {e r}, t.execution e = some r → ∃ r', t'.execution e = some r' ∧ ExecFixed r r'
  cue : ∀ {c row}, t.cue c = some row → ∃ row', t'.cue c = some row' ∧ CueFixed row row'
  outboxRow : ∀ {n o}, t.outboxRow n = some o →
    ∃ o', t'.outboxRow n = some o' ∧ OutboxFixed o o'

namespace Tables.Grows

theorem refl (t : Tables) : t.Grows t :=
  ⟨fun h => ⟨_, h, .refl _⟩, fun h => ⟨_, h, .refl _⟩, fun h => ⟨_, h, .refl _⟩⟩

theorem trans {a b c : Tables} (h : a.Grows b) (h' : b.Grows c) : a.Grows c where
  execution he := by
    obtain ⟨r', he', hf⟩ := h.execution he
    obtain ⟨r'', he'', hf'⟩ := h'.execution he'
    exact ⟨r'', he'', hf.trans hf'⟩
  cue hc := by
    obtain ⟨row', hc', hf⟩ := h.cue hc
    obtain ⟨row'', hc'', hf'⟩ := h'.cue hc'
    exact ⟨row'', hc'', hf.trans hf'⟩
  outboxRow ho := by
    obtain ⟨o', ho', hf⟩ := h.outboxRow ho
    obtain ⟨o'', ho'', hf'⟩ := h'.outboxRow ho'
    exact ⟨o'', ho'', hf.trans hf'⟩

theorem apply (w : Write) (t : Tables) : t.Grows (Tables.apply w t) where
  execution {e r} he := by
    rw [execution_apply]
    cases w <;> simp only [he] <;> first | exact ⟨_, rfl, .refl _⟩ | skip
    case insertExecution e' row => exact ⟨r, by split <;> rfl, .refl r⟩
    case updateExecution e' u =>
      by_cases hee : e = e'
      · exact ⟨u.set r, by simp [hee], u.set_fixed r⟩
      · exact ⟨r, by simp [hee], .refl r⟩
  cue {c row} hc := by
    rw [cue_apply]
    cases w <;> simp only [hc] <;> first | exact ⟨_, rfl, .refl _⟩ | skip
    case insertCue c' row' => exact ⟨row, by split <;> rfl, .refl row⟩
    case updateCue c' u =>
      by_cases hcc : c = c'
      · exact ⟨u.set row, by simp [hcc], u.set_fixed row⟩
      · exact ⟨row, by simp [hcc], .refl row⟩
  outboxRow {n o} ho := by
    rw [outboxRow_apply]
    cases w <;> simp only [ho] <;> first | exact ⟨_, rfl, .refl _⟩ | skip
    case insertOutbox n' o' => exact ⟨o, by split <;> rfl, .refl o⟩
    case updateOutbox n' u =>
      by_cases hnn : n = n'
      · exact ⟨u.set o, by simp [hnn], u.set_fixed o⟩
      · exact ⟨o, by simp [hnn], .refl o⟩

theorem applyAll (ws : List Write) (t : Tables) : t.Grows (schema.applyAll ws t) := by
  induction ws with
  | nil => exact .refl t
  | cons w ws ih => exact ih.trans (.apply w _)

theorem replay_cons (ev : Event) (h : History) : (replay h).Grows (replay (ev :: h)) := by
  cases ev <;> first | exact .refl _ | skip
  case commit p time ws => exact .applyAll ws _

theorem replay_suffix {h h' : History} (hs : h <:+ h') : (replay h).Grows (replay h') := by
  obtain ⟨pre, rfl⟩ := hs
  induction pre with
  | nil => exact .refl _
  | cons ev pre ih => exact ih.trans (.replay_cons ev _)

theorem slotTaken {t t' : Tables} (h : t.Grows t') {c : CueId} {s : Time}
    (hs : t.SlotTaken c s) : t'.SlotTaken c s := by
  obtain ⟨e, r, he, rfl, rfl⟩ := hs
  obtain ⟨r', he', hf⟩ := h.execution he
  exact ⟨e, r', he', hf.cueId, hf.scheduledFor⟩

theorem transportOf {t t' : Tables} (h : t.Grows t') {c : CueId} {m : Transport}
    (hm : transportOf t c = some m) : transportOf t' c = some m := by
  obtain ⟨cue, hc, rfl⟩ := Option.map_eq_some_iff.mp hm
  obtain ⟨cue', hc', hf⟩ := h.cue hc
  simp [Scheduler.transportOf, hc', hf.callbackTransport]

theorem execution_none {t t' : Tables} (h : t.Grows t') {e : ExecId}
    (he : t'.execution e = none) : t.execution e = none := by
  cases hr : t.execution e with
  | none => rfl
  | some r =>
    obtain ⟨r', hr', -⟩ := h.execution hr
    rw [he] at hr'
    cases hr'

theorem outboxRow_none {t t' : Tables} (h : t.Grows t') {n : OutboxId}
    (hn : t'.outboxRow n = none) : t.outboxRow n = none := by
  cases ho : t.outboxRow n with
  | none => rfl
  | some o =>
    obtain ⟨o', ho', -⟩ := h.outboxRow ho
    rw [hn] at ho'
    cases ho'

theorem cue_none {t t' : Tables} (h : t.Grows t') {c : CueId} (hc : t'.cue c = none) :
    t.cue c = none := by
  cases ho : t.cue c with
  | none => rfl
  | some cue =>
    obtain ⟨cue', hc', -⟩ := h.cue ho
    rw [hc] at hc'
    cases hc'

end Tables.Grows

/-! ## The events of one process -/

theorem own_cons (p : Pid) (ev : Event) (h : History) :
    own p (ev :: h) = if ev.pid = some p then ev :: own p h else own p h := by
  by_cases hp : ev.pid = some p <;> simp [own, hp]

theorem own_cons_of_pid {p : Pid} {ev : Event} (hp : ev.pid = some p) (h : History) :
    own p (ev :: h) = ev :: own p h := by
  rw [own_cons, if_pos hp]

theorem own_cons_of_ne {p : Pid} {ev : Event} (hp : ev.pid ≠ some p) (h : History) :
    own p (ev :: h) = own p h := by
  rw [own_cons, if_neg hp]

theorem mem_own {p : Pid} {ev : Event} {h : History} (hp : ev.pid = some p) :
    ev ∈ own p h ↔ ev ∈ h := by
  simp [own, List.mem_filter, hp]

theorem callOf_own (p : Pid) (h : History) : callOf p (own p h) = callOf p h := by
  induction h with
  | nil => rfl
  | cons ev h ih =>
    by_cases hp : ev.pid = some p
    · rw [own_cons_of_pid hp]
      cases ev <;> simp_all [callOf, Event.pid]
    · rw [own_cons_of_ne hp, ih]
      cases ev <;> simp_all [callOf, Event.pid]

theorem callOf_cons_isSome {p : Pid} {h : History} (ev : Event) (hc : (callOf p h).isSome) :
    (callOf p (ev :: h)).isSome := by
  cases ev <;> simp only [callOf] <;> first | exact hc | skip
  case began q call => split <;> simp [hc]

theorem callOf_suffix_isSome {p : Pid} {h h' : History} (hs : h <:+ h')
    (hc : (callOf p h).isSome) : (callOf p h').isSome := by
  obtain ⟨pre, rfl⟩ := hs
  induction pre with
  | nil => exact hc
  | cons ev pre ih => exact callOf_cons_isSome ev ih

end CueApi.Scheduler
