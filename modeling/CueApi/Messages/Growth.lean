import CueApi.Messages.History

/-! What survives every later event of messaging: rows are never removed, and they keep the columns
that no statement writes. -/

namespace CueApi.Messages

open Scheduler (UserId OutboxId)
open ReadCommitted Trace Recorded

/-! ## Fixed columns -/

/-- A message without the columns that some statement writes. -/
def Message.core (r : Message) : Message :=
  { r with
    deliveryState := .queued
    idempotencyKey := none
    deliveredAt := none
    readAt := none
    ackedAt := none
    failedAt := none
    deliveringStartedAt := none }

@[simp] theorem MsgUpdate.set_core (u : MsgUpdate) (r : Message) : (u.set r).core = r.core := by
  cases u <;> rfl

@[simp] theorem Message.freeKey_core (entries : List (UserId × String)) (r : Message) :
    (r.freeKey entries).core = r.core := by
  unfold Message.freeKey
  split <;> rfl

@[simp] theorem Message.freeKey_state (entries : List (UserId × String)) (r : Message) :
    (r.freeKey entries).deliveryState = r.deliveryState := by
  unfold Message.freeKey
  split <;> rfl

@[simp] theorem AgentUpdate.set_userId (u : AgentUpdate) (agent : Agent) :
    (u.set agent).userId = agent.userId := by
  cases u <;> rfl

/-- A later version of an outbox row. -/
structure MsgOutboxRow.Later (o o' : MsgOutboxRow) : Prop where
  taskType : o'.taskType = o.taskType
  payload : o'.payload = o.payload
  scheduledAt : o'.scheduledAt = o.scheduledAt
  dispatched : o.dispatched = true → o'.dispatched = true

theorem MsgOutboxRow.Later.refl (o : MsgOutboxRow) : o.Later o := ⟨rfl, rfl, rfl, id⟩

theorem MsgOutboxRow.Later.trans {a b c : MsgOutboxRow} (h : a.Later b) (h' : b.Later c) :
    a.Later c :=
  ⟨h'.taskType.trans h.taskType, h'.payload.trans h.payload, h'.scheduledAt.trans h.scheduledAt,
    fun hd => h'.dispatched (h.dispatched hd)⟩

/-- An event without its digest mark. -/
def EventRow.core (e : EventRow) : EventRow := { e with digestedAt := none }

/-! ## Tables only grow -/

/-- Every row of `t` is in `t'`, with its fixed columns. -/
structure MsgTables.Grows (t t' : MsgTables) : Prop where
  message : ∀ {m r}, t.message m = some r → ∃ r', t'.message m = some r' ∧ r'.core = r.core
  agent : ∀ {a x}, t.agent a = some x → ∃ x', t'.agent a = some x' ∧ x'.userId = x.userId
  outboxRow : ∀ {n o}, t.outboxRow n = some o → ∃ o', t'.outboxRow n = some o' ∧ o.Later o'
  event : ∀ {x e}, t.event x = some e → ∃ e', t'.event x = some e' ∧ e'.core = e.core

namespace MsgTables.Grows

variable {t t' : MsgTables}

theorem refl (t : MsgTables) : t.Grows t :=
  ⟨fun h => ⟨_, h, rfl⟩, fun h => ⟨_, h, rfl⟩, fun h => ⟨_, h, .refl _⟩, fun h => ⟨_, h, rfl⟩⟩

theorem trans {a b c : MsgTables} (h : a.Grows b) (h' : b.Grows c) : a.Grows c where
  message hm := by
    obtain ⟨r', hr', hf⟩ := h.message hm
    obtain ⟨r'', hr'', hf'⟩ := h'.message hr'
    exact ⟨r'', hr'', hf'.trans hf⟩
  agent ha := by
    obtain ⟨x', hx', hf⟩ := h.agent ha
    obtain ⟨x'', hx'', hf'⟩ := h'.agent hx'
    exact ⟨x'', hx'', hf'.trans hf⟩
  outboxRow ho := by
    obtain ⟨o', ho', hf⟩ := h.outboxRow ho
    obtain ⟨o'', ho'', hf'⟩ := h'.outboxRow ho'
    exact ⟨o'', ho'', hf.trans hf'⟩
  event he := by
    obtain ⟨e', he', hf⟩ := h.event he
    obtain ⟨e'', he'', hf'⟩ := h'.event he'
    exact ⟨e'', he'', hf'.trans hf⟩

theorem apply (w : MsgWrite) (t : MsgTables) : t.Grows (MsgTables.apply w t) where
  message {m r} hm := by
    rw [message_apply]
    cases w with
    | insertMessage m' row => exact ⟨r, by simp [hm], rfl⟩
    | updateMessages ms u =>
      by_cases h : m ∈ ms
      · exact ⟨u.set r, by simp [h, hm], u.set_core r⟩
      · exact ⟨r, by simp [h, hm], rfl⟩
    | freeKeys xs =>
      by_cases h : m ∈ xs.map Prod.fst
      · exact ⟨r.freeKey (xs.map Prod.snd), by simp only [if_pos h, hm, Option.map_some],
          r.freeKey_core _⟩
      · exact ⟨r, by simp only [if_neg h, hm], rfl⟩
    | _ => exact ⟨r, hm, rfl⟩
  agent {a x} ha := by
    rw [agent_apply]
    cases w with
    | bumpLastSeen a' now =>
      by_cases h : a = a'
      · exact ⟨{ x with lastSeenAt := some now }, by simp only [if_pos h, ha, Option.map_some], rfl⟩
      · exact ⟨x, by simp only [if_neg h, ha], rfl⟩
    | updateAgent a' u =>
      by_cases h : a = a'
      · exact ⟨u.set x, by simp only [if_pos h, ha, Option.map_some], u.set_userId x⟩
      · exact ⟨x, by simp only [if_neg h, ha], rfl⟩
    | _ => exact ⟨x, ha, rfl⟩
  outboxRow {n o} ho := by
    rw [outboxRow_apply]
    cases w with
    | insertOutbox n' row => exact ⟨o, by simp [ho], .refl o⟩
    | markDispatched n' =>
      by_cases h : n = n'
      · exact ⟨{ o with dispatched := true }, by simp only [if_pos h, ho, Option.map_some],
          ⟨rfl, rfl, rfl, fun _ => rfl⟩⟩
      · exact ⟨o, by simp only [if_neg h, ho], .refl o⟩
    | _ => exact ⟨o, ho, .refl o⟩
  event {x e} he := by
    rw [event_apply]
    cases w with
    | insertEvent x' row => exact ⟨e, by simp [he], rfl⟩
    | markDigested xs now =>
      by_cases h : x ∈ xs
      · exact ⟨{ e with digestedAt := some now }, by simp only [if_pos h, he, Option.map_some], rfl⟩
      · exact ⟨e, by simp only [if_neg h, he], rfl⟩
    | _ => exact ⟨e, he, rfl⟩

theorem applyAll (ws : List MsgWrite) (t : MsgTables) : t.Grows (msgSchema.applyAll ws t) := by
  induction ws with
  | nil => exact .refl t
  | cons w ws ih => exact ih.trans (.apply w _)

theorem replayed_suffix {t₀ : MsgTables} {h h' : MsgHistory} (hs : h <:+ h') :
    (replayed t₀ h).Grows (replayed t₀ h') := by
  obtain ⟨pre, rfl⟩ := hs
  induction pre with
  | nil => exact .refl _
  | cons ev pre ih => exact ih.trans (.applyAll ev.writes _)

theorem outboxRow_none (h : t.Grows t') {n : OutboxId} (hn : t'.outboxRow n = none) :
    t.outboxRow n = none := by
  cases ho : t.outboxRow n with
  | none => rfl
  | some o =>
    obtain ⟨o', ho', -⟩ := h.outboxRow ho
    rw [hn] at ho'
    cases ho'

end MsgTables.Grows

/-- A database before its first message; agents and subscriptions are any. -/
structure MsgTables.Blank (t : MsgTables) : Prop where
  message : ∀ m, t.message m = none
  outboxRow : ∀ n, t.outboxRow n = none
  event : ∀ x, t.event x = none

end CueApi.Messages
