import CueApi.Library.PyJson
import CueApi.Messages.Alone
import CueApi.Messages.Tasks

/-! `parse_retry_after` of `app/utils/retry_after.py` on the text of the header, and the retry branch
of `_route_attempt_outcome` for every such text. -/

namespace CueApi.Messages

open Scheduler (Pid Time OutboxId seconds)
open Interleaving ReadCommitted Prog
open PyJson (Text Unicode readInt asciiTables text)

/-! ## The header -/

section

variable (unicode : Unicode)

/-- `parse_retry_after`, where `int` raises `ValueError` on what `readInt` does not read. -/
def parseRetryAfterText (headerValue : Option Text) (ownMinSeconds : Nat) : Nat :=
  match headerValue with
  | none => ownMinSeconds
  | some value =>
      if value = [] then ownMinSeconds
      else
        let candidate := PyJson.strip unicode value
        if candidate = [] then ownMinSeconds
        else
          match readInt unicode candidate with
          | none => ownMinSeconds
          | some parsed => if parsed < 0 then ownMinSeconds else max ownMinSeconds parsed.toNat

/-- What the header is as an integer. -/
def retryAfterSeconds (headerValue : Option Text) : Option Int :=
  headerValue.bind fun value => readInt unicode (PyJson.strip unicode value)

variable {unicode}

/-- What is neither there nor an integer counts for nothing. -/
theorem parseRetryAfterText_eq (headerValue : Option Text) (ownMinSeconds : Nat) :
    parseRetryAfterText unicode headerValue ownMinSeconds =
      parseRetryAfter (retryAfterSeconds unicode headerValue) ownMinSeconds := by
  have hempty : readInt unicode [] = none := rfl
  cases headerValue with
  | none => rfl
  | some value =>
    simp only [parseRetryAfterText, retryAfterSeconds, Option.bind_some]
    by_cases hvalue : value = []
    · subst hvalue
      rfl
    · rw [if_neg hvalue]
      by_cases hcandidate : PyJson.strip unicode value = []
      · rw [if_pos hcandidate, hcandidate, hempty]
        rfl
      · rw [if_neg hcandidate]
        cases readInt unicode (PyJson.strip unicode value) <;> rfl

end

/-- No less than the server's own backoff, nor than a header that is not negative. -/
theorem le_parseRetryAfter (header : Option Int) (ownMinSeconds : Nat) :
    ownMinSeconds ≤ parseRetryAfter header ownMinSeconds ∧
      ∀ parsed ∈ header, 0 ≤ parsed → parsed.toNat ≤ parseRetryAfter header ownMinSeconds := by
  cases header with
  | none => exact ⟨Nat.le_refl _, nofun⟩
  | some parsed =>
    simp only [parseRetryAfter, Option.mem_some_iff, forall_eq']
    split
    · exact ⟨Nat.le_refl _, fun h => by omega⟩
    · exact ⟨Nat.le_max_left _ _, fun _ => Nat.le_max_right _ _⟩

/-! ## The retry branch -/

section

variable (unicode : Unicode) (header : Option Text) (attempt : Nat)

/-- One new outbox row for the next attempt, no earlier than the server's backoff and the header say,
and the message waits for it. -/
structure Rescheduled (m : MsgId) (toAgentId : AgentId) (webhookUrl : Option String) (now : Time)
    (t t' : MsgTables) (n : OutboxId) (scheduledAt : Time) : Prop where
  fresh : t.outboxRow n = none
  row : t'.outboxRow n = some
    ⟨.retryMessage, ⟨m, toAgentId, webhookUrl, some (attempt + 1)⟩, false, some scheduledAt⟩
  others : ∀ n', n' ≠ n → t'.outboxRow n' = t.outboxRow n'
  backoff : now + seconds (backoffSeconds attempt) ≤ scheduledAt
  header : ∀ parsed, retryAfterSeconds unicode header = some parsed → 0 ≤ parsed →
    now + seconds parsed.toNat ≤ scheduledAt
  waits : (t'.message m).map Message.deliveryState = some .retryReady

/-- What the worker makes of a retryable answer with this header. -/
def retryableResult : DeliveryAttemptResult := ⟨.retryable, retryAfterSeconds unicode header⟩

/-- The branch ends, and with the message rescheduled. -/
def Reschedules (p : Pid) (m : MsgId) (toAgentId : AgentId) (toAgent : Agent) (w : MsgWorld) : Prop :=
  (routeAttemptOutcome p m toAgentId toAgent attempt (retryableResult unicode header)).Surely False
    (fun _ w' => ∃ n scheduledAt, Rescheduled unicode header attempt m toAgentId toAgent.webhookUrl
      w.clock w.tables w'.tables n scheduledAt) w

variable {unicode header attempt} {p : Pid} {m : MsgId} {toAgentId : AgentId} {toAgent : Agent}
variable {w : MsgWorld} {msg : Message} {now scheduledAt : Time}

theorem rescheduled_of_writes {t : MsgTables} {n : OutboxId} {ms : List MsgId}
    (hat : plusSeconds now (parseRetryAfterText unicode header (backoffSeconds attempt)) =
      some scheduledAt)
    (hmsg : t.message m = some msg) (hn : t.outboxRow n = none) (hms : ∀ m', m' ∈ ms ↔ m' = m) :
    Rescheduled unicode header attempt m toAgentId toAgent.webhookUrl now t
      (msgSchema.applyAll [.updateMessages ms .pushRetry, .insertOutbox n ⟨.retryMessage,
        ⟨m, toAgentId, toAgent.webhookUrl, some (attempt + 1)⟩, false, some scheduledAt⟩] t)
      n scheduledAt := by
  obtain ⟨hle, hheader⟩ := le_parseRetryAfter (retryAfterSeconds unicode header) (backoffSeconds attempt)
  rw [← parseRetryAfterText_eq] at hle hheader
  have hafter {k : Nat} (hk : k ≤ parseRetryAfterText unicode header (backoffSeconds attempt)) :
      now + seconds k ≤ scheduledAt := by
    unfold plusSeconds at hat
    split at hat
    · cases hat
      have hmul : (k : Int) * 1000000 ≤
          parseRetryAfterText unicode header (backoffSeconds attempt) * 1000000 := by omega
      exact Int.add_le_add_left hmul now
    · cases hat
  refine ⟨hn, ?_, fun n' hn' => ?_, hafter hle, fun parsed hp hnonneg => ?_, ?_⟩
  · rw [Schema.applyAll_cons, Schema.applyAll_cons, Schema.applyAll_nil]
    simp [msgSchema, MsgTables.outboxRow_apply, hn]
  · rw [Schema.applyAll_cons, Schema.applyAll_cons, Schema.applyAll_nil]
    simp [msgSchema, MsgTables.outboxRow_apply, hn']
  · exact hafter (hheader parsed hp hnonneg)
  · rw [Schema.applyAll_cons, Schema.applyAll_cons, Schema.applyAll_nil]
    simp [msgSchema, MsgTables.message_apply, hmsg, hms, MsgUpdate.set]

/-- A retryable answer is rescheduled exactly when the time of the next attempt is a `datetime`. -/
theorem reschedules_iff (unicode : Unicode) (header : Option Text) (attempt : Nat) (p : Pid)
    (m : MsgId) (toAgentId : AgentId) (toAgent : Agent) (w : MsgWorld) (msg : Message)
    (halone : MsgAlone p [] w.tables w.clock w) (hmsg : w.tables.message m = some msg)
    (hbudget : attempt < messageRetryMaxAttempts + 1) :
    Reschedules unicode header attempt p m toAgentId toAgent w ↔
      (plusSeconds w.clock (parseRetryAfterText unicode header (backoffSeconds attempt))).isSome := by
  have hretry : Category.retryable = .retryable ∧ attempt < messageRetryMaxAttempts + 1 :=
    ⟨rfl, hbudget⟩
  unfold Reschedules routeAttemptOutcome retryableResult
  rw [surely_clock, if_neg nofun, if_pos hretry]
  simp only [← parseRetryAfterText_eq]
  cases hat : plusSeconds w.clock (parseRetryAfterText unicode header (backoffSeconds attempt)) with
  | none => exact iff_of_false id nofun
  | some scheduledAt =>
    refine iff_of_true ?_ rfl
    refine surely_insertOutbox halone fun w₁ n hn hw₁ => ?_
    refine surely_updateMessageById hw₁ (?_ : _ = some msg) fun w₂ ms hms hw₂ => ?_
    · rw [Schema.applyAll_cons, Schema.applyAll_nil]
      simpa [msgSchema, MsgTables.message_apply] using hmsg
    refine surely_commit hw₂ fun w₃ hw₃ => ?_
    refine ⟨n, scheduledAt, ?_⟩
    rw [hw₃.tables]
    exact rescheduled_of_writes hat hmsg hn hms

end

/-- A message of agent 1 to agent 2, as the job that pushes it finds it. -/
def delivering : MsgTables where
  messages := Scheduler.insertNew ∅ 3
    { userId := 1, fromAgentId := 1, toAgentId := 2, threadId := 3, body := "hello", createdAt := 0,
      deliveryState := .delivering, expiresAt := seconds 2592000 }

/-- The world of a job that runs alone at the time 0. -/
def deliveringWorld : MsgWorld :=
  ⟨Store.start msgSchema Pid delivering, ⟨fun _ => 0, 0⟩, 0, []⟩

theorem alone_deliveringWorld (p : Pid) : MsgAlone p [] delivering 0 deliveringWorld :=
  ⟨fun _ => .inl rfl, rfl, rfl, rfl⟩

/-- Two minutes, in digits with a space before them. -/
theorem reschedules_iff_two_minutes :
    Reschedules asciiTables (some (text " 120")) 1 5 3 2
      { userId := 2, slug := "b", webhookUrl := some "https://b.example" } deliveringWorld :=
  (reschedules_iff asciiTables (some (text " 120")) 1 5 3 2 _ deliveringWorld _
    (alone_deliveringWorld 5) rfl (by decide)).mpr (by decide +kernel)

/-- The header is a number of seconds past the year 9999. -/
theorem not_reschedules_far : ¬ ∀ (unicode : Unicode) (header : Option Text) (attempt : Nat) (p : Pid)
    (m : MsgId) (toAgentId : AgentId) (toAgent : Agent) (w : MsgWorld) (msg : Message),
    MsgAlone p [] w.tables w.clock w → w.tables.message m = some msg →
      attempt < messageRetryMaxAttempts + 1 →
        Reschedules unicode header attempt p m toAgentId toAgent w := by
  intro h
  let toAgent : Agent := { userId := 2, slug := "b", webhookUrl := some "https://b.example" }
  have hrescheduled := h asciiTables (some (text "999999999999")) 1 5 3 2 toAgent deliveringWorld _
    (alone_deliveringWorld 5) rfl (by decide)
  have hfailed : ((routeAttemptOutcome 5 3 2 toAgent 1
      (retryableResult asciiTables (some (text "999999999999")))).follow deliveringWorld [.go]).any
        (fun x => x.1.failed) = true := rfl
  exact not_surely_of_follow hfailed hrescheduled

end CueApi.Messages
