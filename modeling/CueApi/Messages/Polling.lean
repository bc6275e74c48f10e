import CueApi.Messages.InboxProofs

/-! What a poll of the inbox takes out of `queued`. The UPDATE of `list_inbox` and its SELECTs state
their conditions separately: the UPDATE has the recipient, the gate and the counterpart, but neither
`since` nor `thread_id`, and the states that the SELECTs ask for are those after it. -/

namespace CueApi.Messages

open Scheduler (Pid Time UserId ApiError keysWhere mem_keysWhere insertNew)
open ReadCommitted Interleaving Recorded

variable {env : MsgEnv} {p : Pid} {t : MsgTables} {w : MsgWorld} {user : UserId} {q : InboxQuery}
variable {nowGate updNow : Time}

/-! ## A poll as a function -/

/-- What the checks of a call find: the agent, the states and the counterpart. -/
structure Poll where
  agent : AgentId
  states : List DeliveryState
  counterpart : Option AgentId
  deriving DecidableEq

def counterpartOf (env : MsgEnv) (t : MsgTables) : Option Address →
    Except ApiError (Option AgentId)
  | none => .ok none
  | some addr => (resolveAddress env t addr).map some

def checkPoll (env : MsgEnv) (t : MsgTables) (user : UserId) (q : InboxQuery) :
    Except ApiError Poll := do
  let a ← getAgentOwned env user t q.agent
  let states ← parseStateFilter q.states
  let counterpart ← counterpartOf env t q.counterpart
  return ⟨a, states, counterpart⟩

namespace Poll

/-- The WHERE clause of the SELECTs. -/
def shows (poll : Poll) (q : InboxQuery) (nowGate : Time) (r : Message) : Bool :=
  inInbox q poll.agent poll.states poll.counterpart nowGate r

/-- The WHERE clause of the UPDATE. -/
def takes (poll : Poll) (updNow : Time) (r : Message) : Bool :=
  r.toAgentId = poll.agent && r.deliveryState = .queued && sendAtGate updNow r &&
    poll.counterpart.all fun c => r.fromAgentId = c

/-- The messages that a count of the SELECTs counts. -/
def counted (poll : Poll) (q : InboxQuery) (nowGate : Time) (t : MsgTables) : List MsgId :=
  keysWhere t.messages fun _ r => poll.shows q nowGate r

/-- The messages that the UPDATE takes. -/
def taken (poll : Poll) (updNow : Time) (t : MsgTables) : List MsgId :=
  keysWhere t.messages fun _ r => poll.takes updNow r

/-- The transaction of a call that is no count. -/
def writes (poll : Poll) (nowGate updNow : Time) (t : MsgTables) : List MsgWrite :=
  if .queued ∈ poll.states then
    .bumpLastSeen poll.agent updNow ::
      if (poll.taken updNow t).isEmpty then []
      else [.updateMessages (poll.taken updNow t) (.polled updNow)]
  else [.bumpLastSeen poll.agent nowGate]

/-- The reply of a call past its checks, and what it leaves. -/
def answer (poll : Poll) (q : InboxQuery) (nowGate updNow : Time) (t : MsgTables) :
    MsgReply × MsgTables :=
  if q.countOnly then (.count (poll.counted q nowGate t).length, t)
  else
    let t' := msgSchema.applyAll (poll.writes nowGate updNow t) t
    (.inbox (pageOf t'.messages (poll.shows q nowGate) q.limit q.offset)
      (poll.counted q nowGate t').length q.limit q.offset, t')

end Poll

/-- `list_inbox` on a database of its own, with the two readings of its clock. -/
def inboxPoll (env : MsgEnv) (t : MsgTables) (user : UserId) (q : InboxQuery)
    (nowGate updNow : Time) : MsgReply × MsgTables :=
  match checkPoll env t user q with
  | .error e => (.error e, t)
  | .ok poll => poll.answer q nowGate updNow t

/-! ## The program comes to it -/

/-- `p` has the database to itself, with the open writes `B`. -/
structure Sole (p : Pid) (B : List MsgWrite) (t : MsgTables) (w : MsgWorld) : Prop where
  free : ∀ k, w.store.Free p k
  buf : w.store.buf p = B
  tables : w.tables = t

/-- Between two steps of `p` only the clock moves. -/
def Ticks (p q : Pid) (w w' : MsgWorld) : Prop :=
  q = p → ∃ now, w.clock ≤ now ∧ w' = { w with clock := now }

abbrev RunsSole {α : Type} (p : Pid) (Q : α → MsgWorld → Prop) : MsgProgram α → MsgWorld → Prop :=
  Safe (fun _ => True) (Ticks p) p Q

section Rules

variable {α β : Type} {B : List MsgWrite} {Q : α → MsgWorld → Prop}

theorem Sole.view (hw : Sole p B t w) : w.view p = msgSchema.applyAll B t := by
  unfold World.view Store.view
  rw [hw.buf]
  exact congrArg _ hw.tables

theorem Sole.written (hw : Sole p B t w) {wr : MsgWrite} {s : Store msgSchema Pid}
    (hs : w.store.write p wr = some s) : Sole p (wr :: B) t { w with store := s } := by
  obtain ⟨ht, hb, hl, -⟩ := Store.write_eq hs
  refine ⟨fun k => ?_, ?_, ht.trans hw.tables⟩
  · simp only [Store.Free, hl]
    split
    · exact .inr rfl
    · exact hw.free k
  · rw [hb, Function.update_self, hw.buf]

theorem Sole.note (hw : Sole p B t w) (mark : MsgMark) : Sole p B t (note w p mark) :=
  ⟨hw.free, hw.buf, hw.tables⟩

/-- The rule of a statement. -/
theorem sole_step {act : MsgWorld → MsgAnswer → Option (β × MsgWorld)} {k : β → MsgProgram α}
    (hw : Sole p B t w)
    (h : ∀ w', Sole p B t w' → w.clock ≤ w'.clock → ∀ i r w'', act w' i = some (r, w'') →
      RunsSole p Q (k r) w'') : RunsSole p Q (Prog.step act >>= k) w := by
  refine Safe.step_bind fun w' hr _ i r w'' hs => ⟨trivial, fun q hq h => absurd h hq, ?_⟩
  obtain ⟨now, hle, rfl⟩ := hr rfl
  exact h { w with clock := now } ⟨hw.free, hw.buf, hw.tables⟩ hle i r w'' hs

theorem sole_clock {k : Time → MsgProgram α} (hw : Sole p B t w)
    (hk : ∀ w', Sole p B t w' → w.clock ≤ w'.clock → RunsSole p Q (k w'.clock) w') :
    RunsSole p Q (clock >>= k) w :=
  sole_step hw fun w' hw' hle i r w'' hs => by cases hs; exact hk w' hw' hle

theorem sole_select {f : MsgTables → β} {k : β → MsgProgram α} (hw : Sole p B t w)
    (hk : ∀ w', Sole p B t w' → w.clock ≤ w'.clock →
      RunsSole p Q (k (f (msgSchema.applyAll B t))) w') :
    RunsSole p Q (select p f >>= k) w := by
  refine sole_step hw fun w' hw' hle i r w'' hs => ?_
  cases hs
  rw [hw'.view]
  exact hk w' hw' hle

theorem sole_write {wr : MsgWrite} {k : Unit → MsgProgram α} (hw : Sole p B t w)
    (hk : ∀ w', Sole p (wr :: B) t w' → w.clock ≤ w'.clock → RunsSole p Q (k ()) w') :
    RunsSole p Q (Messages.write p wr >>= k) w := by
  refine sole_step hw fun w' hw' hle i r w'' hs => ?_
  obtain ⟨s, hst, heq⟩ := Option.map_eq_some_iff.mp hs
  cases heq
  exact hk _ (hw'.written hst) hle

theorem sole_commit {k : Unit → MsgProgram α} (hw : Sole p B t w)
    (hk : ∀ w', Sole p [] (msgSchema.applyAll B t) w' → w.clock ≤ w'.clock →
      RunsSole p Q (k ()) w') : RunsSole p Q (commit p >>= k) w := by
  refine sole_step hw fun w' hw' hle i r w'' hs => ?_
  cases hs
  refine hk _ ⟨fun k => ?_, Function.update_self p _ _, hw'.view⟩ hle
  rcases hw'.free k with hf | hf <;> simp [World.commit, Store.Free, Store.commit, hf]

/-- An UPDATE that matches nothing writes nothing. -/
theorem sole_updateMessagesWhere {wh : MsgId → Message → Bool} {u : MsgUpdate}
    {k : List MsgId → MsgProgram α} (hw : Sole p [] t w)
    (hk : ∀ w' B, B = (if (keysWhere t.messages wh).isEmpty then []
        else [.updateMessages (keysWhere t.messages wh) u]) → Sole p B t w' →
      w.clock ≤ w'.clock → RunsSole p Q (k (keysWhere t.messages wh)) w') :
    RunsSole p Q (updateMessagesWhere p wh u >>= k) w := by
  refine sole_step hw fun w' hw' hle i r w'' hs => ?_
  simp only [hw'.view] at hs
  change (if (keysWhere t.messages wh).isEmpty then _ else _) = some (r, w'') at hs
  split at hs
  · rename_i hempty
    cases hs
    have hnil := List.isEmpty_iff.mp hempty
    have h := hk (note w' p (.unmatched u)) [] (if_pos hempty).symm (hw'.note _) hle
    rwa [hnil] at h
  · rename_i hne
    obtain ⟨s, hst, heq⟩ := Option.map_eq_some_iff.mp hs
    cases heq
    exact hk _ _ (if_neg hne).symm (hw'.written hst) hle

theorem sole_resolveCounterpart {addr : Option Address}
    {k : Except ApiError (Option AgentId) → MsgProgram α} (hw : Sole p [] t w)
    (hk : ∀ w', Sole p [] t w' → w.clock ≤ w'.clock →
      RunsSole p Q (k (counterpartOf env t addr)) w') :
    RunsSole p Q (resolveCounterpart env p addr >>= k) w := by
  cases addr with
  | none => exact hk w hw (Int.le_refl _)
  | some addr =>
    change RunsSole p Q (select p (fun t => (resolveAddress env t addr).map some) >>= k) w
    exact sole_select hw hk

end Rules

/-- What is left to do after the checks. -/
theorem sole_polled (poll : Poll) (nowGate updNow : Time) {B : List MsgWrite} {now : Time}
    {Q : MsgReply → MsgWorld → Prop} (hw : Sole p B t w)
    (hB : poll.writes nowGate updNow t = .bumpLastSeen poll.agent now :: B)
    (hcount : q.countOnly = false)
    (hQ : ∀ w', w.clock ≤ w'.clock → w'.tables = (poll.answer q nowGate updNow t).2 →
      Q (poll.answer q nowGate updNow t).1 w') :
    RunsSole p Q (do
      write p (.bumpLastSeen poll.agent now)
      commit p
      let total ← select p fun t => (keysWhere t.messages fun _ r =>
        inInbox q poll.agent poll.states poll.counterpart nowGate r).length
      let rows ← select p fun t => pageOf t.messages
        (inInbox q poll.agent poll.states poll.counterpart nowGate) q.limit q.offset
      return .inbox rows total q.limit q.offset) w := by
  refine sole_write hw fun w₁ hw₁ hle₁ => ?_
  refine sole_commit hw₁ fun w₂ hw₂ hle₂ => ?_
  rw [← hB] at hw₂
  refine sole_select hw₂ fun w₃ hw₃ hle₃ => ?_
  refine sole_select hw₃ fun w₄ hw₄ hle₄ => ?_
  have hle := Int.le_trans hle₁ (Int.le_trans hle₂ (Int.le_trans hle₃ hle₄))
  have h := hQ w₄ hle (by simp only [Poll.answer, hcount]; exact hw₄.tables)
  simp only [Poll.answer, hcount, Bool.false_eq_true, if_false] at h
  exact h

/-- A call that has the database to itself does what `inboxPoll` says for two readings of the clock
between its start and its end. -/
theorem listInbox_eq_poll (hw : Sole p [] t w) :
    RunsSole p (fun reply w' => ∃ nowGate updNow, w.clock ≤ nowGate ∧ nowGate ≤ updNow ∧
      updNow ≤ w'.clock ∧ (reply, w'.tables) = inboxPoll env t user q nowGate updNow)
      (listInbox env p user q) w := by
  -- the calls that end before they have read the clock
  have early : ∀ {e : ApiError} {w' : MsgWorld}, w.clock ≤ w'.clock → Sole p [] t w' →
      checkPoll env t user q = .error e → ∃ nowGate updNow, w.clock ≤ nowGate ∧ nowGate ≤ updNow ∧
        updNow ≤ w'.clock ∧ (.error e, w'.tables) = inboxPoll env t user q nowGate updNow := by
    intro e w' hle hw' he
    exact ⟨w'.clock, w'.clock, hle, Int.le_refl _, Int.le_refl _, by
      simp only [inboxPoll, he, hw'.tables]⟩
  unfold listInbox
  refine sole_select hw fun w₁ hw₁ hle₁ => ?_
  rw [Schema.applyAll_nil]
  cases hagent : getAgentOwned env user t q.agent with
  | error e => exact early hle₁ hw₁ (by simp only [checkPoll, hagent]; rfl)
  | ok a =>
    dsimp only
    cases hstates : parseStateFilter q.states with
    | error e => exact early hle₁ hw₁ (by simp only [checkPoll, hagent, hstates]; rfl)
    | ok states =>
      dsimp only
      refine sole_resolveCounterpart hw₁ fun w₂ hw₂ hle₂ => ?_
      have hle := Int.le_trans hle₁ hle₂
      cases hcounterpart : counterpartOf env t q.counterpart with
      | error e => exact early hle hw₂ (by simp only [checkPoll, hagent, hstates, hcounterpart]; rfl)
      | ok counterpart =>
        have hpoll : checkPoll env t user q = .ok ⟨a, states, counterpart⟩ := by
          simp only [checkPoll, hagent, hstates, hcounterpart]
          rfl
        simp only [inboxPoll, hpoll]
        refine sole_clock hw₂ fun w₃ hw₃ hle₃ => ?_
        have hle := Int.le_trans hle hle₃
        by_cases hcount : q.countOnly
        · simp only [hcount, if_true]
          refine sole_select hw₃ fun w₄ hw₄ hle₄ => ?_
          exact ⟨w₃.clock, w₃.clock, hle, Int.le_refl _, hle₄, by
            simp only [Poll.answer, hcount, if_true, hw₄.tables]; rfl⟩
        simp only [hcount, Bool.false_eq_true, if_false]
        split
        · rename_i hqueued
          refine sole_clock hw₃ fun w₄ hw₄ hle₄ => ?_
          refine sole_updateMessagesWhere hw₄ fun w₅ B hB hw₅ hle₅ => ?_
          refine sole_polled ⟨a, states, counterpart⟩ w₃.clock w₄.clock hw₅ ?_ ?_ fun w₆ hle₆ ht => ?_
          · rw [hB, Poll.writes, if_pos hqueued]
            rfl
          · simpa using hcount
          · exact ⟨w₃.clock, w₄.clock, hle, hle₄, Int.le_trans hle₅ hle₆, by rw [ht]⟩
        · rename_i hqueued
          refine sole_polled ⟨a, states, counterpart⟩ w₃.clock w₃.clock hw₃ ?_ ?_ fun w₄ hle₄ ht => ?_
          · rw [Poll.writes, if_neg hqueued]
          · simpa using hcount
          · exact ⟨w₃.clock, w₃.clock, hle, Int.le_refl _, hle₄, by rw [ht]⟩

/-! ## What a poll moves -/

/-- The message goes from `queued` to `delivered`. -/
def Moves (t t' : MsgTables) (m : MsgId) : Prop :=
  (t.message m).map Message.deliveryState = some .queued ∧
    (t'.message m).map Message.deliveryState = some .delivered

/-- The filters of a call but for its states. -/
def Poll.passes (poll : Poll) (q : InboxQuery) (nowGate : Time) (r : Message) : Bool :=
  r.toAgentId = poll.agent && sendAtGate nowGate r &&
    (q.since.all fun since => decide (since < r.createdAt)) &&
    (q.threadId.all fun thread => r.threadId = thread) &&
    poll.counterpart.all fun c => r.fromAgentId = c

/-- A call moves only messages that pass its filters and that its total counts, and none when it
only counts. -/
structure Serves (env : MsgEnv) (t : MsgTables) (user : UserId) (q : InboxQuery) (nowGate : Time)
    (reply : MsgReply) (t' : MsgTables) : Prop where
  moved : ∀ m, Moves t t' m → ∃ poll r rows, checkPoll env t user q = .ok poll ∧
    t.message m = some r ∧ poll.passes q nowGate r = true ∧
    reply = .inbox rows (poll.counted q nowGate t').length q.limit q.offset ∧
    m ∈ poll.counted q nowGate t'
  countOnly : q.countOnly = true → ∀ m, t'.message m = t.message m

/-- Whatever the UPDATE of a call would take passes the filters that the UPDATE has not, and the
call asks for delivered messages. -/
def Narrow (env : MsgEnv) (t : MsgTables) (user : UserId) (q : InboxQuery)
    (nowGate updNow : Time) : Prop :=
  ∀ poll, checkPoll env t user q = .ok poll → q.countOnly = false → .queued ∈ poll.states →
    ∀ m r, t.message m = some r → poll.takes updNow r = true →
      .delivered ∈ poll.states ∧ sendAtGate nowGate r = true ∧
      (∀ since, q.since = some since → since < r.createdAt) ∧
      ∀ thread, q.threadId = some thread → r.threadId = thread

section Moved

variable {poll : Poll} {m : MsgId} {r : Message}

theorem mem_counted : m ∈ poll.counted q nowGate t ↔
    ∃ r, t.message m = some r ∧ poll.shows q nowGate r = true := mem_keysWhere _ _ _

end Moved

/-- Two messages of user 1 to agent 2, each its own thread. -/
def twoThreads : MsgTables where
  messages := insertNew (insertNew ∅ 5
    { userId := 1, fromAgentId := 1, toAgentId := 2, threadId := 5, body := "hi", createdAt := 0,
      expiresAt := 100 }) 6
    { userId := 1, fromAgentId := 1, toAgentId := 2, threadId := 6, body := "ho", createdAt := 0,
      expiresAt := 100 }
  agents := twoUsers.agents

end CueApi.Messages
