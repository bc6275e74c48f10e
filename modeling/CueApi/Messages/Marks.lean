import CueApi.Messages.Lifecycle

/-! What the requests that mark a message may undo: `failed`, which the recipient's reads are to
leave, and the recipient's say over its inbox. `mark_read` and `mark_acked` ask only that the caller
is on one side of the message. -/

namespace CueApi.Messages

open Scheduler (Pid Time UserId)
open ReadCommitted Interleaving Trace Recorded

variable {env : MsgEnv} {t₀ : MsgTables} {h h' : MsgHistory} {ev : MsgEvent} {p : Pid} {m : MsgId}
variable {s s' : MsgSys} {time : Time} {ws : List MsgWrite} {user : UserId}

/-! ## Failed messages -/

/-- The UPDATEs that do not look at the state and would take a message out of `failed` into a state
that is still open. -/
def MsgUpdate.revives : MsgUpdate → Bool
  | .pushDelivered _ | .pushRetry | .markRead _ => true
  | _ => false

def MsgWrite.revives (t₀ : MsgTables) (h : MsgHistory) : MsgWrite → Bool
  | .updateMessages ms u => u.revives && ms.any fun m => stateAt t₀ h m = some .failed
  | _ => false

/-- No read and no late push outcome meets a failed message. -/
def keepsFailed (t₀ : MsgTables) (h : MsgHistory) (ev : MsgEvent) : Prop :=
  ∀ w ∈ ev.writes, w.revives t₀ h = false

instance : Decidable (keepsFailed t₀ h ev) :=
  inferInstanceAs (Decidable (∀ w ∈ ev.writes, w.revives t₀ h = false))

/-- The step lemma: out of `failed` there are the ack and the expiry. -/
theorem failed_step (ha : MsgAllowed env t₀ h ev) (hk : keepsFailed t₀ h ev)
    (hf : stateAt t₀ h m = some .failed) : stateAt t₀ (ev :: h) m = some .failed ∨
      stateAt t₀ (ev :: h) m = some .acked ∨ stateAt t₀ (ev :: h) m = some .expired := by
  cases state_moves ha m with
  | same hsame => exact .inl (hsame.trans hf)
  | created hnone hst =>
    rw [hnone] at hf
    cases hf
  | updated p time ws call ms u r hev hc hws hm hr hst hu =>
    subst hev
    have hfailed : r.deliveryState = .failed := by
      obtain ⟨r', hr', hst'⟩ := stateAt_eq_some.mp hf
      cases hr.symm.trans hr'
      exact hst'
    have hrev : u.revives = false := by
      have hw := hk _ hws
      simp only [MsgWrite.revives, Bool.and_eq_false_iff, List.any_eq_false, decide_eq_true_eq]
        at hw
      exact hw.resolve_right fun h => h m hm hf
    cases hu with
    | claim j now hm' hown hexp =>
      obtain ⟨task, payload⟩ := j
      rw [hfailed] at hexp
      cases task <;> cases hexp
    | pushDelivered j result now hm' hans hcat => cases hrev
    | pushRetry j result n url at' hm' hans hcat hlt hn hrow => cases hrev
    | pushFailed j result now hm' hans hcat hle => exact .inl hst
    | staleRetry staleSeconds now i hm' hok hlt hrow =>
      have hdel := hok.delivering
      obtain rfl : i.row = r := Option.some.inj ((hm' ▸ hok.row).symm.trans hr)
      rw [hfailed] at hdel
      cases hdel
    | staleFailed staleSeconds now i hm' hok hle => exact .inl hst
    | polled user q now hqueued hgate hle =>
      rw [hfailed] at hqueued
      cases hqueued
    | marked call user u seen h₀ hmark hown hsuf hseen =>
      cases hmark with
      | read user m text now st hopen hne => cases hrev
      | acked user m text now st hopen => exact .inr (.inl hst)
    | expire now hpast hle => exact .inr (.inr hst)

/-- Acked or expired between two points of a history. -/
def Finished (t₀ : MsgTables) (h h' : MsgHistory) (m : MsgId) : Prop :=
  ∃ h'', h <:+ h'' ∧ h'' <:+ h' ∧
    (stateAt t₀ h'' m = some .acked ∨ stateAt t₀ h'' m = some .expired)

/-- A failed message stays `failed` until it is acked or expires, in every run in which no
`mark_read` and no late push outcome meets it. -/
theorem failed_sticky (ht : t₀.Blank) (hr : MsgReachable env t₀ s)
    (hkeep : Along (keepsFailed t₀) s.shared.history) (hs : h <:+ h')
    (hs' : h' <:+ s.shared.history) (hf : stateAt t₀ h m = some .failed) :
    stateAt t₀ h' m = some .failed ∨ Finished t₀ h h' m := by
  have hal := ((hr.legal ht).and hkeep).suffix hs'
  refine Along.invariant_from (J := fun h' => stateAt t₀ h' m = some .failed ∨ Finished t₀ h h' m)
    (.inl hf) (fun h' ev hs _ ha ih => ?_) hs hal
  rcases ih with hf' | ⟨h'', hs₁, hs₂, hst⟩
  · rcases failed_step ha.1 ha.2 hf' with hst | hst
    · exact .inl hst
    · exact .inr ⟨ev :: h', hs.trans (List.suffix_cons _ _), List.suffix_refl _, hst⟩
  · exact .inr ⟨h'', hs₁, hs₂.trans (List.suffix_cons _ _), hst⟩

/-- A push that the endpoint refuses for good. -/
def refused : List MsgAction :=
  playMsgAll 1 (.sendMessage 1 hello) (stores 5 7) ++ playMsgAll 2 .dispatchOutbox (enqueues 7) ++
    playMsgAll 3 (.deliverMessage pushOfHello)
      (List.replicate 9 .go ++ [.push (.response 400 none)] ++ List.replicate 4 .go)

/-- The recipient polls its inbox afterwards. -/
def polled : List MsgAction :=
  playMsgAll 4 (.listInbox 2 { agent := .id 2 "agt_2" }) (List.replicate 8 .go)

theorem failed_sticky_polled : ∃ s s', MsgReachable oneUser twoUsers s ∧
    msgRun oneUser s polled = some s' ∧ stateIn s 5 = some .failed ∧
    (stateAt twoUsers s'.shared.history 5 = some .failed ∨
      Finished twoUsers s.shared.history s'.shared.history 5) := by
  obtain ⟨s, s', hr, hrun, hv⟩ := reachable_run_of_run refused polled
    (fun s s' => (stateIn s 5, decide (Along (keepsFailed twoUsers) s'.shared.history)))
    (v := (some .failed, true)) (by decide +kernel)
  obtain ⟨hst, hkeep⟩ := Prod.mk.inj hv
  refine ⟨s, s', hr, hrun, hst, failed_sticky blank_twoUsers (hr.run hrun)
    (of_decide_eq_true hkeep) (hr.history blank_twoUsers hrun) (List.suffix_refl _) ?_⟩
  rw [← hr.stateIn_eq blank_twoUsers]
  exact hst

/-- The recipient marks a failed message as read, and it is failed no longer. -/
theorem failed_then_read : ∃ s s', MsgReachable oneUser twoUsers s ∧ stateIn s 5 = some .failed ∧
    msgRun oneUser s (playMsgAll 4 (.markRead 2 5 "msg_5") (List.replicate 5 .go)) = some s' ∧
    stateIn s' 5 = some .read := by
  obtain ⟨s, s', hr, hrun, hv⟩ := reachable_run_of_run refused
    (playMsgAll 4 (.markRead 2 5 "msg_5") (List.replicate 5 .go))
    (fun s s' => (stateIn s 5, stateIn s' 5)) (v := (some .failed, some .read)) (by decide +kernel)
  obtain ⟨hst, hst'⟩ := Prod.mk.inj hv
  exact ⟨s, s', hr, hst, hrun, hst'⟩

/-! ## The recipient's inbox -/

/-- The owner of the agent that a message is for. -/
def recipientOwner (t : MsgTables) (m : MsgId) : Option UserId :=
  (t.message m).bind fun r => (t.agent r.toAgentId).map Agent.userId

/-- Who a request is authenticated as. -/
def MsgCall.caller : MsgCall → Option UserId
  | .listInbox user _ | .markRead user _ _ | .markAcked user _ _ | .sendMessage user _
  | .getMessage user _ _ | .updateAgent user _ _ | .softDeleteAgent user _
  | .pullEvents user _ _ _ _ => some user
  | _ => none

/-- The event takes a message out of the states that an inbox shows by default. -/
def LeavesInbox (t₀ : MsgTables) (h : MsgHistory) (ev : MsgEvent) (m : MsgId) : Prop :=
  (∃ st ∈ defaultStates, stateAt t₀ h m = some st) ∧
    ∀ st ∈ defaultStates, stateAt t₀ (ev :: h) m ≠ some st

/-- The event marks a message as read. -/
def MarkedRead (t₀ : MsgTables) (h : MsgHistory) (ev : MsgEvent) (m : MsgId) : Prop :=
  stateAt t₀ h m ≠ some .read ∧ stateAt t₀ (ev :: h) m = some .read

/-- The states in which a request to mark a message changes nothing. -/
def MsgCall.marksNothing : MsgCall → DeliveryState → Bool
  | .markRead _ _ _, st => st.terminal || st = .read
  | .markAcked _ _ _, st => st.terminal
  | _, _ => true

/-- A request of someone other than the recipient's owner finds nothing left to mark. -/
def othersMarkNothing (t₀ : MsgTables) (h : MsgHistory) : MsgEvent → Bool
  | .marked p (.admitted m) => (callOf p h).all fun call =>
      call.caller = recipientOwner (replayed t₀ h) m ||
        (stateAt t₀ h m).all fun st => call.marksNothing st
  | _ => true

theorem MarksMessage.not_nothing {call : MsgCall} {u : MsgUpdate} {st : DeliveryState}
    (hm : MarksMessage call user m u st) : call.marksNothing st = false ∧ call.caller = some user := by
  cases hm with
  | read user m text now st hopen hne => simp [MsgCall.marksNothing, MsgCall.caller, hopen, hne]
  | acked user m text now st hopen => simp [MsgCall.marksNothing, MsgCall.caller, hopen]

theorem recipientOwner_grows {t t' : MsgTables} (hg : t.Grows t')
    (howner : recipientOwner t m = some user) : recipientOwner t' m = some user := by
  obtain ⟨r, hr, ha⟩ := Option.bind_eq_some_iff.mp howner
  obtain ⟨agent, hagent, rfl⟩ := Option.map_eq_some_iff.mp ha
  obtain ⟨r', hr', hcore⟩ := hg.message hr
  obtain ⟨agent', hagent', hsame⟩ := hg.agent hagent
  have hto : r'.toAgentId = r.toAgentId :=
    (congrArg Message.toAgentId hcore : r'.core.toAgentId = r.core.toAgentId)
  refine Option.bind_eq_some_iff.mpr ⟨r', hr', ?_⟩
  rw [hto, hagent', Option.map_some, hsame]

/-- Who may be behind a message that leaves the inbox or is read: its recipient, or its age. -/
inductive RecipientMoves (t₀ : MsgTables) (h : MsgHistory) (ev : MsgEvent) (m : MsgId)
    (recipient : UserId) : Prop
  | requested (p : Pid) (time : Time) (ws : List MsgWrite) (call : MsgCall) :
      ev = .commit p time ws → callOf p h = some call → call.caller = some recipient →
      RecipientMoves t₀ h ev m recipient
  | expired (p : Pid) (time : Time) (ws : List MsgWrite) (r : Message) : ev = .commit p time ws →
      callOf p h = some (.expireOldMessages false) → (replayed t₀ h).message m = some r →
      r.expiresAt < time → RecipientMoves t₀ h ev m recipient

theorem recipientMoves_of_marked {recipient : UserId} {call : MsgCall} {u : MsgUpdate}
    {seen : Message} {h₀ : MsgHistory} (hl : MsgLegal env t₀ h)
    (hk : Along (fun h ev => othersMarkNothing t₀ h ev = true) h)
    (hmark : MarksMessage call user m u seen.deliveryState)
    (hown : own p h = [.marked p (.admitted m), .began p call])
    (hsuf : .marked p (.admitted m) :: h₀ <:+ h) (hseen : (replayed t₀ h₀).message m = some seen)
    (hr : recipientOwner (replayed t₀ h) m = some recipient) : call.caller = some recipient := by
  obtain ⟨hnot, huser⟩ := hmark.not_nothing
  obtain ⟨call₀, hc₀, hown₀, -⟩ := hl.at hsuf
  have hc : callOf p h = some call := by
    rw [← callOf_own, hown]
    simp [callOf]
  obtain rfl : call₀ = call :=
    Option.some.inj ((hl.callOf_suffix ((List.suffix_cons _ _).trans hsuf) hc₀).symm.trans hc)
  have hcond := hk.at hsuf
  simp only [othersMarkNothing, hc₀, Option.all_some, stateAt, hseen, Option.map_some, hnot,
    Bool.or_false, decide_eq_true_eq] at hcond
  have howner : recipientOwner (replayed t₀ h) m = some user :=
    recipientOwner_grows (.replayed_suffix ((List.suffix_cons _ _).trans hsuf))
      (hcond.symm.trans huser)
  rw [huser, ← howner, hr]

/-- A message leaves the states of its recipient's default inbox, or is marked as read, only by a
request of the recipient's owner or by its age, in every run in which the others find nothing left
to mark. -/
theorem recipient_controls (ht : t₀.Blank) (hr : MsgReachable env t₀ s)
    (hk : Along (fun h ev => othersMarkNothing t₀ h ev = true) s.shared.history)
    (hs : ev :: h <:+ s.shared.history) {recipient : UserId}
    (howner : recipientOwner (replayed t₀ h) m = some recipient)
    (hmove : LeavesInbox t₀ h ev m ∨ MarkedRead t₀ h ev m) :
    RecipientMoves t₀ h ev m recipient := by
  have hl := hr.legal ht
  cases state_moves (hl.at hs) m with
  | same hsame =>
    rcases hmove with ⟨⟨st, hst, hbefore⟩, hafter⟩ | ⟨hbefore, hafter⟩
    · exact absurd (hsame.trans hbefore) (hafter st hst)
    · exact absurd (hsame.symm.trans hafter) hbefore
  | created hnone hst =>
    rcases hmove with ⟨-, hafter⟩ | ⟨-, hafter⟩
    · exact absurd hst (hafter _ (by simp [defaultStates]))
    · rw [hst] at hafter
      cases hafter
  | updated p time ws call ms u r hev hc hws hm hrow hst hu =>
    -- the UPDATEs that push, recover and poll write states that the inbox shows, and none is `read`
    have shown : u.target ∈ defaultStates → u.target ≠ .read → RecipientMoves t₀ h ev m recipient := by
      intro hin hne
      rcases hmove with ⟨-, hafter⟩ | ⟨-, hafter⟩
      · exact absurd hst (hafter _ hin)
      · exact absurd (Option.some.inj (hst.symm.trans hafter)) hne
    cases hu with
    | claim j now hm' hown hexp =>
      exact shown (by simp [MsgUpdate.target, defaultStates]) (by simp [MsgUpdate.target])
    | pushDelivered j result now hm' hans hcat =>
      exact shown (by simp [MsgUpdate.target, defaultStates]) (by simp [MsgUpdate.target])
    | pushRetry j result n url at' hm' hans hcat hlt hn hrow' =>
      exact shown (by simp [MsgUpdate.target, defaultStates]) (by simp [MsgUpdate.target])
    | pushFailed j result now hm' hans hcat hle =>
      exact shown (by simp [MsgUpdate.target, defaultStates]) (by simp [MsgUpdate.target])
    | staleRetry staleSeconds now i hm' hok hlt hrow' =>
      exact shown (by simp [MsgUpdate.target, defaultStates]) (by simp [MsgUpdate.target])
    | staleFailed staleSeconds now i hm' hok hle =>
      exact shown (by simp [MsgUpdate.target, defaultStates]) (by simp [MsgUpdate.target])
    | polled user q now hqueued hgate hle =>
      exact shown (by simp [MsgUpdate.target, defaultStates]) (by simp [MsgUpdate.target])
    | marked call user u seen h₀ hmark hown hsuf hseen =>
      have hsh := (List.suffix_cons _ _).trans hs
      exact .requested p time ws call hev hc
        (recipientMoves_of_marked (hl.suffix hsh) (hk.suffix hsh) hmark hown hsuf hseen howner)
    | expire now hpast hle =>
      simp only [pastTtl, Bool.and_eq_true, decide_eq_true_eq] at hpast
      exact .expired p time ws r hev hc hrow (Int.lt_of_lt_of_le hpast.1 hle)

/-- The recipient's ack, up to its commit. -/
def ackWritten : List MsgAction :=
  playMsgAll 1 (.sendMessage 1 hello) (stores 5 7) ++
    playMsg 4 (.markAcked 2 5 "msg_5") (List.replicate 3 .go)

theorem step_of_length (hs : h <:+ h') (hlen : h'.length = h.length + 1) : ∃ ev, h' = ev :: h := by
  obtain ⟨pre, rfl⟩ := hs
  rw [List.length_append, Nat.add_comm] at hlen
  obtain ⟨ev, rfl⟩ := List.length_eq_one_iff.mp (Nat.add_left_cancel hlen)
  exact ⟨ev, rfl⟩

theorem recipient_controls_acked : ∃ s s' ev, MsgReachable oneUser twoUsers s ∧
    msgRun oneUser s [.advance 4 .go] = some s' ∧ s'.shared.history = ev :: s.shared.history ∧
    stateIn s' 5 = some .acked ∧ RecipientMoves twoUsers s.shared.history ev 5 2 := by
  obtain ⟨s, s', hr, hrun, hv⟩ := reachable_run_of_run ackWritten [.advance 4 .go]
    (fun s s' => ((stateIn s 5, stateIn s' 5, recipientOwner s.shared.tables 5),
      decide (s'.shared.history.length = s.shared.history.length + 1),
      decide (Along (fun h ev => othersMarkNothing twoUsers h ev = true) s'.shared.history)))
    (v := ((some .queued, some .acked, some 2), true, true)) (by decide +kernel)
  simp only [Prod.mk.injEq] at hv
  obtain ⟨⟨hst, hst', howner⟩, hlen, hk⟩ := hv
  obtain ⟨ev, hev⟩ := step_of_length (hr.history blank_twoUsers hrun) (of_decide_eq_true hlen)
  rw [hr.stateIn_eq blank_twoUsers] at hst
  rw [hr.tables_eq blank_twoUsers] at howner
  refine ⟨s, s', ev, hr, hrun, hev, hst', recipient_controls blank_twoUsers (hr.run hrun)
    (of_decide_eq_true hk) (by rw [hev]) howner (.inl ⟨?_, ?_⟩)⟩
  · exact ⟨.queued, by simp [defaultStates], hst⟩
  · rw [← hev, ← (hr.run hrun).stateIn_eq blank_twoUsers, hst']
    simp [defaultStates]

/-- The sender acks a message that the recipient has not seen. -/
theorem sender_acks : ∃ s s', MsgReachable oneUser twoUsers s ∧
    recipientOwner s.shared.tables 5 = some 2 ∧ stateIn s 5 = some .queued ∧
    msgRun oneUser s (playMsgAll 4 (.markAcked 1 5 "msg_5") (List.replicate 5 .go)) = some s' ∧
    stateIn s' 5 = some .acked := by
  obtain ⟨s, s', hr, hrun, hv⟩ := reachable_run_of_run
    (playMsgAll 1 (.sendMessage 1 hello) (stores 5 7))
    (playMsgAll 4 (.markAcked 1 5 "msg_5") (List.replicate 5 .go))
    (fun s s' => (recipientOwner s.shared.tables 5, stateIn s 5, stateIn s' 5))
    (v := (some 2, some .queued, some .acked)) (by decide +kernel)
  simp only [Prod.mk.injEq] at hv
  obtain ⟨howner, hst, hst'⟩ := hv
  exact ⟨s, s', hr, howner, hst, hrun, hst'⟩

end CueApi.Messages
