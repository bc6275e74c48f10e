import CueApi.Messages.PushProofs

/-! The recipient's requests, the expiry sweep and the poller keep to the transactions of
`MsgCommits`. -/

namespace CueApi.Messages

open Scheduler (Pid Time UserId OutboxId seconds Table keysWhere mem_keysWhere rowsAt mem_rowsAt)
open ReadCommitted Interleaving Trace Recorded

variable {env : MsgEnv} {t₀ : MsgTables} {p : Pid} {B : List MsgWrite} {E : MsgHistory}
variable {w w' : MsgWorld} {call : MsgCall}

theorem began_justified {reply : MsgReply} (hp : call.plain reply = true)
    (hw : At p B [.began p call] w) : MsgJustified env t₀ p reply w :=
  msgJustified_plain hp hw (MsgJob.callOf_began p call)

/-- An UPDATE that a call other than a job issues may match nothing. -/
theorem allowed_unmatched {u : MsgUpdate} (hw : At p B E w) (hc : callOf p E = some call)
    (hj : call.job = none) : MsgAllowed env t₀ w.history (.marked p (.unmatched u)) := by
  refine ⟨call, by rw [hw.callOf_eq, hc], fun j hj' => ?_⟩
  rw [MsgCall.job_eq_some.mpr hj'] at hj
  cases hj

/-! ## The inbox -/

theorem mem_pageOf {t : Table MsgId Message} {wh : Message → Bool} {limit offset : Nat}
    {x : MsgId × Message} (hx : x ∈ pageOf t wh limit offset) :
    t.lookup x.1 = some x.2 ∧ wh x.2 = true := by
  have hx := List.mem_of_mem_drop (List.mem_of_mem_take hx)
  obtain ⟨hid, hrow⟩ := mem_rowsAt ((List.mergeSort_perm _ _).mem_iff.mp hx)
  obtain ⟨r, hr, hwh⟩ := (mem_keysWhere _ _ _).mp hid
  rw [hrow] at hr
  cases hr
  exact ⟨hrow, hwh⟩

/-- The commit of a poll, the bump of the agent and the page. -/
theorem runs_polled {user : UserId} {q : InboxQuery} (a : AgentId) (ms : List MsgId)
    {now nowGate : Time} {f : MsgTables → Nat} {wh : Message → Bool}
    (hgate : ∀ r, wh r = true → sendAtGate nowGate r = true) (hnow : nowGate ≤ w.clock)
    (hB : B = if ms.isEmpty then [] else [.updateMessages ms (.polled now)])
    (hw : At p B E w) (hc : callOf p E = some (.listInbox user q)) (hi : MsgInv env t₀ w)
    (hms : ∀ m ∈ ms, ∃ r, (replayed t₀ w.history).message m = some r ∧
      r.deliveryState = .queued ∧ r.toAgentId = a ∧ sendAtGate now r = true)
    (hle : now ≤ w.clock) :
    MsgRuns env t₀ p (MsgJustified env t₀ p) (do
      write p (.bumpLastSeen a now)
      commit p
      let total ← select p f
      let rows ← select p fun t => pageOf t.messages wh q.limit q.offset
      return .inbox rows total q.limit q.offset) w := by
  have hmem : ms ≠ [] → .updateMessages ms (.polled now) ∈ B := by
    intro hne
    rw [hB, if_neg (by simpa using hne)]
    exact List.mem_cons_self
  refine runs_write hw fun w₁ hl₁ hw₁ hi₁ => ?_
  refine runs_commit hw₁ fun w₂ hl₂ hw₂ hi₂ => ⟨⟨.listInbox user q, ?_, ?_⟩, fun w₃ _ hw₃ _ => ?_⟩
  · exact hw₂.callOf_eq.trans hc
  · rw [hB]
    refine .polled user q a ms now (fun m hm => ?_) (Int.le_trans hle (hl₁.trans hl₂).clock)
    obtain ⟨r, hr, hrest⟩ := hms m hm
    exact ⟨r, (message_frozen (hl₁.trans hl₂) hw (hmem (List.ne_nil_of_mem hm)) hm hi hi₂).trans hr,
      hrest⟩
  · refine runs_select hw₃ fun w₄ _ hw₄ _ => runs_select hw₄ fun w₅ _ hw₅ _ => ?_
    refine msgJustified_of (.listInbox user q) hw₅ hc ?_
    refine ⟨w₂.clock, nowGate, _, w₅.history, mem_of_own_eq hw₅.own List.mem_cons_self,
      Int.le_trans hnow (hl₁.trans hl₂).clock, List.suffix_refl _, fun x hx => ?_⟩
    obtain ⟨hrow, hwh⟩ := mem_pageOf hx
    exact ⟨hrow, hgate _ hwh⟩

theorem runs_resolveCounterpart {addr : Option Address} (hw : At p B E w) :
    MsgRuns env t₀ p (fun _ w' => At p B E w') (resolveCounterpart env p addr) w := by
  cases addr with
  | none => exact hw
  | some addr =>
    change MsgRuns env t₀ p (fun _ w' => At p B E w')
      (select p (fun t => (resolveAddress env t addr).map some) >>= Prog.ret) w
    exact runs_select hw fun w₁ _ hw₁ _ => hw₁

theorem runs_listInbox {user : UserId} {q : InboxQuery}
    (hw : At p [] [.began p (.listInbox user q)] w) :
    MsgRuns env t₀ p (MsgJustified env t₀ p) (listInbox env p user q) w := by
  have hc : callOf p ([.began p (.listInbox user q)] : MsgHistory) = some (.listInbox user q) :=
    MsgJob.callOf_began p _
  refine runs_select hw fun w₁ _ hw₁ _ => ?_
  split
  · exact began_justified rfl hw₁
  rename_i a _
  split
  · exact began_justified rfl hw₁
  rename_i states _
  refine Safe.bind (runs_resolveCounterpart hw₁) fun counterpart? w₂ hw₂ => ?_
  split
  · exact began_justified rfl hw₂
  rename_i counterpart
  refine runs_clock hw₂ fun w₃ _ hw₃ hi₃ => ?_
  have hgate : ∀ r, inInbox q a states counterpart w₃.clock r = true →
      sendAtGate w₃.clock r = true := by
    intro r hr
    simp only [inInbox, Bool.and_eq_true] at hr
    exact hr.1.1.1.2
  dsimp only
  split
  · exact runs_select hw₃ fun w₄ _ hw₄ _ => began_justified rfl hw₄
  split
  · refine runs_clock hw₃ fun w₄ hl₄ hw₄ _ => ?_
    refine runs_updateMessagesWhere hw₄ (fun w₅ ms hl₅ hw₅ hi₅ hne _ hms => ?_)
      fun w₅ _ hw₅ _ _ => ⟨allowed_unmatched hw₅ hc rfl, fun w₆ hl₆ hw₆ hi₆ => ?_⟩
    · refine runs_polled a ms hgate (hl₄.trans hl₅).clock (if_neg (by simpa using hne)).symm hw₅ hc hi₅
        (fun m hm => ?_) hl₅.clock
      obtain ⟨r, hr, hwh⟩ := (hms m).mp hm
      simp only [Bool.and_eq_true, decide_eq_true_eq] at hwh
      exact ⟨r, hr, hwh.1.1.2, hwh.1.1.1, hwh.1.2⟩
    · exact runs_polled a [] hgate (hl₄.trans hl₆).clock rfl hw₆ hc hi₆ (by simp)
        hl₆.clock
  · exact runs_polled a [] hgate (Int.le_refl _) rfl hw₃ hc hi₃ (by simp)
      (Int.le_refl _)

/-! ## Reading and acknowledging -/

theorem messageForUser_eq {t : MsgTables} {user : UserId} {m : MsgId} {msg : Message}
    (h : messageForUser t user m = some msg) : t.message m = some msg := by
  obtain ⟨r, hr, h⟩ := Option.bind_eq_some_iff.mp h
  obtain ⟨agent, -, h⟩ := Option.bind_eq_some_iff.mp h
  split at h
  · cases h
    exact hr
  · cases h

theorem runs_getMessage {user : UserId} {m : MsgId} {text : String}
    (hw : At p [] [.began p (.getMessage user m text)] w) :
    MsgRuns env t₀ p (MsgJustified env t₀ p) (getMessage p user m text) w := by
  refine runs_selectMessageForUser hw (fun w₁ msg hw₁ _ hmsg => ⟨?_, fun w₂ _ hw₂ _ => ?_⟩)
    fun w₁ hw₁ _ => began_justified rfl hw₁
  · exact ⟨.getMessage user m text, by rw [hw₁.callOf_eq]; exact MsgJob.callOf_began p _, hw₁.own,
      user, .get user m text, msg, hmsg⟩
  · exact msgJustified_plain rfl hw₂ (MsgJob.callOf_began p (.getMessage user m text))

/-- The flush of a mark and its commit. -/
theorem runs_flushMessage {user : UserId} {m : MsgId} {u : MsgUpdate} {msg : Message}
    {h₀ : MsgHistory} (hp : ∀ row, call.plain (.message row) = true) (hmark : MarksMessage call user m u msg.deliveryState)
    (hw : At p [] [.marked p (.admitted m), .began p call] w)
    (hsuf : .marked p (.admitted m) :: h₀ <:+ w.history)
    (hmsg : (replayed t₀ h₀).message m = some msg) :
    MsgRuns env t₀ p (MsgJustified env t₀ p) (flushMessage p m u) w := by
  have hc : callOf p ([.marked p (.admitted m), .began p call] : MsgHistory) = some call :=
    MsgJob.callOf_began p call
  have hrow : ∃ r, (replayed t₀ w.history).message m = some r := by
    obtain ⟨r, hr, -⟩ := (MsgTables.Grows.replayed_suffix
      ((List.suffix_cons _ _).trans hsuf)).message hmsg
    exact ⟨r, hr⟩
  refine runs_updateMessageById hw hrow fun w₁ r hl₁ hw₁ hi₁ hr => ?_
  rw [if_neg (by simp)]
  refine runs_commit hw₁ fun w₂ hl₂ hw₂ hi₂ => ⟨⟨call, ?_, ?_⟩, fun w₃ _ hw₃ _ => ?_⟩
  · rw [hw₂.callOf_eq, hc]
  · obtain ⟨r₂, hr₂, -⟩ := (grows_of_later hl₂).message hr
    exact .marked call user m u msg h₀ r₂ hmark hw₂.own (hsuf.trans (hl₁.trans hl₂).history) hmsg hr₂
  · refine runs_select hw₃ fun w₄ _ hw₄ _ => ?_
    split
    · trivial
    · exact msgJustified_plain (hp _) hw₄ hc

theorem runs_markRead {user : UserId} {m : MsgId} {text : String}
    (hw : At p [] [.began p (.markRead user m text)] w) :
    MsgRuns env t₀ p (MsgJustified env t₀ p) (markRead p user m text) w := by
  refine runs_selectMessageForUser hw (fun w₁ msg hw₁ _ hmsg => ⟨?_, fun w₂ hh₂ hw₂ _ => ?_⟩)
    fun w₁ hw₁ _ => began_justified rfl hw₁
  · exact ⟨.markRead user m text, by rw [hw₁.callOf_eq]; exact MsgJob.callOf_began p _, hw₁.own,
      user, .read user m text, msg, hmsg⟩
  have hc : callOf p ([.marked p (.admitted m), .began p (.markRead user m text)] : MsgHistory) =
      some (.markRead user m text) := MsgJob.callOf_began p _
  simp only
  split
  · exact msgJustified_plain rfl hw₂ hc
  split
  · exact msgJustified_plain rfl hw₂ hc
  rename_i hopen hread
  refine runs_clock hw₂ fun w₃ hl₃ hw₃ _ => ?_
  refine runs_flushMessage (fun _ => rfl) (.read user m text _ _ ?_ hread) hw₃ ?_ (messageForUser_eq hmsg)
  · simpa [DeliveryState.terminal] using hopen
  · rw [← hh₂]
    exact hl₃.history

theorem runs_markAcked {user : UserId} {m : MsgId} {text : String}
    (hw : At p [] [.began p (.markAcked user m text)] w) :
    MsgRuns env t₀ p (MsgJustified env t₀ p) (markAcked p user m text) w := by
  refine runs_selectMessageForUser hw (fun w₁ msg hw₁ _ hmsg => ⟨?_, fun w₂ hh₂ hw₂ _ => ?_⟩)
    fun w₁ hw₁ _ => began_justified rfl hw₁
  · exact ⟨.markAcked user m text, by rw [hw₁.callOf_eq]; exact MsgJob.callOf_began p _, hw₁.own,
      user, .acked user m text, msg, hmsg⟩
  have hc : callOf p ([.marked p (.admitted m), .began p (.markAcked user m text)] : MsgHistory) =
      some (.markAcked user m text) := MsgJob.callOf_began p _
  simp only
  split
  · exact msgJustified_plain rfl hw₂ hc
  split
  · exact msgJustified_plain rfl hw₂ hc
  rename_i hacked hexpired
  refine runs_clock hw₂ fun w₃ hl₃ hw₃ _ => ?_
  refine runs_flushMessage (fun _ => rfl) (.acked user m text _ _ ?_) hw₃ ?_ (messageForUser_eq hmsg)
  · simp [DeliveryState.terminal, hacked, hexpired]
  · rw [← hh₂]
    exact hl₃.history

/-! ## Expiry -/

theorem runs_expireOldMessages {dryRun : Bool}
    (hw : At p [] [.began p (.expireOldMessages dryRun)] w) :
    MsgRuns env t₀ p (MsgJustified env t₀ p) (expireOldMessages p dryRun) w := by
  refine runs_clock hw fun w₁ _ hw₁ _ => runs_select hw₁ fun w₂ hl₂ hw₂ _ => ?_
  split
  · exact began_justified rfl hw₂
  rename_i hdry
  obtain rfl : dryRun = false := by simpa using hdry
  have hc : callOf p ([.began p (.expireOldMessages false)] : MsgHistory) =
      some (.expireOldMessages false) := MsgJob.callOf_began p _
  refine runs_updateMessagesWhere hw₂ (fun w₃ ms hl₃ hw₃ hi₃ hne _ hms => ?_)
    fun w₃ _ hw₃ _ _ => ⟨allowed_unmatched hw₃ hc rfl, fun w₄ hl₄ hw₄ hi₄ => ?_⟩
  · refine runs_commit hw₃ fun w₄ hl₄ hw₄ hi₄ => ⟨⟨_, hw₄.callOf_eq.trans hc, ?_⟩,
      fun w₅ _ hw₅ _ => msgJustified_plain rfl hw₅ hc⟩
    have hcm : MsgCommits env t₀ w₄.history p w₄.clock (.expireOldMessages false)
        (if ms.isEmpty then [] else [.updateMessages ms .expire]) := by
      refine .expired ms w₁.clock (fun m hm => ?_)
        (Int.le_trans hl₂.clock (Int.le_trans hl₃.clock hl₄.clock))
      obtain ⟨r, hr, hwh⟩ := (hms m).mp hm
      exact ⟨r, (message_frozen hl₄ hw₃ (List.mem_cons_self ..) hm hi₃ hi₄).trans hr, hwh⟩
    rwa [if_neg (by simpa using hne)] at hcm
  · exact runs_commit hw₄ fun w₅ hl₅ hw₅ _ => ⟨⟨_, hw₅.callOf_eq.trans hc,
      .expired [] w₁.clock (by simp) (Int.le_trans hl₂.clock (Int.le_trans hl₄.clock hl₅.clock))⟩,
      fun w₆ _ hw₆ _ => msgJustified_plain rfl hw₆ hc⟩

end CueApi.Messages
