import CueApi.Messages.Statements

/-! The push jobs keep to the transactions of `MsgCommits`. A job's own events tell how far it is:
lookups, claim, push, result. -/

namespace CueApi.Messages

open Scheduler (Pid Time UserId OutboxId)
open ReadCommitted Interleaving Trace Recorded

variable {env : MsgEnv} {t₀ : MsgTables} {p : Pid} {B : List MsgWrite} {E : MsgHistory}
variable {w : MsgWorld} {call : MsgCall} {j : MsgJob}

/-- The history allows `p` to return `reply`. -/
def MsgJustified (env : MsgEnv) (t₀ : MsgTables) (p : Pid) (reply : MsgReply) (w : MsgWorld) :
    Prop := MsgAllowed env t₀ w.history (.ended p (.returned reply))

theorem msgJustified_of (call : MsgCall) {reply : MsgReply} (hw : At p B E w)
    (hc : callOf p E = some call) (hr : MsgReturns env t₀ w.history p call reply) :
    MsgJustified env t₀ p reply w := ⟨call, by rw [hw.callOf_eq, hc], hr⟩

/-- The replies that need no justification. -/
def MsgCall.plain : MsgCall → MsgReply → Bool
  | .deliverMessage _, _ | .retryMessage _, _ | .sendMessage _ _, _ => false
  | .recoverStaleMessageDeliveries _, _ => false
  | .listInbox _ _, .inbox _ _ _ _ | .pullEvents _ _ _ _ _, .events _ _ _ => false
  | _, _ => true

theorem msgJustified_plain {reply : MsgReply} (hp : call.plain reply = true) (hw : At p B E w)
    (hc : callOf p E = some call) : MsgJustified env t₀ p reply w := by
  refine msgJustified_of call hw hc ?_
  cases call with
  | deliverMessage payload => cases hp
  | retryMessage payload => cases hp
  | recoverStaleMessageDeliveries staleSeconds => cases hp
  | sendMessage user req => cases hp
  | listInbox user q => cases reply <;> trivial
  | pullEvents user addr since limit eventType => cases reply <;> trivial
  | _ => trivial

theorem MsgJob.callOf_began (p : Pid) (call : MsgCall) :
    callOf p ([.began p call] : MsgHistory) = some call := by
  simp [callOf]

/-- The job is past its first lookups. -/
def Decided (p : Pid) (j : MsgJob) (w : MsgWorld) : Prop :=
  ∃ E, At p [] E w ∧ callOf p E = some j.call ∧ E ≠ [.began p j.call]

theorem Decided.justified (h : Decided p j w) (reply : MsgReply) :
    MsgJustified env t₀ p reply w := by
  obtain ⟨E, hw, hc, hE⟩ := h
  refine msgJustified_of _ hw hc ?_
  obtain ⟨task, payload⟩ := j
  cases task with
  | deliverMessage => exact fun h => hE (hw.own.symm.trans h)
  | retryMessage => exact fun h => hE (hw.own.symm.trans h)

/-- A mark of a job that has only begun. -/
theorem allowed_missing (hw : At p [] [.began p j.call] w) :
    MsgAllowed env t₀ w.history (.marked p .missing) :=
  ⟨j.call, by rw [hw.callOf_eq]; exact MsgJob.callOf_began p _, hw.own, j, rfl⟩

theorem decided_missing (hw : At p [] (.marked p .missing :: [.began p j.call]) w) :
    Decided p j w := ⟨_, hw, by simp [callOf], by simp⟩

theorem runs_loadMessageContext {a : AgentId} (hw : At p [] [.began p j.call] w) :
    MsgRuns env t₀ p (fun ctx? w' =>
      (ctx?.isSome → At p [] [.began p j.call] w' ∧
        ∃ r, (replayed t₀ w'.history).message j.message = some r) ∧
      (ctx? = none → Decided p j w'))
      (loadMessageContext env p j.message a) w := by
  have gone : ∀ {w' : MsgWorld}, At p [] [.began p j.call] w' →
      MsgAllowed env t₀ w'.history (.marked p .missing) ∧
      ∀ w'', At p [] (.marked p .missing :: [.began p j.call]) w'' → MsgInv env t₀ w'' →
        MsgRuns env t₀ p (fun (ctx? : Option MsgContext) w' =>
          (ctx?.isSome → At p [] [.began p j.call] w' ∧
            ∃ r, (replayed t₀ w'.history).message j.message = some r) ∧
          (ctx? = none → Decided p j w')) (.ret none) w'' :=
    fun hw' => ⟨allowed_missing hw', fun w'' hw'' _ =>
      ⟨fun h => absurd h (by simp), fun _ => decided_missing hw''⟩⟩
  refine runs_lookup hw (fun w₁ msg _ hw₁ _ hmsg => ?_) fun w₁ _ hw₁ _ => gone hw₁
  refine runs_lookup hw₁ (fun w₂ toAgent hl₂ hw₂ _ _ => ?_) fun w₂ _ hw₂ _ => gone hw₂
  refine runs_lookup hw₂ (fun w₃ sender hl₃ hw₃ _ _ => ?_) fun w₃ _ hw₃ _ => gone hw₃
  refine ⟨fun _ => ⟨hw₃, ?_⟩, fun h => by cases h⟩
  obtain ⟨r, hr, -⟩ := (grows_of_later (hl₂.trans hl₃)).message hmsg
  exact ⟨r, hr⟩

theorem runs_checkConcurrentCapOrRecycle {user : UserId} (hw : At p [] [.began p j.call] w) :
    MsgRuns env t₀ p (fun cap w' =>
      (cap = .capped → Decided p j w') ∧ (cap ≠ .capped → At p [] [.began p j.call] w' ∧
        (replayed t₀ w.history).Grows (replayed t₀ w'.history)))
      (checkConcurrentCapOrRecycle env p user j.task j.payload) w := by
  have goOn : ∀ {w' : MsgWorld} (key : Bool), Later p w w' → At p [] [.began p j.call] w' →
      (Cap.proceed key = .capped → Decided p j w') ∧
      (Cap.proceed key ≠ .capped → At p [] [.began p j.call] w' ∧
        (replayed t₀ w.history).Grows (replayed t₀ w'.history)) :=
    fun key hl hw' => ⟨fun h => (by cases h), fun _ => ⟨hw', grows_of_later hl⟩⟩
  unfold checkConcurrentCapOrRecycle
  split
  · exact goOn false (.refl p w) hw
  refine runs_incrBy hw fun w₁ current? hl₁ hw₁ _ => ?_
  split
  · exact goOn true hl₁ hw₁
  refine runs_expireCounter hw₁ fun w₂ set hl₂ hw₂ _ => ?_
  split
  · exact goOn true (hl₁.trans hl₂) hw₂
  split
  · refine runs_incrBy hw₂ fun w₃ undone? hl₃ hw₃ _ => ?_
    split
    · exact goOn true ((hl₁.trans hl₂).trans hl₃) hw₃
    refine runs_clock hw₃ fun w₄ _ hw₄ _ => ?_
    refine runs_insertOutbox hw₄ fun w₅ n _ hw₅ hi₅ hn => ?_
    refine runs_commit hw₅ fun w₆ hl₆ hw₆ hi₆ => ⟨⟨j.call, ?_, ?_⟩, fun w₇ _ hw₇ _ => ?_⟩
    · rw [hw₆.callOf_eq]
      exact MsgJob.callOf_began p _
    · have hrow : (replayed t₀ w₆.history).outboxRow n = (replayed t₀ w₅.history).outboxRow n :=
        hl₆.frozen hi₅ hi₆ (k := MsgKey.outbox n)
          (hw₅.locked (List.mem_cons_self ..) (by simp [msgSchema, MsgWrite.keys]))
      exact .recycled j n w₄.clock hw₆.own (hrow.trans hn)
    · exact ⟨fun _ => ⟨_, hw₇, by simp [callOf], by simp⟩, fun h => absurd rfl h⟩
  · exact goOn true (hl₁.trans hl₂) hw₂

/-- A row that an UPDATE has locked is there at the commit as the UPDATE found it. -/
theorem message_frozen {w' : MsgWorld} {m : MsgId} {ms : List MsgId} {u : MsgUpdate}
    (hl : Later p w w') (hw : At p B E w) (hB : .updateMessages ms u ∈ B) (hm : m ∈ ms)
    (hi : MsgInv env t₀ w) (hi' : MsgInv env t₀ w') :
    (replayed t₀ w'.history).message m = (replayed t₀ w.history).message m :=
  hl.frozen hi hi' (k := MsgKey.message m)
    (hw.locked hB (List.mem_map.mpr ⟨m, hm, rfl⟩))

theorem runs_claimMessage (hw : At p [] [.began p j.call] w) :
    MsgRuns env t₀ p (fun claimed w' =>
      (claimed = true → (∃ time now, At p [] (claimedBy p j time now) w') ∧
        ∃ r, (replayed t₀ w'.history).message j.message = some r) ∧
      (claimed = false → Decided p j w'))
      (claimMessage p j.message j.expected) w := by
  refine runs_clock hw fun w₁ _ hw₁ _ => ?_
  refine runs_updateMessagesWhere hw₁ (fun w₂ ms _ hw₂ hi₂ hne hnd hms => ?_)
    fun w₂ _ hw₂ hi₂ hno => ?_
  · have hall : ms = [j.message] := eq_singleton_of_nodup hne hnd fun m hm => by
      obtain ⟨r, -, hr⟩ := (hms m).mp hm
      exact (by simpa using hr : m = j.message ∧ _).1
    subst hall
    obtain ⟨r, hr, hwh⟩ := (hms j.message).mp (by simp)
    simp only [decide_true, Bool.true_and, decide_eq_true_eq] at hwh
    refine runs_commit hw₂ fun w₃ hl₃ hw₃ hi₃ => ⟨⟨j.call, ?_, ?_⟩, fun w₄ hh₄ hw₄ _ => ?_⟩
    · rw [hw₃.callOf_eq]
      exact MsgJob.callOf_began p _
    · exact .claimed j r _ hw₃.own
        ((message_frozen hl₃ hw₂ (List.mem_cons_self ..) (List.mem_cons_self ..) hi₂ hi₃).trans hr)
        hwh
    · refine ⟨fun _ => ⟨⟨_, _, hw₄⟩, ?_⟩, fun h => by simp at h⟩
      have hsuf : w₃.history <:+ w₄.history := hh₄ ▸ List.suffix_cons _ _
      obtain ⟨r₄, hr₄, -⟩ := ((grows_of_later hl₃).trans (.replayed_suffix hsuf)).message hr
      exact ⟨r₄, hr₄⟩
  · refine ⟨⟨j.call, ?_, fun j' hj' => ?_⟩, fun w₃ _ hw₃ _ => ?_⟩
    · rw [hw₂.callOf_eq]
      exact MsgJob.callOf_began p _
    · obtain rfl := MsgJob.call_injective hj'
      refine ⟨hw₂.own, ⟨_, rfl⟩, fun r hr => ?_⟩
      simpa using hno j.message r hr
    · refine runs_commit hw₃ fun w₄ _ hw₄ _ => ⟨⟨j.call, ?_, ?_⟩, fun w₅ _ hw₅ _ => ?_⟩
      · rw [hw₄.callOf_eq]
        simp [callOf]
      · exact .lost j _ hw₄.own
      · exact ⟨fun h => by simp at h, fun _ => ⟨_, hw₅, by simp [callOf], by simp⟩⟩

theorem claimedBy_callOf (p : Pid) (j : MsgJob) (time now : Time) :
    callOf p (claimedBy p j time now) = some j.call := by
  simp [claimedBy, callOf]

/-- The last commit of a job. -/
theorem runs_routed (hc : callOf p E = some j.call) (hw : At p B E w)
    (hcm : ∀ w', Later p w w' → MsgInv env t₀ w' → own p w'.history = E →
      MsgCommits env t₀ w'.history p w'.clock j.call B) :
    MsgRuns env t₀ p (fun _ w => Decided p j w) (commit p) w := by
  change MsgRuns env t₀ p _ (commit p >>= pure) w
  refine runs_commit hw fun w' hl hw' hi' => ⟨⟨j.call, ?_, hcm w' hl hi' hw'.own⟩,
    fun w'' _ hw'' _ => ⟨_, hw'', ?_, by simp⟩⟩
  · rw [hw'.callOf_eq, hc]
  · simpa [callOf] using hc

theorem runs_routeAttemptOutcome {a : AgentId} {toAgent : Agent} {result : DeliveryAttemptResult}
    (ha : a = j.payload.toAgentId) (hans : ∀ h, own p h = E → Answered p j h result)
    (hc : callOf p E = some j.call) (hw : At p [] E w)
    (hm : ∃ r, (replayed t₀ w.history).message j.message = some r) :
    MsgRuns env t₀ p (fun _ w => Decided p j w)
      (routeAttemptOutcome p j.message a toAgent j.attempt result) w := by
  subst ha
  have exists_later : ∀ {w' w'' : MsgWorld}, Later p w' w'' →
      (∃ r, (replayed t₀ w'.history).message j.message = some r) →
      ∃ r, (replayed t₀ w''.history).message j.message = some r := by
    rintro w' w'' hl ⟨r, hr⟩
    obtain ⟨r', hr', -⟩ := (grows_of_later hl).message hr
    exact ⟨r', hr'⟩
  refine runs_clock hw fun w₁ hl₁ hw₁ _ => ?_
  have hm₁ := exists_later hl₁ hm
  split
  · rename_i hcat
    refine runs_updateMessageById hw₁ hm₁ fun w₂ r hl₂ hw₂ hi₂ hr => ?_
    refine runs_routed hc hw₂ fun w₃ hl₃ hi₃ hown => ?_
    obtain ⟨r₃, hr₃, -⟩ := (grows_of_later hl₃).message hr
    exact .delivered j r₃ result _ (hans _ hown) hr₃ hcat
  rename_i hcat
  split
  · rename_i hretry
    split
    · trivial
    · rename_i scheduledAt _
      refine runs_insertOutbox hw₁ fun w₂ n hl₂ hw₂ hi₂ hn => ?_
      refine runs_updateMessageById hw₂ (exists_later hl₂ hm₁) fun w₃ r hl₃ hw₃ hi₃ hr => ?_
      refine runs_routed hc hw₃ fun w₄ hl₄ hi₄ hown => ?_
      obtain ⟨r₄, hr₄, -⟩ := (grows_of_later hl₄).message hr
      have hrow : (replayed t₀ w₄.history).outboxRow n = (replayed t₀ w₂.history).outboxRow n :=
        (hl₃.trans hl₄).frozen hi₂ hi₄ (k := MsgKey.outbox n)
          (hw₂.locked (List.mem_cons_self ..) (by simp [msgSchema, MsgWrite.keys]))
      exact .retried j r₄ result n _ scheduledAt (hans _ hown) hr₄ hretry.1 hretry.2
        (hrow.trans hn)
  · rename_i hretry
    refine runs_updateMessageById hw₁ hm₁ fun w₂ r hl₂ hw₂ hi₂ hr => ?_
    refine runs_routed hc hw₂ fun w₃ hl₃ hi₃ hown => ?_
    obtain ⟨r₃, hr₃, -⟩ := (grows_of_later hl₃).message hr
    refine .failed j r₃ result _ (hans _ hown) hr₃ hcat fun hcat' => ?_
    exact Nat.le_of_not_lt fun hlt => hretry ⟨hcat', hlt⟩

theorem runs_deliverMessageToWebhook {toAgent : Agent} {time now : Time}
    (hw : At p [] (claimedBy p j time now) w)
    (hm : ∃ r, (replayed t₀ w.history).message j.message = some r) :
    MsgRuns env t₀ p (fun result w' => ∃ E, At p [] E w' ∧ callOf p E = some j.call ∧
      (∀ h, own p h = E → Answered p j h result) ∧
      ∃ r, (replayed t₀ w'.history).message j.message = some r)
      (deliverMessageToWebhook p j.message toAgent) w := by
  unfold deliverMessageToWebhook
  split
  · exact ⟨_, hw, claimedBy_callOf p j time now, fun h ho => .unconfigured time now ho, hm⟩
  · change MsgRuns env t₀ p _ (Prog.step _ >>= pure) w
    refine runs_marked hw fun w' hl hw' hi a r w'' hs => ?_
    split at hs
    · rename_i answer
      cases hs
      refine .inr ⟨_, rfl, ⟨j.call, ?_, j, time, now, rfl, hw'.own⟩, fun hi'' hl'' hw'' => ?_⟩
      · rw [hw'.callOf_eq, claimedBy_callOf]
      · refine ⟨_, hw'', ?_, fun h ho => .pushed answer time now ho, ?_⟩
        · simp [callOf, claimedBy]
        · obtain ⟨r, hr⟩ := hm
          obtain ⟨r', hr', -⟩ := (grows_of_later hl'').message hr
          exact ⟨r', hr'⟩
    · cases hs

theorem runs_releaseConcurrent {user : UserId} {key : Bool} (hd : Decided p j w) :
    MsgRuns env t₀ p (fun _ w => Decided p j w) (releaseConcurrent env user key) w := by
  obtain ⟨E, hw, hc, hE⟩ := hd
  unfold releaseConcurrent
  split
  · exact runs_incrBy hw fun w' _ _ hw' _ => ⟨E, hw', hc, hE⟩
  · exact ⟨E, hw, hc, hE⟩

theorem runs_pushMessage (hw : At p [] [.began p j.call] w) :
    MsgRuns env t₀ p (fun _ w => Decided p j w)
      (pushMessage env p j.task j.expected j.attempt j.payload) w := by
  refine Safe.bind (runs_loadMessageContext hw) fun ctx? w₁ h₁ => ?_
  cases ctx? with
  | none => exact h₁.2 rfl
  | some ctx =>
    obtain ⟨hw₁, hm₁⟩ := h₁.1 rfl
    refine Safe.bind (runs_checkConcurrentCapOrRecycle hw₁) fun cap w₂ h₂ => ?_
    cases cap with
    | capped => exact h₂.1 rfl
    | proceed key =>
      obtain ⟨hw₂, hg₂⟩ := h₂.2 (by simp)
      refine Safe.bind (runs_claimMessage hw₂) fun claimed w₃ h₃ => ?_
      cases claimed with
      | false => exact runs_releaseConcurrent (h₃.2 rfl)
      | true =>
        obtain ⟨⟨time, now, hw₃⟩, hm₃⟩ := h₃.1 rfl
        simp only [if_true]
        refine runs_select hw₃ fun w₄ hl₄ hw₄ _ => ?_
        split
        · trivial
        have hm₄ : ∃ r, (replayed t₀ w₄.history).message j.message = some r := by
          obtain ⟨r, hr⟩ := hm₃
          obtain ⟨r', hr', -⟩ := (grows_of_later hl₄).message hr
          exact ⟨r', hr'⟩
        refine Safe.bind (runs_deliverMessageToWebhook hw₄ hm₄) fun result w₅ h₅ => ?_
        obtain ⟨E, hw₅, hc₅, hans₅, hm₅⟩ := h₅
        exact Safe.bind (runs_routeAttemptOutcome rfl hans₅ hc₅ hw₅ hm₅) fun _ w₆ hd =>
          runs_releaseConcurrent hd

/-- A push job, from its start to its end. -/
theorem runs_pushJob (hw : At p [] [.began p j.call] w) :
    MsgRuns env t₀ p (MsgJustified env t₀ p) (msgProgramOf env p j.call) w := by
  have hrun : MsgRuns env t₀ p _ _ w := runs_pushMessage hw
  obtain ⟨task, payload⟩ := j
  cases task with
  | deliverMessage => exact Safe.bind hrun fun _ w' hd => hd.justified .done
  | retryMessage => exact Safe.bind hrun fun _ w' hd => hd.justified .done

end CueApi.Messages
