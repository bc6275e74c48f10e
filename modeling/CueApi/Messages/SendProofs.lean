import CueApi.Messages.SweepProofs

/-! `send_message`, the release of old keys and the edits of an agent keep to the transactions of
`MsgCommits`. A send passes its checks, notes its lookups and writes its rows in one transaction;
every reply of it is one of `Sends`. -/

namespace CueApi.Messages

open Scheduler (Pid Time UserId OutboxId ApiError keysWhere mem_keysWhere)
open ReadCommitted Interleaving Trace Recorded

variable {env : MsgEnv} {t₀ : MsgTables} {p : Pid} {B : List MsgWrite} {E : MsgHistory}
variable {w w' : MsgWorld} {user : UserId} {req : SendRequest} {α : Type}

/-! ## Rejections -/

theorem runs_orReply {Q : MsgReply → MsgWorld → Prop} {x : Except ApiError α}
    {k : α → MsgProgram MsgReply} (herr : ∀ e, x = .error e → Q (.error e) w)
    (hok : ∀ a, x = .ok a → MsgRuns env t₀ p Q (k a) w) :
    MsgRuns env t₀ p Q (orReply x k) w := by
  cases x with
  | error e => exact herr e rfl
  | ok a => exact hok a rfl

theorem resolveAddress_rejection {t : MsgTables} {addr : Address} {e : ApiError}
    (h : resolveAddress env t addr = .error e) : Rejection e := by
  cases addr with
  | id a text =>
    simp only [resolveAddress] at h
    split at h <;> cases h
    simp [Rejection, agentNotFound]
  | slug agent user text =>
    simp only [resolveAddress] at h
    split at h <;> cases h
    simp [Rejection, agentNotFound]
  | halfSlug =>
    cases h
    simp [Rejection, halfSlugError]
  | malformed =>
    cases h
    simp [Rejection, malformedError]

theorem resolveAgent_rejection {t : MsgTables} {addr : Address} {e : ApiError}
    (h : resolveAgent env t addr = .error e) : Rejection e := by
  unfold resolveAgent at h
  split at h
  · rename_i e' he
    cases h
    exact resolveAddress_rejection he
  · split at h <;> cases h
    simp [Rejection, agentNotFound]

theorem resolveAgent_agent {t : MsgTables} {addr : Address} {x : AgentId × Agent}
    (h : resolveAgent env t addr = .ok x) : t.agent x.1 = some x.2 := by
  unfold resolveAgent at h
  split at h
  · cases h
  · split at h <;> cases h
    assumption

theorem checkSender_rejection {agent : Agent} {data : MessageCreate} {e : ApiError}
    (h : checkSender user agent data = .error e) : Rejection e := by
  unfold checkSender at h
  split at h
  · cases h
    simp [Rejection, metadataTooLarge]
  split at h
  · cases h
    simp [Rejection, fromAgentNotOwned]
  split at h
  · cases h
    simp [Rejection, fromAgentDeleted]
  · cases h

theorem checkSender_owner {agent : Agent} {data : MessageCreate} {u : Unit}
    (h : checkSender user agent data = .ok u) : agent.userId = user := by
  unfold checkSender at h
  split at h
  · cases h
  split at h
  · cases h
  · rename_i howner
    exact not_not.mp howner

/-- Where a check leaves `p`: it has written and noted nothing, and its error is a rejection. -/
def Checked (p : Pid) (E : MsgHistory) (good : α → Prop) (x : Except ApiError α) (w : MsgWorld) :
    Prop :=
  At p [] E w ∧ (∀ e, x = .error e → Rejection e) ∧ ∀ a, x = .ok a → good a

theorem Checked.ok {good : α → Prop} {a : α} (hw : At p [] E w) (ha : good a) :
    Checked p E good (.ok a) w :=
  ⟨hw, fun _ h => (by cases h), fun _ h => by cases h; exact ha⟩

theorem Checked.error {good : α → Prop} {e : ApiError} (hw : At p [] E w) (he : Rejection e) :
    Checked p E good (.error e) w :=
  ⟨hw, fun _ h => by cases h; exact he, fun _ h => (by cases h)⟩

/-- Where an address leaves `p` that PostgreSQL may refuse to look up. -/
def Resolved (p : Pid) (E : MsgHistory) (hasNul : Bool)
    (good : α → MsgWorld → Prop) (x : Except ApiError α) (w : MsgWorld) : Prop :=
  At p [] E w ∧ (∀ e, x = .error e → Rejection e ∨ hasNul = true ∧ e = internalServerError) ∧
    ∀ a, x = .ok a → hasNul = false ∧ good a w

theorem runs_selectAgent {addr : Address} (hw : At p [] E w) :
    MsgRuns env t₀ p (Resolved p E addr.hasNul fun agent w' =>
      (replayed t₀ w'.history).agent agent.1 = some agent.2) (selectAgent env p addr) w := by
  unfold selectAgent
  split
  · rename_i hnul
    exact ⟨hw, fun e he => (by cases he; exact .inr ⟨hnul, rfl⟩), fun a ha => (by cases ha)⟩
  · rename_i hnul
    change MsgRuns env t₀ p _ (select p (fun t => resolveAgent env t addr) >>= Prog.ret) w
    refine runs_select hw fun w₁ _ hw₁ _ => ⟨hw₁, fun e he => .inl (resolveAgent_rejection he),
      fun agent hagent => ⟨Bool.eq_false_iff.mpr hnul, resolveAgent_agent hagent⟩⟩

theorem runs_resolveReplyToAgent {addr : Option Address} (hw : At p [] E w) :
    MsgRuns env t₀ p (Resolved p E (addr.any Address.hasNul) fun _ _ => True)
      (resolveReplyToAgent env p addr) w := by
  cases addr with
  | none => exact ⟨hw, fun _ he => (by cases he), fun _ _ => ⟨rfl, trivial⟩⟩
  | some addr =>
    refine Safe.bind (runs_selectAgent hw) fun replyToAgent? w₁ h₁ => ?_
    obtain ⟨hw₁, herr, hok⟩ := h₁
    cases replyToAgent? with
    | error e => exact ⟨hw₁, fun e' he => (by cases he; exact herr e rfl), fun _ ha => (by cases ha)⟩
    | ok x => exact ⟨hw₁, fun _ he => (by cases he), fun _ _ => ⟨(hok x rfl).1, trivial⟩⟩

theorem runs_authorizeMessage {replyToAgent : Option AgentId} (hw : At p [] E w) :
    MsgRuns env t₀ p (Checked p E fun _ => True) (authorizeMessage replyToAgent) w := by
  refine runs_askBool hw fun w₁ primaryAllowed _ hw₁ _ => ?_
  split
  · exact .error hw₁ (by simp [Rejection, messageDenied])
  split
  · exact .ok hw₁ trivial
  refine runs_askBool hw₁ fun w₂ replyAllowed _ hw₂ _ => ?_
  split
  · exact .error hw₂ (by simp [Rejection, replyChainDenied])
  · exact .ok hw₂ trivial

theorem runs_checkPerMinuteRateLimit (hw : At p [] E w) :
    MsgRuns env t₀ p (Checked p E fun _ => True) (checkPerMinuteRateLimit env user) w := by
  refine runs_askCount hw fun w₁ count? _ hw₁ _ => ?_
  split
  · exact .error hw₁ (by simp [Rejection, rateLimitExceeded])
  · exact .ok hw₁ trivial

theorem runs_incrHourly (hw : At p [] E w) :
    MsgRuns env t₀ p (fun _ w' => At p [] E w') incrHourly w := by
  refine runs_askCount hw fun w₁ count? _ hw₁ _ => ?_
  split
  · exact runs_expireCounter hw₁ fun w₂ _ _ hw₂ _ => hw₂
  · exact hw₁

/-- The effective priority is the requested one or 3. -/
def Effective (priority : Nat) (x : Nat × Bool) : Prop := x.1 = priority ∨ x.1 = 3

theorem runs_checkPriorityHighLimits {priority : Nat} (hw : At p [] E w) :
    MsgRuns env t₀ p (Checked p E (Effective priority)) (checkPriorityHighLimits priority) w := by
  unfold checkPriorityHighLimits
  split
  · exact .ok hw (.inl rfl)
  refine Safe.bind (runs_incrHourly hw) fun senderCount? w₁ hw₁ => ?_
  split
  · exact .ok hw₁ (.inl rfl)
  split
  · exact .error hw₁ (by simp [Rejection, priorityHighRateLimit])
  refine Safe.bind (runs_incrHourly hw₁) fun pairCount? w₂ hw₂ => ?_
  split
  · exact .ok hw₂ (.inr rfl)
  · exact .ok hw₂ (.inl rfl)

theorem runs_checkLimits {priority : Nat} (hw : At p [] E w) :
    MsgRuns env t₀ p (Checked p E (Effective priority)) (checkLimits env user priority) w := by
  unfold checkLimits
  split
  · exact .ok hw (.inl rfl)
  refine Safe.bind (runs_checkPerMinuteRateLimit hw) fun rate? w₁ h₁ => ?_
  split
  · exact .error h₁.1 (h₁.2.1 _ rfl)
  · exact runs_checkPriorityHighLimits h₁.1

theorem runs_checkMessageQuota (hw : At p [] E w) :
    MsgRuns env t₀ p (Checked p E fun _ => True) (checkMessageQuota env user) w := by
  unfold checkMessageQuota
  split
  · exact .ok hw trivial
  refine runs_askCount hw fun w₁ count? _ hw₁ _ => ?_
  dsimp only
  split
  · exact .error hw₁ (by simp [Rejection, quotaExceeded])
  · exact .ok hw₁ trivial

/-! ## The lookups -/

theorem callOf_lookedUp {cutoff time : Time} {fields : Fingerprinted} :
    callOf p (lookedUp p req cutoff time fields ++ [.began p (.sendMessage user req)]) =
      some (.sendMessage user req) := by
  unfold lookedUp
  split <;> simp [callOf]

theorem callOf_prepared {cutoff time : Time} {fields : Fingerprinted} :
    callOf p (prepared p user req cutoff time fields) = some (.sendMessage user req) := by
  unfold prepared parentFound
  cases req.data.replyTo with
  | none => exact callOf_lookedUp
  | some x => exact callOf_lookedUp

/-- The request has begun, and nothing has met its key. -/
structure Unanswered (p : Pid) (user : UserId) (req : SendRequest) (E : MsgHistory) : Prop where
  call : callOf p E = some (.sendMessage user req)
  unfound : Unfound p E

theorem unanswered_began : Unanswered p user req [.began p (.sendMessage user req)] where
  call := MsgJob.callOf_began p _
  unfound := ⟨fun cutoff time fields m => by simp, by simp⟩

theorem unanswered_lookedUp {cutoff time : Time} {fields : Fingerprinted} :
    Unanswered p user req
      (lookedUp p req cutoff time fields ++ [.began p (.sendMessage user req)]) := by
  refine ⟨callOf_lookedUp, ⟨fun cutoff' time' fields' m => ?_, ?_⟩⟩ <;> unfold lookedUp <;>
    split <;> simp

theorem Unanswered.resolved {E : MsgHistory} {m : MsgId} {found : Bool}
    (hu : Unanswered p user req E) : Unanswered p user req (.marked p (.resolved m found) :: E) where
  call := hu.call
  unfound := by
    refine ⟨fun cutoff time fields m' hm => ?_, fun hm => ?_⟩
    · rcases List.mem_cons.mp hm with heq | hm
      · cases heq
      · exact hu.unfound.looked cutoff time fields m' hm
    · rcases List.mem_cons.mp hm with heq | hm
      · cases heq
      · exact hu.unfound.conflict hm

theorem unanswered_prepared {cutoff time : Time} {fields : Fingerprinted} :
    Unanswered p user req (prepared p user req cutoff time fields) := by
  unfold prepared parentFound
  cases req.data.replyTo with
  | none => exact unanswered_lookedUp
  | some x => exact unanswered_lookedUp.resolved

/-- A reply that rests on the history. -/
theorem justified_send {reply : MsgReply} (hw : At p B E w)
    (hc : callOf p E = some (.sendMessage user req))
    (hs : Sends env t₀ w.history p user req reply) : MsgJustified env t₀ p reply w :=
  msgJustified_of _ hw hc hs

theorem justified_rejection {e : ApiError} (hw : At p B E w)
    (hu : Unanswered p user req E) (he : Rejection e) :
    MsgJustified env t₀ p (.error e) w :=
  justified_send hw hu.call (.rejected e (hw.own ▸ hu.unfound) he)

theorem justified_refusal (hw : At p B E w) (hu : Unanswered p user req E)
    (hr : env.refuses req.data = true) : MsgJustified env t₀ p (.error internalServerError) w :=
  justified_send hw hu.call (.refused (hw.own ▸ hu.unfound) hr)

theorem keyedSince_some {t : MsgTables} {key : String} {cutoff : Time} {m : MsgId} {r : Message}
    (h : keyedSince t user key cutoff = some (m, r)) :
    t.message m = some r ∧ r.keyed = some (user, key) ∧ cutoff < r.createdAt := by
  obtain ⟨m', hm', h⟩ := Option.bind_eq_some_iff.mp h
  obtain ⟨r', hr', h⟩ := Option.map_eq_some_iff.mp h
  cases h
  obtain ⟨r'', hr'', hwh⟩ := (mem_keysWhere _ _ _).mp (List.mem_of_mem_head? hm')
  obtain rfl : r'' = r := Option.some.inj (hr''.symm.trans hr')
  simp only [Bool.and_eq_true, decide_eq_true_eq] at hwh
  exact ⟨hr', hwh⟩

theorem keyedSince_none {t : MsgTables} {key : String} {cutoff : Time}
    (h : keyedSince t user key cutoff = none) {m : MsgId} {r : Message}
    (hr : t.message m = some r) (hkey : r.keyed = some (user, key)) : r.createdAt ≤ cutoff := by
  by_contra hlt
  have hm : m ∈ keysWhere t.messages fun _ r =>
      r.keyed = some (user, key) && cutoff < r.createdAt := by
    refine (mem_keysWhere _ _ _).mpr ⟨r, hr, ?_⟩
    simpa [hkey] using hlt
  obtain ⟨m', hm'⟩ := Option.isSome_iff_exists.mp (List.isSome_head?.mpr (List.ne_nil_of_mem hm))
  obtain ⟨r', hr', -⟩ := (mem_keysWhere _ _ _).mp (List.mem_of_mem_head? hm')
  have hsome : keyedSince t user key cutoff = some (m', r') := by
    unfold keyedSince
    rw [hm', Option.bind_some, show t.message m' = some r' from hr']
    rfl
  rw [h] at hsome
  cases hsome

/-- What `keyedSince` finds, as the lookup notes it. -/
theorem looked_keyedSince {t : MsgTables} {key : String} {cutoff : Time} :
    Looked t user key cutoff ((keyedSince t user key cutoff).map Prod.fst) := by
  cases h : keyedSince t user key cutoff with
  | none => exact fun m r hr hkey => keyedSince_none h hr hkey
  | some x =>
    obtain ⟨hr, hkey, hlt⟩ := keyedSince_some (m := x.1) (r := x.2) h
    exact ⟨x.2, hr, hkey, hlt⟩

/-- After step 5: go on, or reply with what was found. -/
def Deduped (env : MsgEnv) (t₀ : MsgTables) (p : Pid) (user : UserId) (req : SendRequest)
    (fields : Fingerprinted) (x : Except ApiError (Option (MsgId × Message))) (w : MsgWorld) :
    Prop :=
  match x with
  | .ok none => ∃ cutoff time,
      At p [] (lookedUp p req cutoff time fields ++ [.began p (.sendMessage user req)]) w
  | .ok (some (m, row)) => MsgJustified env t₀ p (.sent m row true false) w
  | .error e => MsgJustified env t₀ p (.error e) w

theorem runs_checkIdempotency {fields : Fingerprinted} (hcmp : Compares req fields)
    (hw : At p [] [.began p (.sendMessage user req)] w) :
    MsgRuns env t₀ p (Deduped env t₀ p user req fields)
      (checkIdempotency p user req.idempotencyKey fields (env.fingerprint fields)) w := by
  cases hkey : req.idempotencyKey with
  | none => exact ⟨0, 0, by simpa [lookedUp, hkey] using hw⟩
  | some key =>
    have hc : callOf p ([.began p (.sendMessage user req)] : MsgHistory) =
      some (.sendMessage user req) := MsgJob.callOf_began p _
    refine runs_clock hw fun w₁ _ hw₁ _ => ?_
    refine runs_lookupKey hw₁ fun w₂ found hl₂ hw₂ hi₂ hfound => ⟨?_, fun w₃ hh₃ hl₃ hw₃ _ => ?_⟩
    · refine ⟨_, hw₂.callOf_eq.trans hc, hw₂.own, user, req, key, rfl, hkey, hcmp, ?_, hi₂.clock,
        ?_⟩
      · exact (Int.sub_add_cancel _ _).trans_le hl₂.clock
      · rw [← hfound]
        exact looked_keyedSince
    cases found with
    | none =>
      refine ⟨w₁.clock - dedupWindow, w₂.clock, ?_⟩
      simpa [lookedUp, hkey] using hw₃
    | some x =>
      obtain ⟨m, row⟩ := x
      obtain ⟨hrow, -, -⟩ := keyedSince_some hfound
      have hsuf : .marked p (.looked (w₁.clock - dedupWindow) w₂.clock fields (some m)) ::
          w₂.history <:+ w₃.history := by
        rw [hh₃]
        exact List.suffix_refl _
      have hc₃ : callOf p (.marked p (.looked (w₁.clock - dedupWindow) w₂.clock fields (some m)) ::
          [.began p (.sendMessage user req)] : MsgHistory) = some (.sendMessage user req) := hc
      dsimp only
      split
      · rename_i hsame
        exact justified_send hw₃ hc₃ (.dedup m row _ _ fields _ hw₃.own hsuf hrow hsame)
      · rename_i hother
        exact justified_send hw₃ hc₃ (.mismatch m row _ _ fields _ hw₃.own hsuf hrow hother)

/-- The parent that was found. -/
def ParentOk (t : MsgTables) (parent : Option (MsgId × MsgId)) : Prop :=
  ∀ thread m, parent = some (thread, m) → ∃ r, t.message m = some r ∧ r.threadId = thread

theorem Message.threadId_of_core {r r' : Message} (h : r.core = r'.core) :
    r.threadId = r'.threadId :=
  (congrArg Message.threadId h : r.core.threadId = r'.core.threadId)

theorem ParentOk.grows {t t' : MsgTables} {parent : Option (MsgId × MsgId)} (h : ParentOk t parent)
    (hg : t.Grows t') : ParentOk t' parent := by
  intro thread m hp
  obtain ⟨r, hr, hthread⟩ := h thread m hp
  obtain ⟨r', hr', hcore⟩ := hg.message hr
  exact ⟨r', hr', (Message.threadId_of_core hcore).trans hthread⟩

theorem runs_resolveReplyTo {cutoff time : Time} {fields : Fingerprinted}
    (hw : At p [] (lookedUp p req cutoff time fields ++ [.began p (.sendMessage user req)]) w) :
    MsgRuns env t₀ p (fun parent? w' =>
      (∀ e, parent? = .error e → MsgJustified env t₀ p (.error e) w') ∧
      ∀ parent, parent? = .ok parent → At p [] (prepared p user req cutoff time fields) w' ∧
        ParentOk (replayed t₀ w'.history) parent)
      (resolveReplyTo p req.data.replyTo) w := by
  cases hreply : req.data.replyTo with
  | none =>
    refine ⟨fun e h => (by cases h), fun parent h => ?_⟩
    cases h
    exact ⟨by simpa [prepared, parentFound, hreply] using hw, fun thread m h => by cases h⟩
  | some x =>
    obtain ⟨m, text⟩ := x
    refine runs_selectParent hw fun w₁ parent _ hw₁ _ hm => ⟨?_, fun w₂ hh₂ _ hw₂ _ => ?_⟩
    · refine ⟨_, hw₁.callOf_eq.trans callOf_lookedUp, user, req, cutoff, time, fields, text, rfl,
        hreply, hw₁.own, ?_⟩
      rw [← hm]
      rfl
    cases parent with
    | none =>
      refine ⟨fun e h => ?_, fun parent h => by cases h⟩
      cases h
      exact justified_rejection hw₂ unanswered_lookedUp.resolved
        (by simp [Rejection, replyToNotFound])
    | some r =>
      refine ⟨fun e h => (by cases h), fun parent h => ?_⟩
      cases h
      refine ⟨by simpa [prepared, parentFound, hreply] using hw₂, fun thread m' h => ?_⟩
      cases h
      have hg : (replayed t₀ w₁.history).Grows (replayed t₀ w₂.history) :=
        .replayed_suffix (by rw [hh₂]; exact List.suffix_cons _ _)
      obtain ⟨r', hr', hcore⟩ := hg.message hm
      exact ⟨r', hr', Message.threadId_of_core hcore⟩

/-! ## The message -/

theorem effectiveSendAt_error {now : Time} {sendAt : Option Scheduler.DateTime} {e : ApiError}
    (h : effectiveSendAt now sendAt = .error e) :
    (sendAt.any fun s => !s.aware) = true ∧ e = internalServerError := by
  cases sendAt with
  | none => cases h
  | some s =>
    simp only [effectiveSendAt] at h
    split at h
    · cases h
    · rename_i haware
      cases h
      exact ⟨by simpa using haware, rfl⟩

theorem effectiveSendAt_ok {now : Time} {sendAt : Option Scheduler.DateTime} {x : Option Time}
    (h : effectiveSendAt now sendAt = .ok x) : (sendAt.any fun s => !s.aware) = false := by
  cases sendAt with
  | none => rfl
  | some s =>
    simp only [effectiveSendAt] at h
    split at h
    · rename_i haware
      simpa using haware
    · cases h

theorem Draft.row_keyed {d : Draft} {m : MsgId} :
    (d.row env m).keyed = d.key.map fun key => (d.user, key) := rfl

/-- The event of a message that is being created has no older row under its key. -/
theorem event_of_new (ht : t₀.Blank) {m : MsgId} {row : Message}
    (hl : MsgLegal env t₀ w.history) (hm : (replayed t₀ w.history).message m = none) :
    ¬ (seen t₀ [.insertMessage m row] w).EventKeyTaken (.messageDelivered m) := by
  rintro ⟨x, e, he, hkey⟩
  obtain ⟨r, hr⟩ := eventKeyed_message ht hl (show (replayed t₀ w.history).event x = some e from he)
    hkey
  rw [hm] at hr
  cases hr

/-- What a draft has established is still so later. -/
theorem Draft.Ok.grows {t t' : MsgTables} {d : Draft} (h : d.Ok env t user req)
    (hg : t.Grows t') : d.Ok env t' user req where
  sent := h.sent
  sender := by
    obtain ⟨agent, ha, howner⟩ := h.sender
    obtain ⟨agent', ha', hsame⟩ := hg.agent ha
    exact ⟨agent', ha', hsame.trans howner⟩
  recipient := by
    obtain ⟨agent, ha⟩ := h.recipient
    obtain ⟨agent', ha', -⟩ := hg.agent ha
    exact ⟨agent', ha'⟩
  priority := h.priority
  fingerprint := h.fingerprint
  parent := ParentOk.grows h.parent hg
  sendAt := h.sendAt

/-- The transaction of a new message, from its INSERT on: nothing that it rests on can change, for
the new row, its entry of the index and its event are locked. -/
structure Storing (env : MsgEnv) (t₀ : MsgTables) (user : UserId) (req : SendRequest) (d : Draft)
    (m : MsgId) (w : MsgWorld) : Prop where
  inv : MsgInv env t₀ w
  ok : d.Ok env (replayed t₀ w.history) user req
  now : d.now ≤ w.clock
  fresh : (replayed t₀ w.history).message m = none
  unkeyed : ∀ key, req.idempotencyKey = some key → ¬ (replayed t₀ w.history).KeyTaken user key

section Persist

variable {d : Draft} {cutoff looked : Time} {m : MsgId} {x : EventId} {n : OutboxId}
variable {inlineSub downgraded : Bool}

theorem Storing.later (h : Storing env t₀ user req d m w) (hl : Later p w w')
    (hi : MsgInv env t₀ w') (hw : At p B E w) (hB : .insertMessage m (d.row env m) ∈ B) :
    Storing env t₀ user req d m w' where
  inv := hi
  ok := h.ok.grows (grows_of_later hl)
  now := Int.le_trans h.now hl.clock
  fresh := by
    have hrow : (replayed t₀ w'.history).message m = (replayed t₀ w.history).message m :=
      hl.frozen h.inv hi (k := MsgKey.message m)
        (hw.locked hB (by simp [msgSchema, MsgWrite.keys]))
    exact hrow.trans h.fresh
  unkeyed key hkey := by
    have hmem : MsgKey.idempotency user key ∈ msgSchema.keys (.insertMessage m (d.row env m)) := by
      obtain ⟨huser, hdkey, -⟩ := h.ok.sent
      simp [msgSchema, MsgWrite.keys, Draft.row_keyed, hdkey, hkey, huser, MsgKey.ofEntry]
    have hrow : (replayed t₀ w'.history).KeyTaken user key =
        (replayed t₀ w.history).KeyTaken user key :=
      hl.frozen h.inv hi (k := MsgKey.idempotency user key) (hw.locked hB hmem)
    rw [hrow]
    exact h.unkeyed key hkey

/-- The writes of a message before the sender's `last_seen_at`. -/
def Draft.stored (env : MsgEnv) (d : Draft) (m : MsgId) (x : EventId) (n : OutboxId)
    (inlineSub : Bool) : List MsgWrite :=
  (if d.webhookUrl.isSome then [.insertOutbox n (d.outbox m)] else []) ++
    [.insertEvent x (d.event m (maybeEmbedBody inlineSub d.data.body)),
      .insertMessage m (d.row env m)]

/-- The end of the transaction, and the refresh. -/
theorem runs_stored (hw : At p (d.stored env m x n inlineSub)
      (prepared p user req cutoff looked d.fields) w)
    (h : Storing env t₀ user req d m w) (hx : (replayed t₀ w.history).event x = none)
    (hn : d.webhookUrl.isSome → (replayed t₀ w.history).outboxRow n = none) :
    MsgRuns env t₀ p (MsgJustified env t₀ p) (do
      let seen ← clock
      write p (.bumpLastSeen d.fromAgent seen)
      commit p
      let row? ← select p fun t => t.message m
      match row? with
      | none => return .error internalServerError
      | some row => return .sent m row false downgraded) w := by
  have hmessage : .insertMessage m (d.row env m) ∈ d.stored env m x n inlineSub := by
    simp [Draft.stored]
  have hevent : .insertEvent x (d.event m (maybeEmbedBody inlineSub d.data.body)) ∈
      d.stored env m x n inlineSub := by simp [Draft.stored]
  refine runs_clock hw fun w₁ hl₁ hw₁ _ => runs_write hw₁ fun w₂ hl₂ hw₂ _ => ?_
  refine runs_commit hw₂ fun w₃ hl₃ hw₃ hi₃ => ⟨⟨_, hw₃.callOf_eq.trans callOf_prepared, ?_⟩,
    fun w₄ hh₄ hw₄ hi₄ => ?_⟩
  · have hl := hl₁.trans (hl₂.trans hl₃)
    have h₃ := h.later hl hi₃ hw hmessage
    refine .created user req d m x n inlineSub _ cutoff looked hw₃.own h₃.ok h₃.now h₃.fresh
      h₃.unkeyed ?_ fun hurl => ?_
    · have hrow : (replayed t₀ w₃.history).event x = (replayed t₀ w.history).event x :=
        hl.frozen h.inv hi₃ (k := MsgKey.event x)
          (hw.locked hevent (by simp [msgSchema, MsgWrite.keys]))
      exact hrow.trans hx
    · have houtbox : .insertOutbox n (d.outbox m) ∈ d.stored env m x n inlineSub := by
        simp [Draft.stored, hurl]
      have hrow : (replayed t₀ w₃.history).outboxRow n = (replayed t₀ w.history).outboxRow n :=
        hl.frozen h.inv hi₃ (k := MsgKey.outbox n)
          (hw.locked houtbox (by simp [msgSchema, MsgWrite.keys]))
      exact hrow.trans (hn hurl)
  · have hc₄ : callOf p (.commit p w₃.clock (.bumpLastSeen d.fromAgent w₁.clock ::
        d.stored env m x n inlineSub) :: prepared p user req cutoff looked d.fields) =
        some (.sendMessage user req) := callOf_prepared
    refine runs_select hw₄ fun w₅ hl₅ hw₅ _ => ?_
    obtain ⟨r, hr⟩ : ∃ r, (replayed t₀ w₄.history).message m = some r := by
      rw [hh₄]
      exact message_of_insert (List.mem_cons_of_mem _ hmessage)
    obtain ⟨r₅, hr₅, -⟩ := (grows_of_later hl₅).message hr
    rw [show (seen t₀ [] w₅).message m = some r₅ from hr₅]
    exact justified_send hw₅ hc₄
      (.created d m x n inlineSub w₁.clock cutoff looked w₃.clock r₅ downgraded hw₅.own)

/-- The flush, the event and the push of a new message. -/
theorem runs_persist (ht : t₀.Blank)
    (hw : At p [] (prepared p user req cutoff looked d.fields) w)
    (hok : d.Ok env (replayed t₀ w.history) user req) (hnow : d.now ≤ w.clock)
    (htaken : env.refuses req.data = !env.takes req.data) :
    MsgRuns env t₀ p (MsgJustified env t₀ p) (persist env p d downgraded) w := by
  obtain ⟨huser, hdkey, hdata⟩ := hok.sent
  have htaken : (!env.takes d.data) = env.refuses req.data := by rw [hdata, htaken]
  unfold persist
  rw [htaken]
  split
  · rename_i hrefuses
    exact justified_refusal hw unanswered_prepared hrefuses
  rename_i hrefuses
  refine runs_insertMessage hw (fun w₁ m hl₁ hw₁ hi₁ hm hkey => ?_)
    fun w₁ m user' key _ hw₁ _ hkeyed htaken => ⟨?_, fun w₂ hw₂ _ => ?_⟩
  · have h₁ : Storing env t₀ user req d m w₁ := by
      refine ⟨hi₁, hok.grows (grows_of_later hl₁), Int.le_trans hnow hl₁.clock, hm, ?_⟩
      exact fun key hk => hkey user key (by simp [Draft.row_keyed, hdkey, hk, huser])
    refine runs_select hw₁ fun w₂ hl₂ hw₂ hi₂ => ?_
    have h₂ := h₁.later hl₂ hi₂ hw₁ List.mem_cons_self
    generalize hasInlineSub (seen t₀ [.insertMessage m (d.row env m)] w₂) d.toAgent = inlineSub
    refine runs_insertEvent hw₂ (fun w₃ x hl₃ hw₃ hi₃ hx => ?_) fun w₃ hl₃ _ hi₃ htaken => ?_
    · have h₃ := h₂.later hl₃ hi₃ hw₂ List.mem_cons_self
      have hx₃ : (replayed t₀ w₃.history).event x = none := hx
      unfold enqueueDelivery
      by_cases hurl : d.webhookUrl.isSome
      · rw [if_pos hurl]
        refine runs_insertOutbox hw₃ fun w₄ n hl₄ hw₄ hi₄ hn => ?_
        have hx₄ : (replayed t₀ w₄.history).event x = (replayed t₀ w₃.history).event x :=
          hl₄.frozen hi₃ hi₄ (k := MsgKey.event x)
            (hw₃.locked List.mem_cons_self (by simp [msgSchema, MsgWrite.keys]))
        have hst : At p (d.stored env m x n inlineSub)
            (prepared p user req cutoff looked d.fields) w₄ := by
          simpa [Draft.stored, hurl] using hw₄
        exact runs_stored hst (h₃.later hl₄ hi₄ hw₃ (by simp)) (hx₄.trans hx₃) fun _ =>
          (MsgTables.Grows.applyAll _ _).outboxRow_none hn
      · rw [if_neg hurl]
        have hst : At p (d.stored env m x 0 inlineSub)
            (prepared p user req cutoff looked d.fields) w₃ := by
          simpa [Draft.stored, hurl] using hw₃
        exact runs_stored hst h₃ hx₃ fun h => absurd h hurl
    · have h₃ := h₂.later hl₃ hi₃ hw₂ List.mem_cons_self
      exact absurd htaken (event_of_new ht hi₃.legal h₃.fresh)
  · rw [Draft.row_keyed, hdkey, huser] at hkeyed
    obtain ⟨key', hkey', heq⟩ := Option.map_eq_some_iff.mp hkeyed
    cases heq
    exact ⟨_, hw₁.callOf_eq.trans callOf_prepared, user, req, key, cutoff, looked, d.fields, rfl,
      hkey', hw₁.own, Bool.eq_false_iff.mpr hrefuses, effectiveSendAt_ok hok.sendAt, htaken⟩
  · have hc : callOf p (.marked p .conflict :: prepared p user req cutoff looked d.fields) =
      some (.sendMessage user req) := callOf_prepared
    exact justified_send hw₂ hc (.conflict cutoff looked d.fields hw₂.own)

end Persist

/-! ## The request -/

theorem runs_createKeyed (ht : t₀.Blank) {createdAt : Time} {fromAgent toAgent : AgentId × Agent}
    {replyToAgent : Option AgentId} {priority : Nat} {downgraded : Bool}
    (hw : At p [] [.began p (.sendMessage user req)] w)
    (hfrom : ∃ agent, (replayed t₀ w.history).agent fromAgent.1 = some agent ∧
      agent.userId = user)
    (hto : ∃ agent, (replayed t₀ w.history).agent toAgent.1 = some agent)
    (hpriority : priority = req.data.priority ∨ priority = 3)
    (htaken : env.refuses req.data = !env.takes req.data) :
    MsgRuns env t₀ p (MsgJustified env t₀ p)
      (createKeyed env p user createdAt fromAgent toAgent replyToAgent priority downgraded req)
      w := by
  unfold createKeyed
  refine Safe.bind (Runs.since (runs_checkIdempotency ⟨⟨rfl, rfl, rfl, rfl⟩, hpriority⟩ hw))
    fun existing? w₁ ⟨h₁, hs₁⟩ => runs_orReply ?_ fun existing heq => ?_
  · rintro e rfl
    exact h₁
  subst heq
  cases existing with
  | some x => exact h₁
  | none =>
    obtain ⟨cutoff, time, hw₁⟩ := h₁
    refine Safe.bind (Runs.since (runs_checkMessageQuota hw₁)) fun quota? w₂ ⟨h₂, hs₂⟩ => ?_
    refine runs_orReply (fun e he => justified_rejection h₂.1 unanswered_lookedUp (h₂.2.1 e he))
      fun _ _ => ?_
    refine Safe.bind (Runs.since (runs_resolveReplyTo h₂.1)) fun parent? w₃ ⟨h₃, hs₃⟩ => ?_
    refine runs_orReply h₃.1 fun parent hparent => ?_
    obtain ⟨hw₃, hok₃⟩ := h₃.2 parent hparent
    refine runs_clock hw₃ fun w₄ hl₄ hw₄ _ => runs_orReply (fun e he => ?_) fun sendAt hsend => ?_
    · obtain ⟨hnaive, rfl⟩ := effectiveSendAt_error he
      exact justified_send hw₄ callOf_prepared
        (.naive (hw₄.own ▸ unanswered_prepared.unfound) hnaive)
    have hg : (replayed t₀ w.history).Grows (replayed t₀ w₄.history) :=
      .replayed_suffix (((hs₁.trans hs₂).trans hs₃).trans hl₄.history)
    refine runs_persist ht hw₄ ⟨⟨rfl, rfl, rfl⟩, ?_, ?_, hpriority, rfl,
      hok₃.grows (grows_of_later hl₄), hsend⟩ (Int.le_refl _) htaken
    · obtain ⟨agent, ha, howner⟩ := hfrom
      obtain ⟨agent', ha', hsame⟩ := hg.agent ha
      exact ⟨agent', ha', hsame.trans howner⟩
    · obtain ⟨agent, ha⟩ := hto
      obtain ⟨agent', ha', -⟩ := hg.agent ha
      exact ⟨agent', ha'⟩

theorem runs_createMessage (ht : t₀.Blank) {createdAt : Time} {fromAgent : AgentId × Agent}
    (hw : At p [] [.began p (.sendMessage user req)] w)
    (hfrom : ∃ agent, (replayed t₀ w.history).agent fromAgent.1 = some agent ∧
      agent.userId = fromAgent.2.userId) :
    MsgRuns env t₀ p (MsgJustified env t₀ p) (createMessage env p user createdAt fromAgent req)
      w := by
  have hc : callOf p ([.began p (.sendMessage user req)] : MsgHistory) =
    some (.sendMessage user req) := MsgJob.callOf_began p _
  refine runs_orReply (fun e he => justified_rejection hw unanswered_began (checkSender_rejection he))
    fun u hsender => ?_
  have howner := checkSender_owner hsender
  refine Safe.bind (Runs.since (runs_selectAgent hw)) fun toAgent? w₁ ⟨h₁, hs₁⟩ => ?_
  refine runs_orReply (fun e he => ?_) fun toAgent hto => ?_
  · rcases h₁.2.1 e he with hrej | ⟨hnul, rfl⟩
    · exact justified_rejection h₁.1 unanswered_began hrej
    · exact justified_refusal h₁.1 unanswered_began (by simp [MsgEnv.refuses, hnul])
  obtain ⟨htoNul, hto⟩ := h₁.2.2 toAgent hto
  refine Safe.bind (Runs.since (runs_resolveReplyToAgent h₁.1)) fun replyToAgent? w₂ ⟨h₂, hs₂⟩ => ?_
  refine runs_orReply (fun e he => ?_) fun replyToAgent hreply => ?_
  · rcases h₂.2.1 e he with hrej | ⟨hnul, rfl⟩
    · exact justified_rejection h₂.1 unanswered_began hrej
    · exact justified_refusal h₂.1 unanswered_began (by simp [MsgEnv.refuses, hnul])
  have hreplyNul := (h₂.2.2 replyToAgent hreply).1
  refine Safe.bind (Runs.since (runs_authorizeMessage h₂.1)) fun allowed? w₃ ⟨h₃, hs₃⟩ => ?_
  refine runs_orReply (fun e he => justified_rejection h₃.1 unanswered_began (h₃.2.1 e he)) fun _ _ => ?_
  refine Safe.bind (Runs.since (runs_checkLimits h₃.1)) fun limits? w₄ ⟨h₄, hs₄⟩ => ?_
  refine runs_orReply (fun e he => justified_rejection h₄.1 unanswered_began (h₄.2.1 e he))
    fun limits hlimits => ?_
  have hsuf := (hs₂.trans hs₃).trans hs₄
  refine runs_createKeyed ht h₄.1 ?_ ?_ (h₄.2.2 limits hlimits) (by simp [MsgEnv.refuses, htoNul, hreplyNul])
  · obtain ⟨agent, ha, hsame⟩ := hfrom
    obtain ⟨agent', ha', hsame'⟩ := (MsgTables.Grows.replayed_suffix (hs₁.trans hsuf)).agent ha
    exact ⟨agent', ha', (hsame'.trans hsame).trans howner⟩
  · obtain ⟨agent', ha', -⟩ := (MsgTables.Grows.replayed_suffix hsuf).agent hto
    exact ⟨agent', ha'⟩

theorem runs_sendMessage (ht : t₀.Blank) (hw : At p [] [.began p (.sendMessage user req)] w) :
    MsgRuns env t₀ p (MsgJustified env t₀ p) (sendMessage env p user req) w := by
  have hc : callOf p ([.began p (.sendMessage user req)] : MsgHistory) =
    some (.sendMessage user req) := MsgJob.callOf_began p _
  refine runs_clock hw fun w₁ _ hw₁ _ => ?_
  split
  · exact justified_rejection hw₁ unanswered_began (by simp [Rejection, missingFromAgent])
  refine runs_select hw₁ fun w₂ _ hw₂ _ => ?_
  refine runs_orReply (fun e he => justified_rejection hw₂ unanswered_began (resolveAgent_rejection he))
    fun fromAgent hfrom => ?_
  split
  · exact justified_rejection hw₂ unanswered_began (by simp [Rejection, invalidIdempotencyKey])
  · exact runs_createMessage ht hw₂ ⟨fromAgent.2, resolveAgent_agent hfrom, rfl⟩

/-! ## Keys -/

theorem mem_oldKeys {t : MsgTables} {cutoff : Time} {x : MsgId × UserId × String}
    (hx : x ∈ oldKeys t cutoff) : ∃ r, t.message x.1 = some r ∧ r.createdAt < cutoff := by
  obtain ⟨m, hm, hx⟩ := List.mem_filterMap.mp hx
  obtain ⟨r, hr, hwh⟩ := (mem_keysWhere _ _ _).mp hm
  obtain ⟨r', -, hx⟩ := Option.bind_eq_some_iff.mp hx
  obtain ⟨entry, -, rfl⟩ := Option.map_eq_some_iff.mp hx
  simp only [Bool.and_eq_true, decide_eq_true_eq] at hwh
  exact ⟨r, hr, hwh.2⟩

theorem Message.createdAt_of_core {r r' : Message} (h : r.core = r'.core) :
    r.createdAt = r'.createdAt :=
  (congrArg Message.createdAt h : r.core.createdAt = r'.core.createdAt)

theorem runs_freeKeysBefore {Q : α → MsgWorld → Prop} {cutoff : Time} {k : Nat → MsgProgram α}
    (hw : At p [] E w)
    (h : ∀ w' xs, Later p w w' → At p [.freeKeys xs] E w' → MsgInv env t₀ w' →
      (∀ x ∈ xs, ∃ r, (replayed t₀ w'.history).message x.1 = some r ∧ r.createdAt < cutoff) →
      MsgRuns env t₀ p Q (k xs.length) w') :
    MsgRuns env t₀ p Q (freeKeysBefore p cutoff >>= k) w := by
  refine runs_step hw fun w' hl hw' hi a r w'' hs => ?_
  simp only [hw'.view hi] at hs
  obtain ⟨s, hwr, heq⟩ := Option.map_eq_some_iff.mp hs
  cases heq
  have hstep := Stepped.write hw' hi hwr
  exact ⟨_, E, hstep, h _ _ (hl.trans (Later.write hwr)) hstep.at_ hstep.inv fun x hx =>
    mem_oldKeys hx⟩

theorem runs_freeOldIdempotencyKeys {dryRun : Bool}
    (hw : At p [] [.began p (.freeOldIdempotencyKeys dryRun)] w) :
    MsgRuns env t₀ p (MsgJustified env t₀ p) (freeOldIdempotencyKeys p dryRun) w := by
  refine runs_clock hw fun w₁ _ hw₁ _ => runs_select hw₁ fun w₂ hl₂ hw₂ _ => ?_
  split
  · exact began_justified rfl hw₂
  rename_i hdry
  obtain rfl : dryRun = false := by simpa using hdry
  have hc : callOf p ([.began p (.freeOldIdempotencyKeys false)] : MsgHistory) =
    some (.freeOldIdempotencyKeys false) := MsgJob.callOf_began p _
  refine runs_freeKeysBefore hw₂ fun w₃ xs hl₃ hw₃ _ hxs => ?_
  refine runs_commit hw₃ fun w₄ hl₄ hw₄ _ => ⟨⟨_, hw₄.callOf_eq.trans hc, ?_⟩,
    fun w₅ _ hw₅ _ => msgJustified_plain rfl hw₅ hc⟩
  refine .freed xs (w₁.clock - dedupWindow) (fun x hx => ?_) ?_
  · obtain ⟨r, hr, hlt⟩ := hxs x hx
    obtain ⟨r', hr', hcore⟩ := (grows_of_later hl₄).message hr
    exact ⟨r', hr', (Message.createdAt_of_core hcore).trans_lt hlt⟩
  · exact (Int.sub_add_cancel _ _).trans_le
      (Int.le_trans hl₂.clock (Int.le_trans hl₃.clock hl₄.clock))

/-! ## The recipient agent -/

section Agents

variable {addr : Address} {webhookUrl : Option (Option String)}

theorem runs_flushAgent {a : AgentId} {url secret : Option (Option String)}
    (hw : At p [] [.began p (.updateAgent user addr webhookUrl)] w) :
    MsgRuns env t₀ p (MsgJustified env t₀ p) (flushAgent p a url secret) w := by
  have hc : callOf p ([.began p (.updateAgent user addr webhookUrl)] : MsgHistory) =
    some (.updateAgent user addr webhookUrl) := MsgJob.callOf_began p _
  have flushed : MsgRuns env t₀ p (fun _ w' => ∃ ws,
      At p ws [.began p (.updateAgent user addr webhookUrl)] w' ∧
      ∀ h time, MsgCommits env t₀ h p time (.updateAgent user addr webhookUrl) ws)
      (flushWebhook p a url secret) w := by
    unfold flushWebhook
    split
    · change MsgRuns env t₀ p _ (write p _ >>= pure) w
      exact runs_write hw fun w₁ _ hw₁ _ =>
        ⟨_, hw₁, fun _ _ => .edited user addr webhookUrl a url secret⟩
    · exact ⟨[], hw, fun _ _ => .unedited user addr webhookUrl⟩
  refine Safe.bind flushed fun _ w₁ h₁ => ?_
  obtain ⟨ws, hw₁, hcm⟩ := h₁
  refine runs_commit hw₁ fun w₂ _ hw₂ _ => ⟨⟨_, hw₂.callOf_eq.trans hc, hcm _ _⟩,
    fun w₃ _ hw₃ _ => runs_select hw₃ fun w₄ _ hw₄ _ => ?_⟩
  split
  · trivial
  · exact msgJustified_plain rfl hw₄ hc

theorem runs_updateAgent (hw : At p [] [.began p (.updateAgent user addr webhookUrl)] w) :
    MsgRuns env t₀ p (MsgJustified env t₀ p) (updateAgent env p user addr webhookUrl) w := by
  refine runs_select hw fun w₁ _ hw₁ _ => ?_
  refine runs_orReply (fun e _ => began_justified rfl hw₁) fun x _ => ?_
  dsimp only
  split
  · exact runs_flushAgent hw₁
  · exact runs_flushAgent hw₁
  split
  · exact began_justified rfl hw₁
  split
  · exact runs_generateSecret hw₁ fun w₂ secret _ hw₂ _ => runs_flushAgent hw₂
  · exact runs_flushAgent hw₁

theorem runs_softDeleteAgent (hw : At p [] [.began p (.softDeleteAgent user addr)] w) :
    MsgRuns env t₀ p (MsgJustified env t₀ p) (softDeleteAgent env p user addr) w := by
  have hc : callOf p ([.began p (.softDeleteAgent user addr)] : MsgHistory) =
    some (.softDeleteAgent user addr) := MsgJob.callOf_began p _
  refine runs_select hw fun w₁ _ hw₁ _ => ?_
  refine runs_orReply (fun e _ => began_justified rfl hw₁) fun x _ => ?_
  refine runs_clock hw₁ fun w₂ _ hw₂ _ => runs_write hw₂ fun w₃ _ hw₃ _ => ?_
  exact runs_commit hw₃ fun w₄ _ hw₄ _ => ⟨⟨_, hw₄.callOf_eq.trans hc,
    .deleted user addr x.1 w₂.clock⟩, fun w₅ _ hw₅ _ => msgJustified_plain rfl hw₅ hc⟩

end Agents

end CueApi.Messages
