import CueApi.Library.Blind
import CueApi.Messages.Idempotency

/-! What a request tells of a message that is none of its business: the same request is run on two
databases that differ only in the message. The lookup of a message answers a third party as if it
were not there; the lookup of `reply_to` does not ask who is asking. -/

namespace CueApi.Messages

open Scheduler (Pid Time UserId OutboxId ApiError keysWhere Table)
open ReadCommitted Interleaving Trace Recorded

variable {env : MsgEnv} {t₀ t : MsgTables} {h : MsgHistory} {p : Pid} {m : MsgId} {s v v' : MsgSys}
variable {user : UserId} {key : String} {req : SendRequest} {r : Message} {text : String}

/-! ## The database without a message -/

section Erase

variable {K V : Type} [DecidableEq K]

theorem keysWhere_erase {x : Table K V} {k : K} {pred : K → V → Bool}
    (hk : ∀ row, x.lookup k = some row → pred k row = false) :
    keysWhere (x.erase k) pred = keysWhere x pred := by
  have hentries : ∀ e ∈ x.entries, e.1 = k → pred e.1 e.2 = false := by
    rintro ⟨k', row⟩ he rfl
    exact hk row (AList.mem_lookup_iff.mpr he)
  unfold keysWhere
  congr 1
  change (x.entries.kerase k).filter _ = x.entries.filter _
  generalize x.entries = l at hentries
  induction l with
  | nil => rfl
  | cons e l ih =>
    by_cases he : k = e.1
    · rw [List.kerase_cons_eq he, List.filter_cons_of_neg]
      simp [hentries e List.mem_cons_self he.symm]
    · rw [List.kerase_cons_ne he, List.filter_cons, List.filter_cons,
        ih fun e' he' => hentries e' (List.mem_cons_of_mem _ he')]

end Erase

/-- The tables but for the message. -/
def MsgTables.without (t : MsgTables) (m : MsgId) : MsgTables :=
  { t with messages := t.messages.erase m }

theorem MsgTables.message_without : (t.without m).message m = none := AList.lookup_erase _ _

theorem MsgTables.message_without_of_ne {m' : MsgId} (hne : m' ≠ m) :
    (t.without m).message m' = t.message m' := AList.lookup_erase_ne hne

/-- The state on the database without the message. -/
def withoutMessage (s : MsgSys) (m : MsgId) : MsgSys :=
  { s with shared := { s.shared with
      store := { s.shared.store with tables := s.shared.store.tables.without m } } }

/-- The user owns neither side of the message. -/
structure Outsider (t : MsgTables) (user : UserId) (m : MsgId) (r : Message) : Prop where
  row : t.message m = some r
  sender : ∀ agent, t.agent r.fromAgentId = some agent → agent.userId ≠ user
  recipient : ∀ agent, t.agent r.toAgentId = some agent → agent.userId ≠ user

/-- What the lookups go by: the message is another user's, and so is the recipient. -/
structure Foreign (t : MsgTables) (user : UserId) (m : MsgId) (r : Message) : Prop where
  row : t.message m = some r
  owner : r.userId ≠ user
  recipient : ∀ agent, t.agent r.toAgentId = some agent → agent.userId ≠ user

/-- The user of a message owns its sender. -/
theorem Outsider.foreign (ht : t₀.Blank) (hl : MsgLegal env t₀ h)
    (hout : Outsider (replayed t₀ h) user m r) : Foreign (replayed t₀ h) user m r := by
  obtain ⟨agent, ha, howner⟩ := sender_of_row ht hl hout.row
  exact ⟨hout.row, howner ▸ hout.sender agent ha, hout.recipient⟩

theorem Foreign.messageForUser (hf : Foreign t user m r) : messageForUser t user m = none := by
  unfold Messages.messageForUser
  rw [hf.row, Option.bind_some]
  cases ha : t.agent r.toAgentId with
  | none => rfl
  | some agent =>
    rw [Option.bind_some, if_neg]
    exact not_or.mpr ⟨hf.owner, hf.recipient agent ha⟩

theorem messageForUser_without : messageForUser (t.without m) user m = none := by
  unfold messageForUser
  rw [MsgTables.message_without]
  rfl

/-- A key of the user is not on the message. -/
theorem Foreign.keyedSince (hf : Foreign t user m r) (key : String) (cutoff : Time) :
    keyedSince (t.without m) user key cutoff = keyedSince t user key cutoff := by
  have hunkeyed : r.keyed ≠ some (user, key) := by
    intro hk
    obtain ⟨key', -, heq⟩ := Option.map_eq_some_iff.mp hk
    cases heq
    exact hf.owner rfl
  have hkeys : keysWhere (t.without m).messages (fun _ r =>
      r.keyed = some (user, key) && cutoff < r.createdAt) = keysWhere t.messages fun _ r =>
      r.keyed = some (user, key) && cutoff < r.createdAt := by
    refine keysWhere_erase fun row hrow => ?_
    obtain rfl := Option.some.inj (hf.row.symm.trans hrow)
    simp [hunkeyed]
  unfold Messages.keyedSince
  rw [hkeys]
  cases hhead : (keysWhere t.messages fun _ r =>
      r.keyed = some (user, key) && cutoff < r.createdAt).head? with
  | none => rfl
  | some m' =>
    have hne : m' ≠ m := by
      rintro rfl
      obtain ⟨row, hrow, hwh⟩ := (Scheduler.mem_keysWhere _ _ _).mp (List.mem_of_mem_head? hhead)
      obtain rfl := Option.some.inj (hf.row.symm.trans hrow)
      simp [hunkeyed] at hwh
    rw [Option.bind_some, Option.bind_some, MsgTables.message_without_of_ne hne]

/-! ## In lockstep -/

/-- The two runs of `p` before it has asked for a parent. -/
structure Paired (t : MsgTables) (m : MsgId) (p : Pid) (w w' : MsgWorld) : Prop where
  tables : w.store.tables = t
  tables' : w'.store.tables = t.without m
  buf : w.store.buf p = []
  buf' : w'.store.buf p = []
  clock : w'.clock = w.clock
  unresolved : ∀ m' found, .marked p (.resolved m' found) ∉ w'.history

namespace Paired

variable {w w' : MsgWorld}

theorem view (hp : Paired t m p w w') : w.view p = t := by
  simp [World.view, Store.view, hp.buf, hp.tables]

theorem view' (hp : Paired t m p w w') : w'.view p = t.without m := by
  simp [World.view, Store.view, hp.buf', hp.tables']

theorem note (hp : Paired t m p w w') {mark mark' : MsgMark}
    (hmark : ∀ m' found, mark' ≠ .resolved m' found) :
    Paired t m p (note w p mark) (note w' p mark') where
  tables := hp.tables
  tables' := hp.tables'
  buf := hp.buf
  buf' := hp.buf'
  clock := hp.clock
  unresolved m' found hm := by
    rcases List.mem_cons.mp hm with heq | hm
    · cases heq
      exact hmark m' found rfl
    · exact hp.unresolved m' found hm

end Paired

section Rules

variable {α β : Type} {D : MsgProgram α → Prop} {Q : α → Prop}

theorem blind_select {q : MsgTables → β} {k : β → MsgProgram α} (hq : q (t.without m) = q t)
    (hk : ∀ x, (k x).Blind (Paired t m p) D Q) : (select p q >>= k).Blind (Paired t m p) D Q :=
  Prog.blind_step fun w w' i hp =>
    .inr ⟨q t, w, w', by rw [hp.view], by rw [hp.view', hq], hp, hk _⟩

theorem blind_clock {k : Time → MsgProgram α} (hk : ∀ now, (k now).Blind (Paired t m p) D Q) :
    (clock >>= k).Blind (Paired t m p) D Q :=
  Prog.blind_step fun w w' i hp => .inr ⟨w.clock, w, w', rfl, by rw [hp.clock], hp, hk _⟩

theorem blind_askBool {k : Bool → MsgProgram α} (hk : ∀ b, (k b).Blind (Paired t m p) D Q) :
    (askBool >>= k).Blind (Paired t m p) D Q := by
  refine Prog.blind_step fun w w' i hp => ?_
  cases i with
  | bool b => exact .inr ⟨b, w, w', rfl, rfl, hp, hk b⟩
  | _ => exact .inl ⟨rfl, rfl⟩

theorem blind_askCount {k : Option Nat → MsgProgram α}
    (hk : ∀ n, (k n).Blind (Paired t m p) D Q) : (askCount >>= k).Blind (Paired t m p) D Q := by
  refine Prog.blind_step fun w w' i hp => ?_
  cases i with
  | number n => exact .inr ⟨some n, w, w', rfl, rfl, hp, hk _⟩
  | redisError => exact .inr ⟨none, w, w', rfl, rfl, hp, hk _⟩
  | _ => exact .inl ⟨rfl, rfl⟩

theorem blind_expireCounter {k : Bool → MsgProgram α}
    (hk : ∀ b, (k b).Blind (Paired t m p) D Q) :
    (expireCounter >>= k).Blind (Paired t m p) D Q := by
  refine Prog.blind_step fun w w' i hp => ?_
  cases i with
  | go => exact .inr ⟨true, w, w', rfl, rfl, hp, hk _⟩
  | redisError => exact .inr ⟨false, w, w', rfl, rfl, hp, hk _⟩
  | _ => exact .inl ⟨rfl, rfl⟩

theorem blind_selectMessageForUser {k : Option Message → MsgProgram α} (hf : Foreign t user m r)
    (hk : (k none).Blind (Paired t m p) D Q) :
    (selectMessageForUser p user m >>= k).Blind (Paired t m p) D Q := by
  refine Prog.blind_step fun w w' i hp => .inr ⟨none, w, w', ?_, ?_, hp, hk⟩
  · simp only [hp.view, hf.messageForUser]
  · simp only [hp.view', messageForUser_without]

theorem blind_lookupKey {k : Option (MsgId × Message) → MsgProgram α} {cutoff : Time}
    {fields : Fingerprinted} (hf : Foreign t user m r)
    (hk : ∀ found, (k found).Blind (Paired t m p) D Q) :
    (lookupKey p user key cutoff fields >>= k).Blind (Paired t m p) D Q := by
  refine Prog.blind_step fun w w' i hp => ?_
  have hfound := hf.keyedSince key cutoff
  generalize hsince : keyedSince t user key cutoff = found at hfound
  refine .inr ⟨found, note w p (.looked cutoff w.clock fields (found.map Prod.fst)),
    note w' p (.looked cutoff w.clock fields (found.map Prod.fst)), ?_, ?_, hp.note (by simp), hk _⟩
  · simp only [hp.view, hsince]
  · simp only [hp.view', hfound, hp.clock]

theorem blind_orReply {x : Except ApiError β} {k : β → MsgProgram MsgReply}
    {D : MsgProgram MsgReply → Prop} {Q : MsgReply → Prop} (he : ∀ e, Q (.error e))
    (hk : ∀ b, (k b).Blind (Paired t m p) D Q) : (orReply x k).Blind (Paired t m p) D Q := by
  cases x with
  | error e => exact he e
  | ok b => exact hk b

end Rules

/-! ## The checks of a send -/

section Checks

variable {α : Type}

/-- The checks before the thread is looked up come to one result in both runs. -/
abbrev SameCourse (t : MsgTables) (m : MsgId) (p : Pid) (prog : MsgProgram α) : Prop :=
  prog.Blind (Paired t m p) (fun _ => False) fun _ => True

theorem same_selectAgent {addr : Address} : SameCourse t m p (selectAgent env p addr) := by
  unfold selectAgent
  split
  · trivial
  · change SameCourse t m p (select p (fun t => resolveAgent env t addr) >>= Prog.ret)
    exact blind_select rfl fun _ => trivial

theorem same_resolveReplyToAgent {addr : Option Address} :
    SameCourse t m p (resolveReplyToAgent env p addr) := by
  cases addr with
  | none => trivial
  | some addr => exact Prog.Blind.bind same_selectAgent fun _ _ => trivial

theorem same_authorizeMessage {replyToAgent : Option AgentId} :
    SameCourse t m p (authorizeMessage replyToAgent) := by
  refine blind_askBool fun primaryAllowed => ?_
  split
  · trivial
  split
  · trivial
  refine blind_askBool fun replyAllowed => ?_
  split <;> trivial

theorem same_incrHourly : SameCourse t m p incrHourly := by
  refine blind_askCount fun count? => ?_
  split
  · exact blind_expireCounter fun _ => trivial
  · trivial

theorem same_checkPriorityHighLimits {priority : Nat} :
    SameCourse t m p (checkPriorityHighLimits priority) := by
  unfold checkPriorityHighLimits
  split
  · trivial
  refine Prog.Blind.bind same_incrHourly fun senderCount? _ => ?_
  split
  · trivial
  split
  · trivial
  refine Prog.Blind.bind same_incrHourly fun pairCount? _ => ?_
  split <;> trivial

theorem same_checkLimits {priority : Nat} : SameCourse t m p (checkLimits env user priority) := by
  unfold checkLimits
  split
  · trivial
  refine Prog.Blind.bind (P := fun _ => True) ?_ fun rate? _ => ?_
  · refine blind_askCount fun count? => ?_
    split <;> trivial
  split
  · trivial
  · exact same_checkPriorityHighLimits

theorem same_checkMessageQuota : SameCourse t m p (checkMessageQuota env user) := by
  unfold checkMessageQuota
  split
  · trivial
  refine blind_askCount fun count? => ?_
  dsimp only
  split <;> trivial

theorem same_checkIdempotency {fields : Fingerprinted} {fingerprint : String} {key? : Option String}
    (hf : Foreign t user m r) :
    SameCourse t m p (checkIdempotency p user key? fields fingerprint) := by
  cases key? with
  | none => trivial
  | some key =>
    refine blind_clock fun now => blind_lookupKey hf fun existing => ?_
    split
    · trivial
    split <;> trivial

end Checks

/-- The lookup of the parent `m`, after which a missing parent ends the request with an error that a
parent which is there never leads to. -/
def AsksParent (p : Pid) (m : MsgId) (text : String) (prog : MsgProgram MsgReply) : Prop :=
  ∃ k, prog = selectParent p m >>= k ∧ k none = .ret (.error (replyToNotFound text)) ∧
    ∀ parent, (k (some parent)).Leaves fun reply => reply ≠ .error (replyToNotFound text)

/-- The reply returns no new message. -/
def CreatesNothing (reply : MsgReply) : Prop :=
  ∀ m msg downgraded, reply ≠ .sent m msg false downgraded

theorem internal_ne_replyToNotFound :
    MsgReply.error internalServerError ≠ .error (replyToNotFound text) := by
  simp [internalServerError, replyToNotFound]

theorem leaves_persist {d : Draft} {downgraded : Bool} :
    (persist env p d downgraded).Leaves fun reply => reply ≠ .error (replyToNotFound text) := by
  unfold persist
  split
  · exact internal_ne_replyToNotFound
  intro inserted?
  cases inserted? with
  | none => exact internal_ne_replyToNotFound
  | some m' =>
    intro inlineSub _
    change (enqueueDelivery p d m' >>= _).Leaves _
    refine Prog.Leaves.bind fun _ => ?_
    intro seen _ _ row?
    cases row? with
    | none => exact internal_ne_replyToNotFound
    | some row => exact fun h => (by cases h)

theorem blind_createKeyed (hf : Foreign t user m r) (hreply : req.data.replyTo = some (m, text))
    {createdAt : Time} {fromAgent toAgent : AgentId × Agent} {replyToAgent : Option AgentId}
    {priority : Nat} {downgraded : Bool} :
    (createKeyed env p user createdAt fromAgent toAgent replyToAgent priority downgraded req).Blind
      (Paired t m p) (AsksParent p m text) CreatesNothing := by
  have error : ∀ e, CreatesNothing (.error e) := fun e m' msg dg h => (by cases h)
  refine Prog.Blind.bind (same_checkIdempotency hf) fun existing? _ => ?_
  refine blind_orReply error fun existing => ?_
  split
  · exact fun m' msg dg h => (by cases h)
  refine Prog.Blind.bind same_checkMessageQuota fun quota? _ => blind_orReply error fun _ => ?_
  rw [hreply]
  refine .inl ⟨_, rfl, rfl, fun parent => ?_⟩
  intro now
  change (orReply (effectiveSendAt now req.data.sendAt) _).Leaves _
  cases hsend : effectiveSendAt now req.data.sendAt with
  | error e =>
    obtain ⟨-, rfl⟩ := effectiveSendAt_error hsend
    exact internal_ne_replyToNotFound
  | ok sendAt => exact leaves_persist

/-- A send takes one course with and without the message, up to the lookup of its parent. -/
theorem blind_sendMessage (hf : Foreign t user m r) (hreply : req.data.replyTo = some (m, text)) :
    (sendMessage env p user req).Blind (Paired t m p) (AsksParent p m text) CreatesNothing := by
  have error : ∀ e, CreatesNothing (.error e) := fun e m' msg dg h => (by cases h)
  refine blind_clock fun createdAt => ?_
  split
  · exact error _
  refine blind_select rfl fun fromAgent? => blind_orReply error fun fromAgent => ?_
  split
  · exact error _
  refine blind_orReply error fun _ => ?_
  refine Prog.Blind.bind same_selectAgent fun toAgent? _ => blind_orReply error fun toAgent => ?_
  refine Prog.Blind.bind same_resolveReplyToAgent fun replyToAgent? _ => ?_
  refine blind_orReply error fun replyToAgent => ?_
  refine Prog.Blind.bind same_authorizeMessage fun allowed? _ => blind_orReply error fun _ => ?_
  refine Prog.Blind.bind same_checkLimits fun limits? _ => blind_orReply error fun limits => ?_
  exact blind_createKeyed hf hreply

/-! ## Two databases -/

theorem Paired.tick {w w' : MsgWorld} (hp : Paired t m p w w') (d : Nat) :
    Paired t m p (tick d w) (tick d w') :=
  ⟨hp.tables, hp.tables', hp.buf, hp.buf', congrArg (· + (d : Int)) hp.clock, hp.unresolved⟩

/-- A request that is run alone on the two databases. -/
structure Compared (env : MsgEnv) (s : MsgSys) (m : MsgId) (p : Pid) (call : MsgCall)
    (v v' : MsgSys) (reply reply' : MsgReply) : Prop where
  runs : ∃ ms, msgRun env s (.start p call :: ms.map (moved p)) = some v ∧
    ∃ ms', msgRun env (withoutMessage s m) (.start p call :: ms'.map (moved p)) = some v' ∧
      (ms <+: ms' ∨ ms' <+: ms)
  reply : v.procs p = some (.ret reply)
  reply' : v'.procs p = some (.ret reply')

/-- The program of a request that is started. -/
theorem play_of_start {s v : MsgSys} {call : MsgCall} {reply : MsgReply} {ms : List (Move Nat MsgAnswer)}
    (hrun : msgRun env s (.start p call :: ms.map (moved p)) = some v)
    (hv : v.procs p = some (.ret reply)) :
    own p s.shared.history = [] ∧ s.shared.store.buf p = [] ∧
      (msgProgramOf env p call).play Recorded.tick (s.shared.log (.began p call)) ms =
        some (.ret reply, v.shared) := by
  obtain ⟨s₁, hs, hrun⟩ := Option.bind_eq_some_iff.mp hrun
  simp only [Recorded.step] at hs
  split at hs
  · rename_i hcond
    cases hs
    obtain ⟨m', hp, hplay⟩ := play_of_run (m := msgProgramOf env p call) (by simp [Config.put]) hrun
    cases hv.symm.trans hp
    exact ⟨List.isEmpty_iff.mp hcond.1, List.isEmpty_iff.mp hcond.2, hplay⟩
  · cases hs

/-- A request that does not tell the databases apart before `D` replies the same in both, unless it
comes to `D` in both. -/
theorem Compared.blind {call : MsgCall} {reply reply' : MsgReply} {D : MsgProgram MsgReply → Prop}
    {Q : MsgReply → Prop} (hc : Compared env s m p call v v' reply reply')
    (hb : (msgProgramOf env p call).Blind (Paired s.shared.tables m p) D Q) :
    (reply = reply' ∧ Q reply ∧ ∀ m' found, .marked p (.resolved m' found) ∉ v'.shared.history) ∨
    ∃ m₀ u u' ns ns', D m₀ ∧ Paired s.shared.tables m p u u' ∧
      m₀.play Recorded.tick u ns = some (.ret reply, v.shared) ∧
      m₀.play Recorded.tick u' ns' = some (.ret reply', v'.shared) := by
  obtain ⟨ms, hrun, ms', hrun', hms⟩ := hc.runs
  obtain ⟨hown, hbuf, hplay⟩ := play_of_start hrun hc.reply
  obtain ⟨-, -, hplay'⟩ := play_of_start hrun' hc.reply'
  have hp : Paired s.shared.tables m p (s.shared.log (.began p call))
      ((withoutMessage s m).shared.log (.began p call)) := by
    refine ⟨rfl, rfl, hbuf, hbuf, rfl, fun m' found hm => ?_⟩
    rcases List.mem_cons.mp hm with heq | hm
    · cases heq
    · have hin : .marked p (.resolved m' found) ∈ own p s.shared.history := mem_own.mpr ⟨hm, rfl⟩
      rw [hown] at hin
      cases hin
  rcases Prog.Blind.play hb (fun d w w' hp => hp.tick d) hp hplay hplay' hms with
    ⟨heq, hq, u, u', hp', -, hd'⟩ | hpart
  · refine .inl ⟨heq, hq, fun m' found => ?_⟩
    rw [(drifted_tick hd').2]
    exact hp'.unresolved m' found
  · exact .inr hpart

/-- The user is on one side of a message of the thread. -/
def TakesPart (t : MsgTables) (user : UserId) (thread : MsgId) : Prop :=
  ∃ m r, t.message m = some r ∧ r.threadId = thread ∧
    (r.userId = user ∨ ∃ agent, t.agent r.toAgentId = some agent ∧ agent.userId = user)

/-- Nothing is told: one reply in both databases, and no new message in the thread of `r` but of
someone who takes part in it. -/
def TellsNothing (t : MsgTables) (user : UserId) (r : Message) (reply reply' : MsgReply) : Prop :=
  reply = reply' ∧ ∀ m msg downgraded, reply = .sent m msg false downgraded →
    msg.threadId = r.threadId → TakesPart t user r.threadId

/-- What the lookup of the parent leads to in the two databases. -/
theorem AsksParent.replies {m₀ : MsgProgram MsgReply} {w w' u u' : MsgWorld}
    {ns ns' : List (Move Nat MsgAnswer)} {reply reply' : MsgReply} (ha : AsksParent p m text m₀)
    (hp : Paired t m p w w') (hrow : t.message m = some r)
    (hplay : m₀.play Recorded.tick w ns = some (.ret reply, u))
    (hplay' : m₀.play Recorded.tick w' ns' = some (.ret reply', u')) :
    reply ≠ reply' ∧ .marked p (.resolved m false) ∈ u'.history := by
  obtain ⟨k, rfl, hmissing, hthere⟩ := ha
  obtain ⟨w₁, i, parent, w₂, ns₁, hd, hact, hplay⟩ := Prog.play_step hplay
  obtain ⟨w₁', i', parent', w₂', ns₁', hd', hact', hplay'⟩ := Prog.play_step hplay'
  obtain ⟨hstore, -⟩ := drifted_tick hd
  obtain ⟨hstore', -⟩ := drifted_tick hd'
  have hview : w₁.view p = t := by
    rw [World.view, hstore]
    exact hp.view
  have hview' : w₁'.view p = t.without m := by
    rw [World.view, hstore']
    exact hp.view'
  simp only [hview, hrow] at hact
  simp only [hview', MsgTables.message_without] at hact'
  cases hact
  cases hact'
  rw [hmissing] at hplay'
  obtain ⟨heq, hdrift⟩ := Prog.play_ret hplay'
  cases heq
  refine ⟨Prog.Leaves.play (Q := fun reply => reply ≠ .error (replyToNotFound text)) (hthere r) hplay,
    ?_⟩
  rw [(drifted_tick hdrift).2]
  exact List.mem_cons_self

/-- A third party learns nothing of a message by reading or marking it, and by replying to it only
if its request gets as far as the lookup of the parent. -/
theorem outsider_blind (ht : t₀.Blank) (hr : MsgReachable env t₀ s)
    (hout : Outsider s.shared.tables user m r) {call : MsgCall} {reply reply' : MsgReply}
    (hc : Compared env s m p call v v' reply reply') :
    (∀ text, call = .getMessage user m text ∨ call = .markRead user m text ∨
      call = .markAcked user m text → TellsNothing s.shared.tables user r reply reply') ∧
    ∀ req text, call = .sendMessage user req → req.data.replyTo = some (m, text) →
      (TellsNothing s.shared.tables user r reply reply' ↔
        ∀ found, .marked p (.resolved m found) ∉ v'.shared.history) := by
  have hf : Foreign s.shared.tables user m r := by
    rw [hr.tables_eq ht] at hout ⊢
    exact hout.foreign ht (hr.legal ht)
  constructor
  · intro text hcall
    have hb : (msgProgramOf env p call).Blind (Paired s.shared.tables m p) (fun _ => False)
        CreatesNothing := by
      have error : CreatesNothing (.error (messageNotFound text)) := fun m' msg dg h => (by cases h)
      rcases hcall with rfl | rfl | rfl <;> exact blind_selectMessageForUser hf error
    rcases hc.blind hb with ⟨heq, hquiet, -⟩ | ⟨m₀, u, u', ns, ns', hfalse, -⟩
    · exact ⟨heq, fun m' msg dg hsent => absurd hsent (hquiet m' msg dg)⟩
    · exact hfalse.elim
  · rintro req text rfl hreply
    rcases hc.blind (blind_sendMessage hf hreply) with
      ⟨heq, hquiet, hno⟩ | ⟨m₀, u, u', ns, ns', ha, hp, hplay, hplay'⟩
    · exact iff_of_true ⟨heq, fun m' msg dg hsent => absurd hsent (hquiet m' msg dg)⟩ (hno m)
    · obtain ⟨hne, hmark⟩ := ha.replies hp hf.row hplay hplay'
      exact iff_of_false (fun htells => hne htells.1) fun hno => hno false hmark

/-! ## A third party -/

/-- Agent 3 of user 3 besides. -/
def threeUsers : MsgTables :=
  { twoUsers with agents := Scheduler.insertNew twoUsers.agents 3 { userId := 3, slug := "c" } }

theorem blank_threeUsers : threeUsers.Blank := ⟨fun _ => rfl, fun _ => rfl, fun _ => rfl⟩

/-- User 3 answers message 5, which is between users 1 and 2. -/
def intrusion : SendRequest where
  fromAgent := some (.id 3 "agt_3")
  data := { toAgent := .id 1 "agt_1", body := "hi", replyTo := some (5, "msg_5") }

/-- `Outsider` as a check. -/
def isOutsider (t : MsgTables) (user : UserId) (m : MsgId) : Bool :=
  (t.message m).any fun r => (t.agent r.fromAgentId).all (fun agent => agent.userId ≠ user) &&
    (t.agent r.toAgentId).all fun agent => agent.userId ≠ user

theorem of_isOutsider (h : isOutsider t user m = true) : ∃ r, Outsider t user m r := by
  obtain ⟨r, hr, hsides⟩ := (Option.any_eq_true _ _).mp h
  simp only [Bool.and_eq_true, Option.all_eq_true, decide_eq_true_eq] at hsides
  exact ⟨r, hr, hsides.1, hsides.2⟩

/-- The reply that a process has come to. -/
def replyOf (s : MsgSys) (p : Pid) : Option MsgReply :=
  match s.procs p with
  | some (.ret reply) => some reply
  | _ => none

theorem of_replyOf {reply : MsgReply} (h : replyOf s p = some reply) :
    s.procs p = some (.ret reply) := by
  unfold replyOf at h
  split at h
  · rename_i reply' hp
    cases h
    exact hp
  · cases h

/-- Run a request alone on the two databases and compare the replies. -/
def compare (env : MsgEnv) (s : MsgSys) (m : MsgId) (p : Pid) (call : MsgCall)
    (answers answers' : List MsgAnswer) (f : MsgReply → MsgReply → Bool) : Bool :=
  (msgRun env s (.start p call :: (answers.map .answer).map (moved p))).any fun v =>
    (msgRun env (withoutMessage s m) (.start p call :: (answers'.map .answer).map (moved p))).any
      fun v' => (replyOf v p).any fun reply => (replyOf v' p).any (f reply)

theorem of_compare {call : MsgCall} {answers answers' : List MsgAnswer}
    {f : MsgReply → MsgReply → Bool} (hans : answers' <+: answers)
    (h : compare env s m p call answers answers' f = true) :
    ∃ v v' reply reply', Compared env s m p call v v' reply reply' ∧ f reply reply' = true := by
  simp only [compare, Option.any_eq_true] at h
  obtain ⟨v, hrun, v', hrun', reply, hreply, reply', hreply', hf⟩ := h
  exact ⟨v, v', reply, reply', ⟨⟨_, hrun, _, hrun', .inr (hans.map _)⟩, of_replyOf hreply,
    of_replyOf hreply'⟩, hf⟩

theorem outsider_blind_get : ∃ s r v v' reply reply', MsgReachable oneUser threeUsers s ∧
    Outsider s.shared.tables 3 5 r ∧
    Compared oneUser s 5 2 (.getMessage 3 5 "msg_5") v v' reply reply' ∧
    TellsNothing s.shared.tables 3 r reply reply' := by
  obtain ⟨s, hr, hv⟩ := reachable_of_run_in oneUser threeUsers
    (playMsgAll 1 (.sendMessage 1 hello) (stores 5 7))
    (fun s => isOutsider s.shared.tables 3 5 &&
      compare oneUser s 5 2 (.getMessage 3 5 "msg_5") [.go] [.go] fun _ _ => true)
    (v := true) (by decide +kernel)
  obtain ⟨hout, hcmp⟩ := Bool.and_eq_true_iff.mp hv
  obtain ⟨r, hout⟩ := of_isOutsider hout
  obtain ⟨v, v', reply, reply', hc, -⟩ := of_compare (List.prefix_refl _) hcmp
  exact ⟨s, r, v, v', reply, reply', hr, hout, hc,
    (outsider_blind blank_threeUsers hr hout hc).1 "msg_5" (.inl rfl)⟩

/-- The third party's answer is created where the message is, and refused where it is not. -/
theorem outsider_replies : ∃ s r v v' reply reply', MsgReachable oneUser threeUsers s ∧
    Outsider s.shared.tables 3 5 r ∧
    Compared oneUser s 5 2 (.sendMessage 3 intrusion) v v' reply reply' ∧
    reply.sentId = some 6 ∧ reply'.sentId = none ∧
    ¬ TellsNothing s.shared.tables 3 r reply reply' := by
  obtain ⟨s, hr, hv⟩ := reachable_of_run_in oneUser threeUsers
    (playMsgAll 1 (.sendMessage 1 hello) (stores 5 7))
    (fun s => isOutsider s.shared.tables 3 5 &&
      compare oneUser s 5 2 (.sendMessage 3 intrusion)
        ([.go, .go, .go, .bool true, .number 0, .number 0, .go] ++ [.go, .fresh 6] ++
          List.replicate 6 .go)
        [.go, .go, .go, .bool true, .number 0, .number 0, .go]
        fun reply reply' => reply.sentId = some 6 && reply'.sentId = none)
    (v := true) (by decide +kernel)
  obtain ⟨hout, hcmp⟩ := Bool.and_eq_true_iff.mp hv
  obtain ⟨r, hout⟩ := of_isOutsider hout
  obtain ⟨v, v', reply, reply', hc, hf⟩ := of_compare (by simp) hcmp
  simp only [Bool.and_eq_true, decide_eq_true_eq] at hf
  refine ⟨s, r, v, v', reply, reply', hr, hout, hc, hf.1, hf.2, fun htells => ?_⟩
  rw [htells.1, hf.2] at hf
  cases hf.1

end CueApi.Messages
