import CueApi.Library.Solo
import CueApi.Messages.Scheduled

/-! The addresses in a pushed message (`_build_body`) and what `resolve_address` makes of them. The
tasks build both from the slug of the sender's user. -/

namespace CueApi.Messages

open Scheduler (Pid Time UserId OutboxId ApiError Json keysWhere insertNew lookup_insertNew)
open ReadCommitted Interleaving Trace Recorded

variable {env : MsgEnv} {t₀ t : MsgTables} {h : MsgHistory} {ev : MsgEvent} {p : Pid} {m : MsgId}
variable {s : MsgSys} {n : OutboxId} {j : MsgJob} {a : AgentId} {x : Agent} {ctx : MsgContext}
variable {letter : Char → Bool} {opaqueId : String → AgentId}

/-! ## The spelling of an address -/

/-- `str.isalnum` of a character: `letter` stands for the ones past ASCII. -/
def isalnum (letter : Char → Bool) (c : Char) : Bool :=
  if c.toNat < 128 then c.isAlphanum else letter c

def opaqueIdLength : Nat := 16

/-- `_looks_like_opaque_id`. -/
def looksLikeOpaqueId (letter : Char → Bool) (addr : List Char) : Bool :=
  addr.length = opaqueIdLength && addr.take 4 = ['a', 'g', 't', '_'] &&
    (addr.drop 4).all (isalnum letter)

/-- How `resolve_address` reads the text of an address; `opaqueId` numbers the spellings of ids. -/
def parseAddress (letter : Char → Bool) (opaqueId : String → AgentId) (addr : String) : Address :=
  if looksLikeOpaqueId letter addr.toList then .id (opaqueId addr) addr
  else
    match addr.toList.span (· ≠ '@') with
    | (_, []) => .malformed
    | (agentSlug, _ :: userSlug) =>
        if agentSlug = [] ∨ userSlug = [] then .halfSlug
        else .slug (String.ofList agentSlug) (String.ofList userSlug) addr

/-- `agent_slug@user_slug`. -/
def slugForm (agentSlug userSlug : String) : String := agentSlug ++ "@" ++ userSlug

/-! ## The body of a push -/

structure AgentRef where
  agentId : AgentId
  slug : String
  deriving DecidableEq, Repr

structure PushBody where
  id : MsgId
  sender : AgentRef
  recipient : AgentRef
  threadId : MsgId
  replyTo : Option MsgId
  subject : Option String
  body : String
  priority : Nat
  expectsReply : Bool
  replyToAgentId : Option AgentId
  metadata : Json
  createdAt : Time
  deriving DecidableEq, Repr

/-- `_build_body`; `from` and `to` are `sender` and `recipient` here. The metadata are a dict, which
`or {}` leaves as it is. -/
def buildBody (m : MsgId) (msg : Message) (fromAgent toAgent : AgentId × Agent)
    (senderUserSlug recipientUserSlug : String) : PushBody where
  id := m
  sender := ⟨fromAgent.1, slugForm fromAgent.2.slug senderUserSlug⟩
  recipient := ⟨toAgent.1, slugForm toAgent.2.slug recipientUserSlug⟩
  threadId := msg.threadId
  replyTo := msg.replyTo
  subject := msg.subject
  body := msg.body
  priority := msg.priority
  expectsReply := msg.expectsReply
  replyToAgentId := msg.replyToAgentId
  metadata := msg.metadata
  createdAt := msg.createdAt

/-- The body that both tasks push. -/
def MsgContext.body (ctx : MsgContext) (payload : MsgPayload) : PushBody :=
  buildBody payload.messageId ctx.msg (ctx.msg.fromAgentId, ctx.fromAgent)
    (payload.toAgentId, ctx.toAgent) ctx.userSlug ctx.userSlug

/-- What `_load_message_context` finds in one state of the database. -/
def messageContext (env : MsgEnv) (t : MsgTables) (m : MsgId) (toAgentId : AgentId) :
    Option MsgContext :=
  (t.message m).bind fun msg =>
    ((t.agent toAgentId).filter fun a => a.webhookUrl.isSome).bind fun toAgent =>
      (senderOf env t msg).map fun sender => ⟨msg, toAgent, sender.1, sender.2⟩

section Load

variable {α β : Type} {w : MsgWorld}

theorem surely_lookup {q : MsgTables → Option β} {k : Option β → MsgProgram α}
    {Q : α → MsgWorld → Prop} (hw : w.view p = t)
    (hk : ∀ w', w'.view p = t → (k (q t)).Surely False Q w') :
    (lookup p q >>= k).Surely False Q w := by
  unfold lookup
  cases hq : q t with
  | some x =>
    refine ⟨⟨.go, by simp only [hw, hq, Option.isSome_some]⟩, fun i r w'' hs => ?_⟩
    simp only [hw, hq] at hs
    cases hs
    exact hq ▸ hk w hw
  | none =>
    refine ⟨⟨.go, by simp only [hw, hq, Option.isSome_some]⟩, fun i r w'' hs => ?_⟩
    simp only [hw, hq] at hs
    cases hs
    exact hq ▸ hk (note w p .missing) hw

/-- The lookups of a task, when nothing comes between them. -/
theorem surely_loadMessageContext (hw : w.view p = t) :
    (loadMessageContext env p m a).Surely False (fun ctx? _ => ctx? = messageContext env t m a) w := by
  unfold messageContext
  refine surely_lookup hw fun w₁ hw₁ => ?_
  cases hmsg : t.message m with
  | none => rfl
  | some msg =>
    refine surely_lookup hw₁ fun w₂ hw₂ => ?_
    cases hto : (t.agent a).filter fun a => a.webhookUrl.isSome with
    | none => rfl
    | some toAgent =>
      refine surely_lookup hw₂ fun w₃ _ => ?_
      cases hsender : senderOf env t msg with
      | none => simp [Prog.Surely, pure, hsender]
      | some sender => simp [Prog.Surely, pure, hsender]

end Load

/-- What the context of a job consists of. -/
structure Loads (env : MsgEnv) (t : MsgTables) (m : MsgId) (a : AgentId) (ctx : MsgContext) :
    Prop where
  msg : t.message m = some ctx.msg
  toAgent : t.agent a = some ctx.toAgent
  fromAgent : t.agent ctx.msg.fromAgentId = some ctx.fromAgent
  userSlug : env.userSlug ctx.msg.userId = some ctx.userSlug

theorem loads_of_messageContext (hctx : messageContext env t m a = some ctx) :
    Loads env t m a ctx := by
  obtain ⟨msg, hmsg, hctx⟩ := Option.bind_eq_some_iff.mp hctx
  obtain ⟨toAgent, hto, hctx⟩ := Option.bind_eq_some_iff.mp hctx
  obtain ⟨sender, hsender, rfl⟩ := Option.map_eq_some_iff.mp hctx
  obtain ⟨fromAgent, hfrom, huser⟩ := Option.bind_eq_some_iff.mp hsender
  obtain ⟨slug, hslug, rfl⟩ := Option.map_eq_some_iff.mp huser
  exact ⟨hmsg, (Option.filter_eq_some_iff.mp hto).1, hfrom, hslug⟩

/-! ## Slugs -/

/-- What `_SLUG_PATTERN` and `_normalize` let into a slug. -/
def slugShaped (slug : String) : Bool :=
  !slug.isEmpty && slug.toList.all fun c => c.isLower || c.isDigit || c = '-'

/-- The shape of slugs and the constraints `unique_user_slug` and `unique_user_agent_slug`. -/
structure Slugs (env : MsgEnv) (t : MsgTables) : Prop where
  user : ∀ u v slug, env.userSlug u = some slug → env.userSlug v = some slug → u = v
  userShape : ∀ u slug, env.userSlug u = some slug → slugShaped slug = true
  agent : ∀ a b x y, t.agent a = some x → t.agent b = some y → x.userId = y.userId →
    x.slug = y.slug → a = b
  agentShape : ∀ a x, t.agent a = some x → slugShaped x.slug = true

theorem ne_nil_of_slugShaped {slug : String} (hs : slugShaped slug = true) : slug.toList ≠ [] := by
  intro hnil
  obtain rfl : slug = "" := String.toList_inj.mp hnil
  exact absurd hs (by decide)

theorem at_notMem_of_slugShaped {slug : String} (hs : slugShaped slug = true) :
    '@' ∉ slug.toList := by
  intro hmem
  simp only [slugShaped, Bool.and_eq_true, List.all_eq_true] at hs
  exact absurd (hs.2 '@' hmem) (by decide)

theorem toList_slugForm (agentSlug userSlug : String) :
    (slugForm agentSlug userSlug).toList = agentSlug.toList ++ '@' :: userSlug.toList := by
  simp [slugForm]

/-- A slug form is not taken for an opaque id: its `@` is among the first four characters, which
are others, or behind them, where no sign may stand. -/
theorem looksLikeOpaqueId_slugForm (agentSlug userSlug : String) :
    looksLikeOpaqueId letter (slugForm agentSlug userSlug).toList = false := by
  have hmem : '@' ∈ (slugForm agentSlug userSlug).toList := by simp [toList_slugForm]
  rw [← List.take_append_drop 4 (slugForm agentSlug userSlug).toList, List.mem_append] at hmem
  simp only [looksLikeOpaqueId, Bool.and_eq_false_iff, decide_eq_false_iff_not]
  rcases hmem with htake | hdrop
  · refine .inl (.inr fun heq => ?_)
    rw [heq] at htake
    exact absurd htake (by decide)
  · exact .inr (List.all_eq_false.mpr ⟨'@', hdrop, by simp [isalnum]⟩)

/-- An address that `_build_body` writes is read back as its two slugs. -/
theorem parseAddress_slugForm {agentSlug userSlug : String} (hagent : slugShaped agentSlug = true)
    (huser : slugShaped userSlug = true) :
    parseAddress letter opaqueId (slugForm agentSlug userSlug) =
      .slug agentSlug userSlug (slugForm agentSlug userSlug) := by
  have hspan : (slugForm agentSlug userSlug).toList.span (· ≠ '@') =
      (agentSlug.toList, '@' :: userSlug.toList) := by
    have hall : ∀ c ∈ agentSlug.toList, decide (c ≠ '@') = true := by
      intro c hc
      exact decide_eq_true fun heq => at_notMem_of_slugShaped hagent (heq ▸ hc)
    rw [List.span_eq_takeWhile_dropWhile, toList_slugForm, List.takeWhile_append_of_pos hall,
      List.dropWhile_append_of_pos hall]
    simp
  unfold parseAddress
  rw [looksLikeOpaqueId_slugForm, hspan]
  simp [ne_nil_of_slugShaped hagent, ne_nil_of_slugShaped huser]

/-! ## Resolving -/

/-- The slugs of an agent that is not deleted lead to it. -/
theorem resolve_own (hs : Slugs env t) (hx : t.agent a = some x) (hlive : x.deletedAt = none)
    {slug : String} (hslug : env.userSlug x.userId = some slug) :
    resolveAddress env t (parseAddress letter opaqueId (slugForm x.slug slug)) = .ok a := by
  rw [parseAddress_slugForm (hs.agentShape a x hx) (hs.userShape _ _ hslug)]
  have hfound : findAgent t (fun agent => bySlug env x.slug slug agent && agent.deletedAt = none) =
      some a := by
    have hmem : a ∈ keysWhere t.agents fun _ agent =>
        bySlug env x.slug slug agent && agent.deletedAt = none :=
      (Scheduler.mem_keysWhere _ _ _).mpr ⟨x, hx, by simp [bySlug, hslug, hlive]⟩
    obtain ⟨b, hb⟩ := Option.isSome_iff_exists.mp
      (List.isSome_head?.mpr (List.ne_nil_of_mem hmem))
    obtain ⟨y, hy, hwh⟩ := (Scheduler.mem_keysWhere _ _ _).mp (List.mem_of_mem_head? hb)
    simp only [bySlug, Bool.and_eq_true, decide_eq_true_eq] at hwh
    rwa [hs.agent b a y x hy hx (hs.user _ _ _ hwh.1.1 hslug) hwh.1.2] at hb
  simp only [resolveAddress, hfound]

/-- What a slug form leads to has its slugs. -/
theorem slug_of_resolve {agentSlug slug text : String}
    (hres : resolveAddress env t (.slug agentSlug slug text) = .ok a) (hx : t.agent a = some x) :
    env.userSlug x.userId = some slug := by
  simp only [resolveAddress] at hres
  split at hres
  · rename_i b hfound
    cases hres
    obtain ⟨y, hy, hwh⟩ := (Scheduler.mem_keysWhere _ _ _).mp (List.mem_of_mem_head? hfound)
    cases hy.symm.trans hx
    simp only [bySlug, Bool.and_eq_true, decide_eq_true_eq] at hwh
    exact hwh.1.1
  · cases hres

/-! ## Slugs stay -/

@[simp] theorem AgentUpdate.set_slug (u : AgentUpdate) (agent : Agent) :
    (u.set agent).slug = agent.slug := by
  cases u <;> rfl

/-- An agent is not inserted by messaging, and keeps its owner and its slug. -/
theorem agent_before {w : MsgWrite} (hx : (MsgTables.apply w t).agent a = some x) :
    ∃ y, t.agent a = some y ∧ x.userId = y.userId ∧ x.slug = y.slug := by
  rw [MsgTables.agent_apply] at hx
  cases w with
  | bumpLastSeen a' now =>
    dsimp only at hx
    split at hx
    · obtain ⟨y, hy, rfl⟩ := Option.map_eq_some_iff.mp hx
      exact ⟨y, hy, rfl, rfl⟩
    · exact ⟨x, hx, rfl, rfl⟩
  | updateAgent a' u =>
    dsimp only at hx
    split at hx
    · obtain ⟨y, hy, rfl⟩ := Option.map_eq_some_iff.mp hx
      exact ⟨y, hy, u.set_userId y, u.set_slug y⟩
    · exact ⟨x, hx, rfl, rfl⟩
  | _ => exact ⟨x, hx, rfl, rfl⟩

theorem Slugs.apply (hs : Slugs env t) (w : MsgWrite) : Slugs env (MsgTables.apply w t) where
  user := hs.user
  userShape := hs.userShape
  agent a b x y hx hy huser hslug := by
    obtain ⟨x', hx', hxu, hxs⟩ := agent_before hx
    obtain ⟨y', hy', hyu, hys⟩ := agent_before hy
    exact hs.agent a b x' y' hx' hy' (hxu ▸ hyu ▸ huser) (hxs ▸ hys ▸ hslug)
  agentShape a x hx := by
    obtain ⟨y, hy, -, hslug⟩ := agent_before hx
    rw [hslug]
    exact hs.agentShape a y hy

theorem Slugs.replayed (hs : Slugs env t₀) (h : MsgHistory) : Slugs env (replayed t₀ h) := by
  have run : ∀ (ws : List MsgWrite) {t}, Slugs env t → Slugs env (msgSchema.applyAll ws t) := by
    intro ws t ht
    induction ws with
    | nil => exact ht
    | cons w ws ih => exact ih.apply w
  induction h with
  | nil => exact hs
  | cons ev h ih => exact run ev.writes ih

/-! ## Payloads -/

/-- Every row of the outbox names the recipient of its message. -/
def Addressed (t : MsgTables) : Prop :=
  ∀ n o, t.outboxRow n = some o →
    ∃ r, t.message o.payload.messageId = some r ∧ r.toAgentId = o.payload.toAgentId

theorem toAgentId_of_core {r r' : Message} (hcore : r'.core = r.core) :
    r'.toAgentId = r.toAgentId :=
  (congrArg Message.toAgentId hcore : r'.core.toAgentId = r.core.toAgentId)

theorem message_later {r : Message} (hr : (replayed t₀ h).message m = some r)
    (ev : MsgEvent) : ∃ r', (replayed t₀ (ev :: h)).message m = some r' ∧
      r'.toAgentId = r.toAgentId := by
  obtain ⟨r', hr', hcore⟩ :=
    (MsgTables.Grows.replayed_suffix (List.suffix_cons ev h)).message hr
  exact ⟨r', hr', toAgentId_of_core hcore⟩

/-- A job from the queue carries the payload of a row. -/
theorem Addressed.job (hl : MsgLegal env t₀ h) (had : Addressed (replayed t₀ h))
    (hq : Along (fun h ev => fromQueue h ev = true) h) (hj : .began p (MsgJob.call j) ∈ h) :
    ∃ r, (replayed t₀ h).message j.message = some r ∧ r.toAgentId = j.payload.toAgentId := by
  obtain ⟨q, n, hm⟩ := (queued_of_queuedJobs hq).2 p j hj
  obtain ⟨o, ho, rfl⟩ := enqueued_row hl hm
  exact had n o ho

/-- The step lemma. -/
theorem Addressed.step (hl : MsgLegal env t₀ (ev :: h)) (had : Addressed (replayed t₀ h))
    (hq : Along (fun h ev => fromQueue h ev = true) h) : Addressed (replayed t₀ (ev :: h)) := by
  intro n o ho
  have later : ∀ {m r}, (replayed t₀ h).message m = some r → o.payload.messageId = m →
      r.toAgentId = o.payload.toAgentId → ∃ r, (replayed t₀ (ev :: h)).message
        o.payload.messageId = some r ∧ r.toAgentId = o.payload.toAgentId := by
    intro m r hr hm hto
    obtain ⟨r', hr', hto'⟩ := message_later hr ev
    exact ⟨r', hm ▸ hr', hto'.trans hto⟩
  cases outbox_moves hl.1 n with
  | same hsame =>
    obtain ⟨r, hr, hto⟩ := had n o (hsame.symm.trans ho)
    exact later hr rfl hto
  | inserted p time ws call o' hev hc hnone hrow he =>
    obtain rfl : o' = o := Option.some.inj (hrow.symm.trans ho)
    cases he with
    | recycled j now hown =>
      obtain ⟨r, hr, hto⟩ := had.job hl.2 hq (mem_of_own_eq hown List.mem_cons_self)
      exact later hr rfl hto
    | retried j result url scheduledAt hans hlt hws =>
      obtain ⟨r, hr, hto⟩ := had.job hl.2 hq hans.began
      exact later hr rfl hto
    | recovered staleSeconds now i hok hlt hws => exact later hok.row rfl rfl
    | created user req d m x n' inlineSub seen hnew =>
      subst hev
      obtain ⟨d', m', hm', hto, -, hr⟩ := stored_outbox hl.1 hc hnone hrow
      exact ⟨d'.row env m', hm' ▸ hr, hto.symm⟩
  | dispatched p time ns j o' hev hmark hrow hrow' =>
    obtain rfl := Option.some.inj (hrow'.symm.trans ho)
    obtain ⟨r, hr, hto⟩ := had n o' hrow
    exact later hr rfl hto

theorem addressed_replayed (ht : t₀.Blank) (hl : MsgLegal env t₀ h)
    (hq : Along (fun h ev => fromQueue h ev = true) h) : Addressed (replayed t₀ h) := by
  induction h with
  | nil =>
    intro n o ho
    rw [show (replayed t₀ []).outboxRow n = none from ht.outboxRow n] at ho
    cases ho
  | cons ev h ih => exact (ih hl.2 hq.2).step hl hq.2

/-! ## Addresses -/

/-- Both addresses of a pushed body lead where they should. -/
structure Resolves (env : MsgEnv) (letter : Char → Bool) (opaqueId : String → AgentId)
    (t : MsgTables) (msg : Message) (body : PushBody) : Prop where
  sender : resolveAddress env t (parseAddress letter opaqueId body.sender.slug) = .ok msg.fromAgentId
  recipient : resolveAddress env t (parseAddress letter opaqueId body.recipient.slug) =
    .ok msg.toAgentId

/-- The sender's address is right in any case, the recipient's within one user. -/
theorem resolves_iff (hs : Slugs env t) (hload : Loads env t m ctx.msg.toAgentId ctx)
    (howner : ctx.fromAgent.userId = ctx.msg.userId) (hfrom : ctx.fromAgent.deletedAt = none)
    (hto : ctx.toAgent.deletedAt = none) {payload : MsgPayload} :
    Resolves env letter opaqueId t ctx.msg (ctx.body payload) ↔
      ctx.toAgent.userId = ctx.msg.userId := by
  constructor
  · intro hres
    have hto := hres.recipient
    change resolveAddress env t (parseAddress letter opaqueId
      (slugForm ctx.toAgent.slug ctx.userSlug)) = _ at hto
    rw [parseAddress_slugForm (hs.agentShape _ _ hload.toAgent)
      (hs.userShape _ _ hload.userSlug)] at hto
    exact hs.user _ _ _ (slug_of_resolve hto hload.toAgent) hload.userSlug
  · intro htenant
    exact ⟨resolve_own hs hload.fromAgent hfrom (howner ▸ hload.userSlug),
      resolve_own hs hload.toAgent hto (htenant ▸ hload.userSlug)⟩

/-- What a job from the queue loads is the message with its own agents. -/
theorem loads_of_job (ht : t₀.Blank) (hr : MsgReachable env t₀ s)
    (hq : Along (fun h ev => fromQueue h ev = true) s.shared.history)
    (hj : .began p (MsgJob.call j) ∈ s.shared.history)
    (hctx : messageContext env s.shared.tables j.message j.payload.toAgentId = some ctx) :
    Loads env s.shared.tables j.message ctx.msg.toAgentId ctx ∧
      ctx.fromAgent.userId = ctx.msg.userId := by
  have hload := loads_of_messageContext hctx
  have hl := hr.legal ht
  rw [hr.tables_eq ht] at hload ⊢
  obtain ⟨r, hrow, hrecipient⟩ := (addressed_replayed ht hl hq).job hl hq hj
  obtain rfl : r = ctx.msg := Option.some.inj (hrow.symm.trans hload.msg)
  obtain ⟨agent, hagent, howner⟩ := sender_of_row ht hl hrow
  obtain rfl : agent = ctx.fromAgent := Option.some.inj (hagent.symm.trans hload.fromAgent)
  rw [hrecipient]
  exact ⟨hload, howner⟩

/-- In every run whose push jobs come from the queue, the body that a job makes of the state it
finds has addresses that lead to the agents of its message, if and only if the recipient belongs
to the sender's user. -/
theorem pushed_addresses_iff (ht : t₀.Blank) (hs : Slugs env t₀) (hr : MsgReachable env t₀ s)
    (hq : Along (fun h ev => fromQueue h ev = true) s.shared.history)
    (hj : .began p (MsgJob.call j) ∈ s.shared.history)
    (hctx : messageContext env s.shared.tables j.message j.payload.toAgentId = some ctx)
    (hfrom : ctx.fromAgent.deletedAt = none) (hto : ctx.toAgent.deletedAt = none) :
    Resolves env letter opaqueId s.shared.tables ctx.msg (ctx.body j.payload) ↔
      ctx.toAgent.userId = ctx.msg.userId := by
  obtain ⟨hload, howner⟩ := loads_of_job ht hr hq hj hctx
  have hs' := hs.replayed s.shared.history
  rw [← hr.tables_eq ht] at hs'
  exact resolves_iff hs' hload howner hfrom hto

/-- User `n` is called by `n + 1` letters. -/
def slugged : MsgEnv :=
  { oneUser with userSlug := fun u => some (String.ofList (List.replicate (u + 1) 'u')) }

/-- Agent 1 of user `u`, and agent 2 of user `v` with a push endpoint. -/
def twoAgents (u v : UserId) : MsgTables where
  agents := insertNew (insertNew ∅ 1 { userId := u, slug := "a" }) 2
    { userId := v, slug := "b", webhookUrl := some "https://b.example", webhookSecret := some "s" }

theorem blank_twoAgents (u v : UserId) : (twoAgents u v).Blank :=
  ⟨fun _ => rfl, fun _ => rfl, fun _ => rfl⟩

theorem agent_twoAgents {u v : UserId} (hx : (twoAgents u v).agent a = some x) :
    a = 1 ∧ x.slug = "a" ∨ a = 2 ∧ x.slug = "b" := by
  simp only [twoAgents, MsgTables.agent, lookup_insertNew] at hx
  split at hx
  · rename_i ha
    subst ha
    simp at hx
    exact .inr ⟨rfl, by rw [← hx]⟩
  · split at hx
    · rename_i ha
      subst ha
      simp at hx
      exact .inl ⟨rfl, by rw [← hx]⟩
    · simp at hx

theorem slugs_twoAgents (u v : UserId) : Slugs slugged (twoAgents u v) where
  user u v slug hu hv := by
    have heq := Option.some.inj (hu.trans hv.symm)
    have hlen := congrArg List.length (String.ofList_injective heq)
    simpa using hlen
  userShape u slug hu := by
    obtain rfl := Option.some.inj hu
    simp [slugShaped, List.replicate_succ]
  agent a b x y hx hy _ hslug := by
    rcases agent_twoAgents hx with ⟨rfl, hxs⟩ | ⟨rfl, hxs⟩ <;>
      rcases agent_twoAgents hy with ⟨rfl, hys⟩ | ⟨rfl, hys⟩
    · rfl
    · exact absurd (hxs.symm.trans (hslug.trans hys)) (by decide)
    · exact absurd (hxs.symm.trans (hslug.trans hys)) (by decide)
    · rfl
  agentShape a x hx := by
    rcases agent_twoAgents hx with ⟨-, hx⟩ | ⟨-, hx⟩ <;> rw [hx] <;> decide

/-- User 1 writes to agent 2, the poller enqueues the push and a worker is at it. -/
def helloPushed : List MsgAction :=
  playMsgAll 1 (.sendMessage 1 hello) (stores 5 7) ++ playMsgAll 2 .dispatchOutbox (enqueues 7) ++
    playMsg 3 (.deliverMessage pushOfHello) (List.replicate 9 .go ++ [.push (.response 200 none)])

/-- The pushes of a run. -/
def pushes (h : MsgHistory) : List (MsgId × PushAnswer) :=
  h.filterMap fun ev =>
    match ev with
    | .marked _ (.pushed m answer) => some (m, answer)
    | _ => none

/-- What is left of a run: the job of process 3, the pushes, whether jobs came from the queue, and
of the context of the job the marks of deletion and whether both agents have one owner. -/
structure PushFacts where
  job : Option MsgJob
  pushes : List (MsgId × PushAnswer)
  queued : Bool
  context : Option (Option Time × Option Time × Bool)
  deriving DecidableEq

def pushFacts (s : MsgSys) : PushFacts where
  job := (callOf 3 s.shared.history).bind MsgCall.job
  pushes := pushes s.shared.history
  queued := decide (Along (fun h ev => fromQueue h ev = true) s.shared.history)
  context := (messageContext slugged s.shared.tables 5 2).map fun ctx =>
    (ctx.fromAgent.deletedAt, ctx.toAgent.deletedAt, ctx.toAgent.userId = ctx.msg.userId)

/-- The job of `helloPushed`. -/
def jobOfHello : MsgJob := ⟨.deliverMessage, pushOfHello⟩

theorem helloPushed_facts (t : MsgTables) (same : Bool)
    (hrun : (msgRun slugged (msgInit t (fun _ => 0) 0) helloPushed).map pushFacts =
      some ⟨some jobOfHello, [(5, .response 200 none)], true, some (none, none, same)⟩) :
    ∃ s ctx, MsgReachable slugged t s ∧ pushes s.shared.history = [(5, .response 200 none)] ∧
      Along (fun h ev => fromQueue h ev = true) s.shared.history ∧
      .began 3 jobOfHello.call ∈ s.shared.history ∧
      messageContext slugged s.shared.tables 5 2 = some ctx ∧ ctx.fromAgent.deletedAt = none ∧
      ctx.toAgent.deletedAt = none ∧ decide (ctx.toAgent.userId = ctx.msg.userId) = same := by
  obtain ⟨s, hr, hv⟩ := reachable_of_run_in slugged t helloPushed pushFacts hrun
  simp only [pushFacts, PushFacts.mk.injEq, Prod.mk.injEq, decide_eq_true_eq,
    Option.map_eq_some_iff] at hv
  obtain ⟨hjob, hpush, hq, ctx, hctx, hfrom, hto, hsame⟩ := hv
  obtain ⟨call, hc, hcall⟩ := Option.bind_eq_some_iff.mp hjob
  rw [MsgCall.job_eq_some.mp hcall] at hc
  exact ⟨s, ctx, hr, hpush, hq, began_of_callOf hc, hctx, hfrom, hto, hsame⟩

theorem own_addresses_resolve : ∃ (s : MsgSys) (ctx : MsgContext),
    MsgReachable slugged (twoAgents 1 1) s ∧
    pushes s.shared.history = [(5, .response 200 none)] ∧
    Resolves slugged (fun _ => false) (fun _ => 0) s.shared.tables ctx.msg
      (ctx.body pushOfHello) := by
  obtain ⟨s, ctx, hr, hpush, hq, hj, hctx, hfrom, hto, hsame⟩ :=
    helloPushed_facts (twoAgents 1 1) true (by decide +kernel)
  exact ⟨s, ctx, hr, hpush, (pushed_addresses_iff (blank_twoAgents 1 1) (slugs_twoAgents 1 1) hr hq hj
    hctx hfrom hto).mpr (of_decide_eq_true hsame)⟩

/-- A message of user 1 is pushed to an agent of user 2, under the name of an agent of user 1. -/
theorem foreign_address_lost : ¬ ∀ (env : MsgEnv) (letter : Char → Bool) (opaqueId : String → AgentId)
    (t₀ : MsgTables) (s : MsgSys) (p : Pid) (j : MsgJob) (ctx : MsgContext), t₀.Blank →
    Slugs env t₀ → MsgReachable env t₀ s →
    Along (fun h ev => fromQueue h ev = true) s.shared.history →
    .began p j.call ∈ s.shared.history →
    messageContext env s.shared.tables j.message j.payload.toAgentId = some ctx →
    ctx.fromAgent.deletedAt = none → ctx.toAgent.deletedAt = none →
    (∃ answer, (j.message, answer) ∈ pushes s.shared.history) →
    Resolves env letter opaqueId s.shared.tables ctx.msg (ctx.body j.payload) := by
  intro hall
  obtain ⟨s, ctx, hr, hpush, hq, hj, hctx, hfrom, hto, hsame⟩ :=
    helloPushed_facts (twoAgents 1 2) false (by decide +kernel)
  have hres := hall slugged (fun _ => false) (fun _ => 0) (twoAgents 1 2) s 3 jobOfHello ctx
    (blank_twoAgents 1 2) (slugs_twoAgents 1 2) hr hq hj hctx hfrom hto
    ⟨_, hpush ▸ List.mem_cons_self⟩
  obtain ⟨hload, howner⟩ := loads_of_job (blank_twoAgents 1 2) hr hq hj hctx
  have hs := (slugs_twoAgents 1 2).replayed s.shared.history
  rw [← hr.tables_eq (blank_twoAgents 1 2)] at hs
  exact of_decide_eq_false hsame ((resolves_iff hs hload howner hfrom hto).mp hres)

end CueApi.Messages
