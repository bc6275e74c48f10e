import CueApi.Messages.Lifecycle
import Std.Data.String.ToNat

/-! `Idempotency-Key`: which requests get the message under their key, and how many messages a key
can have. The fingerprint decides the first, the unique index of `messages` the second. -/

namespace CueApi.Messages

open Scheduler (Pid Time UserId OutboxId ApiError truthy)
open ReadCommitted Interleaving Trace Recorded

variable {env : MsgEnv} {t₀ : MsgTables} {h h' h₀ : MsgHistory} {ev : MsgEvent} {p : Pid}
variable {m m' : MsgId} {s : MsgSys} {time : Time} {ws : List MsgWrite} {user : UserId}
variable {key : String} {req : SendRequest} {d : Draft} {r : Message}

/-! ## The transaction that stores a message -/

/-- The writes store `m` for a request whose checks have established `d`. -/
structure Stores (env : MsgEnv) (t₀ : MsgTables) (h : MsgHistory) (p : Pid) (ws : List MsgWrite)
    (m : MsgId) (user : UserId) (req : SendRequest) (d : Draft) : Prop where
  call : callOf p h = some (.sendMessage user req)
  writes : ∃ x n inlineSub seen, ws = d.writes env m x n inlineSub seen
  prepared : ∃ cutoff looked, own p h = prepared p user req cutoff looked d.fields
  ok : d.Ok env (replayed t₀ h) user req
  new : (replayed t₀ h).message m = none
  unkeyed : ∀ key, req.idempotencyKey = some key → ¬ (replayed t₀ h).KeyTaken user key

theorem stores_of_insert {row : Message} (ha : MsgAllowed env t₀ h (.commit p time ws))
    (hm : .insertMessage m row ∈ ws) :
    ∃ user req d, row = d.row env m ∧ Stores env t₀ h p ws m user req d := by
  obtain ⟨⟨call, hc, hcm⟩, -⟩ := ha
  cases hcm with
  | created user req d m' x n inlineSub seen cutoff looked hown hok hle hnew hkey =>
    have heq : m = m' ∧ row = d.row env m' := by
      by_cases hurl : d.webhookUrl.isSome <;> simpa [Draft.writes, hurl] using hm
    obtain ⟨rfl, rfl⟩ := heq
    exact ⟨user, req, d, rfl, hc, ⟨x, n, inlineSub, seen, rfl⟩, ⟨cutoff, looked, hown⟩, hok, hnew,
      hkey⟩
  | aside call ws hcall hws => exact absurd (hws _ hm) (by simp [MsgWrite.Aside])
  | polled user q a ms now => split at hm <;> simp at hm
  | expired ms now => split at hm <;> simp at hm
  | recovered staleSeconds now items =>
    obtain ⟨i, -, hm⟩ := List.mem_flatMap.mp hm
    unfold RecoveredMessage.writes at hm
    split at hm <;> simp at hm
  | _ => simp at hm

/-- The commits of a request that sends. -/
theorem stores_of_send (ha : MsgAllowed env t₀ h (.commit p time ws))
    (hc : callOf p h = some (.sendMessage user req)) : ∃ m d, Stores env t₀ h p ws m user req d := by
  obtain ⟨⟨call, hcall, hcm⟩, -⟩ := ha
  obtain rfl := Option.some.inj (hc.symm.trans hcall)
  generalize hsend : MsgCall.sendMessage user req = call at hcm
  have not_job : ∀ j : MsgJob, MsgCall.sendMessage user req ≠ j.call :=
    fun j hj => (by cases MsgCall.job_eq_some.mpr hj)
  cases hcm with
  | created user' req' d m x n inlineSub seen cutoff looked hown hok hle hnew hkey =>
    cases hsend
    exact ⟨m, d, hc, ⟨x, n, inlineSub, seen, rfl⟩, ⟨cutoff, looked, hown⟩, hok, hnew, hkey⟩
  | recycled j n now hown hn => exact absurd hsend (not_job j)
  | lost j now hown => exact absurd hsend (not_job j)
  | claimed j r now hown hr hs => exact absurd hsend (not_job j)
  | delivered j r result now hans hr hcat => exact absurd hsend (not_job j)
  | retried j r result n url at' hans hr hcat hlt hn => exact absurd hsend (not_job j)
  | failed j r result now hans hr hcat hle => exact absurd hsend (not_job j)
  | marked call user m u seen h₀ r hmark hown hsuf hseen hr =>
    subst hsend
    cases hmark
  | aside call ws hreads hws =>
    subst hsend
    cases hreads
  | _ => cases hsend

theorem Draft.insert_mem {x : EventId} {n : OutboxId} {inlineSub : Bool} {seen : Time} :
    .insertMessage m (d.row env m) ∈ d.writes env m x n inlineSub seen := by
  simp [Draft.writes]

/-- One transaction stores one message. -/
theorem Stores.unique {user' : UserId} {req' : SendRequest} {d' : Draft}
    (hs : Stores env t₀ h p ws m user req d) (hs' : Stores env t₀ h p ws m' user' req' d') :
    (m = m' ∧ d.row env m = d'.row env m') ∧ user = user' ∧ req = req' := by
  obtain ⟨x, n, inlineSub, seen, rfl⟩ := hs.writes
  obtain ⟨x', n', inlineSub', seen', hws⟩ := hs'.writes
  have hm : .insertMessage m (d.row env m) ∈ d'.writes env m' x' n' inlineSub' seen' :=
    hws ▸ d.insert_mem
  have hcall := hs.call.symm.trans hs'.call
  refine ⟨?_, ?_⟩
  · by_cases hurl : d'.webhookUrl.isSome <;> simpa [Draft.writes, hurl] using hm
  · cases hcall
    exact ⟨rfl, rfl⟩

/-- The row of a stored message, as far as nothing writes it. -/
structure RowOf (env : MsgEnv) (d : Draft) (m : MsgId) (r : Message) : Prop where
  core : r.core = (d.row env m).core
  keyed : ∀ entry, r.keyed = some entry → (d.row env m).keyed = some entry

/-- The step lemma of keyed rows: a row that has its key had it before, or has just been stored. -/
theorem row_before (ha : MsgAllowed env t₀ h ev) (hr : (replayed t₀ (ev :: h)).message m = some r) :
    (∃ r₀, (replayed t₀ h).message m = some r₀ ∧ r.core = r₀.core ∧
      ∀ entry, r.keyed = some entry → r₀.keyed = some entry) ∨
    ∃ p time ws user req d, ev = .commit p time ws ∧ r = d.row env m ∧
      Stores env t₀ h p ws m user req d := by
  cases msg_moves ha m with
  | same hws hsame => exact .inl ⟨r, hsame.symm.trans hr, rfl, fun _ => id⟩
  | created p time user req d x n inlineSub seen hev hc hnone hrow =>
    subst hev
    obtain ⟨user', req', d', hrow', hst⟩ := stores_of_insert ha d.insert_mem
    refine .inr ⟨p, time, _, user', req', d', rfl, ?_, hst⟩
    exact (Option.some.inj (hr.symm.trans hrow)).trans hrow'
  | freed p time xs r₀ hev hm hr₀ hlt hrow =>
    obtain rfl := Option.some.inj (hr.symm.trans hrow)
    refine .inl ⟨r₀, hr₀, Message.freeKey_core _ _, fun entry hk => ?_⟩
    rw [Message.freeKey_keyed] at hk
    split at hk
    · cases hk
    · exact hk
  | updated p time ws call ms u r₀ hev hc hws hm hr₀ hrow hu =>
    obtain rfl := Option.some.inj (hr.symm.trans hrow)
    exact .inl ⟨r₀, hr₀, u.set_core r₀, fun entry hk => (u.set_keyed r₀).symm.trans hk⟩

/-- A message is stored as its INSERT says. -/
theorem row_of_insert (ha : MsgAllowed env t₀ h (.commit p time ws))
    (hm : .insertMessage m r ∈ ws) :
    (replayed t₀ (.commit p time ws :: h)).message m = some r := by
  obtain ⟨user, req, d, rfl, hst⟩ := stores_of_insert ha hm
  obtain ⟨r, hr⟩ := message_of_insert (t := replayed t₀ h) hm
  rcases row_before ha hr with ⟨r₀, hr₀, -, -⟩ | ⟨p', time', user', req', ws', d', hev, rfl, hst'⟩
  · rw [hst.new] at hr₀
    cases hr₀
  · cases hev
    rw [(hst.unique hst').1.2]
    exact hr

/-- Every row of `messages` has been stored by a request. -/
theorem row_stored (ht : t₀.Blank) (hl : MsgLegal env t₀ h)
    (hr : (replayed t₀ h).message m = some r) :
    ∃ p time ws h₀ user req d, .commit p time ws :: h₀ <:+ h ∧
      Stores env t₀ h₀ p ws m user req d ∧ RowOf env d m r := by
  induction h generalizing r with
  | nil =>
    rw [show (replayed t₀ []).message m = none from ht.message m] at hr
    cases hr
  | cons ev h ih =>
    rcases row_before hl.1 hr with ⟨r₀, hr₀, hcore, hkeyed⟩ | ⟨p, time, ws, user, req, d, rfl, rfl, hst⟩
    · obtain ⟨p, time, ws, h₀, user, req, d, hs, hst, hrow⟩ := ih hl.2 hr₀
      exact ⟨p, time, ws, h₀, user, req, d, hs.trans (List.suffix_cons _ _), hst,
        hcore.trans hrow.core, fun entry hk => hrow.keyed entry (hkeyed entry hk)⟩
    · exact ⟨p, time, ws, h, user, req, d, List.suffix_refl _, hst, rfl, fun _ => id⟩

/-- The agent that a message is from is there, and belongs to the user of the message. -/
theorem sender_of_row (ht : t₀.Blank) (hl : MsgLegal env t₀ h)
    (hr : (replayed t₀ h).message m = some r) :
    ∃ agent, (replayed t₀ h).agent r.fromAgentId = some agent ∧ agent.userId = r.userId := by
  obtain ⟨p, time, ws, h₀, user, req, d, hs, hst, hrow⟩ := row_stored ht hl hr
  obtain ⟨agent, ha, howner⟩ := hst.ok.sender
  obtain ⟨agent', ha', hsame⟩ :=
    (MsgTables.Grows.replayed_suffix ((List.suffix_cons _ _).trans hs)).agent ha
  have hfrom : r.fromAgentId = d.fromAgent :=
    (congrArg Message.fromAgentId hrow.core : r.core.fromAgentId = (d.row env m).core.fromAgentId)
  have huser : r.userId = d.user :=
    (congrArg Message.userId hrow.core : r.core.userId = (d.row env m).core.userId)
  exact ⟨agent', hfrom ▸ ha', by rw [hsame, howner, huser, hst.ok.sent.1]⟩

theorem Stores.keyed (hs : Stores env t₀ h p ws m user req d) :
    (d.row env m).keyed = req.idempotencyKey.map fun key => (user, key) := by
  obtain ⟨huser, hkey, -⟩ := hs.ok.sent
  rw [Draft.row_keyed, hkey, huser]

/-- `unique_user_idempotency_key`: one row has one key. -/
theorem keyed_unique (ht : t₀.Blank) (hl : MsgLegal env t₀ h) {r' : Message}
    (hr : (replayed t₀ h).message m = some r) (hr' : (replayed t₀ h).message m' = some r')
    (hk : r.keyed = some (user, key)) (hk' : r'.keyed = some (user, key)) : m = m' := by
  induction h generalizing r r' with
  | nil =>
    rw [show (replayed t₀ []).message m = none from ht.message m] at hr
    cases hr
  | cons ev h ih =>
    -- the index stops an INSERT under a key that a row of `h` has
    have stops : ∀ {p ws m₁ user₁ req₁ d₁ m₂ r₂}, Stores env t₀ h p ws m₁ user₁ req₁ d₁ →
        (d₁.row env m₁).keyed = some (user, key) → (replayed t₀ h).message m₂ = some r₂ →
        r₂.keyed = some (user, key) → False := by
      intro p ws m₁ user₁ req₁ d₁ m₂ r₂ hst hk₁ hr₂ hk₂
      rw [hst.keyed] at hk₁
      obtain ⟨key₁, hkey₁, heq⟩ := Option.map_eq_some_iff.mp hk₁
      cases heq
      exact hst.unkeyed _ hkey₁ ⟨m₂, r₂, hr₂, hk₂⟩
    rcases row_before hl.1 hr with ⟨r₀, hr₀, -, hback⟩ | ⟨p, time, ws, user₁, req₁, d₁, hev, rfl, hst⟩
    · rcases row_before hl.1 hr' with ⟨r₀', hr₀', -, hback'⟩ |
        ⟨p, time, ws, user₁, req₁, d₁, hev, rfl, hst⟩
      · exact ih hl.2 hr₀ hr₀' (hback _ hk) (hback' _ hk')
      · exact (stops hst hk' hr₀ (hback _ hk)).elim
    · rcases row_before hl.1 hr' with ⟨r₀', hr₀', -, hback'⟩ |
        ⟨p', time', ws', user₂, req₂, d₂, hev', rfl, hst'⟩
      · exact (stops hst hk hr₀' (hback' _ hk')).elim
      · cases hev.symm.trans hev'
        exact (hst.unique hst').1.1

/-! ## One request and its key -/

/-- `req` has stored `m` under its key. -/
structure StoredUnder (env : MsgEnv) (t₀ : MsgTables) (h : MsgHistory) (user : UserId)
    (key : String) (m : MsgId) (req : SendRequest) (d : Draft) : Prop where
  key : req.idempotencyKey = some key
  stored : ∃ p time ws h₀, .commit p time ws :: h₀ <:+ h ∧ Stores env t₀ h₀ p ws m user req d

/-- The message still has its key. -/
def HasKey (t : MsgTables) (m : MsgId) (user : UserId) (key : String) : Prop :=
  ∃ r, t.message m = some r ∧ r.keyed = some (user, key)

/-- A message keeps its row, but for its key. -/
theorem StoredUnder.row (hl : MsgLegal env t₀ h) (hst : StoredUnder env t₀ h user key m req d) :
    ∃ r, (replayed t₀ h).message m = some r ∧ r.core = (d.row env m).core := by
  obtain ⟨p, time, ws, h₀, hs, hst⟩ := hst.stored
  obtain ⟨x, n, inlineSub, seen, hws⟩ := hst.writes
  obtain ⟨r, hr⟩ : ∃ r, (replayed t₀ (.commit p time ws :: h₀)).message m = some r :=
    message_of_insert (hws ▸ d.insert_mem)
  rcases row_before (hl.at hs) hr with ⟨r₀, hr₀, -⟩ | ⟨p', time', ws', user', req', d', hev, rfl, hst'⟩
  · rw [hst.new] at hr₀
    cases hr₀
  · cases hev
    rw [(hst.unique hst').1.2]
    exact (MsgTables.Grows.replayed_suffix hs).message hr

/-- A row under a key has been stored under it. -/
theorem storedUnder_of_keyed (ht : t₀.Blank) (hl : MsgLegal env t₀ h)
    (hr : (replayed t₀ h).message m = some r) (hk : r.keyed = some (user, key)) :
    ∃ req d, StoredUnder env t₀ h user key m req d ∧ r.core = (d.row env m).core := by
  obtain ⟨p, time, ws, h₀, user', req, d, hs, hst, hrow⟩ := row_stored ht hl hr
  have hentry := hrow.keyed _ hk
  rw [hst.keyed] at hentry
  obtain ⟨key', hkey, heq⟩ := Option.map_eq_some_iff.mp hentry
  cases heq
  exact ⟨req, d, ⟨hkey, p, time, ws, h₀, hs, hst⟩, hrow.core⟩

/-- The message that a reply returns. -/
def MsgReply.sentId : MsgReply → Option MsgId
  | .sent m _ _ _ => some m
  | _ => none

/-- The replies to a request whose key is not in use. -/
inductive RepliesUnused (env : MsgEnv) (req : SendRequest) : MsgReply → Prop
  | created (m : MsgId) (msg : Message) (downgraded : Bool) :
      RepliesUnused env req (.sent m msg false downgraded)
  | rejected (e : ApiError) : Rejection e → RepliesUnused env req (.error e)
  | refused : env.refuses req.data = true → RepliesUnused env req (.error internalServerError)
  | naive : (req.data.sendAt.any fun s => !s.aware) = true →
      RepliesUnused env req (.error internalServerError)

theorem not_rejection_conflict : ¬ Rejection (idempotencyKeyConflict m) := by
  simp [Rejection, idempotencyKeyConflict]

theorem not_rejection_internal : ¬ Rejection internalServerError := by
  simp [Rejection, internalServerError]

theorem idempotencyKeyConflict_inj (h : idempotencyKeyConflict m = idempotencyKeyConflict m') :
    m = m' := by
  have htext := congrArg ApiError.message h
  simp only [idempotencyKeyConflict, messageText] at htext
  exact Nat.repr_injective (String.append_right_inj _ |>.mp (String.append_right_inj _ |>.mp htext))

section Lookup

variable {cutoff : Time} {fields : Fingerprinted} {found : Option MsgId} {reply : MsgReply}

/-- A request looks its key up once. -/
theorem looked_unique (hl : MsgLegal env t₀ h)
    (hs : .marked p (.looked cutoff time fields found) :: h' <:+ h) {cutoff' time' : Time}
    {fields' : Fingerprinted} {found' : Option MsgId}
    (hs' : .marked p (.looked cutoff' time' fields' found') :: h₀ <:+ h) :
    (.marked p (.looked cutoff time fields found) :: h' : MsgHistory) =
      .marked p (.looked cutoff' time' fields' found') :: h₀ := by
  obtain ⟨call, -, hown, -⟩ := hl.at hs
  obtain ⟨call', -, hown', -⟩ := hl.at hs'
  refine suffix_eq_of_own (p := p) hs hs' rfl rfl ?_
  rw [hown, hown']
  rfl

theorem looked_of_own (hl : MsgLegal env t₀ h)
    (hs : .marked p (.looked cutoff time fields found) :: h' <:+ h) {cutoff' time' : Time}
    {fields' : Fingerprinted} {found' : Option MsgId}
    (hm : .marked p (.looked cutoff' time' fields' found') ∈ own p h) : found = found' := by
  obtain ⟨h₀, hs'⟩ := mem_split (mem_own.mp hm).1
  cases looked_unique hl hs hs'
  rfl

theorem prepared_looked (hkey : req.idempotencyKey = some key) :
    .marked p (.looked cutoff time fields none) ∈ prepared p user req cutoff time fields := by
  simp [prepared, lookedUp, hkey]

/-- A lookup that has found a message settles the reply. -/
theorem sends_found (hl : MsgLegal env t₀ h)
    (hs : .marked p (.looked cutoff time fields (some m)) :: h' <:+ h)
    (hkey : req.idempotencyKey = some key) (hret : Sends env t₀ h p user req reply) :
    ∃ r, (replayed t₀ h').message m = some r ∧
      (r.idempotencyFingerprint = some (env.fingerprint fields) ∧ reply = .sent m r true false ∨
        r.idempotencyFingerprint ≠ some (env.fingerprint fields) ∧
          reply = .error (idempotencyKeyConflict m)) := by
  have hmem : .marked p (.looked cutoff time fields (some m)) ∈ own p h :=
    mem_own.mpr ⟨hs.mem List.mem_cons_self, rfl⟩
  cases hret with
  | created d m' x n inlineSub seen cutoff' looked time' msg downgraded hown =>
    have hnone := looked_of_own hl hs (hown ▸ List.mem_cons_of_mem _ (prepared_looked hkey))
    cases hnone
  | conflict cutoff' time' fields' hown =>
    have hnone := looked_of_own hl hs (hown ▸ List.mem_cons_of_mem _ (prepared_looked hkey))
    cases hnone
  | dedup m' msg cutoff' time' fields' h'' hown hsuf hrow hsame =>
    cases looked_unique hl hs hsuf
    exact ⟨msg, hrow, .inl ⟨hsame, rfl⟩⟩
  | mismatch m' msg cutoff' time' fields' h'' hown hsuf hrow hother =>
    cases looked_unique hl hs hsuf
    exact ⟨msg, hrow, .inr ⟨hother, rfl⟩⟩
  | refused hun => exact absurd hmem (hun.looked _ _ _ _)
  | naive hun => exact absurd hmem (hun.looked _ _ _ _)
  | rejected e hun => exact absurd hmem (hun.looked _ _ _ _)

/-- A request stores its message after the lookup. -/
theorem created_new (hl : MsgLegal env t₀ h)
    (hs : .marked p (.looked cutoff time fields found) :: h' <:+ h) {time' seen : Time}
    {x : EventId} {n : OutboxId} {inlineSub : Bool}
    (hm : .commit p time' (d.writes env m x n inlineSub seen) ∈ h) :
    (replayed t₀ h').message m = none := by
  obtain ⟨h₀, hs₀⟩ := mem_split hm
  obtain ⟨user, req, d', -, hst⟩ := stores_of_insert (hl.at hs₀) d.insert_mem
  rcases suffix_cases hs hs₀ with heq | hsuf | hsuf
  · cases heq
  · by_contra hsome
    obtain ⟨r, hr⟩ := Option.ne_none_iff_exists'.mp hsome
    obtain ⟨r', hr', -⟩ := (MsgTables.Grows.replayed_suffix
      ((List.suffix_cons _ _).trans hsuf)).message hr
    rw [hst.new] at hr'
    cases hr'
  · obtain ⟨call, -, hown, -⟩ := hl.at hs
    have hin : .commit p time' (d.writes env m x n inlineSub seen) ∈ own p h' :=
      mem_own.mpr ⟨hsuf.mem List.mem_cons_self, rfl⟩
    rw [hown] at hin
    cases List.mem_singleton.mp hin

/-- After a lookup that has found nothing, only the index stops the request. -/
theorem sends_unfound (hl : MsgLegal env t₀ h)
    (hs : .marked p (.looked cutoff time fields none) :: h' <:+ h)
    (hret : Sends env t₀ h p user req reply) :
    RepliesUnused env req reply ∧ .marked p .conflict ∉ own p h ∧
        (∀ m, reply.sentId = some m → (replayed t₀ h').message m = none) ∨
      reply = .error internalServerError ∧ .marked p .conflict ∈ own p h := by
  have unsent : ∀ {e : ApiError} {m : MsgId}, (MsgReply.error e).sentId = some m →
      (replayed t₀ h').message m = none := fun heq => (by cases heq)
  cases hret with
  | created d m' x n inlineSub seen cutoff' looked time' msg downgraded hown =>
    refine .inl ⟨.created m' msg downgraded, ?_, fun m heq => ?_⟩
    · rw [hown, List.mem_cons]
      rintro (heq | hm)
      · cases heq
      · exact unanswered_prepared.unfound.conflict hm
    · cases heq
      exact created_new hl hs (mem_own.mp (hown ▸ List.mem_cons_self)).1
  | conflict cutoff' time' fields' hown =>
    refine .inr ⟨rfl, ?_⟩
    rw [hown]
    exact List.mem_cons_self
  | dedup m' msg cutoff' time' fields' h'' hown hsuf hrow hsame => cases looked_unique hl hs hsuf
  | mismatch m' msg cutoff' time' fields' h'' hown hsuf hrow hother => cases looked_unique hl hs hsuf
  | refused hun hrefuses => exact .inl ⟨.refused hrefuses, hun.conflict, fun _ => unsent⟩
  | naive hun hnaive => exact .inl ⟨.naive hnaive, hun.conflict, fun _ => unsent⟩
  | rejected e hun he => exact .inl ⟨.rejected e he, hun.conflict, fun _ => unsent⟩

end Lookup

/-- The fingerprint of a keyed row, which an empty key does not get. -/
theorem Stores.fingerprint (hs : Stores env t₀ h p ws m user req d)
    (hkey : req.idempotencyKey = some key) {r : Message} (hcore : r.core = (d.row env m).core)
    (fp : String) :
    r.idempotencyFingerprint = some fp ↔ key ≠ "" ∧ env.fingerprint d.fields = fp := by
  have hrow : r.idempotencyFingerprint = if truthy d.key then some d.fingerprint else none :=
    (congrArg Message.idempotencyFingerprint hcore : r.core.idempotencyFingerprint =
      (d.row env m).core.idempotencyFingerprint)
  rw [hrow, hs.ok.sent.2.1, hkey, hs.ok.fingerprint]
  by_cases hempty : key = ""
  · simp [truthy, hempty]
  · simp [truthy, hempty]

/-- What is promised of the reply to a request under a key, whose clock read `cutoff + dedupWindow`:
the message of the last day when it is asked for again, and a conflict when it is not. -/
structure KeyLaw (env : MsgEnv) (t₀ : MsgTables) (h : MsgHistory) (user : UserId) (key : String)
    (req : SendRequest) (cutoff : Time) (reply : MsgReply) : Prop where
  within : ∀ m req₁ d, StoredUnder env t₀ h user key m req₁ d → cutoff < d.createdAt →
    (reply.sentId = some m ↔ req = req₁) ∧
      (req ≠ req₁ → reply = .error (idempotencyKeyConflict m))
  later : (∀ m req₁ d, StoredUnder env t₀ h user key m req₁ d → d.createdAt ≤ cutoff) →
    RepliesUnused env req reply

/-- The event at which a request meets the index. -/
def Flushes (p : Pid) : MsgEvent → Prop
  | .commit q _ _ | .marked q .conflict => q = p
  | _ => False

/-- When the code keeps to it. In the last day the fields of the fingerprint have to tell the
requests apart as well as all fields do, and later the old key has to be free at the INSERT. -/
structure KeyCondition (env : MsgEnv) (t₀ : MsgTables) (h' h : MsgHistory) (p : Pid) (user : UserId)
    (key : String) (req : SendRequest) (cutoff : Time) (fields : Fingerprinted) : Prop where
  within : ∀ m req₁ d, StoredUnder env t₀ h' user key m req₁ d → cutoff < d.createdAt →
    HasKey (replayed t₀ h') m user key ∧ (req = req₁ ↔ key ≠ "" ∧ d.fields = fields)
  later : (∀ m req₁ d, StoredUnder env t₀ h' user key m req₁ d → d.createdAt ≤ cutoff) →
    ∀ ev h₀, ev :: h₀ <:+ h → Flushes p ev → ¬ (replayed t₀ h₀).KeyTaken user key

section Law

variable {cutoff : Time} {fields : Fingerprinted} {found : Option MsgId} {reply : MsgReply}

theorem RepliesUnused.ne_conflict (hr : RepliesUnused env req reply) :
    reply ≠ .error (idempotencyKeyConflict m) := by
  rintro rfl
  generalize he : idempotencyKeyConflict m = e at hr
  have hne : e ≠ internalServerError := by
    rintro rfl
    simp [idempotencyKeyConflict, internalServerError] at he
  cases hr with
  | rejected e hrej => exact not_rejection_conflict (he ▸ hrej)
  | refused hrefuses => exact hne rfl
  | naive hnaive => exact hne rfl

/-- The law for a message of the last day. -/
theorem within_iff (ht : t₀.Blank) (hl : MsgLegal env t₀ h)
    (hs : .marked p (.looked cutoff time fields found) :: h' <:+ h)
    (hc : callOf p h' = some (.sendMessage user req)) (hkey : req.idempotencyKey = some key)
    (hret : Sends env t₀ h p user req reply) {req₁ : SendRequest}
    (hst : StoredUnder env t₀ h' user key m req₁ d) (hlt : cutoff < d.createdAt)
    (hsha : env.fingerprint d.fields = env.fingerprint fields → d.fields = fields) :
    ((reply.sentId = some m ↔ req = req₁) ∧
      (req ≠ req₁ → reply = .error (idempotencyKeyConflict m))) ↔
    HasKey (replayed t₀ h') m user key ∧ (req = req₁ ↔ key ≠ "" ∧ d.fields = fields) := by
  have hl' := hl.suffix ((List.suffix_cons _ _).trans hs)
  obtain ⟨r, hr, hcore⟩ := hst.row hl'
  obtain ⟨call, hcall, -, user', req', key', rfl, hkey', -, -, -, hlooked⟩ := hl.at hs
  cases hc.symm.trans hcall
  obtain rfl := Option.some.inj (hkey.symm.trans hkey')
  -- a reply that is neither this message nor its conflict breaks the law
  have breaks : reply.sentId ≠ some m → reply ≠ .error (idempotencyKeyConflict m) →
      ¬ ((reply.sentId = some m ↔ req = req₁) ∧
        (req ≠ req₁ → reply = .error (idempotencyKeyConflict m))) := by
    rintro hsent hconf ⟨hiff, hother⟩
    exact hconf (hother fun heq => hsent (hiff.mpr heq))
  cases found with
  | none =>
    have hno : ¬ HasKey (replayed t₀ h') m user key := by
      rintro ⟨r', hr', hk⟩
      obtain rfl := Option.some.inj (hr.symm.trans hr')
      have hle := hlooked m r hr hk
      rw [Message.createdAt_of_core hcore] at hle
      exact absurd hlt (Int.not_lt.mpr hle)
    refine iff_of_false (breaks ?_ ?_) fun hcond => hno hcond.1
    · rcases sends_unfound hl hs hret with ⟨-, -, hnew⟩ | ⟨rfl, -⟩
      · intro hsent
        rw [hnew m hsent] at hr
        cases hr
      · simp [MsgReply.sentId]
    · rcases sends_unfound hl hs hret with ⟨hunused, -, -⟩ | ⟨rfl, -⟩
      · exact hunused.ne_conflict
      · simp [idempotencyKeyConflict, internalServerError]
  | some m₂ =>
    obtain ⟨r₂, hr₂, hk₂, -⟩ := hlooked
    obtain ⟨r₂', hr₂', hreply⟩ := sends_found hl hs hkey hret
    obtain rfl := Option.some.inj (hr₂.symm.trans hr₂')
    by_cases hm : m₂ = m
    · subst hm
      obtain rfl := Option.some.inj (hr.symm.trans hr₂)
      obtain ⟨p₁, time₁, ws₁, h₁, -, hstores⟩ := hst.stored
      have hfp := hstores.fingerprint hst.key hcore (env.fingerprint fields)
      have hfields : env.fingerprint d.fields = env.fingerprint fields ↔ d.fields = fields :=
        ⟨hsha, fun heq => by rw [heq]⟩
      rw [hfields] at hfp
      have hhas : HasKey (replayed t₀ h') m₂ user key := ⟨r, hr, hk₂⟩
      rcases hreply with ⟨hsame, rfl⟩ | ⟨hother, rfl⟩
      · simp only [MsgReply.sentId, true_iff, hhas, true_and, hfp.mp hsame, iff_true, ne_eq,
          not_false_eq_true, and_self]
        exact ⟨fun h => h.1, fun h => ⟨h, fun hne => absurd h hne⟩⟩
      · have hcond : ¬ (key ≠ "" ∧ d.fields = fields) := fun h => hother (hfp.mpr h)
        simp [MsgReply.sentId, hhas, hcond]
    · have hno : ¬ HasKey (replayed t₀ h') m user key := by
        rintro ⟨r', hr', hk⟩
        exact hm (keyed_unique ht hl' hr₂ hr' hk₂ hk)
      refine iff_of_false (breaks ?_ ?_) fun hcond => hno hcond.1
      · rcases hreply with ⟨-, rfl⟩ | ⟨-, rfl⟩
        · exact fun heq => hm (Option.some.inj heq)
        · simp [MsgReply.sentId]
      · rcases hreply with ⟨-, rfl⟩ | ⟨-, rfl⟩
        · simp
        · exact fun heq => hm (idempotencyKeyConflict_inj (MsgReply.error.inj heq))

/-- The law for a request that comes a day after every message under its key. -/
theorem later_iff (ht : t₀.Blank) (hl : MsgLegal env t₀ h)
    (hs : .marked p (.looked cutoff time fields found) :: h' <:+ h)
    (hc : callOf p h' = some (.sendMessage user req)) (hkey : req.idempotencyKey = some key)
    (hret : Sends env t₀ h p user req reply)
    (hold : ∀ m req₁ d, StoredUnder env t₀ h' user key m req₁ d → d.createdAt ≤ cutoff) :
    RepliesUnused env req reply ↔
      ∀ ev h₀, ev :: h₀ <:+ h → Flushes p ev → ¬ (replayed t₀ h₀).KeyTaken user key := by
  have hl' := hl.suffix ((List.suffix_cons _ _).trans hs)
  obtain ⟨call, hcall, -, user', req', key', rfl, hkey', -, -, -, hlooked⟩ := hl.at hs
  cases hc.symm.trans hcall
  obtain rfl := Option.some.inj (hkey.symm.trans hkey')
  have hnone : found = none := by
    cases found with
    | none => rfl
    | some m₂ =>
      obtain ⟨r₂, hr₂, hk₂, hlt⟩ := hlooked
      obtain ⟨req₁, d₁, hst, hcore⟩ := storedUnder_of_keyed ht hl' hr₂ hk₂
      have hle := hold m₂ req₁ d₁ hst
      rw [← show r₂.createdAt = d₁.createdAt from Message.createdAt_of_core hcore] at hle
      exact absurd hlt (Int.not_lt.mpr hle)
  subst hnone
  have hcH := hl.callOf_suffix ((List.suffix_cons _ _).trans hs) hc
  rcases sends_unfound hl hs hret with ⟨hunused, hno, -⟩ | ⟨rfl, hconf⟩
  · refine iff_of_true hunused fun ev h₀ hsuf hflush => ?_
    cases ev with
    | commit q time' ws =>
      obtain rfl : q = p := hflush
      obtain ⟨⟨call, hcall, -⟩, -⟩ := hl.at hsuf
      obtain rfl := Option.some.inj
        ((hl.callOf_suffix ((List.suffix_cons _ _).trans hsuf) hcall).symm.trans hcH)
      obtain ⟨m₁, d₁, hstores⟩ := stores_of_send (hl.at hsuf) hcall
      exact hstores.unkeyed key hkey
    | marked q mark =>
      cases mark with
      | conflict =>
        obtain rfl : q = p := hflush
        exact absurd (mem_own.mpr ⟨hsuf.mem List.mem_cons_self, rfl⟩) hno
      | _ => exact hflush.elim
    | _ => exact hflush.elim
  · obtain ⟨h₀, hsuf⟩ := mem_split (mem_own.mp hconf).1
    obtain ⟨call, hcall, user₁, req₁, key₁, c, t, f, rfl, hkey₁, hown, htakes, haware, htaken⟩ :=
      hl.at hsuf
    cases (hl.callOf_suffix ((List.suffix_cons _ _).trans hsuf) hcall).symm.trans hcH
    obtain rfl := Option.some.inj (hkey.symm.trans hkey₁)
    refine iff_of_false (fun hunused => ?_) fun hfree => hfree _ h₀ hsuf rfl htaken
    generalize he : internalServerError = e at hunused
    cases hunused with
    | rejected e hrej => exact not_rejection_internal (he ▸ hrej)
    | refused hrefuses => simp [htakes] at hrefuses
    | naive hnaive => simp [haware] at hnaive

/-- The reply to a request under a key is as promised exactly when the condition holds. -/
theorem idempotency_key_law (ht : t₀.Blank) (hr : MsgReachable env t₀ s)
    (hs : .ended p (.returned reply) :: h <:+ s.shared.history)
    (hc : callOf p h = some (.sendMessage user req)) (hkey : req.idempotencyKey = some key)
    (hlook : .marked p (.looked cutoff time fields found) :: h' <:+ h)
    (hsha : ∀ m req₁ d, StoredUnder env t₀ h' user key m req₁ d →
      env.fingerprint d.fields = env.fingerprint fields → d.fields = fields) :
    KeyLaw env t₀ h' user key req cutoff reply ↔
      KeyCondition env t₀ h' h p user key req cutoff fields := by
  have hlegal := hr.legal ht
  have hl : MsgLegal env t₀ h := hlegal.suffix ((List.suffix_cons _ _).trans hs)
  have hret : Sends env t₀ h p user req reply := by
    obtain ⟨call, hcall, hret⟩ := hlegal.at hs
    cases hc.symm.trans hcall
    exact hret
  replace hc : callOf p h' = some (.sendMessage user req) := by
    obtain ⟨call, hcall, -⟩ := hl.at hlook
    rw [hcall, ← hc, hl.callOf_suffix ((List.suffix_cons _ _).trans hlook) hcall]
  constructor
  · intro hlaw
    exact ⟨fun m req₁ d hst hlt => (within_iff ht hl hlook hc hkey hret hst hlt
        (hsha m req₁ d hst)).mp (hlaw.within m req₁ d hst hlt),
      fun hold => (later_iff ht hl hlook hc hkey hret hold).mp (hlaw.later hold)⟩
  · intro hcond
    exact ⟨fun m req₁ d hst hlt => (within_iff ht hl hlook hc hkey hret hst hlt
        (hsha m req₁ d hst)).mpr (hcond.within m req₁ d hst hlt),
      fun hold => (later_iff ht hl hlook hc hkey hret hold).mpr (hcond.later hold)⟩

end Law

/-! ## Two requests under one key -/

/-- The first message to agent 2, under a key. -/
def keyedHello : SendRequest := { hello with idempotencyKey := some "k" }

/-- What its fingerprint is taken of. -/
def helloFields : Fingerprinted := ⟨2, "hi", none, 3, none, ⟨"\x7b\x7d", false⟩⟩

/-- Fingerprints that tell that message from the others. -/
def tellsHello : MsgEnv where
  userSlug := fun _ => some "u"
  fingerprint fields := if fields = helloFields then "hello" else "other"

/-- The answers to a keyed request that stores message `m` and its push `n`. -/
def storesKeyed (m : MsgId) (n : OutboxId) : List MsgAnswer :=
  [.go, .go, .go, .bool true, .number 0, .go, .go, .number 0, .go, .fresh m, .go, .go, .fresh n] ++
    List.replicate 4 .go

/-- The answers to a keyed request that finds its key. -/
def findsKey : List MsgAnswer := [.go, .go, .go, .bool true, .number 0, .go, .go]

/-- The call sends `req`. -/
def MsgCall.sends (user : UserId) (req : SendRequest) : MsgCall → Bool
  | .sendMessage user' req' => user' = user && req' = req
  | _ => false

theorem MsgCall.sends_iff {call : MsgCall} :
    call.sends user req = true ↔ call = .sendMessage user req := by
  cases call with
  | sendMessage user' req' => simp [MsgCall.sends]
  | _ => simp [MsgCall.sends]

/-- The event is a lookup of `p` that compares `fields`. -/
def looksUp (p : Pid) (fields : Fingerprinted) : MsgEvent → Bool
  | .marked q (.looked _ _ fields' _) => q = p && fields' = fields
  | _ => false

/-- The last event is the reply to `p`, which has sent `req` and looked its key up. -/
def repliesTo (p : Pid) (user : UserId) (req : SendRequest) (fields : Fingerprinted) :
    MsgHistory → Bool
  | .ended q (.returned _) :: h => q = p && (callOf p h).any (MsgCall.sends user req) &&
      h.any (looksUp p fields)
  | _ => false

theorem of_repliesTo {fields : Fingerprinted} (hr : repliesTo p user req fields h = true) :
    ∃ reply h₀, h = .ended p (.returned reply) :: h₀ ∧
      callOf p h₀ = some (.sendMessage user req) ∧
      ∃ cutoff time found h', .marked p (.looked cutoff time fields found) :: h' <:+ h₀ := by
  unfold repliesTo at hr
  split at hr
  · rename_i q reply h₀
    simp only [Bool.and_eq_true, decide_eq_true_eq, List.any_eq_true, Option.any_eq_true] at hr
    obtain ⟨⟨rfl, call, hc, hsends⟩, ev, hm, hev⟩ := hr
    refine ⟨reply, h₀, rfl, ?_, ?_⟩
    · rw [hc, MsgCall.sends_iff.mp hsends]
    · obtain ⟨h', hs⟩ := mem_split hm
      unfold looksUp at hev
      split at hev
      · simp only [Bool.and_eq_true, decide_eq_true_eq] at hev
        obtain ⟨rfl, rfl⟩ := hev
        exact ⟨_, _, _, h', hs⟩
      · cases hev
  · cases hr

theorem idempotency_key_law_again : ∃ s reply h cutoff time found h',
    MsgReachable tellsHello twoUsers s ∧ s.shared.history = .ended 2 (.returned reply) :: h ∧
    .marked 2 (.looked cutoff time helloFields found) :: h' <:+ h ∧
    (KeyLaw tellsHello twoUsers h' 1 "k" keyedHello cutoff reply ↔
      KeyCondition tellsHello twoUsers h' h 2 1 "k" keyedHello cutoff helloFields) := by
  obtain ⟨s, hr, hv⟩ := reachable_of_run_in tellsHello twoUsers
    (playMsgAll 1 (.sendMessage 1 keyedHello) (storesKeyed 5 7) ++
      playMsgAll 2 (.sendMessage 1 keyedHello) findsKey)
    (fun s => repliesTo 2 1 keyedHello helloFields s.shared.history) (v := true) (by decide +kernel)
  obtain ⟨reply, h, heq, hc, cutoff, time, found, h', hlook⟩ := of_repliesTo hv
  refine ⟨s, reply, h, cutoff, time, found, h', hr, heq, hlook, ?_⟩
  refine idempotency_key_law blank_twoUsers hr (heq ▸ List.suffix_refl _) hc rfl hlook
    fun m req₁ d hst hfp => ?_
  by_contra hne
  simp [tellsHello, hne] at hfp

/-- The replies that return a message, and whether it was there before. -/
def sentReplies (h : MsgHistory) : List (Pid × MsgId × Bool) :=
  h.filterMap fun ev => match ev with
    | .ended p (.returned (.sent m _ dedupHit _)) => some (p, m, dedupHit)
    | _ => none

/-- The same message, from which a reply is expected. -/
def keyedQuestion : SendRequest :=
  { keyedHello with data := { keyedHello.data with expectsReply := true } }

/-- A different request under the key, at the same time, gets the message as its own. -/
theorem other_request_returned : ∃ s, MsgReachable oneUser twoUsers s ∧
    keyedQuestion ≠ keyedHello ∧ s.shared.clock = 0 ∧
    (callOf 1 s.shared.history).any (MsgCall.sends 1 keyedHello) = true ∧
    (callOf 2 s.shared.history).any (MsgCall.sends 1 keyedQuestion) = true ∧
    sentReplies s.shared.history = [(2, 5, true), (1, 5, false)] := by
  obtain ⟨s, hr, hv⟩ := reachable_of_run
    (playMsgAll 1 (.sendMessage 1 keyedHello) (storesKeyed 5 7) ++
      playMsgAll 2 (.sendMessage 1 keyedQuestion) findsKey)
    (fun s => ((s.shared.clock = 0 && (callOf 1 s.shared.history).any (MsgCall.sends 1 keyedHello) &&
      (callOf 2 s.shared.history).any (MsgCall.sends 1 keyedQuestion)),
      sentReplies s.shared.history))
    (v := (true, [(2, 5, true), (1, 5, false)])) (by decide +kernel)
  simp only [Prod.mk.injEq, Bool.and_eq_true, decide_eq_true_eq] at hv
  obtain ⟨⟨⟨hclock, hc₁⟩, hc₂⟩, hsent⟩ := hv
  exact ⟨s, hr, by decide, hclock, hc₁, hc₂, hsent⟩

end CueApi.Messages
