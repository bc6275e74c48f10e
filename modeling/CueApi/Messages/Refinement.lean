import CueApi.Messages.ReaderProofs

/-! Every run of messaging is a legal history, whatever the interleaving, the crashes and the
duplicated jobs, and the committed tables are the replay of its commits. -/

namespace CueApi.Messages

open Scheduler (Pid Time UserId OutboxId)
open ReadCommitted Interleaving Trace Recorded

variable {env : MsgEnv} {t₀ : MsgTables} {p : Pid} {w : MsgWorld} {h h' : MsgHistory}

theorem runs_msgProgramOf (ht : t₀.Blank) {call : MsgCall} (hw : At p [] [.began p call] w) :
    MsgRuns env t₀ p (MsgJustified env t₀ p) (msgProgramOf env p call) w := by
  cases call with
  | deliverMessage payload => exact runs_pushJob (j := ⟨.deliverMessage, payload⟩) hw
  | retryMessage payload => exact runs_pushJob (j := ⟨.retryMessage, payload⟩) hw
  | recoverStaleMessageDeliveries staleSeconds => exact runs_recoverStaleMessageDeliveries hw
  | listInbox user q => exact runs_listInbox hw
  | markRead user m text => exact runs_markRead hw
  | markAcked user m text => exact runs_markAcked hw
  | expireOldMessages dryRun => exact runs_expireOldMessages hw
  | sendMessage user req => exact runs_sendMessage ht hw
  | getMessage user m text => exact runs_getMessage hw
  | updateAgent user agent webhookUrl => exact runs_updateAgent hw
  | softDeleteAgent user agent => exact runs_softDeleteAgent hw
  | pullEvents user agent since limit eventType => exact runs_pullEvents hw
  | dispatchOutbox => exact runs_dispatchOutbox hw
  | freeOldIdempotencyKeys dryRun => exact runs_freeOldIdempotencyKeys hw
  | dispatchSubscriptionEvents => exact runs_dispatchSubscriptionEvents hw
  | emitDigests => exact runs_emitDigests hw

theorem Sends.later {user : UserId} {req : SendRequest} {reply : MsgReply}
    (hr : Sends env t₀ h p user req reply) (hs : h <:+ h') (ho : own p h' = own p h) :
    Sends env t₀ h' p user req reply := by
  cases hr with
  | created d m x n inlineSub seen cutoff looked time msg downgraded hown =>
    exact .created d m x n inlineSub seen cutoff looked time msg downgraded (ho.trans hown)
  | dedup m msg cutoff time fields h₀ hown hsuf hrow hsame =>
    exact .dedup m msg cutoff time fields h₀ (ho.trans hown) (hsuf.trans hs) hrow hsame
  | mismatch m msg cutoff time fields h₀ hown hsuf hrow hother =>
    exact .mismatch m msg cutoff time fields h₀ (ho.trans hown) (hsuf.trans hs) hrow hother
  | conflict cutoff time fields hown => exact .conflict cutoff time fields (ho.trans hown)
  | refused hun hrefuses => exact .refused (ho ▸ hun) hrefuses
  | naive hun hnaive => exact .naive (ho ▸ hun) hnaive
  | rejected e hun he => exact .rejected e (ho ▸ hun) he

theorem ShowsInbox.later {rows : List (MsgId × Message)} (hr : ShowsInbox p t₀ h rows)
    (hs : h <:+ h') : ShowsInbox p t₀ h' rows := by
  obtain ⟨time, now, ws, h₀, hm, hle, hsuf, hrows⟩ := hr
  exact ⟨time, now, ws, h₀, hs.mem hm, hle, hsuf.trans hs, hrows⟩

theorem MsgReturns.later {call : MsgCall} {reply : MsgReply}
    (hr : MsgReturns env t₀ h p call reply) (hs : h <:+ h') (ho : own p h' = own p h) :
    MsgReturns env t₀ h' p call reply := by
  cases call with
  | deliverMessage payload => exact fun heq => hr (ho.symm.trans heq)
  | retryMessage payload => exact fun heq => hr (ho.symm.trans heq)
  | recoverStaleMessageDeliveries staleSeconds =>
    obtain ⟨time, ws, hm⟩ := hr
    exact ⟨time, ws, hs.mem hm⟩
  | sendMessage user req => exact Sends.later hr hs ho
  | listInbox user q =>
    cases reply with
    | inbox rows total limit offset => exact ShowsInbox.later hr hs
    | _ => trivial
  | pullEvents user agent since limit eventType =>
    cases reply with
    | events events nextCursor hasMore => exact hs.mem hr
    | _ => trivial
  | _ => trivial

/-- Every program keeps to the transactions of `MsgCommits`. -/
theorem msgKeeps (env : MsgEnv) (ht : t₀.Blank) :
    Keeps msgSchema t₀ (MsgAllowed env t₀) (msgProgramOf env) where
  began h p call hown := hown
  left h p call how hc hhow := by
    cases how with
    | returned reply => exact absurd rfl (hhow reply)
    | crashed => exact ⟨call, hc⟩
    | raised => exact ⟨call, hc⟩
  stable h h' p reply hs ho := by
    rintro ⟨call, hc, hr⟩
    refine ⟨call, ?_, hr.later hs ho⟩
    rw [← callOf_own, ho, callOf_own]
    exact hc
  runs p call w hw _ := runs_msgProgramOf ht hw

/-! ## Runs -/

/-- The states that any number of processes reach from `t₀`. -/
def MsgReachable (env : MsgEnv) (t₀ : MsgTables) (s : MsgSys) : Prop :=
  ∃ concurrent now as, msgRun env (msgInit t₀ concurrent now) as = some s

variable {s s' : MsgSys}

theorem MsgReachable.sound (ht : t₀.Blank) (hr : MsgReachable env t₀ s) :
    Sound t₀ (MsgAllowed env t₀) s := by
  obtain ⟨concurrent, now, as, hrun⟩ := hr
  exact ((sound_init t₀ _ _ now).run (msgKeeps env ht) hrun).1

/-- Refinement: the reachable states are described by legal histories. -/
theorem MsgReachable.legal (ht : t₀.Blank) (hr : MsgReachable env t₀ s) :
    MsgLegal env t₀ s.shared.history := (hr.sound ht).good.1.legal

theorem MsgReachable.tables_eq (ht : t₀.Blank) (hr : MsgReachable env t₀ s) :
    s.shared.tables = replayed t₀ s.shared.history := (hr.sound ht).good.1.tables

theorem MsgReachable.clock (ht : t₀.Blank) (hr : MsgReachable env t₀ s) {time : Time}
    {ws : List MsgWrite} (hm : .commit p time ws ∈ s.shared.history) : time ≤ s.shared.clock :=
  (hr.sound ht).good.1.clock p time ws hm

theorem MsgReachable.run (hr : MsgReachable env t₀ s) {as : List MsgAction}
    (hrun : msgRun env s as = some s') : MsgReachable env t₀ s' := by
  obtain ⟨concurrent, now, bs, hbs⟩ := hr
  refine ⟨concurrent, now, bs ++ as, ?_⟩
  unfold msgRun at *
  rw [run_append, hbs]
  exact hrun

/-- A run only adds to the history. -/
theorem MsgReachable.history (ht : t₀.Blank) (hr : MsgReachable env t₀ s) {as : List MsgAction}
    (hrun : msgRun env s as = some s') : s.shared.history <:+ s'.shared.history :=
  ((hr.sound ht).run (msgKeeps env ht) hrun).2

end CueApi.Messages
