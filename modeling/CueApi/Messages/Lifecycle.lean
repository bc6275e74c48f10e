import CueApi.Messages.Refinement

/-! The states of a message over a whole run: who takes a message from one state to another, that
none comes back to `queued`, and what holds of a message that is being delivered. -/

namespace CueApi.Messages

open Scheduler (Pid Time UserId OutboxId)
open ReadCommitted Interleaving Trace Recorded

variable {env : MsgEnv} {t₀ : MsgTables} {h h' : MsgHistory} {ev : MsgEvent} {p : Pid} {m : MsgId}
variable {s s' : MsgSys} {time : Time} {ws : List MsgWrite}

/-! ## One step -/

/-- `delivery_state` of a message after a history. -/
def stateAt (t₀ : MsgTables) (h : MsgHistory) (m : MsgId) : Option DeliveryState :=
  ((replayed t₀ h).message m).map Message.deliveryState

/-- `delivery_state` of a message in the database. -/
def stateIn (s : MsgSys) (m : MsgId) : Option DeliveryState :=
  (s.shared.tables.message m).map Message.deliveryState

theorem MsgReachable.stateIn_eq (ht : t₀.Blank) (hr : MsgReachable env t₀ s) (m : MsgId) :
    stateIn s m = stateAt t₀ s.shared.history m := by
  rw [stateIn, hr.tables_eq ht]
  rfl

theorem stateAt_eq_some {st : DeliveryState} :
    stateAt t₀ h m = some st ↔ ∃ r, (replayed t₀ h).message m = some r ∧ r.deliveryState = st := by
  simp [stateAt, Option.map_eq_some_iff]

/-- The state an UPDATE writes. -/
def MsgUpdate.target : MsgUpdate → DeliveryState
  | .claim _ _ => .delivering
  | .pushDelivered _ | .polled _ => .delivered
  | .pushRetry | .staleRetry => .retryReady
  | .pushFailed _ | .staleFailed _ => .failed
  | .markRead _ => .read
  | .markAcked _ => .acked
  | .expire => .expired

@[simp] theorem MsgUpdate.set_state (u : MsgUpdate) (r : Message) :
    (u.set r).deliveryState = u.target := by
  cases u <;> rfl

/-- What an event does to the state of a message. -/
inductive StateMoves (env : MsgEnv) (t₀ : MsgTables) (h : MsgHistory) (ev : MsgEvent) (m : MsgId) :
    Prop
  | same : stateAt t₀ (ev :: h) m = stateAt t₀ h m → StateMoves env t₀ h ev m
  | created : stateAt t₀ h m = none → stateAt t₀ (ev :: h) m = some .queued →
      StateMoves env t₀ h ev m
  | updated (p : Pid) (time : Time) (ws : List MsgWrite) (call : MsgCall) (ms : List MsgId)
      (u : MsgUpdate) (r : Message) : ev = .commit p time ws → callOf p h = some call →
      .updateMessages ms u ∈ ws → m ∈ ms → (replayed t₀ h).message m = some r →
      stateAt t₀ (ev :: h) m = some u.target → MsgUpdates t₀ h p time ws m r call u →
      StateMoves env t₀ h ev m

/-- The step lemma of states. -/
theorem state_moves (ha : MsgAllowed env t₀ h ev) (m : MsgId) : StateMoves env t₀ h ev m := by
  cases msg_moves ha m with
  | same _ hsame => exact .same (by rw [stateAt, hsame]; rfl)
  | created p time user req d x n inlineSub seen hev hc hnone hrow =>
    exact .created (by rw [stateAt, hnone]; rfl) (by rw [stateAt, hrow]; rfl)
  | freed p time xs r hev hm hr hold hrow =>
    refine .same ?_
    rw [stateAt, stateAt, hrow, hr, Option.map_some, Option.map_some, Message.freeKey_state]
  | updated p time ws call ms u r hev hc hws hm hr hrow hu =>
    exact .updated p time ws call ms u r hev hc hws hm hr
      (by rw [stateAt, hrow, Option.map_some, u.set_state]) hu

/-- The call of a process never changes. -/
theorem MsgLegal.callOf_suffix (hl : MsgLegal env t₀ h') (hs : h <:+ h') {call : MsgCall}
    (hc : callOf p h = some call) : callOf p h' = some call := by
  obtain ⟨pre, rfl⟩ := hs
  induction pre with
  | nil => exact hc
  | cons ev pre ih =>
    have ih := ih hl.2
    cases ev with
    | began q call' =>
      change (if q = p then some call' else callOf p (pre ++ h)) = some call
      split
      · rename_i hq
        subst hq
        have hown : own q (pre ++ h) = [] := hl.1
        have hmem : .began q call ∈ own q (pre ++ h) := mem_own.mpr ⟨began_of_callOf ih, rfl⟩
        rw [hown] at hmem
        cases hmem
      · exact ih
    | commit q time ws => exact ih
    | marked q mark => exact ih
    | ended q how => exact ih

/-! ## Queued -/

/-- The event takes the message out of `queued`. -/
def LeavesQueued (t₀ : MsgTables) (h : MsgHistory) (ev : MsgEvent) (m : MsgId) : Prop :=
  stateAt t₀ h m = some .queued ∧ stateAt t₀ (ev :: h) m ≠ some .queued

theorem MsgUpdate.target_ne_queued (u : MsgUpdate) : u.target ≠ .queued := by
  cases u <;> simp [MsgUpdate.target]

/-- Out of `queued`, for good. -/
def Taken (t₀ : MsgTables) (h : MsgHistory) (m : MsgId) : Prop :=
  ∃ st, stateAt t₀ h m = some st ∧ st ≠ .queued

theorem Taken.not_queued (ht : Taken t₀ h m) : stateAt t₀ h m ≠ some .queued := by
  obtain ⟨st, hst, hne⟩ := ht
  rw [hst]
  exact fun heq => hne (Option.some.inj heq)

theorem Taken.step (ha : MsgAllowed env t₀ h ev) (ht : Taken t₀ h m) : Taken t₀ (ev :: h) m := by
  cases state_moves ha m with
  | same hsame => rwa [Taken, hsame]
  | created hnone hst =>
    obtain ⟨st, hsome, -⟩ := ht
    rw [hnone] at hsome
    cases hsome
  | updated p time ws call ms u r hev hc hws hm hr hst hu =>
    exact ⟨u.target, hst, u.target_ne_queued⟩

theorem Taken.run (hl : MsgLegal env t₀ h') (hs : h <:+ h') (ht : Taken t₀ h m) :
    Taken t₀ h' m :=
  Along.invariant_from (J := fun h => Taken t₀ h m) ht (fun _ _ _ _ ha ht => ht.step ha) hs hl

theorem LeavesQueued.taken (ha : MsgAllowed env t₀ h ev) (hv : LeavesQueued t₀ h ev m) :
    Taken t₀ (ev :: h) m := by
  cases state_moves ha m with
  | same hsame => exact absurd (hsame.trans hv.1) hv.2
  | created hnone hst => exact absurd hst hv.2
  | updated p time ws call ms u r hev hc hws hm hr hst hu =>
    exact ⟨u.target, hst, u.target_ne_queued⟩

/-- A message leaves `queued` once. -/
theorem leavesQueued_unique (hl : MsgLegal env t₀ h) {ev₁ ev₂ : MsgEvent} {h₁ h₂ : MsgHistory}
    (hs₁ : ev₁ :: h₁ <:+ h) (hs₂ : ev₂ :: h₂ <:+ h) (hv₁ : LeavesQueued t₀ h₁ ev₁ m)
    (hv₂ : LeavesQueued t₀ h₂ ev₂ m) : ev₁ :: h₁ = ev₂ :: h₂ := by
  rcases suffix_cases hs₁ hs₂ with heq | hsuf | hsuf
  · exact heq
  · have ht := (hv₁.taken (hl.at hs₁)).run (hl.suffix ((List.suffix_cons _ _).trans hs₂)) hsuf
    exact absurd hv₂.1 ht.not_queued
  · have ht := (hv₂.taken (hl.at hs₂)).run (hl.suffix ((List.suffix_cons _ _).trans hs₁)) hsuf
    exact absurd hv₁.1 ht.not_queued

/-! ## Claims -/

/-- The commit of a claim. -/
theorem commits_claim {time now : Time} {call : MsgCall} {expected : DeliveryState}
    (hcm : MsgCommits env t₀ h p time call [.updateMessages [m] (.claim expected now)]) :
    ∃ j : MsgJob, call = j.call ∧ m = j.message ∧ expected = j.expected ∧
      own p h = [.began p j.call] ∧ stateAt t₀ h m = some expected := by
  generalize hws : [MsgWrite.updateMessages [m] (.claim expected now)] = ws at hcm
  cases hcm with
  | claimed j r now' hown hr hst =>
    cases hws
    exact ⟨j, rfl, rfl, rfl, hown, stateAt_eq_some.mpr ⟨r, hr, hst⟩⟩
  | marked call user m' u seen h₀ r hmark hown hsuf hseen hr =>
    cases hws
    cases hmark
  | recovered staleSeconds now' items hsel hok hnd hns =>
    have hmem : MsgWrite.updateMessages [m] (.claim expected now) ∈
        items.flatMap (RecoveredMessage.writes now') := by
      rw [← hws]
      exact List.mem_singleton_self _
    obtain ⟨i, -, hi⟩ := List.mem_flatMap.mp hmem
    unfold RecoveredMessage.writes at hi
    split at hi <;> simp at hi
  | polled user q a ms now' hms hle => simp at hws
  | expired ms now' hms hle =>
    split at hws
    · cases hws
    · cases hws
  | created user req d m' x n inlineSub seen cutoff looked hown hok hle hm hkey hx hn =>
    simp [Draft.writes] at hws
  | dispatched ns hns =>
    cases ns with
    | nil => cases hws
    | cons n ns => cases hws
  | aside call ws hcall hws' =>
    subst hws
    exact (hws' _ (List.mem_singleton_self _)).elim
  | _ => cases hws

theorem stateAt_update {time : Time} {u : MsgUpdate} {st : DeliveryState}
    (hst : stateAt t₀ h m = some st) :
    stateAt t₀ (.commit p time [.updateMessages [m] u] :: h) m = some u.target := by
  obtain ⟨r, hr, -⟩ := stateAt_eq_some.mp hst
  refine stateAt_eq_some.mpr ⟨u.set r, ?_, u.set_state r⟩
  change (MsgTables.apply (.updateMessages [m] u) (replayed t₀ h)).message m = _
  rw [MsgTables.message_apply]
  simp [hr]

/-- A push follows the claim of its job, which took the message from the state it expects. -/
theorem pushed_claim (hl : MsgLegal env t₀ h) {answer : PushAnswer}
    (hs : .marked p (.pushed m answer) :: h' <:+ h) :
    ∃ (j : MsgJob) (time now : Time) (h₀ : MsgHistory), m = j.message ∧
      own p h' = claimedBy p j time now ∧
      .commit p time [.updateMessages [m] (.claim j.expected now)] :: h₀ <:+ h' ∧
      stateAt t₀ h₀ m = some j.expected := by
  obtain ⟨call, -, j, time, now, rfl, hown⟩ := hl.at hs
  have hmem : .commit p time [.updateMessages [j.message] (.claim j.expected now)] ∈ h' :=
    mem_of_own_eq hown List.mem_cons_self
  obtain ⟨h₀, hs₀⟩ := mem_split hmem
  obtain ⟨⟨call', -, hcm⟩, -⟩ := hl.at (hs₀.trans ((List.suffix_cons _ _).trans hs))
  obtain ⟨j', -, -, hexp, -, hst⟩ := commits_claim hcm
  exact ⟨j, time, now, h₀, rfl, hown, hs₀, hst⟩

/-- The claim that a push of a first delivery rests on takes the message out of `queued`. -/
theorem delivered_claim (hl : MsgLegal env t₀ h) {answer : PushAnswer} {payload : MsgPayload}
    (hs : .marked p (.pushed m answer) :: h' <:+ h)
    (hc : callOf p h' = some (.deliverMessage payload)) :
    ∃ (time now : Time) (h₀ : MsgHistory),
      own p h' = claimedBy p ⟨.deliverMessage, payload⟩ time now ∧
      .commit p time [.updateMessages [m] (.claim .queued now)] :: h₀ <:+ h' ∧
      LeavesQueued t₀ h₀ (.commit p time [.updateMessages [m] (.claim .queued now)]) m := by
  obtain ⟨j, time, now, h₀, hm, hown, hs₀, hst⟩ := pushed_claim hl hs
  rw [← callOf_own, hown, claimedBy_callOf] at hc
  obtain rfl : j = ⟨.deliverMessage, payload⟩ :=
    MsgJob.call_injective (show j.call = MsgJob.call ⟨.deliverMessage, payload⟩ from
      Option.some.inj hc)
  refine ⟨time, now, h₀, hown, hs₀, hst, ?_⟩
  rw [stateAt_update hst]
  exact fun heq => MsgUpdate.target_ne_queued _ (Option.some.inj heq)

/-- A message leaves `queued` at most once and never comes back. When a poll took it, no first
delivery posts it, and at most one POST of a first delivery is ever made. -/
theorem queued_taken_once (ht : t₀.Blank) (hr : MsgReachable env t₀ s) (m : MsgId) :
    (∀ ev₁ h₁ ev₂ h₂, ev₁ :: h₁ <:+ s.shared.history → ev₂ :: h₂ <:+ s.shared.history →
      LeavesQueued t₀ h₁ ev₁ m → LeavesQueued t₀ h₂ ev₂ m → ev₁ :: h₁ = ev₂ :: h₂) ∧
    (∀ ev h, ev :: h <:+ s.shared.history → LeavesQueued t₀ h ev m →
      ∀ h', ev :: h <:+ h' → h' <:+ s.shared.history → stateAt t₀ h' m ≠ some .queued) ∧
    (∀ p time ws h user q, .commit p time ws :: h <:+ s.shared.history →
      callOf p h = some (.listInbox user q) → LeavesQueued t₀ h (.commit p time ws) m →
      ∀ p' answer h' payload, .marked p' (.pushed m answer) :: h' <:+ s.shared.history →
        callOf p' h' ≠ some (.deliverMessage payload)) ∧
    ∀ p₁ answer₁ h₁ payload₁ p₂ answer₂ h₂ payload₂,
      .marked p₁ (.pushed m answer₁) :: h₁ <:+ s.shared.history →
      .marked p₂ (.pushed m answer₂) :: h₂ <:+ s.shared.history →
      callOf p₁ h₁ = some (.deliverMessage payload₁) →
      callOf p₂ h₂ = some (.deliverMessage payload₂) → h₁ = h₂ := by
  have hl := hr.legal ht
  refine ⟨fun ev₁ h₁ ev₂ h₂ hs₁ hs₂ hv₁ hv₂ => leavesQueued_unique hl hs₁ hs₂ hv₁ hv₂,
    fun ev h hs hv h' hs' hs'' => ((hv.taken (hl.at hs)).run (hl.suffix hs'') hs').not_queued, ?_,
    ?_⟩
  · intro p time ws h user q hs hc hv p' answer h' payload hpush hc'
    obtain ⟨time', now, h₀, hown, hs₀, hv₀⟩ := delivered_claim hl hpush hc'
    have hsuf := (hs₀.trans (List.suffix_cons _ _)).trans hpush
    have heq := leavesQueued_unique hl hs hsuf hv hv₀
    cases heq
    obtain ⟨⟨call, hcall, hcm⟩, -⟩ := hl.at hsuf
    obtain ⟨j, rfl, -⟩ := commits_claim hcm
    rw [hc] at hcall
    cases MsgCall.job_eq_some.mpr (Option.some.inj hcall)
  · intro p₁ answer₁ h₁ payload₁ p₂ answer₂ h₂ payload₂ hs₁ hs₂ hc₁ hc₂
    obtain ⟨time₁, now₁, h₁', hown₁, hsuf₁, hv₁⟩ := delivered_claim hl hs₁ hc₁
    obtain ⟨time₂, now₂, h₂', hown₂, hsuf₂, hv₂⟩ := delivered_claim hl hs₂ hc₂
    have heq := leavesQueued_unique hl ((hsuf₁.trans (List.suffix_cons _ _)).trans hs₁)
      ((hsuf₂.trans (List.suffix_cons _ _)).trans hs₂) hv₁ hv₂
    cases heq
    exact (List.cons.inj (suffix_eq_of_own (p := p₁) hs₁ hs₂ rfl rfl
      (by rw [hown₁, hown₂]; rfl))).2

/-- The recipient polls the message before its push job runs. -/
def polledFirst : List MsgAction :=
  playMsgAll 1 (.sendMessage 1 hello) (stores 5 7) ++
    playMsgAll 2 (.listInbox 2 { agent := .id 2 "agt_2" }) (List.replicate 8 .go) ++
    playMsgAll 3 (.deliverMessage pushOfHello) (List.replicate 9 .go)

theorem blank_twoUsers : twoUsers.Blank := ⟨fun _ => rfl, fun _ => rfl, fun _ => rfl⟩

/-- A run that evaluates to `v` under `f`. -/
theorem reachable_of_run_in (env : MsgEnv) (t : MsgTables) (as : List MsgAction) {α : Type}
    (f : MsgSys → α) {v : α} (hrun : (msgRun env (msgInit t (fun _ => 0) 0) as).map f = some v) :
    ∃ s, MsgReachable env t s ∧ f s = v := by
  obtain ⟨s, hs, hv⟩ := Option.map_eq_some_iff.mp hrun
  exact ⟨s, ⟨fun _ => 0, 0, as, hs⟩, hv⟩

theorem reachable_of_run (as : List MsgAction) {α : Type} (f : MsgSys → α) {v : α}
    (hrun : (msgRun oneUser (msgInit twoUsers (fun _ => 0) 0) as).map f = some v) :
    ∃ s, MsgReachable oneUser twoUsers s ∧ f s = v :=
  reachable_of_run_in oneUser twoUsers as f hrun

/-- The same for a run that goes on. -/
theorem reachable_run_of_run (as bs : List MsgAction) {α : Type} (f : MsgSys → MsgSys → α) {v : α}
    (hrun : ((msgRun oneUser (msgInit twoUsers (fun _ => 0) 0) as).bind fun s =>
      (msgRun oneUser s bs).map (f s)) = some v) :
    ∃ s s', MsgReachable oneUser twoUsers s ∧ msgRun oneUser s bs = some s' ∧ f s s' = v := by
  obtain ⟨s, hs, hrun⟩ := Option.bind_eq_some_iff.mp hrun
  obtain ⟨s', hs', hv⟩ := Option.map_eq_some_iff.mp hrun
  exact ⟨s, s', ⟨fun _ => 0, 0, as, hs⟩, hs', hv⟩

theorem queued_taken_once_polled : ∃ s, MsgReachable oneUser twoUsers s ∧
    stateIn s 5 = some .delivered ∧ ∀ ev₁ h₁ ev₂ h₂, ev₁ :: h₁ <:+ s.shared.history →
      ev₂ :: h₂ <:+ s.shared.history → LeavesQueued twoUsers h₁ ev₁ 5 →
      LeavesQueued twoUsers h₂ ev₂ 5 → ev₁ :: h₁ = ev₂ :: h₂ := by
  obtain ⟨s, hr, hst⟩ := reachable_of_run polledFirst (fun s => stateIn s 5)
    (v := some .delivered) (by decide +kernel)
  exact ⟨s, hr, hst, (queued_taken_once blank_twoUsers hr 5).1⟩

/-! ## Delivering -/

/-- A message that is being delivered has its start, which the stale sweep looks at. -/
def Started (t : MsgTables) : Prop :=
  ∀ m r, t.message m = some r → r.deliveryState = .delivering → r.deliveringStartedAt.isSome

theorem MsgUpdate.set_started (u : MsgUpdate) (r : Message)
    (hst : (u.set r).deliveryState = .delivering) : (u.set r).deliveringStartedAt.isSome := by
  cases u with
  | claim expected now => rfl
  | _ => cases hst

theorem Message.freeKey_started (entries : List (UserId × String)) (r : Message) :
    (r.freeKey entries).deliveringStartedAt = r.deliveringStartedAt := by
  unfold Message.freeKey
  split <;> rfl

theorem Started.step (ha : MsgAllowed env t₀ h ev) (hst : Started (replayed t₀ h)) :
    Started (replayed t₀ (ev :: h)) := by
  intro m r hr hdel
  cases msg_moves ha m with
  | same _ hsame => exact hst m r (hsame.symm.trans hr) hdel
  | created p time user req d x n inlineSub seen hev hc hnone hrow =>
    cases hrow.symm.trans hr
    cases hdel
  | freed p time xs r₀ hev hm hr₀ hold hrow =>
    cases hrow.symm.trans hr
    rw [Message.freeKey_state] at hdel
    rw [Message.freeKey_started]
    exact hst m r₀ hr₀ hdel
  | updated p time ws call ms u r₀ hev hc hws hm hr₀ hrow hu =>
    cases hrow.symm.trans hr
    exact u.set_started r₀ hdel

end CueApi.Messages
