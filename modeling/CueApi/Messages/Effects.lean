import CueApi.Messages.Growth

/-! What one transaction does to one row. An event leaves a message alone, creates it, frees its
key, or applies exactly one UPDATE to it, and `MsgUpdates` says what the code guarantees of that
UPDATE and of the version of the row it meets. `OutboxMoves` says the same of an outbox row. -/

namespace CueApi.Messages

open Scheduler (Pid Time UserId OutboxId seconds)
open ReadCommitted Trace Recorded

/-! ## Writes by row -/

/-- The write names the message `m`. -/
def MsgWrite.onMessage (m : MsgId) : MsgWrite → Bool
  | .insertMessage m' _ => m' = m
  | .updateMessages ms _ => m ∈ ms
  | .freeKeys xs => m ∈ xs.map Prod.fst
  | _ => false

/-- The write names the outbox row `n`. -/
def MsgWrite.onOutbox (n : OutboxId) : MsgWrite → Bool
  | .insertOutbox n' _ | .markDispatched n' => n' = n
  | _ => false

theorem message_applyAll (ws : List MsgWrite) (t : MsgTables) (m : MsgId) :
    (msgSchema.applyAll ws t).message m =
      (msgSchema.applyAll (ws.filter (MsgWrite.onMessage m)) t).message m := by
  refine msgSchema.applyAll_filter (f := fun t => t.message m) (fun w t hw => ?_)
    (fun w t t' h => ?_) ws t
  · change (MsgTables.apply w t).message m = _
    rw [MsgTables.message_apply]
    cases w with
    | insertMessage m' row => exact if_neg fun h => by simp [MsgWrite.onMessage, h] at hw
    | updateMessages ms u => exact if_neg (by simpa [MsgWrite.onMessage] using hw)
    | freeKeys xs => exact if_neg (by simpa only [MsgWrite.onMessage, decide_eq_false_iff_not] using hw)
    | _ => rfl
  · change (MsgTables.apply w t).message m = (MsgTables.apply w t').message m
    simp only [MsgTables.message_apply, h]

theorem outboxRow_applyAll (ws : List MsgWrite) (t : MsgTables) (n : OutboxId) :
    (msgSchema.applyAll ws t).outboxRow n =
      (msgSchema.applyAll (ws.filter (MsgWrite.onOutbox n)) t).outboxRow n := by
  refine msgSchema.applyAll_filter (f := fun t => t.outboxRow n) (fun w t hw => ?_)
    (fun w t t' h => ?_) ws t
  · change (MsgTables.apply w t).outboxRow n = _
    rw [MsgTables.outboxRow_apply]
    cases w with
    | insertOutbox n' row => exact if_neg fun h => by simp [MsgWrite.onOutbox, h] at hw
    | markDispatched n' => exact if_neg fun h => by simp [MsgWrite.onOutbox, h] at hw
    | _ => rfl
  · change (MsgTables.apply w t).outboxRow n = (MsgTables.apply w t').outboxRow n
    simp only [MsgTables.outboxRow_apply, h]

/-! ## One message in one transaction -/

variable {env : MsgEnv} {t₀ : MsgTables} {h : MsgHistory} {ev : MsgEvent} {p : Pid} {time : Time}
variable {call : MsgCall} {ws : List MsgWrite} {m : MsgId} {n : OutboxId}

/-- The UPDATEs of `messages`: who issues each, and what holds of the row `r` it meets. -/
inductive MsgUpdates (t₀ : MsgTables) (h : MsgHistory) (p : Pid) (time : Time)
    (ws : List MsgWrite) (m : MsgId) (r : Message) : MsgCall → MsgUpdate → Prop
  | claim (j : MsgJob) (now : Time) : m = j.message → own p h = [.began p j.call] →
      r.deliveryState = j.expected →
      MsgUpdates t₀ h p time ws m r j.call (.claim j.expected now)
  | pushDelivered (j : MsgJob) (result : DeliveryAttemptResult) (now : Time) : m = j.message →
      Answered p j h result → result.category = .success →
      MsgUpdates t₀ h p time ws m r j.call (.pushDelivered now)
  | pushRetry (j : MsgJob) (result : DeliveryAttemptResult) (n : OutboxId)
      (webhookUrl : Option String) (scheduledAt : Time) : m = j.message → Answered p j h result →
      result.category = .retryable → j.attempt < messageRetryMaxAttempts + 1 →
      (replayed t₀ h).outboxRow n = none →
      (replayed t₀ (.commit p time ws :: h)).outboxRow n =
        some (j.retryRow webhookUrl scheduledAt) →
      MsgUpdates t₀ h p time ws m r j.call .pushRetry
  | pushFailed (j : MsgJob) (result : DeliveryAttemptResult) (now : Time) : m = j.message →
      Answered p j h result → result.category ≠ .success →
      (result.category = .retryable → messageRetryMaxAttempts + 1 ≤ j.attempt) →
      MsgUpdates t₀ h p time ws m r j.call (.pushFailed now)
  | staleRetry (staleSeconds : Nat) (now : Time) (i : RecoveredMessage) : i.m = m →
      i.Ok p h (replayed t₀ h) → i.prior < messageRetryMaxAttempts + 1 →
      (replayed t₀ (.commit p time ws :: h)).outboxRow i.n = some (i.outbox now) →
      MsgUpdates t₀ h p time ws m r (.recoverStaleMessageDeliveries staleSeconds) .staleRetry
  | staleFailed (staleSeconds : Nat) (now : Time) (i : RecoveredMessage) : i.m = m →
      i.Ok p h (replayed t₀ h) → messageRetryMaxAttempts + 1 ≤ i.prior →
      MsgUpdates t₀ h p time ws m r (.recoverStaleMessageDeliveries staleSeconds)
        (.staleFailed now)
  | polled (user : UserId) (q : InboxQuery) (now : Time) : r.deliveryState = .queued →
      sendAtGate now r = true → now ≤ time →
      MsgUpdates t₀ h p time ws m r (.listInbox user q) (.polled now)
  | marked (call : MsgCall) (user : UserId) (u : MsgUpdate) (seen : Message) (h₀ : MsgHistory) :
      MarksMessage call user m u seen.deliveryState →
      own p h = [.marked p (.admitted m), .began p call] →
      .marked p (.admitted m) :: h₀ <:+ h → (replayed t₀ h₀).message m = some seen →
      MsgUpdates t₀ h p time ws m r call u
  | expire (now : Time) : pastTtl now r = true → now ≤ time →
      MsgUpdates t₀ h p time ws m r (.expireOldMessages false) .expire

/-- What an event does to the message `m`. -/
inductive MsgMoves (env : MsgEnv) (t₀ : MsgTables) (h : MsgHistory) (ev : MsgEvent) (m : MsgId) :
    Prop
  | same : (∀ w ∈ ev.writes, w.onMessage m = false) →
      (replayed t₀ (ev :: h)).message m = (replayed t₀ h).message m → MsgMoves env t₀ h ev m
  | created (p : Pid) (time : Time) (user : UserId) (req : SendRequest) (d : Draft) (x : EventId)
      (n : OutboxId) (inlineSub : Bool) (seen : Time) :
      ev = .commit p time (d.writes env m x n inlineSub seen) →
      callOf p h = some (.sendMessage user req) → (replayed t₀ h).message m = none →
      (replayed t₀ (ev :: h)).message m = some (d.row env m) → MsgMoves env t₀ h ev m
  | freed (p : Pid) (time : Time) (xs : List (MsgId × UserId × String)) (r : Message) :
      ev = .commit p time [.freeKeys xs] → m ∈ xs.map Prod.fst →
      (replayed t₀ h).message m = some r → r.createdAt + dedupWindow < time →
      (replayed t₀ (ev :: h)).message m = some (r.freeKey (xs.map Prod.snd)) →
      MsgMoves env t₀ h ev m
  | updated (p : Pid) (time : Time) (ws : List MsgWrite) (call : MsgCall) (ms : List MsgId)
      (u : MsgUpdate) (r : Message) : ev = .commit p time ws → callOf p h = some call →
      .updateMessages ms u ∈ ws → m ∈ ms →
      (replayed t₀ h).message m = some r →
      (replayed t₀ (ev :: h)).message m = some (u.set r) →
      MsgUpdates t₀ h p time ws m r call u → MsgMoves env t₀ h ev m

theorem MsgWrite.Aside.onMessage {w : MsgWrite} (hw : w.Aside p h) : w.onMessage m = false := by
  cases w <;> first | rfl | cases hw

theorem MsgWrite.Aside.onOutbox {w : MsgWrite} (hw : w.Aside p h) : w.onOutbox n = false := by
  cases w <;> first | rfl | cases hw

/-- A message is there after its INSERT. -/
theorem message_of_insert {t : MsgTables} {v : Message} (hw : .insertMessage m v ∈ ws) :
    ∃ r, (msgSchema.applyAll ws t).message m = some r := by
  obtain ⟨pre, post, rfl⟩ := List.append_of_mem hw
  rw [Schema.applyAll_append, Schema.applyAll_cons]
  have hrow : ∃ r, (MsgTables.apply (.insertMessage m v) (msgSchema.applyAll post t)).message m =
      some r := by
    rw [MsgTables.message_apply]
    cases (msgSchema.applyAll post t).message m <;> simp
  obtain ⟨r, hr⟩ := hrow
  obtain ⟨r', hr', -⟩ := (MsgTables.Grows.applyAll pre _).message hr
  exact ⟨r', hr'⟩

private theorem MsgMoves.untouched (hf : ws.filter (MsgWrite.onMessage m) = []) :
    MsgMoves env t₀ h (.commit p time ws) m := by
  refine .same (fun w hw => ?_) ?_
  · simpa using List.filter_eq_nil_iff.mp hf w hw
  · change (msgSchema.applyAll ws (replayed t₀ h)).message m = _
    rw [message_applyAll, hf]
    rfl

private theorem message_commit_update {ms : List MsgId} {u : MsgUpdate} {r : Message}
    (hf : ws.filter (MsgWrite.onMessage m) = [.updateMessages ms u]) (hm : m ∈ ms)
    (hr : (replayed t₀ h).message m = some r) :
    (replayed t₀ (.commit p time ws :: h)).message m = some (u.set r) := by
  change (msgSchema.applyAll ws (replayed t₀ h)).message m = _
  rw [message_applyAll, hf]
  change (MsgTables.apply (.updateMessages ms u) (replayed t₀ h)).message m = some (u.set r)
  rw [MsgTables.message_apply]
  simp [hm, hr]

private theorem filter_insert {n' : OutboxId} {o : MsgOutboxRow}
    (hf : ws.filter (MsgWrite.onOutbox n) = []) :
    (.insertOutbox n' o :: ws).filter (MsgWrite.onOutbox n) =
      if n' = n then [.insertOutbox n' o] else [] := by
  rw [List.filter_cons, hf]
  simp [MsgWrite.onOutbox]

private theorem filter_update_insert {n' : OutboxId} {o : MsgOutboxRow} {m' : MsgId}
    {u : MsgUpdate} :
    ([.updateMessages [m'] u, .insertOutbox n' o] : List MsgWrite).filter (MsgWrite.onOutbox n) =
      if n' = n then [.insertOutbox n' o] else [] :=
  (List.filter_cons_of_neg (by simp [MsgWrite.onOutbox])).trans (filter_insert rfl)

private theorem outboxRow_commit (hf : ws.filter (MsgWrite.onOutbox n) = []) :
    (replayed t₀ (.commit p time ws :: h)).outboxRow n = (replayed t₀ h).outboxRow n := by
  change (msgSchema.applyAll ws (replayed t₀ h)).outboxRow n = _
  rw [outboxRow_applyAll, hf]
  rfl

private theorem outboxRow_commit_insert {o : MsgOutboxRow}
    (hf : ws.filter (MsgWrite.onOutbox n) = [.insertOutbox n o])
    (hn : (replayed t₀ h).outboxRow n = none) :
    (replayed t₀ (.commit p time ws :: h)).outboxRow n = some o := by
  change (msgSchema.applyAll ws (replayed t₀ h)).outboxRow n = _
  rw [outboxRow_applyAll, hf]
  change (MsgTables.apply (.insertOutbox n o) (replayed t₀ h)).outboxRow n = _
  rw [MsgTables.outboxRow_apply]
  simp [hn]

private theorem filter_recovered (i : RecoveredMessage) (now : Time) (n : OutboxId) :
    (i.writes now).filter (MsgWrite.onOutbox n) =
      if i.prior < messageRetryMaxAttempts + 1 ∧ i.n = n then [.insertOutbox i.n (i.outbox now)]
      else [] := by
  unfold RecoveredMessage.writes
  by_cases hlt : i.prior < messageRetryMaxAttempts + 1
  · simp only [hlt, true_and]
    exact filter_update_insert
  · simp [hlt, MsgWrite.onOutbox]

/-- A sweep enqueues one retry for each message that it sends back. -/
private theorem filter_recovered_all {items : List RecoveredMessage} (now : Time) (n : OutboxId)
    (hns : (items.filterMap RecoveredMessage.inserted).Nodup) :
    (items.flatMap (RecoveredMessage.writes now)).filter (MsgWrite.onOutbox n) = [] ∨
      ∃ i ∈ items, i.prior < messageRetryMaxAttempts + 1 ∧ i.n = n ∧
        (items.flatMap (RecoveredMessage.writes now)).filter (MsgWrite.onOutbox n) =
          [.insertOutbox n (i.outbox now)] := by
  rcases filter_flatMap_of_nodup (q := MsgWrite.onOutbox n) (f := RecoveredMessage.writes now)
    (x := n) hns fun i _ hi => by
      rw [filter_recovered, if_neg]
      rintro ⟨hlt, hn⟩
      exact hi (by simp [RecoveredMessage.inserted, hlt, hn]) with hf | ⟨i, hi, hn, hf⟩
  · exact .inl hf
  · unfold RecoveredMessage.inserted at hn
    split at hn
    · rename_i hlt
      obtain rfl : i.n = n := Option.some.inj hn
      exact .inr ⟨i, hi, hlt, rfl, hf.trans ((filter_recovered i now i.n).trans (by simp [hlt]))⟩
    · cases hn

private theorem outboxRow_recovered {items : List RecoveredMessage} {now : Time}
    (hns : (items.filterMap RecoveredMessage.inserted).Nodup) {i : RecoveredMessage}
    (hi : i ∈ items) (hlt : i.prior < messageRetryMaxAttempts + 1)
    (hn : (replayed t₀ h).outboxRow i.n = none) :
    (replayed t₀ (.commit p time (items.flatMap (RecoveredMessage.writes now)) :: h)).outboxRow i.n =
      some (i.outbox now) := by
  have hmem : .insertOutbox i.n (i.outbox now) ∈
      (items.flatMap (RecoveredMessage.writes now)).filter (MsgWrite.onOutbox i.n) := by
    refine List.mem_filter.mpr ⟨List.mem_flatMap.mpr ⟨i, hi, ?_⟩, by simp [MsgWrite.onOutbox]⟩
    simp [RecoveredMessage.writes, hlt]
  rcases filter_recovered_all now i.n hns with hf | ⟨i', -, -, -, hf⟩
  · rw [hf] at hmem
    cases hmem
  · refine outboxRow_commit_insert (hf.trans ?_) hn
    rw [hf] at hmem
    rw [List.mem_singleton.mp hmem]

private theorem filter_update (m m' : MsgId) (u : MsgUpdate) (hf : ws.filter (MsgWrite.onMessage m) = []) :
    (.updateMessages [m'] u :: ws).filter (MsgWrite.onMessage m) =
      if m = m' then [.updateMessages [m'] u] else [] := by
  rw [List.filter_cons, hf]
  simp [MsgWrite.onMessage]

private theorem filter_updates (m : MsgId) (ms : List MsgId) (u : MsgUpdate) :
    (if ms.isEmpty then [] else [.updateMessages ms u]).filter (MsgWrite.onMessage m) =
      if m ∈ ms then [.updateMessages ms u] else [] := by
  cases ms with
  | nil => rfl
  | cons m' ms => simp only [List.isEmpty_cons, Bool.false_eq_true, if_false, List.filter_cons,
      List.filter_nil, MsgWrite.onMessage, decide_eq_true_eq]

/-- A commit whose only write on messages is one UPDATE. -/
private theorem MsgMoves.bulk {ms : List MsgId} {u : MsgUpdate} (hc : callOf p h = some call)
    (hf : ws.filter (MsgWrite.onMessage m) = if m ∈ ms then [.updateMessages ms u] else [])
    (hu : m ∈ ms → ∃ r, (replayed t₀ h).message m = some r ∧
      MsgUpdates t₀ h p time ws m r call u) :
    MsgMoves env t₀ h (.commit p time ws) m := by
  by_cases hm : m ∈ ms
  · rw [if_pos hm] at hf
    obtain ⟨r, hr, hu⟩ := hu hm
    have hmem : .updateMessages ms u ∈ ws := (List.mem_filter.mp (hf ▸ List.mem_singleton_self _)).1
    exact .updated p time ws call ms u r rfl hc hmem hm hr (message_commit_update hf hm hr) hu
  · rw [if_neg hm] at hf
    exact .untouched hf

/-- The UPDATE names one row. -/
private theorem MsgMoves.single {m' : MsgId} {u : MsgUpdate} {r : Message}
    (hc : callOf p h = some call)
    (hf : ws.filter (MsgWrite.onMessage m) = if m = m' then [.updateMessages [m'] u] else [])
    (hr : (replayed t₀ h).message m' = some r)
    (hu : MsgUpdates t₀ h p time ws m' r call u) :
    MsgMoves env t₀ h (.commit p time ws) m := by
  have hfilter : ws.filter (MsgWrite.onMessage m) =
      if m ∈ [m'] then [.updateMessages [m'] u] else [] := by
    simpa only [List.mem_singleton] using hf
  refine .bulk hc hfilter fun hm => ?_
  rw [List.mem_singleton.mp hm]
  exact ⟨r, hr, hu⟩

theorem msgMoves_of_commits (hc : callOf p h = some call) (hcm : MsgCommits env t₀ h p time call ws)
    (m : MsgId) : MsgMoves env t₀ h (.commit p time ws) m := by
  cases hcm with
  | recycled j n now hown hn => exact .untouched rfl
  | lost j now hown => exact .untouched rfl
  | claimed j r now hown hr hs =>
    exact .single hc (filter_update m _ _ rfl) hr (.claim j now rfl hown hs)
  | delivered j r result now hans hr hcat =>
    exact .single hc (filter_update m _ _ rfl) hr (.pushDelivered j result now rfl hans hcat)
  | retried j r result n webhookUrl scheduledAt hans hr hcat hlt hn =>
    exact .single hc (filter_update m _ _ rfl) hr
      (.pushRetry j result n webhookUrl scheduledAt rfl hans hcat hlt hn
        (outboxRow_commit_insert (filter_update_insert.trans (if_pos rfl)) hn))
  | failed j r result now hans hr hcat hle =>
    exact .single hc (filter_update m _ _ rfl) hr
      (.pushFailed j result now rfl hans hcat hle)
  | polled user q a ms now hms hle =>
    refine .bulk hc (filter_updates m ms (.polled now)) fun hm => ?_
    obtain ⟨r, hr, hs, -, hgate⟩ := hms m hm
    exact ⟨r, hr, .polled user q now hs hgate hle⟩
  | marked call user m' u seen h₀ r hmark hown hsuf hseen hr =>
    exact .single hc (filter_update m _ _ rfl) hr (.marked call user u seen h₀ hmark hown hsuf hseen)
  | recovered staleSeconds now items hsel hok hnd hns =>
    have hkey : (items.filterMap (some ∘ RecoveredMessage.m)).Nodup := by
      rw [List.filterMap_eq_map]
      exact hnd
    have hfilter : ∀ i : RecoveredMessage, (i.writes now).filter (MsgWrite.onMessage m) =
        if m = i.m then [.updateMessages [i.m] (if i.prior < messageRetryMaxAttempts + 1
          then .staleRetry else .staleFailed now)] else [] := by
      intro i
      unfold RecoveredMessage.writes
      split
      · exact filter_update m _ _ rfl
      · exact filter_update m _ _ rfl
    rcases filter_flatMap_of_nodup (q := MsgWrite.onMessage m) (f := RecoveredMessage.writes now)
      (x := m) hkey fun i _ hi => by
        rw [hfilter, if_neg fun h => hi (by simp [h])] with hf | ⟨i, hi, hm, hf⟩
    · exact .untouched hf
    · obtain rfl : i.m = m := Option.some.inj hm
      have hiok := hok i hi
      refine .single hc (hf.trans (hfilter i)) hiok.row ?_
      split
      · rename_i hlt
        exact .staleRetry staleSeconds now i rfl hiok hlt
          (outboxRow_recovered hns hi hlt (hiok.fresh hlt))
      · rename_i hge
        exact .staleFailed staleSeconds now i rfl hiok (Nat.le_of_not_lt hge)
  | expired ms now hms hle =>
    refine .bulk hc (filter_updates m ms .expire) fun hm => ?_
    obtain ⟨r, hr, hpast⟩ := hms m hm
    exact ⟨r, hr, .expire now hpast hle⟩
  | created user req d m' x n inlineSub seen cutoff looked hown hok hle hm' hkey hx hn =>
    have hfilter : (d.writes env m' x n inlineSub seen).filter (MsgWrite.onMessage m) =
        if m = m' then [.insertMessage m' (d.row env m')] else [] := by
      unfold Draft.writes
      split <;> simp [MsgWrite.onMessage, List.filter_cons, eq_comm]
    by_cases hm : m = m'
    · subst hm
      refine .created p time user req d x n inlineSub seen rfl hc hm' ?_
      change (msgSchema.applyAll (d.writes env m x n inlineSub seen) (replayed t₀ h)).message m =
        some (d.row env m)
      rw [message_applyAll, hfilter, if_pos rfl]
      change (MsgTables.apply (.insertMessage m (d.row env m)) (replayed t₀ h)).message m = _
      rw [MsgTables.message_apply]
      simp [hm']
    · rw [if_neg hm] at hfilter
      exact .untouched hfilter
  | dispatched ns hns =>
    refine .untouched ?_
    rw [List.filter_eq_nil_iff]
    intro w hw
    obtain ⟨n, -, rfl⟩ := List.mem_map.mp hw
    simp [MsgWrite.onMessage]
  | freed xs cutoff hxs hle =>
    by_cases hm : m ∈ xs.map Prod.fst
    · obtain ⟨x, hx, rfl⟩ := List.mem_map.mp hm
      obtain ⟨r, hr, hlt⟩ := hxs x hx
      refine .freed p time xs r rfl hm hr ?_ ?_
      · exact Int.lt_of_lt_of_le (Int.add_lt_add_right hlt _) hle
      · change (MsgTables.apply (.freeKeys xs) (replayed t₀ h)).message x.1 = _
        rw [MsgTables.message_apply]
        simp only [if_pos hm, hr, Option.map_some]
    · refine .untouched ?_
      simp only [List.filter_cons, MsgWrite.onMessage, hm, decide_false, Bool.false_eq_true,
        if_false, List.filter_nil]
  | unedited user addr webhookUrl => exact .untouched rfl
  | edited user addr webhookUrl a url secret => exact .untouched rfl
  | deleted user addr a now => exact .untouched rfl
  | aside call ws hcall hws =>
    refine .untouched ?_
    rw [List.filter_eq_nil_iff]
    intro w hw
    simp [(hws w hw).onMessage]

/-- The step lemma of messages. -/
theorem msg_moves (ha : MsgAllowed env t₀ h ev) (m : MsgId) : MsgMoves env t₀ h ev m := by
  cases ev with
  | began p call => exact .same (by simp [Event.writes]) rfl
  | marked p mark => exact .same (by simp [Event.writes]) rfl
  | ended p how => exact .same (by simp [Event.writes]) rfl
  | commit p time ws =>
    obtain ⟨⟨call, hc, hcm⟩, -⟩ := ha
    exact msgMoves_of_commits hc hcm m

/-! ## One outbox row in one transaction -/

/-- The INSERTs of message tasks, each with the rest of its transaction. -/
inductive Enqueues (t₀ : MsgTables) (h : MsgHistory) (p : Pid) (ws : List MsgWrite) :
    MsgCall → MsgOutboxRow → Prop
  | recycled (j : MsgJob) (now : Time) : own p h = [.began p j.call] →
      Enqueues t₀ h p ws j.call (j.recycledRow now)
  | retried (j : MsgJob) (result : DeliveryAttemptResult) (webhookUrl : Option String)
      (scheduledAt : Time) : Answered p j h result → j.attempt < messageRetryMaxAttempts + 1 →
      .updateMessages [j.message] .pushRetry ∈ ws →
      Enqueues t₀ h p ws j.call (j.retryRow webhookUrl scheduledAt)
  | recovered (staleSeconds : Nat) (now : Time) (i : RecoveredMessage) :
      i.Ok p h (replayed t₀ h) → i.prior < messageRetryMaxAttempts + 1 →
      .updateMessages [i.m] .staleRetry ∈ ws →
      Enqueues t₀ h p ws (.recoverStaleMessageDeliveries staleSeconds) (i.outbox now)
  | created (user : UserId) (req : SendRequest) (d : Draft) (m : MsgId) (x : EventId)
      (n : OutboxId) (inlineSub : Bool) (seen : Time) : (replayed t₀ h).message m = none →
      Enqueues t₀ h p ws (.sendMessage user req) (d.outbox m)

/-- What an event does to the outbox row `n`. -/
inductive OutboxMoves (t₀ : MsgTables) (h : MsgHistory) (ev : MsgEvent) (n : OutboxId) : Prop
  | same : (replayed t₀ (ev :: h)).outboxRow n = (replayed t₀ h).outboxRow n →
      OutboxMoves t₀ h ev n
  | inserted (p : Pid) (time : Time) (ws : List MsgWrite) (call : MsgCall) (o : MsgOutboxRow) :
      ev = .commit p time ws → callOf p h = some call → (replayed t₀ h).outboxRow n = none →
      (replayed t₀ (ev :: h)).outboxRow n = some o → Enqueues t₀ h p ws call o →
      OutboxMoves t₀ h ev n
  | dispatched (p : Pid) (time : Time) (ns : List OutboxId) (j : MsgJob) (o : MsgOutboxRow) :
      ev = .commit p time (ns.map .markDispatched) → .marked p (.enqueued n j) ∈ h →
      (replayed t₀ h).outboxRow n = some o →
      (replayed t₀ (ev :: h)).outboxRow n = some { o with dispatched := true } →
      OutboxMoves t₀ h ev n

/-- A commit whose only write on the outbox is one INSERT. -/
private theorem OutboxMoves.single {k : OutboxId} {o : MsgOutboxRow}
    (hc : callOf p h = some call)
    (hf : ws.filter (MsgWrite.onOutbox n) = if k = n then [.insertOutbox k o] else [])
    (hn : (replayed t₀ h).outboxRow k = none) (he : Enqueues t₀ h p ws call o) :
    OutboxMoves t₀ h (.commit p time ws) n := by
  by_cases hkn : k = n
  · subst hkn
    rw [if_pos rfl] at hf
    exact .inserted p time ws call o rfl hc hn (outboxRow_commit_insert hf hn) he
  · rw [if_neg hkn] at hf
    exact .same (outboxRow_commit hf)

private theorem outboxRow_markDispatched (ns : List OutboxId) (t : MsgTables) (n : OutboxId) :
    (msgSchema.applyAll (ns.map .markDispatched) t).outboxRow n =
      if n ∈ ns then (t.outboxRow n).map fun o => { o with dispatched := true }
      else t.outboxRow n := by
  induction ns with
  | nil => rfl
  | cons n' ns ih =>
    change (MsgTables.apply (.markDispatched n')
      (msgSchema.applyAll (ns.map .markDispatched) t)).outboxRow n = _
    rw [MsgTables.outboxRow_apply]
    simp only [ih]
    by_cases hnn : n = n'
    · subst hnn
      simp only [if_true, List.mem_cons_self]
      split
      · cases t.outboxRow n <;> rfl
      · rfl
    · simp [hnn]

theorem outboxMoves_of_commits (hc : callOf p h = some call)
    (hcm : MsgCommits env t₀ h p time call ws) (n : OutboxId) :
    OutboxMoves t₀ h (.commit p time ws) n := by
  cases hcm with
  | recycled j n' now hown hn =>
    exact .single hc (filter_insert rfl) hn (.recycled j now hown)
  | lost j now hown => exact .same (outboxRow_commit rfl)
  | claimed j r now hown hr hs => exact .same (outboxRow_commit rfl)
  | delivered j r result now hans hr hcat => exact .same (outboxRow_commit rfl)
  | retried j r result n' webhookUrl scheduledAt hans hr hcat hlt hn =>
    exact .single (k := n') hc filter_update_insert hn
      (.retried j result webhookUrl scheduledAt hans hlt (by simp))
  | failed j r result now hans hr hcat hle => exact .same (outboxRow_commit rfl)
  | polled user q a ms now hms hle => exact .same (outboxRow_commit (by split <;> rfl))
  | marked call user m' u seen h₀ r hmark hown hsuf hseen hr => exact .same (outboxRow_commit rfl)
  | recovered staleSeconds now items hsel hok hnd hns =>
    rcases filter_recovered_all now n hns with hf | ⟨i, hi, hlt, rfl, hf⟩
    · exact .same (outboxRow_commit hf)
    · have hiok := hok i hi
      refine .single hc (hf.trans (if_pos rfl).symm) (hiok.fresh hlt)
        (.recovered staleSeconds now i hiok hlt ?_)
      exact List.mem_flatMap.mpr ⟨i, hi, by simp [RecoveredMessage.writes, hlt]⟩
  | expired ms now hms hle => exact .same (outboxRow_commit (by split <;> rfl))
  | created user req d m x n' inlineSub seen cutoff looked hown hok hle hm hkey hx hn =>
    by_cases hurl : d.webhookUrl.isSome
    · refine .single (k := n') hc ?_ (hn hurl) (.created user req d m x n' inlineSub seen hm)
      simp [Draft.writes, hurl, MsgWrite.onOutbox, List.filter_cons]
    · refine .same (outboxRow_commit ?_)
      simp [Draft.writes, hurl, MsgWrite.onOutbox]
  | dispatched ns hns =>
    have hrow := outboxRow_markDispatched ns (replayed t₀ h) n
    by_cases hn : n ∈ ns
    · rw [if_pos hn] at hrow
      cases ho : (replayed t₀ h).outboxRow n with
      | none =>
        rw [ho] at hrow
        exact .same (hrow.trans ho.symm)
      | some o =>
        rw [ho] at hrow
        obtain ⟨j, hj⟩ := hns n hn
        exact .dispatched p time ns j o rfl hj ho hrow
    · rw [if_neg hn] at hrow
      exact .same hrow
  | freed xs cutoff hxs hle => exact .same (outboxRow_commit rfl)
  | unedited user addr webhookUrl => exact .same (outboxRow_commit rfl)
  | edited user addr webhookUrl a url secret => exact .same (outboxRow_commit rfl)
  | deleted user addr a now => exact .same (outboxRow_commit rfl)
  | aside call ws hcall hws =>
    refine .same (outboxRow_commit ?_)
    rw [List.filter_eq_nil_iff]
    intro w hw
    simp [(hws w hw).onOutbox]

/-- The step lemma of the outbox. -/
theorem outbox_moves (ha : MsgAllowed env t₀ h ev) (n : OutboxId) : OutboxMoves t₀ h ev n := by
  cases ev with
  | began p call => exact .same rfl
  | marked p mark => exact .same rfl
  | ended p how => exact .same rfl
  | commit p time ws =>
    obtain ⟨⟨call, hc, hcm⟩, -⟩ := ha
    exact outboxMoves_of_commits hc hcm n

/-- Where a row of the outbox comes from. -/
theorem outboxRow_origin {t : MsgTables} {o : MsgOutboxRow}
    (ho : (msgSchema.applyAll ws t).outboxRow n = some o) :
    (∃ o', t.outboxRow n = some o' ∧ o'.Later o) ∨
      ∃ row : MsgOutboxRow, .insertOutbox n row ∈ ws ∧ row.Later o := by
  induction ws generalizing o with
  | nil => exact .inl ⟨o, ho, .refl o⟩
  | cons w ws ih =>
    have older : ∀ o₁ : MsgOutboxRow, (msgSchema.applyAll ws t).outboxRow n = some o₁ →
        o₁.Later o → (∃ o', t.outboxRow n = some o' ∧ o'.Later o) ∨
          ∃ row : MsgOutboxRow, .insertOutbox n row ∈ w :: ws ∧ row.Later o := by
      intro o₁ ho₁ hlater
      rcases ih ho₁ with ⟨o', ho', h'⟩ | ⟨row, hm, h'⟩
      · exact .inl ⟨o', ho', h'.trans hlater⟩
      · exact .inr ⟨row, List.mem_cons_of_mem _ hm, h'.trans hlater⟩
    change (MsgTables.apply w (msgSchema.applyAll ws t)).outboxRow n = some o at ho
    rw [MsgTables.outboxRow_apply] at ho
    cases w with
    | insertOutbox n' row =>
      dsimp only at ho
      split at ho
      · rename_i hn
        subst hn
        rcases Option.or_eq_some_iff.mp ho with ho | ⟨-, ho⟩
        · exact older o ho (.refl o)
        · cases ho
          exact .inr ⟨_, List.mem_cons_self, .refl _⟩
      · exact older o ho (.refl o)
    | markDispatched n' =>
      dsimp only at ho
      split at ho
      · obtain ⟨o₁, ho₁, rfl⟩ := Option.map_eq_some_iff.mp ho
        exact older o₁ ho₁ ⟨rfl, rfl, rfl, fun _ => rfl⟩
      · exact older o ho (.refl o)
    | _ => exact older o ho (.refl o)

/-! ## Events -/

/-- Where a row of `events` comes from. -/
theorem event_applyAll {t : MsgTables} {x : EventId} {e : EventRow}
    (he : (msgSchema.applyAll ws t).event x = some e) :
    (∃ e', t.event x = some e' ∧ e.core = e'.core) ∨
      ∃ row, .insertEvent x row ∈ ws ∧ e.core = row.core := by
  induction ws generalizing e with
  | nil => exact .inl ⟨e, he, rfl⟩
  | cons w ws ih =>
    have older : ∀ e₁, (msgSchema.applyAll ws t).event x = some e₁ → e.core = e₁.core →
        (∃ e', t.event x = some e' ∧ e.core = e'.core) ∨
          ∃ row, .insertEvent x row ∈ w :: ws ∧ e.core = row.core := by
      intro e₁ he₁ hcore
      rcases ih he₁ with ⟨e', he', h'⟩ | ⟨row, hm, h'⟩
      · exact .inl ⟨e', he', hcore.trans h'⟩
      · exact .inr ⟨row, List.mem_cons_of_mem _ hm, hcore.trans h'⟩
    change (MsgTables.apply w (msgSchema.applyAll ws t)).event x = some e at he
    rw [MsgTables.event_apply] at he
    cases w with
    | insertEvent x' row =>
      dsimp only at he
      split at he
      · rename_i hx
        subst hx
        rcases Option.or_eq_some_iff.mp he with he | ⟨-, he⟩
        · exact older e he rfl
        · cases he
          exact .inr ⟨_, List.mem_cons_self, rfl⟩
      · exact older e he rfl
    | markDigested xs now =>
      dsimp only at he
      split at he
      · obtain ⟨e₁, he₁, rfl⟩ := Option.map_eq_some_iff.mp he
        exact older e₁ he₁ rfl
      · exact older e he rfl
    | _ => exact older e he rfl

/-- The INSERTs of `events`. -/
theorem insertEvent_of_commits (hcm : MsgCommits env t₀ h p time call ws) {x : EventId}
    {row : EventRow} (hm : .insertEvent x row ∈ ws) :
    (∃ (d : Draft) (m : MsgId) (n : OutboxId) (inlineSub : Bool) (seen : Time),
      ws = d.writes env m x n inlineSub seen ∧
        row = d.event m (maybeEmbedBody inlineSub d.data.body)) ∨
    (row.payload.Bundles p h ∧ row.idempotencyKey.type = .messageDigest) := by
  cases hcm with
  | created user req d m x' n inlineSub seen =>
    refine .inl ⟨d, m, n, inlineSub, seen, ?_⟩
    by_cases hurl : d.webhookUrl.isSome <;> simp [Draft.writes, hurl] at hm <;>
      obtain ⟨rfl, rfl⟩ := hm <;> exact ⟨rfl, rfl⟩
  | aside call ws hcall hws => exact .inr (hws _ hm)
  | polled user q a ms now => split at hm <;> simp at hm
  | expired ms now => split at hm <;> simp at hm
  | recovered staleSeconds now items =>
    obtain ⟨i, -, hm⟩ := List.mem_flatMap.mp hm
    unfold RecoveredMessage.writes at hm
    split at hm <;> simp at hm
  | _ => simp at hm

theorem EventRow.key_of_core {e e' : EventRow} (h : e.core = e'.core) :
    e.idempotencyKey = e'.idempotencyKey :=
  (congrArg EventRow.idempotencyKey h : e.core.idempotencyKey = e'.core.idempotencyKey)

/-- An event of a message comes with the message. -/
theorem eventKeyed_message (ht : t₀.Blank) (hl : MsgLegal env t₀ h) {x : EventId} {e : EventRow}
    (he : (replayed t₀ h).event x = some e) (hkey : e.idempotencyKey = .messageDelivered m) :
    ∃ r, (replayed t₀ h).message m = some r := by
  induction h generalizing x e with
  | nil => rw [show (replayed t₀ []).event x = none from ht.event x] at he; cases he
  | cons ev h ih =>
    have older : ∀ e', (replayed t₀ h).event x = some e' → e.core = e'.core →
        ∃ r, (replayed t₀ (ev :: h)).message m = some r := by
      intro e' he' hcore
      obtain ⟨r, hr⟩ := ih hl.2 he' ((EventRow.key_of_core hcore).symm.trans hkey)
      obtain ⟨r', hr', -⟩ := (MsgTables.Grows.replayed_suffix (List.suffix_cons ev h)).message hr
      exact ⟨r', hr'⟩
    cases ev with
    | commit p time ws =>
      obtain ⟨⟨call, -, hcm⟩, -⟩ := hl.1
      rcases event_applyAll he with ⟨e', he', hcore⟩ | ⟨row, hm, hcore⟩
      · exact older e' he' hcore
      rcases insertEvent_of_commits hcm hm with ⟨d, m', n, inlineSub, seen, rfl, rfl⟩ | ⟨-, htype⟩
      · obtain rfl : m' = m := EventKey.messageDelivered.inj ((EventRow.key_of_core hcore).symm.trans hkey)
        exact message_of_insert (v := d.row env m') (by
          simp [Event.writes, Draft.writes])
      · rw [← EventRow.key_of_core hcore, hkey] at htype
        cases htype
    | began p call => exact older e he rfl
    | marked p mark => exact older e he rfl
    | ended p how => exact older e he rfl

end CueApi.Messages
