import CueApi.Messages.Lifecycle

/-! A message in `retry_ready` has its next attempt somewhere: in an outbox row that no job was made
of, in the arq queue, or in a retry job that has only begun. A retry job that returns because the
recipient's `webhook_url` is gone, or that raises, takes the attempt with it. -/

namespace CueApi.Messages

open Scheduler (Pid Time UserId OutboxId keysWhere mem_keysWhere)
open ReadCommitted Interleaving Trace Recorded

variable {env : MsgEnv} {t₀ : MsgTables} {h h' : MsgHistory} {ev : MsgEvent} {p : Pid} {m : MsgId}
variable {s s' : MsgSys} {time : Time} {ws : List MsgWrite} {n : OutboxId} {j : MsgJob}

/-! ## Outbox rows and their jobs -/

/-- A row that a job was made of is there. -/
theorem enqueued_row (hl : MsgLegal env t₀ h) (hm : .marked p (.enqueued n j) ∈ h) :
    ∃ o, (replayed t₀ h).outboxRow n = some o ∧ j = ⟨o.taskType, o.payload⟩ := by
  obtain ⟨h₀, hs⟩ := mem_split hm
  obtain ⟨call, -, -, o, ho, -, rfl⟩ := hl.at hs
  obtain ⟨o', ho', hlater⟩ :=
    (MsgTables.Grows.replayed_suffix ((List.suffix_cons _ _).trans hs)).outboxRow ho
  exact ⟨o', ho', by rw [hlater.taskType, hlater.payload]⟩

/-- A dispatched row has been made a job of. -/
theorem dispatched_enqueued (ht : t₀.Blank) (hl : MsgLegal env t₀ h) {o : MsgOutboxRow}
    (ho : (replayed t₀ h).outboxRow n = some o) (hd : o.dispatched = true) :
    ∃ p j, .marked p (.enqueued n j) ∈ h := by
  induction h generalizing o with
  | nil =>
    rw [show (replayed t₀ []).outboxRow n = none from ht.outboxRow n] at ho
    cases ho
  | cons ev h ih =>
    cases outbox_moves hl.1 n with
    | same hsame =>
      obtain ⟨p, j, hm⟩ := ih hl.2 (hsame.symm.trans ho) hd
      exact ⟨p, j, List.mem_cons_of_mem _ hm⟩
    | inserted p time ws call o' hev hc hnone hrow he =>
      obtain rfl : o' = o := Option.some.inj (hrow.symm.trans ho)
      cases he <;> cases hd
    | dispatched p time ns j o' hev hm hrow hrow' => exact ⟨p, j, List.mem_cons_of_mem _ hm⟩

/-! ## A job that has only begun -/

theorem Answered.not_began {result : DeliveryAttemptResult} (ha : Answered p j h result) :
    own p h ≠ [.began p j.call] := by
  intro hown
  cases ha with
  | unconfigured time now hown' =>
    rw [hown] at hown'
    cases hown'
  | pushed answer time now hown' =>
    rw [hown] at hown'
    cases hown'

/-- The first commit of a job: it has gone back to the outbox, or it has claimed its message. -/
theorem commits_began (hcm : MsgCommits env t₀ h p time j.call ws)
    (hown : own p h = [.began p j.call]) :
    (∃ n now, ws = [.insertOutbox n (j.recycledRow now)] ∧
      (replayed t₀ h).outboxRow n = none) ∨
    ∃ now, ws = [.updateMessages [j.message] (.claim j.expected now)] ∧
      stateAt t₀ h j.message = some j.expected := by
  generalize hcall : j.call = call at hcm
  cases hcm with
  | recycled j' n now hown' hn =>
    obtain rfl := MsgJob.call_injective hcall
    exact .inl ⟨n, now, rfl, hn⟩
  | claimed j' r now hown' hr hst =>
    obtain rfl := MsgJob.call_injective hcall
    exact .inr ⟨now, rfl, stateAt_eq_some.mpr ⟨r, hr, hst⟩⟩
  | lost j' now hown' =>
    rw [hown] at hown'
    cases hown'
  | delivered j' r result now hans hr hcat =>
    obtain rfl := MsgJob.call_injective hcall
    exact absurd hown hans.not_began
  | retried j' r result n url at' hans hr hcat hlt hn =>
    obtain rfl := MsgJob.call_injective hcall
    exact absurd hown hans.not_began
  | failed j' r result now hans hr hcat hle =>
    obtain rfl := MsgJob.call_injective hcall
    exact absurd hown hans.not_began
  | marked call user m u seen h₀ r hmark hown' hsuf hseen hr =>
    rw [hown] at hown'
    cases hown'
  | aside call ws hreads hws =>
    rw [← hcall] at hreads
    obtain ⟨task, payload⟩ := j
    cases task <;> cases hreads
  | _ => cases MsgCall.job_eq_some.mpr hcall.symm

/-- The first note of a job: a lookup has found nothing, or the claim has matched nothing. -/
theorem marks_began {mark : MsgMark} (hm : MsgMarks env t₀ h p j.call mark)
    (hown : own p h = [.began p j.call]) : mark = .missing ∨
      stateAt t₀ h j.message ≠ some j.expected := by
  have not_job : ∀ {call : MsgCall}, call.job = none → j.call ≠ call := by
    intro call hnone hcall
    rw [MsgCall.job_eq_some.mpr hcall.symm] at hnone
    cases hnone
  cases mark with
  | missing => exact .inl rfl
  | unmatched u =>
    refine .inr fun hst => ?_
    obtain ⟨r, hr, hst⟩ := stateAt_eq_some.mp hst
    exact (hm j rfl).2.2 r hr hst
  | admitted m =>
    obtain ⟨-, user, hadm, -⟩ := hm
    generalize hcall : j.call = call at hadm
    cases hadm <;> exact absurd hcall (not_job rfl)
  | pushed m answer =>
    obtain ⟨j', time, now, -, hown'⟩ := hm
    rw [hown] at hown'
    cases hown'
  | selected ms => exact absurd hm.2.2.1.choose_spec (not_job rfl)
  | counted m prior => exact absurd hm.1.choose_spec (not_job rfl)
  | enqueued n j' => exact absurd hm.1 (not_job rfl)
  | read events =>
    obtain ⟨task, payload⟩ := j
    cases task <;> cases hm
  | looked cutoff time fields found =>
    obtain ⟨-, user, req, key, hcall, -⟩ := hm
    exact absurd hcall (not_job rfl)
  | resolved m found =>
    obtain ⟨user, req, cutoff, time, fields, text, hcall, -⟩ := hm
    exact absurd hcall (not_job rfl)
  | conflict =>
    obtain ⟨user, req, key, cutoff, time, fields, hcall, -⟩ := hm
    exact absurd hcall (not_job rfl)
  | posted sub events =>
    obtain ⟨hreads, -⟩ := hm
    obtain ⟨task, payload⟩ := j
    cases task <;> cases hreads

/-! ## The attempts of a message -/

/-- The job retries the message. -/
def MsgJob.retries (m : MsgId) (j : MsgJob) : Bool := j.task = .retryMessage && j.message = m

/-- The process has left. -/
def gone (p : Pid) (h : MsgHistory) : Bool :=
  h.any fun ev => match ev with
    | .ended q _ => q = p
    | _ => false

/-- The push jobs that run. -/
def runningJobs (h : MsgHistory) : List MsgJob :=
  h.filterMap fun ev => match ev with
    | .began p call => if gone p h then none else call.job
    | _ => none

/-- An undispatched retry task of the message. -/
def waitingRetry (m : MsgId) (o : MsgOutboxRow) : Bool :=
  o.taskType = .retryMessage && o.payload.messageId = m && !o.dispatched

/-- The message has a retry task in the outbox, or a retry job that is queued or runs. -/
def hasRetry (t₀ : MsgTables) (h : MsgHistory) (m : MsgId) : Bool :=
  !(keysWhere (replayed t₀ h).outbox fun _ o => waitingRetry m o).isEmpty ||
    (queuedJobs h).any (MsgJob.retries m) || (runningJobs h).any (MsgJob.retries m)

/-- The invariant: where the next attempt of a message is. -/
inductive Awaited (t₀ : MsgTables) (h : MsgHistory) (m : MsgId) : Prop
  | waiting (n : OutboxId) (o : MsgOutboxRow) : (replayed t₀ h).outboxRow n = some o →
      o.taskType = .retryMessage → o.payload.messageId = m →
      (∀ p j, .marked p (.enqueued n j) ∉ h) → Awaited t₀ h m
  | queued (j : MsgJob) : j ∈ queuedJobs h → j.retries m = true → Awaited t₀ h m
  | running (p : Pid) (j : MsgJob) : own p h = [.began p j.call] → j.retries m = true →
      Awaited t₀ h m

theorem own_gone (hg : gone p h = true) : ∃ how, .ended p how ∈ own p h := by
  obtain ⟨ev, hm, hev⟩ := List.any_eq_true.mp hg
  cases ev with
  | ended q how =>
    obtain rfl : q = p := by simpa using hev
    exact ⟨how, mem_own.mpr ⟨hm, rfl⟩⟩
  | _ => cases hev

theorem Awaited.hasRetry (ht : t₀.Blank) (hl : MsgLegal env t₀ h) (ha : Awaited t₀ h m) :
    hasRetry t₀ h m = true := by
  simp only [Messages.hasRetry, Bool.or_eq_true]
  cases ha with
  | waiting n o ho htask hm hnew =>
    refine .inl (.inl ?_)
    have hd : o.dispatched = false := by
      by_contra hd
      obtain ⟨p, j, hmark⟩ := dispatched_enqueued ht hl ho (by simpa using hd)
      exact hnew p j hmark
    have hin : n ∈ keysWhere (replayed t₀ h).outbox fun _ o => waitingRetry m o :=
      (mem_keysWhere _ _ _).mpr ⟨o, ho, by simp [waitingRetry, htask, hm, hd]⟩
    simpa using List.ne_nil_of_mem hin
  | queued j hj hret => exact .inl (.inr (List.any_eq_true.mpr ⟨j, hj, hret⟩))
  | running p j hown hret =>
    refine .inr (List.any_eq_true.mpr ⟨j, List.mem_filterMap.mpr ?_, hret⟩)
    refine ⟨.began p j.call, mem_of_own_eq hown (by simp), ?_⟩
    have hlive : gone p h = false := by
      by_contra hg
      obtain ⟨how, hmem⟩ := own_gone (by simpa using hg)
      rw [hown] at hmem
      simp at hmem
    simp [hlive, MsgCall.job_eq_some.mpr rfl]

/-! ## The condition -/

/-- A retry job whose message is waiting for it has only begun. -/
def strands (t₀ : MsgTables) (h : MsgHistory) (p : Pid) : Bool :=
  (own p h).length = 1 && ((callOf p h).bind MsgCall.job).any fun j =>
    j.task = .retryMessage && stateAt t₀ h j.message = some .retryReady

/-- No retry job gives up for want of its context, and none raises, before it has claimed a message
that waits for it. -/
def keepsRetry (t₀ : MsgTables) (h : MsgHistory) : MsgEvent → Bool
  | .marked p .missing | .ended p .raised => !strands t₀ h p
  | _ => true

theorem strands_of_began (hown : own p h = [.began p j.call]) (hret : j.retries m = true)
    (hst : stateAt t₀ h m = some .retryReady) : strands t₀ h p = true := by
  simp only [MsgJob.retries, Bool.and_eq_true, decide_eq_true_eq] at hret
  obtain ⟨htask, rfl⟩ := hret
  have hc : callOf p h = some j.call := by
    rw [← callOf_own, hown]
    exact MsgJob.callOf_began p _
  simp [strands, hown, hc, MsgCall.job_eq_some.mpr rfl, htask, hst]

/-! ## Every step keeps the attempt -/

theorem MsgJob.retries_expected (hret : j.retries m = true) :
    j.expected = .retryReady ∧ j.message = m := by
  simp only [MsgJob.retries, Bool.and_eq_true, decide_eq_true_eq] at hret
  obtain ⟨task, payload⟩ := j
  obtain ⟨rfl, rfl⟩ := hret
  exact ⟨rfl, rfl⟩

theorem Awaited.of_fresh {o : MsgOutboxRow} (hl : MsgLegal env t₀ (.commit p time ws :: h))
    (hn : (replayed t₀ h).outboxRow n = none)
    (ho : (replayed t₀ (.commit p time ws :: h)).outboxRow n = some o)
    (htask : o.taskType = .retryMessage) (hm : o.payload.messageId = m) :
    Awaited t₀ (.commit p time ws :: h) m := by
  refine .waiting n o ho htask hm fun q j hmark => ?_
  rcases List.mem_cons.mp hmark with heq | hmark
  · cases heq
  · obtain ⟨o', ho', -⟩ := enqueued_row hl.2 hmark
    rw [hn] at ho'
    cases ho'

theorem Awaited.elsewhere {q : Pid} (hq : ev.pid ≠ q) (hown : own q h = [.began q j.call])
    (hret : j.retries m = true) : Awaited t₀ (ev :: h) m :=
  .running q j ((own_cons_of_ne hq h).trans hown) hret

theorem Awaited.commit (hl : MsgLegal env t₀ (.commit p time ws :: h))
    (hsame : stateAt t₀ (.commit p time ws :: h) m = some .retryReady) (ha : Awaited t₀ h m) :
    Awaited t₀ (.commit p time ws :: h) m := by
  cases ha with
  | waiting n o ho htask hm hnew =>
    obtain ⟨o', ho', hlater⟩ :=
      (MsgTables.Grows.replayed_suffix (List.suffix_cons (.commit p time ws) h)).outboxRow ho
    exact .waiting n o' ho' (hlater.taskType.trans htask) (by rw [hlater.payload]; exact hm)
      fun q j hmark => hnew q j (by simpa using hmark)
  | queued j hj hret => exact .queued j hj hret
  | running q j hown hret =>
    by_cases hq : p = q
    · subst hq
      obtain ⟨⟨call, hc, hcm⟩, -⟩ := hl.1
      rw [← callOf_own, hown, MsgJob.callOf_began] at hc
      obtain rfl := Option.some.inj hc
      rcases commits_began hcm hown with ⟨n, now, rfl, hn⟩ | ⟨now, rfl, hst⟩
      · simp only [MsgJob.retries, Bool.and_eq_true, decide_eq_true_eq] at hret
        refine .of_fresh hl hn (o := j.recycledRow now) ?_ hret.1 hret.2
        change (MsgTables.apply (.insertOutbox n (j.recycledRow now)) (replayed t₀ h)).outboxRow n = _
        rw [MsgTables.outboxRow_apply]
        simp [hn]
      · obtain ⟨-, rfl⟩ := j.retries_expected hret
        rw [stateAt_update hst] at hsame
        cases hsame
    · exact .elsewhere hq hown hret

theorem Awaited.marked {mark : MsgMark} (hl : MsgLegal env t₀ (.marked p mark :: h))
    (hk : keepsRetry t₀ h (.marked p mark) = true) (hst : stateAt t₀ h m = some .retryReady)
    (ha : Awaited t₀ h m) : Awaited t₀ (.marked p mark :: h) m := by
  cases ha with
  | waiting n o ho htask hm hnew =>
    by_cases hmark : ∃ j, mark = .enqueued n j
    · obtain ⟨j, rfl⟩ := hmark
      obtain ⟨o', ho', rfl⟩ := enqueued_row hl (List.mem_cons_self ..)
      cases ho.symm.trans ho'
      exact .queued _ (List.mem_cons_self ..) (by simp [MsgJob.retries, MsgJob.message, htask, hm])
    · refine .waiting n o ho htask hm fun q j hmem => ?_
      rcases List.mem_cons.mp hmem with heq | hmem
      · cases heq
        exact hmark ⟨j, rfl⟩
      · exact hnew q j hmem
  | queued j hj hret =>
    refine .queued j ?_ hret
    cases mark with
    | enqueued n j' => exact List.mem_cons_of_mem _ hj
    | _ => exact hj
  | running q j hown hret =>
    by_cases hq : p = q
    · subst hq
      obtain ⟨call, hc, hm⟩ := hl.1
      rw [← callOf_own, hown, MsgJob.callOf_began] at hc
      obtain rfl := Option.some.inj hc
      rcases marks_began hm hown with rfl | hne
      · rw [keepsRetry, strands_of_began hown hret hst] at hk
        cases hk
      · obtain ⟨hexp, rfl⟩ := j.retries_expected hret
        rw [hexp] at hne
        exact absurd hst hne
    · exact .elsewhere hq hown hret

theorem Awaited.began {call : MsgCall} (hl : MsgLegal env t₀ (.began p call :: h))
    (ha : Awaited t₀ h m) : Awaited t₀ (.began p call :: h) m := by
  have hown₀ : own p h = [] := hl.1
  cases ha with
  | waiting n o ho htask hm hnew =>
    exact .waiting n o ho htask hm fun q j hmark => hnew q j (by simpa using hmark)
  | queued j hj hret =>
    by_cases hcall : call.job = some j
    · refine .running p j ?_ hret
      rw [own_began, hown₀, MsgCall.job_eq_some.mp hcall]
    · refine .queued j ?_ hret
      simp only [queuedJobs]
      split
      · rename_i j' hj'
        refine (List.mem_erase_of_ne ?_).mpr hj
        rintro rfl
        exact hcall hj'
      · exact hj
  | running q j hown hret =>
    by_cases hq : p = q
    · subst hq
      rw [hown₀] at hown
      cases hown
    · exact .elsewhere hq hown hret

theorem Awaited.ended {how : Ending MsgReply} (hl : MsgLegal env t₀ (.ended p how :: h))
    (hk : keepsRetry t₀ h (.ended p how) = true) (hst : stateAt t₀ h m = some .retryReady)
    (ha : Awaited t₀ h m) : Awaited t₀ (.ended p how :: h) m := by
  cases ha with
  | waiting n o ho htask hm hnew =>
    exact .waiting n o ho htask hm fun q j hmark => hnew q j (by simpa using hmark)
  | queued j hj hret =>
    refine .queued j ?_ hret
    cases how with
    | crashed =>
      simp only [queuedJobs]
      split
      · exact List.mem_cons_of_mem _ hj
      · exact hj
    | _ => exact hj
  | running q j hown hret =>
    by_cases hq : p = q
    · subst hq
      have hc : callOf p h = some j.call := by
        rw [← callOf_own, hown]
        exact MsgJob.callOf_began p _
      cases how with
      | returned reply =>
        obtain ⟨call, hc', hr⟩ := hl.1
        obtain rfl := Option.some.inj (hc.symm.trans hc')
        obtain ⟨task, payload⟩ := j
        cases task with
        | deliverMessage => exact absurd hown hr
        | retryMessage => exact absurd hown hr
      | crashed =>
        refine .queued j ?_ hret
        simp [queuedJobs, hc, MsgCall.job_eq_some.mpr rfl]
      | raised =>
        rw [keepsRetry, strands_of_began hown hret hst] at hk
        cases hk
    · exact .elsewhere hq hown hret

/-- The step lemma. -/
theorem Awaited.step (hl : MsgLegal env t₀ (ev :: h)) (hk : keepsRetry t₀ h ev = true)
    (ih : stateAt t₀ h m = some .retryReady → Awaited t₀ h m)
    (hst : stateAt t₀ (ev :: h) m = some .retryReady) : Awaited t₀ (ev :: h) m := by
  cases ev with
  | began p call => exact (ih hst).began hl
  | marked p mark => exact (ih hst).marked hl hk hst
  | ended p how => exact (ih hst).ended hl hk hst
  | commit p time ws =>
    cases state_moves hl.1 m with
    | same hsame => exact (ih (hsame.symm.trans hst)).commit hl hst
    | created hnone hnew =>
      rw [hst] at hnew
      cases hnew
    | updated p' time' ws' call ms u r hev hc hws hm hr hnew hu =>
      cases hev
      have htarget : u.target = .retryReady := Option.some.inj (hnew.symm.trans hst)
      cases hu with
      | pushRetry j result n url at' hm' hans hcat hlt hn hrow =>
        exact .of_fresh hl hn hrow rfl hm'.symm
      | staleRetry staleSeconds now i hm' hok hlt hrow =>
        exact .of_fresh hl (hok.fresh hlt) hrow rfl hm'
      | marked call user u seen h₀ hmark hown hsuf hseen =>
        cases hmark <;> cases htarget
      | _ => cases htarget

/-- A message in `retry_ready` has a retry task that waits, or a retry job that is queued or runs,
in every run in which no retry job gives up or raises before it has claimed a message that waits for
it. -/
theorem retry_not_stranded (ht : t₀.Blank) (hr : MsgReachable env t₀ s)
    (hk : Along (fun h ev => keepsRetry t₀ h ev = true) s.shared.history)
    (hst : stateIn s m = some .retryReady) : hasRetry t₀ s.shared.history m = true := by
  have hl := hr.legal ht
  rw [hr.stateIn_eq ht] at hst
  refine Awaited.hasRetry ht hl ?_
  generalize s.shared.history = h at hl hk hst
  induction h with
  | nil =>
    obtain ⟨r, hrow, -⟩ := stateAt_eq_some.mp hst
    rw [show (replayed t₀ []).message m = none from ht.message m] at hrow
    cases hrow
  | cons ev h ih => exact Awaited.step hl hk.1 (fun hst => ih hl.2 hk.2 hst) hst

/-- The endpoint answers the first push of message 5 with 500, so task 8 is to retry it. -/
def failedOnce : List MsgAction :=
  playMsgAll 1 (.sendMessage 1 hello) (stores 5 7) ++ playMsgAll 2 .dispatchOutbox (enqueues 7) ++
    playMsgAll 3 (.deliverMessage pushOfHello)
      (List.replicate 9 .go ++ [.push (.response 500 none), .go, .fresh 8] ++ List.replicate 3 .go)

/-- The recipient clears its endpoint, and the retry job finds no context. -/
def retriedWithoutEndpoint : List MsgAction :=
  failedOnce ++ playMsgAll 4 (.updateAgent 2 (.id 2 "agt_2") (some none)) (List.replicate 4 .go) ++
    [.tick 60000000] ++ playMsgAll 5 .dispatchOutbox (enqueues 8) ++
    playMsgAll 6 (.retryMessage { pushOfHello with attempt := some 2 }) (List.replicate 2 .go)

theorem retry_not_stranded_once : ∃ s, MsgReachable oneUser twoUsers s ∧
    stateIn s 5 = some .retryReady ∧ hasRetry twoUsers s.shared.history 5 = true := by
  obtain ⟨s, hr, hv⟩ := reachable_of_run failedOnce (fun s => (stateIn s 5,
    decide (Along (fun h ev => keepsRetry twoUsers h ev = true) s.shared.history)))
    (v := (some .retryReady, true)) (by decide +kernel)
  obtain ⟨hst, hk⟩ := Prod.mk.inj hv
  exact ⟨s, hr, hst, retry_not_stranded blank_twoUsers hr (of_decide_eq_true hk) hst⟩

theorem retry_stranded : ∃ s, MsgReachable oneUser twoUsers s ∧
    stateIn s 5 = some .retryReady ∧ hasRetry twoUsers s.shared.history 5 = false := by
  obtain ⟨s, hr, hv⟩ := reachable_of_run retriedWithoutEndpoint
    (fun s => (stateIn s 5, hasRetry twoUsers s.shared.history 5))
    (v := (some .retryReady, false)) (by decide +kernel)
  obtain ⟨hst, hno⟩ := Prod.mk.inj hv
  exact ⟨s, hr, hst, hno⟩

end CueApi.Messages
