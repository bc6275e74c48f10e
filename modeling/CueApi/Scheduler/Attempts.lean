import CueApi.Scheduler.Delivery

/-! How often a webhook execution is claimed and delivered. Only the retry poller
makes a claimed execution claimable again, and each claim sends at most one
request; the retry budget is kept as long as no claim is recovered, because a
recovered claim is one that `attempts` does not count. -/

namespace CueApi.Scheduler

open ReadCommitted Interleaving Trace

variable {env : Env} {h : History} {s : Sys} {e : ExecId} {task : TaskType}

/-! ## The UPDATEs of one execution -/

/-- The UPDATE an event applies to `e`. -/
def Event.update (e : ExecId) : Event → Option ExecUpdate
  | .commit _ _ ws => (writesOn (.execution e) ws).head?.bind fun w => match w with
      | .updateExecution _ u => some u
      | _ => none
  | _ => none

/-- The UPDATEs of `e`, newest first. -/
def updatesOf (e : ExecId) (h : History) : List ExecUpdate := h.filterMap (Event.update e)

theorem updatesOf_cons (ev : Event) :
    updatesOf e (ev :: h) = (ev.update e).toList ++ updatesOf e h := by
  unfold updatesOf
  cases hu : ev.update e <;> simp [hu]

theorem Event.update_eq_none {ev : Event}
    (hw : ∀ p time ws, ev = .commit p time ws → writesOn (.execution e) ws = []) :
    ev.update e = none := by
  cases ev with
  | commit p time ws => simp [Event.update, hw p time ws rfl]
  | _ => rfl

theorem Event.update_insert {p : Pid} {time : Time} {ws : List Write} {row : Execution}
    (hw : writesOn (.execution e) ws = [.insertExecution e row]) :
    (Event.commit p time ws).update e = none := by
  simp [Event.update, hw]

theorem Event.update_eq {p : Pid} {time : Time} {ws : List Write} {u : ExecUpdate}
    (hw : writesOn (.execution e) ws = [.updateExecution e u]) :
    (Event.commit p time ws).update e = some u := by
  simp [Event.update, hw]

theorem Event.update_single (p : Pid) (time : Time) (e : ExecId) (u : ExecUpdate) :
    (Event.commit p time [.updateExecution e u]).update e = some u :=
  Event.update_eq (by simp [writesOn_cons, Write.target])

/-- An execution that is not there has not been updated. -/
theorem updatesOf_eq_nil (hl : Legal env h) (hn : (replay h).execution e = none) :
    updatesOf e h = [] := by
  revert hn
  refine Along.invariant (J := fun h => (replay h).execution e = none → updatesOf e h = [])
    (fun _ => rfl) ?_ hl
  intro h ev _ ha ih hn
  have hn₀ := (Tables.Grows.replay_cons ev h).execution_none hn
  cases exec_step ha e with
  | same _ _ hw => rw [updatesOf_cons, Event.update_eq_none hw, ih hn₀]; rfl
  | created _ _ _ call row _ _ hrow _ _ _ =>
    rw [hn] at hrow
    cases hrow
  | updated _ _ _ call u r _ hr _ _ _ =>
    rw [hn₀] at hr
    cases hr

/-! ## Claims -/

/-- The UPDATE is a claim by a job of the task. -/
def ExecUpdate.claimsFor (task : TaskType) : ExecUpdate → Bool
  | .claim expected _ _ => expected = task.expected
  | _ => false

def ExecUpdate.isReady : ExecUpdate → Bool
  | .retryReady _ => true
  | _ => false

/-- How often a job of the task has claimed `e`. -/
def claimsBy (task : TaskType) (e : ExecId) (h : History) : Nat :=
  (updatesOf e h).countP (ExecUpdate.claimsFor task)

/-- How often `poll_retries` has moved `e` to `retry_ready`. -/
def readies (e : ExecId) (h : History) : Nat := (updatesOf e h).countP ExecUpdate.isReady

theorem claimsBy_cons {ev : Event} {u : ExecUpdate} (task : TaskType)
    (hup : updatesOf e (ev :: h) = u :: updatesOf e h) :
    claimsBy task e (ev :: h) = claimsBy task e h + if u.claimsFor task then 1 else 0 := by
  simp [claimsBy, hup, List.countP_cons]

theorem readies_cons {ev : Event} {u : ExecUpdate}
    (hup : updatesOf e (ev :: h) = u :: updatesOf e h) :
    readies e (ev :: h) = readies e h + if u.isReady then 1 else 0 := by
  simp [readies, hup, List.countP_cons]

/-- Claims never outnumber the moments at which the execution became claimable. -/
structure ClaimsBounded (e : ExecId) (h : History) (r : Execution) : Prop where
  deliver : claimsBy .deliver e h ≤ 1
  pending : r.status = .pending → claimsBy .deliver e h = 0
  retry : claimsBy .retry e h ≤ readies e h
  retryReady : r.status = .retryReady → claimsBy .retry e h < readies e h

theorem ClaimsBounded.same {ev : Event} {r : Execution} (hb : ClaimsBounded e h r)
    (hu : ev.update e = none) : ClaimsBounded e (ev :: h) r := by
  have hup : updatesOf e (ev :: h) = updatesOf e h := by rw [updatesOf_cons, hu]; rfl
  exact ⟨by rw [claimsBy, hup]; exact hb.deliver, by rw [claimsBy, hup]; exact hb.pending,
    by rw [claimsBy, readies, hup]; exact hb.retry,
    by rw [claimsBy, readies, hup]; exact hb.retryReady⟩

/-- An UPDATE that neither claims nor makes ready. -/
theorem ClaimsBounded.plain {p : Pid} {time : Time} {ws : List Write} {r : Execution}
    {u : ExecUpdate} (hb : ClaimsBounded e h r)
    (hup : updatesOf e (.commit p time ws :: h) = u :: updatesOf e h)
    (hclaim : ∀ task, u.claimsFor task = false) (hready : u.isReady = false)
    (hp : (u.set r).status = .pending → r.status = .pending)
    (hr : (u.set r).status = .retryReady → r.status = .retryReady) :
    ClaimsBounded e (.commit p time ws :: h) (u.set r) := by
  have hc : ∀ task, claimsBy task e (.commit p time ws :: h) = claimsBy task e h := fun task => by
    simp [claimsBy_cons task hup, hclaim task]
  have hy : readies e (.commit p time ws :: h) = readies e h := by
    simp [readies_cons hup, hready]
  exact ⟨by rw [hc]; exact hb.deliver, fun hs => by rw [hc]; exact hb.pending (hp hs),
    by rw [hc, hy]; exact hb.retry, fun hs => by rw [hc, hy]; exact hb.retryReady (hr hs)⟩

theorem Updates.claimsBounded {p : Pid} {time : Time} {ws : List Write} {r : Execution}
    {call : Call} {u : ExecUpdate} (hu : Updates env h p time ws e r call u)
    (hup : updatesOf e (.commit p time ws :: h) = u :: updatesOf e h)
    (hw : transportOf (replay h) r.cueId = some .webhook) (hb : ClaimsBounded e h r) :
    ClaimsBounded e (.commit p time ws :: h) (u.set r) := by
  cases hu with
  | claim j began now _ _ hs _ =>
    cases ht : j.task with
    | deliver =>
      rw [ht] at hs hup
      have hzero := hb.pending hs
      have hd : claimsBy .deliver e (.commit p time ws :: h) = claimsBy .deliver e h + 1 :=
        claimsBy_cons .deliver hup
      have hr : claimsBy .retry e (.commit p time ws :: h) = claimsBy .retry e h :=
        claimsBy_cons .retry hup
      have hy : readies e (.commit p time ws :: h) = readies e h := readies_cons hup
      have hle := hb.retry
      exact ⟨by omega, fun hs => (by cases hs), by omega, fun hs => (by cases hs)⟩
    | retry =>
      rw [ht] at hs hup
      have hlt := hb.retryReady hs
      have hd : claimsBy .deliver e (.commit p time ws :: h) = claimsBy .deliver e h :=
        claimsBy_cons .deliver hup
      have hr : claimsBy .retry e (.commit p time ws :: h) = claimsBy .retry e h + 1 :=
        claimsBy_cons .retry hup
      have hy : readies e (.commit p time ws :: h) = readies e h := readies_cons hup
      have hle := hb.deliver
      exact ⟨by omega, fun hs => (by cases hs), by omega, fun hs => (by cases hs)⟩
  | retryReady now began n cue cue' _ _ _ _ _ _ =>
    have hc : ∀ task, claimsBy task e (.commit p time ws :: h) = claimsBy task e h :=
      fun task => claimsBy_cons task hup
    have hy : readies e (.commit p time ws :: h) = readies e h + 1 := readies_cons hup
    have hle := hb.retry
    exact ⟨by rw [hc]; exact hb.deliver, fun hs => (by cases hs), by rw [hc]; omega,
      fun _ => (by rw [hc]; omega)⟩
  | limitReached j now _ _ _ =>
    exact hb.plain hup (fun _ => rfl) rfl (fun hs => by cases hs) fun hs => by cases hs
  | finished j attempts u _ _ hcomp =>
    cases hcomp <;>
      exact hb.plain hup (fun _ => rfl) rfl (fun hs => by cases hs) fun hs => by cases hs
  | recovered next now _ _ _ =>
    exact hb.plain hup (fun _ => rfl) rfl (fun hs => by cases hs) fun hs => by cases hs
  | stuck now _ _ _ =>
    exact hb.plain hup (fun _ => rfl) rfl (fun hs => by cases hs) fun hs => by cases hs
  | resetClaim seen now _ hcue hexp =>
    simp only [claimExpired, Bool.and_eq_true, decide_eq_true_eq, ← hcue, hw] at hexp
    cases hexp.1.1.2
  | missed seen now _ _ _ =>
    exact hb.plain hup (fun _ => rfl) rfl (fun hs => by cases hs) fun hs => by cases hs
  | workerClaim call endpoint worker began now _ _ _ _ _ =>
    exact hb.plain hup (fun _ => rfl) rfl (fun hs => by cases hs) fun hs => by cases hs
  | heartbeat user xWorkerId now _ _ _ => exact hb.plain hup (fun _ => rfl) rfl id id
  | outcome user body transport mode now _ _ ht _ =>
    rw [hw] at ht
    cases ht
    exact hb.plain hup (fun _ => rfl) rfl (by simp) (by simp)

theorem claims_bounded (hl : Legal env h) {r : Execution} (hr : (replay h).execution e = some r)
    (hw : transportOfExecution (replay h) e = some .webhook) : ClaimsBounded e h r := by
  revert e r
  refine Along.invariant (J := fun h => ∀ {e r}, (replay h).execution e = some r →
    transportOfExecution (replay h) e = some .webhook → ClaimsBounded e h r)
    (fun hr => by simp [replay, Tables.execution] at hr) ?_ hl
  intro h ev hlh ha ih e r hr hw
  cases exec_step ha e with
  | same _ heq hws =>
    rw [heq] at hr
    have hw₀ := (transportOfExecution_grows hlh (List.suffix_cons ev h) hr).symm.trans hw
    exact (ih hr hw₀).same (Event.update_eq_none hws)
  | created p time ws call row _ hnone hrow hws _ hcr =>
    rw [hrow] at hr
    cases hr
    have hnil := updatesOf_eq_nil hlh hnone
    have hup : updatesOf e (.commit p time ws :: h) = [] := by
      rw [updatesOf_cons, Event.update_insert hws, hnil]
      rfl
    refine ⟨?_, ?_, ?_, ?_⟩ <;> simp [claimsBy, readies, hup, hcr.fresh.status]
  | updated p time ws call u r₀ _ hr₀ hrow hws hu =>
    rw [hrow] at hr
    cases hr
    have hw₀ := (transportOfExecution_grows hlh (List.suffix_cons _ h) hr₀).symm.trans hw
    have hup : updatesOf e (.commit p time ws :: h) = u :: updatesOf e h := by
      rw [updatesOf_cons, Event.update_eq hws]
      rfl
    exact hu.claimsBounded hup ((transportOfExecution_eq hr₀).symm.trans hw₀) (ih hr₀ hw₀)

/-! ## Requests -/

/-- The process that answered for a request on `e`, sent or refused. -/
def Event.poster (e : ExecId) : Event → Option Pid
  | .posted p e' _ _ => if e' = e then some p else none
  | _ => none

/-- The process whose commit claims `e`. -/
def Event.claimer (e : ExecId) (ev : Event) : Option Pid :=
  if (ev.update e).any fun u => u.claimsFor .deliver || u.claimsFor .retry then ev.pid else none

def posters (e : ExecId) (h : History) : List Pid := h.filterMap (Event.poster e)

def claimers (e : ExecId) (h : History) : List Pid := h.filterMap (Event.claimer e)

/-- How many webhook requests were sent for `e`. -/
def requestsSent (e : ExecId) (h : History) : Nat :=
  h.countP fun ev => match ev with
    | .posted _ e' _ sent => e' = e && sent
    | _ => false

theorem requestsSent_le (e : ExecId) (h : History) : requestsSent e h ≤ (posters e h).length := by
  unfold requestsSent posters
  induction h with
  | nil => exact Nat.le_refl 0
  | cons ev h ih =>
    cases ev <;> simp only [List.countP_cons, List.filterMap_cons, Event.poster] <;> try exact ih
    case posted p e' n sent =>
      by_cases he : e' = e
      · cases sent <;> simp [he] <;> omega
      · simpa [he] using ih

theorem Event.pid_of_update {ev : Event} {u : ExecUpdate} (hu : ev.update e = some u) :
    ∃ p time ws, ev = .commit p time ws := by
  cases ev with
  | commit p time ws => exact ⟨p, time, ws, rfl⟩
  | _ => cases hu

theorem ExecUpdate.claimsFor_retry {u : ExecUpdate} (hu : u.claimsFor .deliver = true) :
    u.claimsFor .retry = false := by
  cases u with
  | claim expected began now =>
    rw [ExecUpdate.claimsFor, decide_eq_true_eq] at hu
    subst hu
    rfl
  | _ => rfl

theorem claimers_length (e : ExecId) (h : History) :
    (claimers e h).length = claimsBy .deliver e h + claimsBy .retry e h := by
  unfold claimers claimsBy
  induction h with
  | nil => rfl
  | cons ev h ih =>
    rw [updatesOf_cons, List.filterMap_cons]
    cases hu : ev.update e with
    | none => simpa [Event.claimer, hu] using ih
    | some u =>
      obtain ⟨p, time, ws, rfl⟩ := Event.pid_of_update hu
      simp only [Event.claimer, hu, Option.any_some, Option.toList_some, List.singleton_append,
        List.countP_cons, Event.pid]
      cases hd : u.claimsFor .deliver with
      | true =>
        simp only [ExecUpdate.claimsFor_retry hd, Bool.true_or, if_true, List.length_cons, ih]
        simp only [Bool.false_eq_true, if_false]
        omega
      | false =>
        cases hr : u.claimsFor .retry with
        | true => simp [ih]; omega
        | false => simp [ih]

theorem Event.poster_eq {ev : Event} {p : Pid} (hp : ev.poster e = some p) :
    ∃ attempt sent, ev = .posted p e attempt sent := by
  cases ev <;> simp only [Event.poster, reduceCtorEq] at hp
  case posted q e' attempt sent =>
    split at hp
    · rename_i he
      cases hp
      exact ⟨attempt, sent, by rw [he]⟩
    · cases hp

/-- Each process that asks for a request has claimed the execution before, and asks
once. -/
theorem posters_claimed (hl : Legal env h) (e : ExecId) :
    (posters e h).Nodup ∧ ∀ p ∈ posters e h, p ∈ claimers e h := by
  refine Along.invariant (J := fun h => (posters e h).Nodup ∧
    ∀ p ∈ posters e h, p ∈ claimers e h) (by simp [posters]) ?_ hl
  rintro h ev - ha ⟨hn, hsub⟩
  have hlater : ∀ p ∈ claimers e h, p ∈ claimers e (ev :: h) := fun p hp => by
    unfold claimers
    rw [List.filterMap_cons]
    split
    · exact hp
    · exact List.mem_cons_of_mem _ hp
  cases hev : ev.poster e with
  | none =>
    have hsame : posters e (ev :: h) = posters e h := by simp [posters, hev]
    rw [hsame]
    exact ⟨hn, fun p hp => hlater p (hsub p hp)⟩
  | some p =>
    have hcons : posters e (ev :: h) = p :: posters e h := by simp [posters, hev]
    rw [hcons]
    obtain ⟨attempt, sent, rfl⟩ := Event.poster_eq hev
    obtain ⟨j, attempts, time, began, now, -, hje, ho⟩ := ha
    refine ⟨List.nodup_cons.mpr ⟨fun hp => ?_, hn⟩, fun r hr => ?_⟩
    · obtain ⟨ev', hm, hev'⟩ := List.mem_filterMap.mp hp
      obtain ⟨attempt', sent', rfl⟩ := Event.poster_eq hev'
      have hm' := (mem_own (p := p) rfl).mpr hm
      rw [ho] at hm'
      simp at hm'
    · rcases List.mem_cons.mp hr with rfl | hr
      · have hm : .commit r time [.updateExecution e (.claim j.task.expected began now)] ∈
            own r h := by simp [ho]
        refine hlater r (List.mem_filterMap.mpr ⟨_, (mem_own rfl).mp hm, ?_⟩)
        have hup := Event.update_single r time e (.claim j.task.expected began now)
        cases ht : j.task <;> simp [Event.claimer, ht ▸ hup, ExecUpdate.claimsFor, Event.pid]
      · exact hlater r (hsub r hr)

/-- The claim from `pending` succeeds at most once, and no more requests are sent
than one and one for each move to `retry_ready`. -/
structure DuplicatesHarmless (h : History) (e : ExecId) : Prop where
  pending : claimsBy .deliver e h ≤ 1
  requests : requestsSent e h ≤ 1 + readies e h

theorem duplicates_harmless (hr : Reachable env s) {r : Execution}
    (he : s.shared.tables.execution e = some r)
    (hw : transportOfExecution s.shared.tables e = some .webhook) :
    DuplicatesHarmless s.shared.history e := by
  rw [hr.tables_eq] at he hw
  have hb := claims_bounded hr.legal he hw
  obtain ⟨hn, hsub⟩ := posters_claimed hr.legal e
  have hle : (posters e s.shared.history).length ≤ (claimers e s.shared.history).length :=
    (List.subperm_of_subset hn hsub).length_le
  have hsent := requestsSent_le e s.shared.history
  rw [claimers_length] at hle
  refine ⟨hb.deliver, ?_⟩
  have h1 := hb.deliver
  have h2 := hb.retry
  omega

/-! ## The retry budget -/

/-- The process has claimed `e` and can still finish the attempt; with the count
of attempts once it has read it. -/
inductive Open (p : Pid) (e : ExecId) (h : History) : Option Nat → Prop
  | claimed (j : Job) (time began now : Time) : own p h =
      [.commit p time [.updateExecution e (.claim j.task.expected began now)],
        .began p (.job j)] → Open p e h none
  | attempted (j : Job) (time began now : Time) (attempts : Nat) : own p h =
      [.attempted p e attempts,
        .commit p time [.updateExecution e (.claim j.task.expected began now)],
        .began p (.job j)] → Open p e h (some attempts)
  | posted (j : Job) (time began now : Time) (attempts : Nat) (sent : Bool) : own p h =
      [.posted p e (attempts + 1) sent, .attempted p e attempts,
        .commit p time [.updateExecution e (.claim j.task.expected began now)],
        .began p (.job j)] → Open p e h (some attempts)

theorem Answered.open {p : Pid} {j : Job} {attempts : Nat} (ha : Answered p j attempts h) :
    Open p j.payload.executionId h (some attempts) := by
  obtain ⟨sent, time, began, now, ho⟩ := ha
  exact .posted j time began now attempts sent ho

/-- A process is open after an event only if it was before, or the event is its
claim. -/
theorem Open.back {p : Pid} {ev : Event} {a : Option Nat} (ho : Open p e (ev :: h) a)
    (ha : Allowed env h ev)
    (hno : ∀ time expected began now,
      ev ≠ .commit p time [.updateExecution e (.claim expected began now)]) :
    ∃ a', Open p e h a' ∧
      (a = a' ∨ a = some (((replay h).execution e).map Execution.attempts |>.getD 0)) := by
  by_cases hp : ev.pid = some p
  · cases ho with
    | claimed j time began now ho =>
      rw [own_cons_of_pid hp, List.cons.injEq] at ho
      exact absurd ho.1 (hno time _ began now)
    | attempted j time began now attempts ho =>
      rw [own_cons_of_pid hp, List.cons.injEq] at ho
      obtain ⟨rfl, ho⟩ := ho
      obtain ⟨-, -, -, -, -, -, hatt⟩ := ha
      exact ⟨none, .claimed j time began now ho, .inr (congrArg some hatt)⟩
    | posted j time began now attempts sent ho =>
      rw [own_cons_of_pid hp, List.cons.injEq] at ho
      exact ⟨_, .attempted j time began now attempts ho.2, .inl rfl⟩
  · cases ho with
    | claimed j time began now ho =>
      rw [own_cons_of_ne hp] at ho
      exact ⟨_, .claimed j time began now ho, .inl rfl⟩
    | attempted j time began now attempts ho =>
      rw [own_cons_of_ne hp] at ho
      exact ⟨_, .attempted j time began now attempts ho, .inl rfl⟩
    | posted j time began now attempts sent ho =>
      rw [own_cons_of_ne hp] at ho
      exact ⟨_, .posted j time began now attempts sent ho, .inl rfl⟩

/-- The statuses of an execution that waits for its next attempt. -/
def awaits : ExecStatus → Bool
  | .pending | .retrying | .retryReady => true
  | _ => false

/-- How often `e` was claimed into `delivering` by a job. -/
def claimsOf (e : ExecId) (h : History) : Nat := claimsBy .deliver e h + claimsBy .retry e h

/-- Between attempts, `attempts` is the number of claims; during one, it is one
behind, and there is one process at most to catch up. -/
inductive Budget (e : ExecId) (h : History) (r : Execution) (n : Nat) : Prop
  | idle : (∀ p a, ¬ Open p e h a) → claimsOf e h = r.attempts → r.attempts ≤ n →
      (awaits r.status = true → r.attempts < n) → Budget e h r n
  | busy : (∀ p q a b, Open p e h a → Open q e h b → p = q) →
      (∀ p a, Open p e h (some a) → a = r.attempts) → claimsOf e h = r.attempts + 1 →
      r.attempts < n → awaits r.status = false → Budget e h r n

theorem Budget.claims_le {r : Execution} {n : Nat} (hb : Budget e h r n) : claimsOf e h ≤ n := by
  cases hb with
  | idle _ hc hle _ => omega
  | busy _ _ hc hlt _ => omega

/-- Events that claim nothing and leave attempts and status alone. -/
theorem Budget.kept {ev : Event} {r r' : Execution} {n : Nat} (hb : Budget e h r n)
    (ha : Allowed env h ev) (hr : (replay h).execution e = some r)
    (hno : ∀ p time expected began now,
      ev ≠ .commit p time [.updateExecution e (.claim expected began now)])
    (hc : claimsOf e (ev :: h) = claimsOf e h) (hatt : r'.attempts = r.attempts)
    (haw : awaits r'.status = true → awaits r.status = true) : Budget e (ev :: h) r' n := by
  have hback : ∀ {p a}, Open p e (ev :: h) a → ∃ a', Open p e h a' ∧
      (a = a' ∨ a = some r.attempts) := by
    intro p a ho
    have := ho.back ha (hno p)
    simpa [hr] using this
  cases hb with
  | idle hopen hcl hle hlt =>
    refine .idle (fun p a ho => ?_) (by omega) (by omega) fun hs => ?_
    · obtain ⟨a', ho', -⟩ := hback ho
      exact hopen p a' ho'
    · rw [hatt]
      exact hlt (haw hs)
  | busy hone hread hcl hlt hs =>
    refine .busy (fun p q a b hp hq => ?_) (fun p a ho => ?_) (by omega) (by omega) ?_
    · obtain ⟨a', hp', -⟩ := hback hp
      obtain ⟨b', hq', -⟩ := hback hq
      exact hone p q a' b' hp' hq'
    · obtain ⟨a', ho', heq | heq⟩ := hback ho
      · subst heq
        rw [hatt]
        exact hread p a ho'
      · cases heq
        exact hatt.symm
    · cases haw' : awaits r'.status with
      | false => rfl
      | true =>
        rw [haw haw'] at hs
        cases hs

theorem Open.own_length {p : Pid} {a : Option Nat} (ho : Open p e h a) :
    (own p h).length ≤ 4 ∧ (a.isSome → 3 ≤ (own p h).length) := by
  cases ho with
  | claimed j time began now ho => simp [ho]
  | attempted j time began now attempts ho => simp [ho]
  | posted j time began now attempts sent ho => simp [ho]

theorem Open.updatesOf_ne_nil {p : Pid} {a : Option Nat} (ho : Open p e h a) :
    updatesOf e h ≠ [] := by
  have hclaim : ∃ time expected began now,
      .commit p time [.updateExecution e (.claim expected began now)] ∈ own p h := by
    cases ho with
    | claimed j time began now ho =>
      exact ⟨time, j.task.expected, began, now, by simp [ho]⟩
    | attempted j time began now attempts ho =>
      exact ⟨time, j.task.expected, began, now, by simp [ho]⟩
    | posted j time began now attempts sent ho =>
      exact ⟨time, j.task.expected, began, now, by simp [ho]⟩
  obtain ⟨time, expected, began, now, hm⟩ := hclaim
  have hu : .claim expected began now ∈ updatesOf e h :=
    List.mem_filterMap.mpr ⟨_, (mem_own rfl).mp hm, Event.update_single ..⟩
  exact List.ne_nil_of_mem hu

theorem claimsOf_cons {p : Pid} {time : Time} {ws : List Write} {u : ExecUpdate}
    (hup : updatesOf e (.commit p time ws :: h) = u :: updatesOf e h) :
    claimsOf e (.commit p time ws :: h) = claimsOf e h +
      if u.claimsFor .deliver || u.claimsFor .retry then 1 else 0 := by
  simp only [claimsOf, claimsBy_cons _ hup]
  cases hd : u.claimsFor .deliver with
  | true =>
    simp only [ExecUpdate.claimsFor_retry hd, Bool.true_or, if_true, Bool.false_eq_true, if_false]
    omega
  | false =>
    cases hr : u.claimsFor .retry with
    | true => simp; omega
    | false => simp

/-- `recover_stale_executions` does not send `e` back to `retrying`. -/
def NotRecovered (e : ExecId) (_ : History) (ev : Event) : Prop :=
  match ev.update e with
  | some (.recovered _ _ _) => False
  | _ => True

instance (h : History) (ev : Event) : Decidable (NotRecovered e h ev) := by
  unfold NotRecovered
  split <;> infer_instance

theorem Budget.claim {p : Pid} {time : Time} {r : Execution} {n : Nat} {j : Job}
    {began now : Time} (hb : Budget e h r n)
    (ha : Allowed env h (.commit p time [.updateExecution e (.claim j.task.expected began now)]))
    (ho : own p h = [.began p (.job j)]) (hs : r.status = j.task.expected)
    (hc : claimsOf e (.commit p time [.updateExecution e (.claim j.task.expected began now)] :: h) =
      claimsOf e h + 1) :
    Budget e (.commit p time [.updateExecution e (.claim j.task.expected began now)] :: h)
      ((ExecUpdate.claim j.task.expected began now).set r) n := by
  have hwait : awaits r.status = true := by
    rw [hs]
    cases j.task <;> rfl
  have hown : (own p (.commit p time
      [.updateExecution e (.claim j.task.expected began now)] :: h)).length = 2 := by
    rw [own_cons_of_pid rfl, ho]
    rfl
  cases hb with
  | busy _ _ _ _ hno =>
    rw [hwait] at hno
    cases hno
  | idle hopen hcl _ hlt =>
    -- only the claiming process is open
    have honly : ∀ q a, Open q e
        (.commit p time [.updateExecution e (.claim j.task.expected began now)] :: h) a →
        q = p := by
      intro q a hq
      by_contra hne
      obtain ⟨a', hq', -⟩ := hq.back ha (by
        rintro t ex b w ⟨⟩
        exact hne rfl)
      exact hopen q a' hq'
    refine .busy (fun q q' a b hq hq' => (honly q a hq).trans (honly q' b hq').symm)
      (fun q a hq => ?_) ?_ (hlt hwait) rfl
    · obtain rfl := honly q _ hq
      have hlen := hq.own_length.2 rfl
      omega
    · rw [hc, hcl]
      rfl

theorem Budget.finish {p : Pid} {time : Time} {ws : List Write} {r r' : Execution}
    {n attempts : Nat} {j : Job} (hb : Budget j.payload.executionId h r n)
    (ha : Allowed env h (.commit p time ws))
    (hans : Answered p j attempts h)
    (hc : claimsOf j.payload.executionId (.commit p time ws :: h) =
      claimsOf j.payload.executionId h)
    (hatt : r'.attempts = attempts + 1) (hlt : awaits r'.status = true → attempts + 1 < n) :
    Budget j.payload.executionId (.commit p time ws :: h) r' n := by
  have hlen : (own p (.commit p time ws :: h)).length = 5 := by
    obtain ⟨sent, t, began, now, ho⟩ := hans
    rw [own_cons_of_pid rfl, ho]
    rfl
  cases hb with
  | idle hopen _ _ _ => exact absurd hans.open (hopen p _)
  | busy hone hread hcl hn _ =>
    have hreads := hread p attempts hans.open
    refine .idle (fun q a hq => ?_) (by omega) (by omega) fun hs => by rw [hatt]; exact hlt hs
    by_cases hqp : q = p
    · subst hqp
      have := hq.own_length.1
      omega
    · obtain ⟨a', hq', -⟩ := hq.back ha (by
        rintro t ex b w ⟨⟩
        exact hqp rfl)
      exact hqp (hone q p a' _ hq' hans.open)

/-- The budget in the payload of a job is that of the cue. -/
theorem job_maxAttempts (hl : Legal env h) {p : Pid} {j : Job} (hj : .began p (.job j) ∈ h)
    {r : Execution} {cue : Cue} (hr : (replay h).execution j.payload.executionId = some r)
    (hcue : (replay h).cue r.cueId = some cue) :
    j.payload.retryMaxAttempts.getD 3 = cue.retryMaxAttempts := by
  obtain ⟨n, o, ho, rfl⟩ := (jobs_sourced hl).2 p j hj
  have hrow := outbox_rowOf hl ho
  obtain ⟨r', cue', hr', hcue', -, hmax⟩ := hrow.execution
  rw [← hrow.payload, hr] at hr'
  cases hr'
  rw [hcue] at hcue'
  cases hcue'
  simp [hmax]

theorem Updates.budget {p : Pid} {time : Time} {ws : List Write} {r : Execution} {call : Call}
    {u : ExecUpdate} {cue : Cue} (hu : Updates env h p time ws e r call u) (hl : Legal env h)
    (ha : Allowed env h (.commit p time ws)) (hr : (replay h).execution e = some r)
    (hcue : (replay h).cue r.cueId = some cue) (hw : cue.callbackTransport = .webhook)
    (hup : updatesOf e (.commit p time ws :: h) = u :: updatesOf e h)
    (hnot : ∀ stale next now, u ≠ .recovered stale next now)
    (hb : Budget e h r cue.retryMaxAttempts) :
    Budget e (.commit p time ws :: h) (u.set r) cue.retryMaxAttempts := by
  have hc := claimsOf_cons hup
  have ht : transportOf (replay h) r.cueId = some .webhook := by simp [transportOf, hcue, hw]
  have hno : (∀ expected began now, u ≠ .claim expected began now) →
      ∀ q t expected began now, Event.commit p time ws ≠
        .commit q t [.updateExecution e (.claim expected began now)] := by
    rintro hne q t expected began now ⟨⟩
    have hev := Event.update_single p time e (.claim expected began now)
    rw [updatesOf_cons, hev] at hup
    exact hne expected began now (List.cons.inj hup).1.symm
  cases hu with
  | claim j began now _ ho hs hws =>
    subst hws
    refine hb.claim ha ho hs ?_
    rw [hc]
    cases j.task <;> rfl
  | finished j attempts u he hans hcomp =>
    subst he
    have hmax := job_maxAttempts hl hans.began_mem hr hcue
    rw [hmax] at hcomp
    cases hcomp with
    | delivered http body now => exact hb.finish ha hans hc rfl fun hs => by cases hs
    | retryLater http error next now hlt => exact hb.finish ha hans hc rfl fun _ => hlt
    | exhausted http error now _ => exact hb.finish ha hans hc rfl fun hs => by cases hs
  | recovered next now _ _ _ => exact absurd rfl (hnot _ next now)
  | resetClaim seen now _ hseen hexp =>
    simp only [claimExpired, Bool.and_eq_true, decide_eq_true_eq, ← hseen, ht] at hexp
    cases hexp.1.1.2
  | missed seen now _ hseen hexp =>
    simp only [unclaimedSince, Bool.and_eq_true, decide_eq_true_eq, ← hseen, ht] at hexp
    cases hexp.1.1.2
  | workerClaim call endpoint worker began now _ _ hwork _ _ =>
    rw [ht] at hwork
    cases hwork
  | limitReached j now _ _ _ => exact hb.kept ha hr (hno (by simp)) hc rfl fun hs => by cases hs
  | retryReady now began n cue cue' _ hdue _ _ _ _ =>
    simp only [retryDue, Bool.and_eq_true, decide_eq_true_eq] at hdue
    exact hb.kept ha hr (hno (by simp)) hc rfl fun _ => by simp [hdue.1, awaits]
  | stuck now _ _ _ => exact hb.kept ha hr (hno (by simp)) hc rfl fun hs => by cases hs
  | heartbeat user xWorkerId now _ _ _ => exact hb.kept ha hr (hno (by simp)) hc rfl id
  | outcome user body transport mode now _ _ htr _ =>
    rw [ht] at htr
    cases htr
    exact hb.kept ha hr (hno (by simp)) hc (by simp) (by simp)

theorem budget_kept (hl : Legal env h) (hc : Along (NotRecovered e) h) {r : Execution} {cue : Cue}
    (hr : (replay h).execution e = some r) (hcue : (replay h).cue r.cueId = some cue)
    (hw : cue.callbackTransport = .webhook) : Budget e h r cue.retryMaxAttempts := by
  revert r cue
  refine Along.invariant (J := fun h => ∀ {r cue}, (replay h).execution e = some r →
    (replay h).cue r.cueId = some cue → cue.callbackTransport = .webhook →
    Budget e h r cue.retryMaxAttempts)
    (fun hr => by simp [replay, Tables.execution] at hr) ?_ (Along.and hl hc)
  rintro h ev hlh ⟨ha, hnot⟩ ih r cue hr hcue hw
  have hl' : Legal env h := hlh.mono fun _ _ hb => hb.1
  have hg := Tables.Grows.replay_cons ev h
  -- the cue was there before, with the same budget and transport
  have hold : ∀ {r₀}, (replay h).execution e = some r₀ → r.cueId = r₀.cueId →
      ∃ cue₀, (replay h).cue r₀.cueId = some cue₀ ∧ CueFixed cue₀ cue := by
    intro r₀ hr₀ heq
    obtain ⟨cue₀, hcue₀⟩ := cue_of_execution hl' hr₀
    obtain ⟨cue', hcue', hf⟩ := hg.cue hcue₀
    rw [heq, hcue'] at hcue
    cases hcue
    exact ⟨cue₀, hcue₀, hf⟩
  cases exec_step ha e with
  | same _ heq hws =>
    rw [heq] at hr
    obtain ⟨cue₀, hcue₀, hf⟩ := hold hr rfl
    rw [hf.callbackTransport] at hw
    rw [hf.retryMaxAttempts]
    refine (ih hr hcue₀ hw).kept ha hr ?_ ?_ rfl id
    · rintro p time expected began now rfl
      simpa [writesOn_cons, Write.target] using hws p time _ rfl
    · simp [claimsOf, claimsBy, updatesOf_cons, Event.update_eq_none hws]
  | created p time ws call row _ hnone hrow hws _ hcr =>
    rw [hrow] at hr
    cases hr
    have hnil := updatesOf_eq_nil hl' hnone
    refine .idle (fun q a ho => ?_) ?_ (by simp [hcr.fresh.attempts]) fun _ => ?_
    · obtain ⟨a', ho', -⟩ := ho.back ha (by
        rintro t expected began now ⟨⟩
        simp [writesOn_cons, Write.target] at hws)
      exact ho'.updatesOf_ne_nil hnil
    · simp [claimsOf, claimsBy, updatesOf_cons, Event.update_insert hws, hnil, hcr.fresh.attempts]
    · rw [hcr.fresh.attempts]
      have hl'' : Legal env (.commit p time ws :: h) := ⟨ha, hl'⟩
      exact (cue_ok hl'' hcue).one_le
  | updated p time ws call u r₀ _ hr₀ hrow hws hu =>
    rw [hrow] at hr
    cases hr
    obtain ⟨cue₀, hcue₀, hf⟩ := hold hr₀ (by simp)
    rw [hf.callbackTransport] at hw
    rw [hf.retryMaxAttempts]
    have hev : Event.update e (.commit p time ws) = some u := Event.update_eq hws
    have hup : updatesOf e (.commit p time ws :: h) = u :: updatesOf e h := by
      rw [updatesOf_cons, hev]
      rfl
    refine hu.budget hl' ha hr₀ hcue₀ hw hup ?_ (ih hr₀ hcue₀ hw)
    rintro stale next now rfl
    simp [NotRecovered, hev] at hnot

/-- A webhook execution is claimed at most as often as its cue allows. -/
def WithinBudget (s : Sys) (e : ExecId) : Prop :=
  ∀ r cue, s.shared.tables.execution e = some r → s.shared.tables.cue r.cueId = some cue →
    cue.callbackTransport = .webhook → claimsOf e s.shared.history ≤ cue.retryMaxAttempts

/-- So it is in every run in which `recover_stale_executions` does not send the
execution back to `retrying`. -/
theorem within_budget (hr : Reachable env s) (hc : Along (NotRecovered e) s.shared.history) :
    WithinBudget s e := by
  intro r cue he hcue hw
  rw [hr.tables_eq] at he hcue
  exact (budget_kept hr.legal hc he hcue hw).claims_le

/-! ## Concrete runs -/

/-- The steps of a job up to the commit of its claim. -/
def claimSteps (p : Pid) (j : Job) : List Action := play p (.job j) (gos 4)

/-- The steps after the claim, for an endpoint that answers 500. -/
def failSteps (p : Pid) : List Action :=
  (gos 1 ++ [Answer.http (.response 500 "")] ++ gos 5).map (.advance p) ++ [.finish p]

/-- The retry job of the execution that `fireWebhookCue` leaves. -/
def retryJob (data : CueCreate) : Job :=
  ⟨.retry, (retryOutbox plainEnv 1 7 (cueRow 1 data 1000000 0) 1000000 0).payload⟩

def pollRetryOf (p : Pid) (n : OutboxId) : List Action :=
  playAll p .pollRetries (gos 2 ++ [.rows [1]] ++ gos 2 ++ [.fresh n] ++ gos 2)

/-- One attempt, no retry. -/
def onceOnlyCue : CueCreate := { webhookCue with retry := { maxAttempts := 1 } }

/-- The worker dies after its claim; the execution is recovered and claimed again. -/
def claimCrashRecover : List Action :=
  fireWebhookCue onceOnlyCue ++ dispatchRowOf 3 1 ++ claimSteps 4 (firedJob onceOnlyCue) ++
  [.crash 4, .tick 301000000] ++
  playAll 5 .recoverStaleExecutions ([.go, .rows [1]] ++ gos 4) ++ [.tick 61000000] ++
  pollRetryOf 6 2 ++ dispatchRowOf 7 2 ++ claimSteps 8 (retryJob onceOnlyCue)

theorem budget_exceeded : ∃ s, Reachable plainEnv s ∧ ¬ WithinBudget s 1 := by
  obtain ⟨s, hs, hv⟩ := reachable_of_run plainEnv 0 claimCrashRecover
    (fun s => ((s.shared.tables.execution 1).map (·.cueId),
      (s.shared.tables.cue 7).map fun cue => (cue.callbackTransport, cue.retryMaxAttempts),
      claimsOf 1 s.shared.history))
    (some 7, some (.webhook, 1), 2) (by decide +kernel)
  simp only [Prod.mk.injEq, Option.map_eq_some_iff] at hv
  obtain ⟨⟨r, hr, hc⟩, ⟨cue, hcue, hw, hn⟩, hclaims⟩ := hv
  refine ⟨s, hs, fun hb => ?_⟩
  have hle := hb r cue hr (hc ▸ hcue) hw
  omega

/-- Two attempts that fail, with a retry between them. -/
def failTwice : List Action :=
  fireWebhookCue webhookCue ++ dispatchRowOf 3 1 ++ [.duplicate (firedJob webhookCue)] ++
  claimSteps 4 (firedJob webhookCue) ++ failSteps 4 ++
  playAll 5 (.job (firedJob webhookCue)) (gos 4) ++ [.tick 61000000] ++
  pollRetryOf 6 2 ++ dispatchRowOf 7 2 ++ claimSteps 8 (retryJob webhookCue) ++ failSteps 8

theorem within_budget_retried : ∃ s, Reachable plainEnv s ∧ claimsOf 1 s.shared.history = 2 ∧
    WithinBudget s 1 := by
  obtain ⟨s, hs, hv⟩ := reachable_of_run plainEnv 0 failTwice
    (fun s => (claimsOf 1 s.shared.history, decide (Along (NotRecovered 1) s.shared.history)))
    (2, true) (by decide +kernel)
  simp only [Prod.mk.injEq, decide_eq_true_eq] at hv
  exact ⟨s, hs, hv.1, within_budget hs hv.2⟩

/-- The job of the execution runs twice, and two requests are sent in all. -/
theorem duplicates_harmless_twice : ∃ s, Reachable plainEnv s ∧
    requestsSent 1 s.shared.history = 2 ∧ DuplicatesHarmless s.shared.history 1 := by
  obtain ⟨s, hs, hv⟩ := reachable_of_run plainEnv 0 failTwice
    (fun s => (requestsSent 1 s.shared.history, (s.shared.tables.execution 1).isSome,
      transportOfExecution s.shared.tables 1)) (2, true, some .webhook) (by decide +kernel)
  simp only [Prod.mk.injEq, Option.isSome_iff_exists] at hv
  obtain ⟨hsent, ⟨r, hr⟩, hw⟩ := hv
  exact ⟨s, hs, hsent, duplicates_harmless hs hr hw⟩

end CueApi.Scheduler
