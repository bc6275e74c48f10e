import CueApi.Library.Expiring
import CueApi.Library.Machine
import CueApi.Scheduler.Tables

/-! `check_worker_health` of `worker/poller.py`: the mails about workers that went offline, under
two cooldown keys in Redis, one of the user's worker and one of the worker id alone. -/

namespace CueApi.WorkerAlerts

open Scheduler (Time UserId WorkerId seconds)
open Expiring

/-- A row of `workers`, and what the loop finds for it: the user's address and pending executions,
and the instants of the GET of `worker_alert`, of the GET and SETEX of `worker_offline_email`, and of
the SET of `worker_alert`. -/
structure Visit where
  userId : UserId
  workerId : WorkerId
  lastHeartbeat : Time
  email : Option String
  pendingCount : Nat
  asked : Time
  rated : Time
  done : Time
  asked_le : asked ≤ rated
  rated_le : rated ≤ done
  deriving DecidableEq, Repr

/-- One run; `workers` is the table in the order in which the SELECT returns it. -/
structure Round where
  now : Time
  offlineThreshold : Nat := 300
  workers : List Visit
  deriving DecidableEq, Repr

/-- A mail that was handed to Resend, and when the cooldown that follows it began. -/
structure Alert where
  userId : UserId
  email : String
  workerId : WorkerId
  minutesOffline : Int
  pendingCount : Nat
  sent : Time
  deriving DecidableEq, Repr

/-- The keys `worker_alert:{user_id}:{worker_id}` and `worker_offline_email:{worker_id}`, whose only
value is "1" (no UUID has a colon), and the mails so far, latest first. -/
structure State where
  workerAlert : Store (UserId × WorkerId) Unit Time
  workerOfflineEmail : Store WorkerId Unit Time
  alerts : List Alert

def start : State := ⟨fun _ => none, fun _ => none, []⟩

/-- A stale worker that the loop comes to, in a run that started at `now`. -/
structure Check where
  now : Time
  visit : Visit
  deriving DecidableEq, Repr

-- whether `RESEND_API_KEY` is set
variable (resend : Bool)

def alertOf (c : Check) (email : String) : Alert where
  userId := c.visit.userId
  email := email
  workerId := c.visit.workerId
  minutesOffline := (c.now - c.visit.lastHeartbeat).tdiv (seconds 60)
  pendingCount := c.visit.pendingCount
  sent := c.visit.done

/-- The cooldown of the user's worker. -/
def State.alerted (s : State) (v : Visit) : Bool :=
  (get s.workerAlert v.asked (v.userId, v.workerId)).isSome

/-- The cooldown of the worker id. -/
def State.emailed (s : State) (v : Visit) : Bool :=
  (get s.workerOfflineEmail v.rated v.workerId).isSome

def Visit.address (v : Visit) : Option String := v.email.filter (· ≠ "")

/-- The mail is on its way, whatever becomes of it. -/
def send (s : State) (c : Check) (email : String) : State where
  workerAlert := put s.workerAlert (c.visit.userId, c.visit.workerId) ()
    (some (c.visit.done + seconds 3600))
  workerOfflineEmail := put s.workerOfflineEmail c.visit.workerId ()
    (some (c.visit.rated + seconds 3600))
  alerts := if resend then alertOf c email :: s.alerts else s.alerts

/-- The body of the loop. -/
def checkWorker (s : State) (c : Check) : State :=
  if s.alerted c.visit then s
  else
    match c.visit.address with
    | none => s
    | some email => if s.emailed c.visit then s else send resend s c email

/-- `last_heartbeat < cutoff`. -/
def Round.stale (r : Round) (v : Visit) : Bool :=
  v.lastHeartbeat < r.now - seconds r.offlineThreshold

def Round.checks (r : Round) : List Check := (r.workers.filter r.stale).map fun v => ⟨r.now, v⟩

/-- `check_worker_health`, when Redis answers. -/
def checkWorkerHealth (s : State) (r : Round) : State := r.checks.foldl (checkWorker resend) s

/-! ## Histories -/

abbrev History := List Round

def History.alerts (h : History) : List Alert := (h.foldl (checkWorkerHealth resend) start).alerts

/-- The same history without the workers of other users. -/
def History.own (h : History) (user : UserId) : History :=
  h.map fun r => { r with workers := r.workers.filter fun v => v.userId = user }

def History.checks (h : History) : List Check := h.flatMap Round.checks

def alertsTo (user : UserId) (alerts : List Alert) : List Alert :=
  alerts.filter fun a => a.userId = user

def step (s : State) (c : Check) : Option State := some (checkWorker resend s c)

/-- The alerts to a user are those of the history without the others' workers, and with mail
configured there is one per offline worker per hour: two alerts about a worker are an hour apart,
and after each check of an offline worker whose user has an address the last hour has one. -/
structure Independent (user : UserId) (h : History) : Prop where
  blind : alertsTo user (h.alerts resend) = (h.own user).alerts resend
  apart : (alertsTo user (h.alerts resend)).Pairwise fun a b =>
    a.workerId = b.workerId → b.sent + seconds 3600 ≤ a.sent
  hourly : resend = true → ∀ bs c s, bs ++ [c] <+: h.checks →
    Machine.run (step resend) start (bs ++ [c]) = some s → c.visit.userId = user →
    c.visit.address ≠ none → ∃ a ∈ s.alerts, a.userId = user ∧ a.workerId = c.visit.workerId ∧
      c.visit.asked < a.sent + seconds 3600

/-- Histories that agree on the user's workers send the user the same alerts. -/
theorem Independent.same {user : UserId} {h h' : History} (hi : Independent resend user h)
    (hi' : Independent resend user h') (heq : h.own user = h'.own user) :
    alertsTo user (h.alerts resend) = alertsTo user (h'.alerts resend) := by
  rw [hi.blind, hi'.blind, heq]

/-- A worker of the user that is due for an alert does not meet the cooldown of its id. -/
def unobstructed (user : UserId) (s : State) (c : Check) : Bool :=
  c.visit.userId ≠ user || s.alerted c.visit || c.visit.address.isNone || !s.emailed c.visit

/-! ## One check -/

variable {user : UserId} {s s' : State} {c : Check} {cs : List Check}

/-- What a check does: nothing, or a mail when no cooldown stands in its way. -/
inductive Checked (s : State) (c : Check) : State → Prop
  | skipped (h : s.alerted c.visit = true ∨ c.visit.address = none ∨ s.emailed c.visit = true) :
      Checked s c s
  | sent (email : String) (haddr : c.visit.address = some email)
      (hal : s.alerted c.visit = false) : Checked s c (send resend s c email)

variable {resend}

theorem checkWorker_cases (s : State) (c : Check) : Checked resend s c (checkWorker resend s c) := by
  unfold checkWorker
  split
  · rename_i hal
    exact .skipped (.inl hal)
  · rename_i hal
    split
    · rename_i haddr
      exact .skipped (.inr (.inl haddr))
    · rename_i email haddr
      split
      · rename_i hem
        exact .skipped (.inr (.inr hem))
      · exact .sent email haddr (Bool.eq_false_iff.mpr hal)

theorem run_eq (s : State) (cs : List Check) :
    Machine.run (step resend) s cs = some (cs.foldl (checkWorker resend) s) := by
  induction cs generalizing s with
  | nil => rfl
  | cons c cs ih => exact (Machine.run_of_step rfl).trans (ih _)

theorem not_live {v : Visit} {en : Entry Unit Time} {e : Time} (hal : s.alerted v = false)
    (hen : s.workerAlert (v.userId, v.workerId) = some en) (he : en.expires = some e) :
    e ≤ v.asked := by
  by_contra hlt
  have hget : get s.workerAlert v.asked (v.userId, v.workerId) = some en.value :=
    get_eq_some.mpr ⟨en, hen, by simp [Entry.live, he, Int.not_le.mp hlt], rfl⟩
  rw [State.alerted, hget] at hal
  cases hal

/-! ## Cooldowns -/

/-- The cooldown of a worker lasts an hour from its last alert, and alerts about one worker are an
hour apart. -/
structure Cooled (s : State) : Prop where
  cooldown : ∀ a ∈ s.alerts, ∃ en e, s.workerAlert (a.userId, a.workerId) = some en ∧
    en.expires = some e ∧ a.sent + seconds 3600 ≤ e
  apart : s.alerts.Pairwise fun a b => a.userId = b.userId → a.workerId = b.workerId →
    b.sent + seconds 3600 ≤ a.sent

theorem Cooled.start : Cooled start where
  cooldown a ha := by cases ha
  apart := List.Pairwise.nil

/-- What was alerted before about the worker is an hour older than the new alert. -/
theorem Cooled.older (hs : Cooled s) (hal : s.alerted c.visit = false) {a : Alert}
    (ha : a ∈ s.alerts) (hu : a.userId = c.visit.userId) (hw : a.workerId = c.visit.workerId) :
    a.sent + seconds 3600 ≤ c.visit.done := by
  obtain ⟨en, e, hen, he, hle⟩ := hs.cooldown a ha
  rw [hu, hw] at hen
  have hasked := not_live hal hen he
  exact Int.le_trans hle (Int.le_trans hasked (Int.le_trans c.visit.asked_le c.visit.rated_le))

theorem Cooled.after (hs : Cooled s) (h : Checked resend s c s') : Cooled s' := by
  cases h with
  | skipped => exact hs
  | sent email haddr hal =>
    have hhour : (0 : Time) ≤ seconds 3600 := by decide
    have hcool : ∀ a ∈ s.alerts, ∃ en e, (send resend s c email).workerAlert
        (a.userId, a.workerId) = some en ∧ en.expires = some e ∧ a.sent + seconds 3600 ≤ e := by
      intro a ha
      by_cases hk : (a.userId, a.workerId) = (c.visit.userId, c.visit.workerId)
      · obtain ⟨hu, hw⟩ := Prod.mk.injEq .. ▸ hk
        have hold := hs.older hal ha hu hw
        refine ⟨_, _, by rw [hk]; exact Function.update_self .., rfl, ?_⟩
        exact Int.le_trans hold (Int.le_add_of_nonneg_right hhour)
      · obtain ⟨en, e, hen, he, hle⟩ := hs.cooldown a ha
        exact ⟨en, e, by rw [← hen]; exact Function.update_of_ne hk .., he, hle⟩
    cases resend with
    | false => exact ⟨hcool, hs.apart⟩
    | true =>
      constructor
      · intro a ha
        rcases List.mem_cons.mp ha with rfl | ha
        · exact ⟨_, _, Function.update_self .., rfl, Int.le_refl _⟩
        · exact hcool a ha
      · exact List.pairwise_cons.mpr
          ⟨fun a ha hu hw => hs.older hal ha hu.symm hw.symm, hs.apart⟩

theorem Cooled.foldl (hs : Cooled s) (cs : List Check) :
    Cooled (cs.foldl (checkWorker resend) s) := by
  induction cs generalizing s with
  | nil => exact hs
  | cons c cs ih => exact ih (hs.after (checkWorker_cases s c))

/-- Every cooldown of a worker came with an alert. -/
def Announced (s : State) : Prop :=
  ∀ u w en, s.workerAlert (u, w) = some en → ∃ a ∈ s.alerts, a.userId = u ∧ a.workerId = w ∧
    en.expires = some (a.sent + seconds 3600)

theorem Announced.after (hs : Announced s) (h : Checked true s c s') : Announced s' := by
  cases h with
  | skipped => exact hs
  | sent email haddr hal =>
    intro u w en hen
    by_cases hk : (u, w) = (c.visit.userId, c.visit.workerId)
    · obtain ⟨rfl, rfl⟩ := Prod.mk.injEq .. ▸ hk
      simp only [send, put, Function.update_self, Option.some.injEq] at hen
      exact ⟨_, List.mem_cons_self, rfl, rfl, hen ▸ rfl⟩
    · simp only [send, put, Function.update_of_ne hk] at hen
      obtain ⟨a, ha, hrest⟩ := hs u w en hen
      exact ⟨a, List.mem_cons_of_mem _ ha, hrest⟩

theorem Announced.foldl (hs : Announced s) (cs : List Check) :
    Announced (cs.foldl (checkWorker true) s) := by
  induction cs generalizing s with
  | nil => exact hs
  | cons c cs ih => exact ih (hs.after (checkWorker_cases s c))

/-- After an unobstructed check of a worker the last hour has an alert. -/
theorem Announced.covered (hs : Announced s) (hc : unobstructed c.visit.userId s c = true)
    (haddr : c.visit.address ≠ none) : ∃ a ∈ (checkWorker true s c).alerts,
      a.userId = c.visit.userId ∧ a.workerId = c.visit.workerId ∧
      c.visit.asked < a.sent + seconds 3600 := by
  obtain ⟨email, hemail⟩ := Option.ne_none_iff_exists'.mp haddr
  cases hal : s.alerted c.visit with
  | true =>
    obtain ⟨u, hget⟩ := Option.isSome_iff_exists.mp hal
    obtain ⟨en, hen, hlive, -⟩ := get_eq_some.mp hget
    obtain ⟨a, ha, hu, hw, he⟩ := hs _ _ en hen
    rw [Entry.live, he] at hlive
    refine ⟨a, ?_, hu, hw, of_decide_eq_true hlive⟩
    rw [checkWorker, if_pos hal]
    exact ha
  | false =>
    have hem : s.emailed c.visit = false := by
      simpa [unobstructed, hal, hemail] using hc
    refine ⟨alertOf c email, ?_, rfl, rfl, ?_⟩
    · simp [checkWorker, hal, hemail, hem, send]
    · have hle := Int.le_trans c.visit.asked_le c.visit.rated_le
      exact Int.lt_of_le_of_lt hle (Int.lt_add_of_pos_right _ (by decide))

/-- A check that is obstructed leaves the last hour without an alert. -/
theorem Cooled.obstructed (hs : Cooled s) (hu : c.visit.userId = user)
    (hc : unobstructed user s c = false) : checkWorker resend s c = s ∧
      c.visit.address ≠ none ∧ ¬ ∃ a ∈ s.alerts, a.userId = user ∧
        a.workerId = c.visit.workerId ∧ c.visit.asked < a.sent + seconds 3600 := by
  simp only [unobstructed, hu, ne_eq, not_true_eq_false, decide_false, Bool.false_or,
    Bool.or_eq_false_iff, Bool.not_eq_false'] at hc
  obtain ⟨⟨hal, haddr⟩, hem⟩ := hc
  rw [Option.isNone_eq_false_iff] at haddr
  obtain ⟨email, hemail⟩ := Option.isSome_iff_exists.mp haddr
  refine ⟨by simp [checkWorker, hal, hemail, hem], by rw [hemail]; simp, ?_⟩
  rintro ⟨a, ha, hau, haw, hlt⟩
  obtain ⟨en, e, hen, he, hle⟩ := hs.cooldown a ha
  rw [hau, haw, ← hu] at hen
  have hasked := not_live hal hen he
  exact absurd (Int.lt_of_lt_of_le hlt hle) (Int.not_lt.mpr hasked)

/-! ## The history without the others -/

/-- The user's own cooldown outlasts that of the worker id. -/
def Linked (user : UserId) (s : State) : Prop :=
  ∀ w en, s.workerOfflineEmail w = some en → ∃ en' e e', s.workerAlert (user, w) = some en' ∧
    en.expires = some e ∧ en'.expires = some e' ∧ e ≤ e'

theorem Linked.after (hs : Linked user s) (hu : c.visit.userId = user)
    (h : Checked resend s c s') : Linked user s' := by
  cases h with
  | skipped => exact hs
  | sent email haddr hal =>
    intro w en hen
    by_cases hw : w = c.visit.workerId
    · subst hw
      simp only [send, put, Function.update_self, Option.some.injEq] at hen
      subst hen
      refine ⟨_, _, _, by rw [← hu]; exact Function.update_self .., rfl, rfl, ?_⟩
      exact Int.add_le_add_right c.visit.rated_le _
    · simp only [send, put, Function.update_of_ne hw] at hen
      obtain ⟨en', e, e', hal', hrest⟩ := hs w en hen
      refine ⟨en', e, e', ?_, hrest⟩
      rw [← hal']
      exact Function.update_of_ne (fun h => hw (Prod.mk.inj h).2) ..

/-- Alone, the user is never obstructed. -/
theorem Linked.free (hs : Linked user s) (hu : c.visit.userId = user)
    (hal : s.alerted c.visit = false) : s.emailed c.visit = false := by
  by_contra hem
  rw [Bool.not_eq_false] at hem
  obtain ⟨u, hget⟩ := Option.isSome_iff_exists.mp hem
  obtain ⟨en, hen, hlive, -⟩ := get_eq_some.mp hget
  obtain ⟨en', e, e', hen', he, he', hle⟩ := hs _ en hen
  rw [← hu] at hen'
  have hasked := not_live hal hen' he'
  rw [Entry.live, he] at hlive
  have hlt : c.visit.rated < e := of_decide_eq_true hlive
  exact absurd (Int.lt_of_lt_of_le hlt (Int.le_trans hle (Int.le_trans hasked c.visit.asked_le)))
    (Int.lt_irrefl _)

/-- Two runs that the user cannot tell apart. -/
structure Agree (user : UserId) (s s' : State) : Prop where
  cooldowns : ∀ w, s.workerAlert (user, w) = s'.workerAlert (user, w)
  alerts : alertsTo user s.alerts = s'.alerts

theorem Agree.alerted (h : Agree user s s') (hu : c.visit.userId = user) :
    s.alerted c.visit = s'.alerted c.visit := by
  unfold State.alerted Expiring.get
  rw [hu, h.cooldowns]

theorem Agree.other (h : Agree user s s') {s₁ : State} (hd : Checked resend s c s₁)
    (hu : c.visit.userId ≠ user) : Agree user s₁ s' := by
  cases hd with
  | skipped => exact h
  | sent email haddr hal =>
    constructor
    · intro w
      rw [← h.cooldowns w]
      exact Function.update_of_ne (fun heq => hu (Prod.mk.inj heq).1.symm) ..
    · rw [← h.alerts]
      cases resend with
      | false => rfl
      | true => simp [alertsTo, send, alertOf, hu]

/-- A check of a worker whose id is free hangs on its own cooldown alone. -/
theorem checkWorker_free (hem : s.alerted c.visit = false → s.emailed c.visit = false) :
    checkWorker resend s c = if s.alerted c.visit then s else
      (c.visit.address.elim s fun email => send resend s c email) := by
  unfold checkWorker
  split
  · rfl
  · rename_i hal
    rw [hem (Bool.eq_false_iff.mpr hal)]
    cases c.visit.address <;> rfl

theorem Agree.own (h : Agree user s s') (hl : Linked user s') (hu : c.visit.userId = user)
    (hc : unobstructed user s c = true) :
    Agree user (checkWorker resend s c) (checkWorker resend s' c) := by
  have hal := h.alerted hu
  cases haddr : c.visit.address with
  | none =>
    have hskip (t : State) : checkWorker resend t c = t := by simp [checkWorker, haddr]
    rw [hskip, hskip]
    exact h
  | some email =>
    have hfree : s.alerted c.visit = false → s.emailed c.visit = false := by
      intro hno
      simpa [unobstructed, hu, hno, haddr] using hc
    rw [checkWorker_free hfree, checkWorker_free (hl.free hu), hal, haddr]
    split
    · exact h
    · constructor
      · intro w
        simp only [Option.elim_some, send, put, Function.update_apply]
        rw [h.cooldowns w]
      · cases resend with
        | false => exact h.alerts
        | true => simp [alertsTo, send, alertOf, hu, ← h.alerts]

theorem Agree.foldl (h : Agree user s s') (hl : Linked user s')
    (hc : Machine.along (step resend) (unobstructed user) s cs = true) :
    Agree user (cs.foldl (checkWorker resend) s)
      ((cs.filter fun c => c.visit.userId = user).foldl (checkWorker resend) s') := by
  induction cs generalizing s s' with
  | nil => exact h
  | cons c cs ih =>
    obtain ⟨hone, hrest⟩ := (Machine.along_cons rfl).mp hc
    by_cases hu : c.visit.userId = user
    · rw [List.filter_cons_of_pos (by simpa using hu)]
      exact ih (h.own hl hu hone) (hl.after hu (checkWorker_cases s' c)) hrest
    · rw [List.filter_cons_of_neg (by simpa using hu)]
      exact ih (h.other (checkWorker_cases s c) hu) hl hrest

theorem alerts_eq (h : History) : h.alerts resend = (h.checks.foldl (checkWorker resend) start).alerts := by
  rw [History.checks, List.foldl_flatMap]
  rfl

theorem own_checks (h : History) (user : UserId) :
    (h.own user).checks = h.checks.filter fun c => c.visit.userId = user := by
  induction h with
  | nil => rfl
  | cons r h ih =>
    have hround : Round.checks { r with workers := r.workers.filter fun v => v.userId = user } =
        r.checks.filter fun c => c.visit.userId = user := by
      unfold Round.checks
      rw [List.filter_map, List.filter_filter, List.filter_filter]
      congr 1
      exact List.filter_congr fun v _ => Bool.and_comm ..
    change Round.checks _ ++ (History.own h user).checks = (r.checks ++ History.checks h).filter _
    rw [hround, ih, List.filter_append]

theorem Checked.unsent (h : Checked false s c s') : s'.alerts = s.alerts := by
  cases h <;> rfl

/-- Without mail there are no alerts. -/
theorem alerts_unsent (h : History) : h.alerts false = [] := by
  rw [alerts_eq]
  suffices hs : ∀ (cs : List Check) (s : State), s.alerts = [] →
      (cs.foldl (checkWorker false) s).alerts = [] from hs _ _ rfl
  intro cs
  induction cs with
  | nil => exact fun s hs => hs
  | cons c cs ih => exact fun s hs => ih _ ((checkWorker_cases s c).unsent.trans hs)

theorem Agree.start : Agree user start start := ⟨fun _ => rfl, rfl⟩

theorem Linked.start : Linked user start := fun w en h => by cases h

theorem Announced.start : Announced start := fun u w en h => by cases h

theorem unobstructed_of_hourly {h : History} (hi : Independent true user h) :
    Machine.along (step true) (unobstructed user) start h.checks = true := by
  refine Machine.along_of_at fun bs c s hp hr => ?_
  rw [run_eq, Option.some.injEq] at hr
  subst hr
  by_contra hc
  rw [Bool.not_eq_true] at hc
  have hu : c.visit.userId = user := by
    by_contra hne
    simp [unobstructed, hne] at hc
  obtain ⟨hsame, haddr, hnone⟩ := (Cooled.start.foldl bs).obstructed hu hc
  have hrun : Machine.run (step true) start (bs ++ [c]) =
      some (bs.foldl (checkWorker true) start) := by
    rw [run_eq, List.foldl_append, List.foldl_cons, List.foldl_nil, hsame]
  exact hnone (hi.hourly rfl bs c _ hp hrun hu haddr)

theorem independent_of_unobstructed {h : History}
    (hc : Machine.along (step true) (unobstructed user) start h.checks = true) :
    Independent true user h where
  blind := by
    rw [alerts_eq, alerts_eq, own_checks]
    exact (Agree.start.foldl Linked.start hc).alerts
  apart := by
    rw [alerts_eq]
    refine ((Cooled.start.foldl h.checks).apart.filter _).imp_of_mem fun {a b} ha hb hab => ?_
    have hua : a.userId = user := of_decide_eq_true (List.mem_filter.mp ha).2
    have hub : b.userId = user := of_decide_eq_true (List.mem_filter.mp hb).2
    exact hab (hua.trans hub.symm)
  hourly _ bs c s hp hr hu haddr := by
    rw [run_eq, Option.some.injEq] at hr
    subst hr
    have hone := Machine.along_at hc hp (run_eq start bs)
    rw [List.foldl_append, List.foldl_cons, List.foldl_nil]
    subst hu
    exact (Announced.start.foldl bs).covered hone haddr

/-- The alerts to a user are independent of the others' workers exactly when mail is not configured
or no check of an offline worker of the user that has no cooldown of its own, and whose user has an
address, meets the cooldown of its worker id, which another user's worker has set. -/
theorem alerts_independent_iff (resend : Bool) (user : UserId) (h : History) :
    Independent resend user h ↔ resend = false ∨
      Machine.along (step resend) (unobstructed user) start h.checks = true := by
  cases resend with
  | false =>
    refine iff_of_true ⟨?_, ?_, fun h => by cases h⟩ (.inl rfl)
    · rw [alerts_unsent, alerts_unsent]
      rfl
    · rw [alerts_unsent]
      exact List.Pairwise.nil
  | true =>
    constructor
    · exact fun hi => .inr (unobstructed_of_hourly hi)
    · rintro (h | hc)
      · cases h
      · exact independent_of_unobstructed hc

/-- A worker that fell silent at the instant 0, checked at 600 s. -/
def silent (user : UserId) (email : String) : Visit where
  userId := user
  workerId := "worker-1"
  lastHeartbeat := 0
  email := some email
  pendingCount := 2
  asked := seconds 600
  rated := seconds 600
  done := seconds 600
  asked_le := Int.le_refl _
  rated_le := Int.le_refl _

/-- Two users have a worker of one name, and only the first of them is told. -/
theorem namesake_suppressed :
    let h : History := [⟨seconds 600, 300, [silent 1 "a@example.com", silent 2 "b@example.com"]⟩]
    alertsTo 2 (h.alerts true) = [] ∧
      ((h.own 2).alerts true).map Alert.email = ["b@example.com"] ∧ ¬ Independent true 2 h := by
  refine ⟨by decide +kernel, by decide +kernel, fun hi => ?_⟩
  have hblind := congrArg List.length hi.blind
  revert hblind
  decide +kernel

end CueApi.WorkerAlerts
