import CueApi.Library.Machine
import CueApi.Library.Pending
import CueApi.Messages.Tasks

/-! The slots of one user: the key `concurrent:{user_id}` and the push jobs that share it, one call
to Redis or the database at a time, any of which may raise before or after it is carried out. The
jobs are those of `Tasks`, with the handlers that an exception passes through. -/

namespace CueApi.Cap

open Scheduler (Pid)
open Messages (MsgEnv MsgTask Fingerprinted)

/-- The call that a job makes next. `load` stands for the SELECTs of `_load_message_context`, `undo`
for the DECR over the cap, `claim` for `_claim_message`, `route` for `_route_attempt_outcome`. -/
inductive Phase
  | load
  | incr
  | expire (current : Int)
  | undo
  | recycle
  | claim
  | refresh
  | push
  | route
  | release
  deriving DecidableEq, Repr

/-- `slot` tells whether an INCR of the job has been carried out and no DECR since. -/
structure Job where
  task : MsgTask
  phase : Phase := .load
  slot : Bool := false
  deriving DecidableEq

/-- How a call ends; `found` is what a lookup or a claim tells. -/
inductive Answer
  | ok (found : Bool)
  | raises (applied : Bool)
  deriving DecidableEq, Repr

/-- `recycled` has the rows that jobs over the cap put back into `dispatch_outbox`; `kept` counts
the jobs that have ended with their slot. -/
structure Slots where
  concurrent : Int := 0
  jobs : Pending Pid Job := ∅
  recycled : List MsgTask := []
  kept : Nat := 0
  deriving DecidableEq

variable (env : MsgEnv)

/-- The `finally` of both tasks: `_release_concurrent` has something to do when there is Redis. -/
def Job.leave (job : Job) : Option Job :=
  if env.redis then some { job with phase := .release } else none

/-- One call of a job, and its next one. The handler of `_check_concurrent_cap_or_recycle` returns
the key whatever has raised, and `_release_concurrent` swallows what its DECR raises. -/
def Slots.issue (s : Slots) (answer : Answer) (job : Job) : Slots × Option Job :=
  match job.phase with
  | .load =>
      if answer = .ok true then
        (s, some { job with phase := if env.redis then .incr else .claim })
      else (s, none)
  | .incr =>
      match answer with
      | .ok _ =>
          ({ s with concurrent := s.concurrent + 1 },
            some { job with phase := .expire (s.concurrent + 1), slot := true })
      | .raises true =>
          ({ s with concurrent := s.concurrent + 1 },
            some { job with phase := .claim, slot := true })
      | .raises false => (s, some { job with phase := .claim })
  | .expire current =>
      match answer with
      | .ok _ =>
          (s, some { job with
            phase :=
              if (env.maxConcurrentDeliveriesPerUser : Int) < current then .undo else .claim })
      | .raises _ => (s, some { job with phase := .claim })
  | .undo =>
      match answer with
      | .ok _ =>
          ({ s with concurrent := s.concurrent - 1 },
            some { job with phase := .recycle, slot := false })
      | .raises true =>
          ({ s with concurrent := s.concurrent - 1 },
            some { job with phase := .claim, slot := false })
      | .raises false => (s, some { job with phase := .claim })
  | .recycle =>
      match answer with
      | .ok _ => ({ s with recycled := job.task :: s.recycled }, none)
      | .raises true =>
          ({ s with recycled := job.task :: s.recycled }, some { job with phase := .claim })
      | .raises false => (s, some { job with phase := .claim })
  | .claim =>
      if answer = .ok true then (s, some { job with phase := .refresh }) else (s, job.leave env)
  | .refresh =>
      match answer with
      | .ok _ => (s, some { job with phase := .push })
      | .raises _ => (s, job.leave env)
  | .push =>
      match answer with
      | .ok _ => (s, some { job with phase := .route })
      | .raises _ => (s, job.leave env)
  | .route => (s, job.leave env)
  | .release =>
      if answer = .raises false then ({ s with kept := s.kept + job.slot.toNat }, none)
      else ({ s with concurrent := s.concurrent - 1 }, none)

inductive Action
  | start (p : Pid) (task : MsgTask)
  | next (p : Pid) (answer : Answer)
  deriving DecidableEq

def step (s : Slots) : Action → Option Slots
  | .start p task => (s.jobs.enter p { task }).map fun jobs => { s with jobs }
  | .next p answer =>
      (s.jobs.find p).map fun job =>
        let (s', next) := s.issue env answer job
        { s' with jobs := s'.jobs.proceed p next }

/-- The jobs that have acquired a slot and not released it. -/
def Slots.holders (s : Slots) : Nat := s.jobs.tally Job.slot

/-- The check has let the job go on. -/
def Phase.past : Phase → Bool
  | .claim | .refresh | .push | .route | .release => true
  | _ => false

def Slots.past (s : Slots) : Nat := s.jobs.tally fun job => job.phase.past

/-- The call leaves the job with the slot that its next calls give back: an INCR that raises has
counted, a DECR over the cap that raises has not, and the recycled row is stored. -/
def Job.pairs (job : Job) : Answer → Bool
  | .ok _ => true
  | .raises applied =>
      match job.phase with
      | .incr => applied
      | .undo => !applied
      | .recycle => false
      | _ => true

def paired (s : Slots) : Action → Bool
  | .next p answer => (s.jobs.find p).all fun job => job.pairs answer
  | .start _ _ => true

/-- No call raises. -/
def calm (_ : Slots) : Action → Bool
  | .next _ (.raises _) => false
  | _ => true

variable {env} {s s' : Slots} {a : Action} {p : Pid}

theorem step_start {task : MsgTask} (h : step env s (.start p task) = some s') :
    ∃ jobs, s.jobs.enter p { task } = some jobs ∧ s' = { s with jobs } := by
  obtain ⟨jobs, hjobs, rfl⟩ := Option.map_eq_some_iff.mp h
  exact ⟨jobs, hjobs, rfl⟩

theorem step_next {answer : Answer} (h : step env s (.next p answer) = some s') :
    ∃ job, s.jobs.find p = some job ∧
      s' = { (s.issue env answer job).1 with
        jobs := (s.issue env answer job).1.jobs.proceed p (s.issue env answer job).2 } := by
  obtain ⟨job, hjob, rfl⟩ := Option.map_eq_some_iff.mp h
  exact ⟨job, hjob, rfl⟩

theorem issue_jobs (answer : Answer) (job : Job) : (s.issue env answer job).1.jobs = s.jobs := by
  obtain ⟨task, phase, slot⟩ := job
  cases phase with
  | route => rfl
  | load | claim | release =>
    simp only [Slots.issue]
    split <;> rfl
  | incr | undo | recycle =>
    rcases answer with found | applied
    · rfl
    · cases applied <;> rfl
  | expire | refresh | push => cases answer <;> rfl

/-- What a job counts for. -/
def weight (next : Option Job) : Nat := next.elim 0 fun job => job.slot.toNat

/-- A job has a slot from its INCR on, when there is Redis, to its DECR. -/
def Job.sound (redis : Bool) (job : Job) : Bool :=
  match job.phase with
  | .load => !job.slot
  | .incr | .recycle => redis && !job.slot
  | .expire _ | .undo | .release => redis && job.slot
  | .claim | .refresh | .push | .route => job.slot == redis

/-- A call keeps the job sound and adds to the counter what it adds to the slots held or kept. -/
structure Counts (env : MsgEnv) (s : Slots) (job : Job) (r : Slots × Option Job) : Prop where
  sound : ∀ next, r.2 = some next → next.sound env.redis = true
  counts : r.1.concurrent + job.slot.toNat + s.kept = s.concurrent + weight r.2 + r.1.kept

/-- A call that leaves the counter to the next call of the job. -/
theorem counts_goOn {job next : Job} (hnext : next.sound env.redis = true)
    (hslot : next.slot = job.slot) : Counts env s job (s, some next) := by
  constructor
  · intro next' h
    cases h
    exact hnext
  · show s.concurrent + job.slot.toNat + s.kept = s.concurrent + (next.slot.toNat : Nat) + s.kept
    rw [hslot]

theorem counts_leave {job : Job} (hjob : job.slot = env.redis) :
    Counts env s job (s, job.leave env) := by
  cases hredis : env.redis with
  | true =>
    have hleave : job.leave env = some { job with phase := .release } := by
      simp [Job.leave, hredis]
    rw [hleave]
    refine counts_goOn ?_ rfl
    simp [Job.sound, hjob, hredis]
  | false =>
    have hleave : job.leave env = none := by simp [Job.leave, hredis]
    rw [hleave]
    constructor
    · intro next h
      cases h
    · simp [hjob, hredis, weight]

theorem issue_counts {answer : Answer} {job : Job} (hs : job.sound env.redis = true)
    (hc : job.pairs answer = true) : Counts env s job (s.issue env answer job) := by
  obtain ⟨task, phase, slot⟩ := job
  cases phase with
  | load =>
    obtain rfl : slot = false := by simpa [Job.sound] using hs
    simp only [Slots.issue]
    split
    · refine counts_goOn ?_ rfl
      cases hredis : env.redis <;> simp [Job.sound]
    · constructor
      · intro next h
        cases h
      · simp [weight]
  | incr =>
    obtain ⟨hredis, rfl⟩ : env.redis = true ∧ slot = false := by simpa [Job.sound] using hs
    rcases answer with found | applied
    · constructor
      · intro next h
        cases h
        simp [Job.sound, hredis]
      · simp [Slots.issue, weight]
    · cases applied with
      | true =>
        constructor
        · intro next h
          cases h
          simp [Job.sound, hredis]
        · simp [Slots.issue, weight]
      | false => cases hc
  | expire current =>
    obtain ⟨hredis, rfl⟩ : env.redis = true ∧ slot = true := by simpa [Job.sound] using hs
    rcases answer with found | applied
    · refine counts_goOn ?_ rfl
      by_cases hover : (env.maxConcurrentDeliveriesPerUser : Int) < current
      · simp [Job.sound, hover, hredis]
      · simp [Job.sound, hover, hredis]
    · exact counts_goOn (by simp [Job.sound, hredis]) rfl
  | undo =>
    obtain ⟨hredis, rfl⟩ : env.redis = true ∧ slot = true := by simpa [Job.sound] using hs
    rcases answer with found | applied
    · constructor
      · intro next h
        cases h
        simp [Job.sound, hredis]
      · simp [Slots.issue, weight]
    · cases applied with
      | true => cases hc
      | false => exact counts_goOn (by simp [Job.sound, hredis]) rfl
  | recycle =>
    obtain ⟨hredis, rfl⟩ : env.redis = true ∧ slot = false := by simpa [Job.sound] using hs
    rcases answer with found | applied
    · constructor
      · intro next h
        cases h
      · simp [Slots.issue, weight]
    · cases hc
  | claim =>
    have hslot : slot = env.redis := by simpa [Job.sound] using hs
    simp only [Slots.issue]
    split
    · exact counts_goOn (by simp [Job.sound, hslot]) rfl
    · exact counts_leave hslot
  | refresh | push =>
    have hslot : slot = env.redis := by simpa [Job.sound] using hs
    cases answer with
    | ok found => exact counts_goOn (by simp [Job.sound, hslot]) rfl
    | raises applied => exact counts_leave hslot
  | route => exact counts_leave (by simpa [Job.sound] using hs)
  | release =>
    obtain ⟨hredis, rfl⟩ : env.redis = true ∧ slot = true := by simpa [Job.sound] using hs
    simp only [Slots.issue]
    split
    · constructor
      · intro next h
        cases h
      · simp [weight]
        omega
    · constructor
      · intro next h
        cases h
      · simp [weight]

/-- The counter has the slots that jobs hold and those that jobs have kept. -/
structure Counted (env : MsgEnv) (s : Slots) : Prop where
  sound : ∀ y ∈ s.jobs.entries, y.2.sound env.redis = true
  counter : s.concurrent = (s.holders + s.kept : Nat)

theorem Counted.after (hs : Counted env s) (hc : paired s a = true)
    (h : step env s a = some s') : Counted env s' := by
  cases a with
  | start p task =>
    obtain ⟨jobs, hjobs, rfl⟩ := step_start h
    constructor
    · intro y hy
      rw [Pending.enter_some hjobs] at hy
      rcases List.mem_cons.mp hy with rfl | hy
      · rfl
      · exact hs.sound y hy
    · have htally := Pending.tally_enter Job.slot hjobs
      show s.concurrent = (jobs.tally Job.slot + s.kept : Nat)
      rw [htally]
      exact hs.counter
  | next p answer =>
    obtain ⟨job, hjob, rfl⟩ := step_next h
    have hpairs : job.pairs answer = true := by simpa [paired, hjob] using hc
    have hsound : job.sound env.redis = true := hs.sound _ (Pending.find_iff.mp hjob)
    have hcounts := issue_counts (s := s) hsound hpairs
    rw [issue_jobs]
    constructor
    · intro y hy
      rcases Pending.mem_proceed.mp hy with ⟨next, hnext, rfl⟩ | ⟨hy, -⟩
      · exact hcounts.sound next hnext
      · exact hs.sound y hy
    · have htally := Pending.tally_proceed Job.slot (s.issue env answer job).2 hjob
      have hcounter := hs.counter
      have hsum := hcounts.counts
      show (s.issue env answer job).1.concurrent =
        ((s.jobs.proceed p (s.issue env answer job).2).tally Job.slot +
          (s.issue env answer job).1.kept : Nat)
      unfold Slots.holders at hcounter
      unfold weight at hsum
      omega

/-! ## The cap -/

/-- The check lets the job go on, or will. -/
def Job.granted (max : Nat) (job : Job) : Bool :=
  match job.phase with
  | .expire current => current ≤ max
  | phase => phase.past

/-- As long as no call raises, a job is granted by an INCR below the cap. -/
theorem issue_granted {answer : Answer} {job : Job} (hredis : env.redis = true)
    (hok : ∃ found, answer = .ok found) {next : Job}
    (hnext : (s.issue env answer job).2 = some next)
    (hg : next.granted env.maxConcurrentDeliveriesPerUser = true) :
    job.granted env.maxConcurrentDeliveriesPerUser = true ∨
      (job.phase = .incr ∧ s.concurrent < env.maxConcurrentDeliveriesPerUser) := by
  obtain ⟨found, rfl⟩ := hok
  obtain ⟨task, phase, slot⟩ := job
  cases phase with
  | load =>
    simp only [Slots.issue, hredis] at hnext
    split at hnext
    · cases hnext
      cases hg
    · cases hnext
  | incr =>
    cases hnext
    right
    refine ⟨rfl, ?_⟩
    have hle : s.concurrent + 1 ≤ (env.maxConcurrentDeliveriesPerUser : Int) := of_decide_eq_true hg
    omega
  | expire current =>
    cases hnext
    left
    by_cases hover : (env.maxConcurrentDeliveriesPerUser : Int) < current
    · simp [Job.granted, hover, Phase.past] at hg
    · exact decide_eq_true (Int.not_lt.mp hover)
  | undo =>
    cases hnext
    cases hg
  | recycle => cases hnext
  | claim | refresh | push | route | release => exact .inl rfl

theorem granted_slot {job : Job} (hredis : env.redis = true) (hs : job.sound env.redis = true)
    (hg : job.granted env.maxConcurrentDeliveriesPerUser = true) : job.slot = true := by
  obtain ⟨task, phase, slot⟩ := job
  rw [hredis] at hs
  cases phase with
  | load | incr | undo | recycle => cases hg
  | expire current | release => simpa [Job.sound] using hs
  | claim | refresh | push | route => simpa [Job.sound] using hs

theorem past_granted {max : Nat} {job : Job} (h : job.phase.past = true) :
    job.granted max = true := by
  obtain ⟨task, phase, slot⟩ := job
  cases phase with
  | expire current => cases h
  | _ => exact h

theorem calm_answer {answer : Answer} (h : calm s (.next p answer) = true) :
    ∃ found, answer = .ok found := by
  cases answer with
  | ok found => exact ⟨found, rfl⟩
  | raises applied => cases h

theorem calm_paired (h : calm s a = true) : paired s a = true := by
  cases a with
  | start p task => rfl
  | next p answer =>
    obtain ⟨found, rfl⟩ := calm_answer h
    simp only [paired, Option.all_eq_true]
    intro job _
    rfl

def Slots.granted (max : Nat) (s : Slots) : Nat := s.jobs.tally (Job.granted max)

theorem granted_after (hredis : env.redis = true) (hs : Counted env s)
    (hmax : s.granted env.maxConcurrentDeliveriesPerUser ≤ env.maxConcurrentDeliveriesPerUser)
    (hc : calm s a = true) (h : step env s a = some s') :
    s'.granted env.maxConcurrentDeliveriesPerUser ≤ env.maxConcurrentDeliveriesPerUser := by
  unfold Slots.granted at hmax ⊢
  cases a with
  | start p task =>
    obtain ⟨jobs, hjobs, rfl⟩ := step_start h
    have htally := Pending.tally_enter (Job.granted env.maxConcurrentDeliveriesPerUser) hjobs
    show jobs.tally _ ≤ _
    rw [htally]
    exact hmax
  | next p answer =>
    obtain ⟨job, hjob, rfl⟩ := step_next h
    have htally := Pending.tally_proceed (Job.granted env.maxConcurrentDeliveriesPerUser)
      (s.issue env answer job).2 hjob
    show ((s.issue env answer job).1.jobs.proceed p (s.issue env answer job).2).tally _ ≤ _
    rw [issue_jobs]
    cases hnext : (s.issue env answer job).2 with
    | none =>
      rw [hnext, Option.elim_none] at htally
      omega
    | some next =>
      rw [hnext, Option.elim_some] at htally
      by_cases hg : next.granted env.maxConcurrentDeliveriesPerUser = true
      · rw [hg, Bool.toNat_true] at htally
        rcases issue_granted hredis (calm_answer hc) hnext hg with hjobg | ⟨hphase, hlt⟩
        · rw [hjobg, Bool.toNat_true] at htally
          omega
        · -- every granted job has one of the slots that the INCR has counted
          have hle := Pending.tally_le (c := s.jobs) fun y hy =>
            granted_slot hredis (hs.sound y hy)
          have hcounter := hs.counter
          unfold Slots.holders at hcounter
          omega
      · rw [Bool.not_eq_true] at hg
        rw [hg, Bool.toNat_false] at htally
        omega

/-- Along a run whose failures leave INCR and DECR in pairs, `concurrent:{user_id}` counts the jobs
that have a slot, those included that have ended without releasing it; and when no call has raised,
at most as many jobs as the setting says are past the check. -/
theorem counter_counts {as : List Action} (hr : Machine.run (step env) {} as = some s)
    (hc : Machine.along (step env) paired {} as = true) :
    s.concurrent = (s.holders + s.kept : Nat) ∧ 0 ≤ s.concurrent ∧
      (s.jobs = ∅ → s.kept = 0 → s.concurrent = 0) ∧
      (env.redis = true → Machine.along (step env) calm {} as = true →
        s.past ≤ env.maxConcurrentDeliveriesPerUser) := by
  have hstart : Counted env {} := by
    constructor
    · intro y hy
      cases hy
    · rfl
  have hs := Machine.invariant hstart (fun _ _ _ hs hc h => hs.after hc h) hr hc
  have hcounter := hs.counter
  refine ⟨hcounter, ?_, ?_, ?_⟩
  · omega
  · intro hempty hkept
    have hholders : s.holders = 0 := by
      unfold Slots.holders
      rw [hempty]
      rfl
    rw [hcounter, hholders, hkept]
    rfl
  · intro hredis hcalm
    have hgranted : Counted env s ∧ s.granted env.maxConcurrentDeliveriesPerUser ≤
        env.maxConcurrentDeliveriesPerUser := by
      refine Machine.invariant (I := fun s => Counted env s ∧
        s.granted env.maxConcurrentDeliveriesPerUser ≤ env.maxConcurrentDeliveriesPerUser)
        ⟨hstart, Nat.zero_le _⟩ (fun s a s' hs hc h => ?_) hr hcalm
      exact ⟨hs.1.after (calm_paired hc) h, granted_after hredis hs.1 hs.2 hc h⟩
    exact Nat.le_trans (Pending.tally_le fun y _ hpast => past_granted hpast) hgranted.2

/-- One delivery at a time. -/
def capOne : MsgEnv :=
  { maxConcurrentDeliveriesPerUser := 1, userSlug := fun _ => some "u",
    fingerprint := Fingerprinted.body }

/-- A job that delivers, up to its release. -/
def delivers (p : Pid) : List Action :=
  .start p .deliverMessage :: List.replicate 7 (.next p (.ok true))

/-- Beside it, a job over the cap goes back to `dispatch_outbox`. -/
def capped : List Action :=
  delivers 1 ++ [.start 2 .retryMessage] ++ List.replicate 5 (.next 2 (.ok true))

def oneIn : Slots where
  concurrent := 1
  jobs := ⟨[(1, { task := .deliverMessage, phase := .release, slot := true })], by decide⟩
  recycled := [.retryMessage]

theorem counter_counts_capped :
    oneIn.concurrent = (oneIn.holders + oneIn.kept : Nat) ∧
      oneIn.past ≤ capOne.maxConcurrentDeliveriesPerUser := by
  have h := @counter_counts capOne oneIn capped (by decide) (by decide)
  exact ⟨h.1, h.2.2.2 rfl (by decide)⟩

/-- One call raises: the DECR of a release, and the counter stays up with no job running; or an
INCR, and the DECR of the release takes the counter below zero. -/
theorem counter_drifts :
    (∃ s, Machine.run (step capOne) {} (delivers 1 ++ [.next 1 (.raises false)]) = some s ∧
      s.jobs = ∅ ∧ s.concurrent = 1) ∧
    ∃ s, Machine.run (step capOne) {}
        ([.start 1 .deliverMessage, .next 1 (.ok true), .next 1 (.raises false)] ++
          List.replicate 5 (.next 1 (.ok true))) = some s ∧
      s.jobs = ∅ ∧ s.concurrent = -1 := by
  constructor
  · exact ⟨{ concurrent := 1, kept := 1 }, by decide, rfl, rfl⟩
  · exact ⟨{ concurrent := -1 }, by decide, rfl, rfl⟩

end CueApi.Cap
