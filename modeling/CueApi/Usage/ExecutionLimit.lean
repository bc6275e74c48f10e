import CueApi.Library.Expiring
import CueApi.Scheduler.Tables

/-! `app/services/usage_service.py`: the monthly usage, cached in Redis, and the
execution limit with its grace period. A call happens at one instant. -/

namespace CueApi.Usage

open Expiring Scheduler

/-- A `date`. -/
structure Date where
  year : Int
  month : Int
  day : Int
  deriving DecidableEq, Repr

/-- `timedelta(days=n)`. -/
def days (n : Nat) : Time := n * 86400000000

/-- The proleptic Gregorian date of an instant, counted in eras of 400 years that
begin in March. -/
def dateOf (now : Time) : Date :=
  let z := now / 86400000000 + 719468
  let era := z / 146097
  let doe := z % 146097
  let yoe := (doe - doe / 1460 + doe / 36524 - doe / 146096) / 365
  let doy := doe - (365 * yoe + yoe / 4 - yoe / 100)
  let mp := (5 * doy + 2) / 153
  let month := if mp < 10 then mp + 3 else mp - 9
  { year := yoe + era * 400 + (if month ≤ 2 then 1 else 0)
    month := month
    day := doy - (153 * mp + 2) / 5 + 1 }

/-- `_current_month_start`. -/
def currentMonthStart (now : Time) : Date := { dateOf now with day := 1 }

example : currentMonthStart 951782400000000 = ⟨2000, 2, 1⟩ := by decide

/-- How the Redis client returns values: decoded, as the one of the API and the
poller, or as bytes, as the one of the arq worker. -/
inductive Client
  | decoded | bytes
  deriving DecidableEq, Repr

/-- The Redis commands of the service. -/
inductive Command
  | getUsage | warmUsage | getGrace | setGrace | incrUsage | syncUsage
  deriving DecidableEq, Repr

/-- Redis, and the table `usage_monthly`. The two families of keys differ in
their first word. -/
structure State where
  usage : Store (UserId × Date) Nat Time
  grace : Store UserId Time Time
  usageMonthly : UserId → Date → Option Nat

/-- What `check_execution_limit` returns. -/
structure Verdict where
  allowed : Bool
  overLimit : Bool
  graceActive : Bool
  usage : Nat
  deriving DecidableEq, Repr

section Calls

variable (st : State) (user : UserId) (now : Time) (raises : List Command)

/-- The part of `get_monthly_usage` after a cache miss; `db` tells whether a
session was passed. -/
def usageFromDb (db : Bool) : Nat × State :=
  if db then
    let count := (st.usageMonthly user (currentMonthStart now)).getD 0
    if .warmUsage ∈ raises then (count, st)
    else (count, { st with
      usage := put st.usage (user, currentMonthStart now) count (some (now + days 1)) })
  else (0, st)

/-- `get_monthly_usage`. -/
def getMonthlyUsage (db : Bool) : Nat × State :=
  if .getUsage ∈ raises then usageFromDb st user now raises db
  else match get st.usage now (user, currentMonthStart now) with
    | some count => (count, st)
    | none => usageFromDb st user now raises db

/-- `datetime.fromisoformat`, which takes no bytes. -/
def fromisoformat (client : Client) (t : Time) : Option Time :=
  if client = .decoded then some t else none

/-- `check_execution_limit`; `none` is an exception. -/
def checkExecutionLimit (client : Client) (limit : Int) (db : Bool) : Option Verdict × State :=
  let (usage, st) := getMonthlyUsage st user now raises db
  if (usage : Int) < limit then (some ⟨true, false, false, usage⟩, st)
  else if .getGrace ∈ raises then (some ⟨false, true, false, usage⟩, st)
  else match get st.grace now user with
    | none =>
        if .setGrace ∈ raises then (some ⟨true, true, true, usage⟩, st)
        else (some ⟨true, true, true, usage⟩,
          { st with grace := put st.grace user now (some (now + days 1)) })
    | some value =>
        match fromisoformat client value with
        | none => (none, st)
        | some start =>
            if now - start ≤ days 1 then (some ⟨true, true, true, usage⟩, st)
            else (some ⟨false, true, false, usage⟩, st)

/-- `warm_usage_cache`. -/
def warmUsageCache : State :=
  let count := (st.usageMonthly user (currentMonthStart now)).getD 0
  if .warmUsage ∈ raises then st
  else { st with
    usage := put st.usage (user, currentMonthStart now) count (some (now + days 1)) }

/-- `increment_usage`; `stored` tells whether PostgreSQL took the upsert. -/
def incrementUsage (stored : Bool) : State :=
  let month := currentMonthStart now
  let cached := (get st.usage now (user, month)).getD 0 + 1
  let usage := if .incrUsage ∈ raises then st.usage
    else put st.usage (user, month) cached (some (now + days 35))
  if stored then
    let count := (st.usageMonthly user month).getD 0 + 1
    let table := Function.update (st.usageMonthly user) month (some count)
    { st with
      usage := if .syncUsage ∈ raises then usage
        else put usage (user, month) count (some (now + days 35))
      usageMonthly := Function.update st.usageMonthly user table }
  else { st with usage := usage }

end Calls

/-! ## Runs -/

/-- A call of the service. -/
inductive Op
  | check (user : UserId) (limit : Int) (now : Time) (raises : List Command) (db : Bool)
  | usage (user : UserId) (now : Time) (raises : List Command) (db : Bool)
  | warm (user : UserId) (now : Time) (raises : List Command)
  | increment (user : UserId) (now : Time) (raises : List Command) (stored : Bool)

variable (client : Client)

def step (st : State) : Op → State
  | .check user limit now raises db => (checkExecutionLimit st user now raises client limit db).2
  | .usage user now raises db => (getMonthlyUsage st user now raises db).2
  | .warm user now raises => warmUsageCache st user now raises
  | .increment user now raises stored => incrementUsage st user now raises stored

def run (st : State) (ops : List Op) : State := ops.foldl (step client) st

/-- The states that calls leave in an empty Redis. -/
def Reachable (st : State) : Prop :=
  ∃ table ops, run client ⟨fun _ => none, fun _ => none, table⟩ ops = st

/-- One call of `check_execution_limit` and the state it met. -/
structure Check where
  before : State
  user : UserId
  limit : Int
  now : Time
  raises : List Command
  db : Bool

/-- The calls of `check_execution_limit` for `user` in a run, in order. -/
def checksOf (user : UserId) (st : State) : List Op → List Check
  | [] => []
  | op :: ops =>
      match op with
      | .check u limit now raises db =>
          if u = user then
            ⟨st, u, limit, now, raises, db⟩ :: checksOf user (step client st op) ops
          else checksOf user (step client st op) ops
      | _ => checksOf user (step client st op) ops

namespace Check

def answer (c : Check) : Option Verdict :=
  (checkExecutionLimit c.before c.user c.now c.raises client c.limit c.db).1

/-- Redis is available and the usage is at or above the limit. -/
def OverLimit (c : Check) : Prop :=
  c.raises = [] ∧ c.limit ≤ (getMonthlyUsage c.before c.user c.now c.raises c.db).1

instance (c : Check) : Decidable c.OverLimit := inferInstanceAs (Decidable (_ ∧ _))

/-- The call finds a grace key. -/
def inGrace (c : Check) : Bool := (get c.before.grace c.now c.user).isSome

end Check

/-- The law: a day from the first call on every call is allowed, and later ones are
not. -/
def GraceThenBlock (checks : List Check) : Prop :=
  ∀ first ∈ checks.head?, ∀ c ∈ checks,
    (c.answer client).map Verdict.allowed = some (decide (c.now ≤ first.now + days 1))

instance (checks : List Check) : Decidable (GraceThenBlock client checks) :=
  inferInstanceAs (Decidable (∀ first ∈ _, _))

/-! ## The grace key lives as long as the grace -/

/-- A grace key expires a day after the instant it holds. -/
def GraceExpires (st : State) : Prop :=
  ∀ user en, st.grace user = some en → en.expires = some (en.value + days 1)

section Grace

variable (st : State) (user : UserId) (now : Time) (raises : List Command) (db : Bool)

theorem usageFromDb_grace : (usageFromDb st user now raises db).2.grace = st.grace := by
  unfold usageFromDb
  split
  · split <;> rfl
  · rfl

theorem getMonthlyUsage_grace : (getMonthlyUsage st user now raises db).2.grace = st.grace := by
  unfold getMonthlyUsage
  split
  · exact usageFromDb_grace st user now raises db
  · split
    · rfl
    · exact usageFromDb_grace st user now raises db

theorem incrementUsage_grace (stored : Bool) :
    (incrementUsage st user now raises stored).grace = st.grace := by
  unfold incrementUsage
  cases stored <;> rfl

theorem warmUsageCache_grace : (warmUsageCache st user now raises).grace = st.grace := by
  unfold warmUsageCache
  split <;> rfl

/-- A check leaves the grace keys alone or starts a grace of a day. -/
theorem checkExecutionLimit_grace (limit : Int) :
    (checkExecutionLimit st user now raises client limit db).2.grace = st.grace ∨
    (checkExecutionLimit st user now raises client limit db).2.grace =
      put st.grace user now (some (now + days 1)) := by
  have hg := getMonthlyUsage_grace st user now raises db
  unfold checkExecutionLimit
  simp only
  split
  · exact .inl hg
  split
  · exact .inl hg
  split
  · split
    · exact .inl hg
    · exact .inr (by rw [hg])
  · split
    · exact .inl hg
    · split <;> exact .inl hg

variable {st}

theorem GraceExpires.step (hst : GraceExpires st) (op : Op) :
    GraceExpires (step client st op) := by
  have same : ∀ st' : State, st'.grace = st.grace → GraceExpires st' := by
    intro st' heq u en hen
    exact hst u en (heq ▸ hen)
  cases op with
  | check u limit t raises db =>
    rcases checkExecutionLimit_grace client st u t raises db limit with heq | heq
    · exact same _ heq
    · intro u' en hen
      rw [Usage.step, heq] at hen
      exact put_all (P := fun _ en => en.expires = some (en.value + days 1)) hst rfl u' en hen
  | usage u t raises db => exact same _ (getMonthlyUsage_grace st u t raises db)
  | warm u t raises => exact same _ (warmUsageCache_grace st u t raises)
  | increment u t raises stored => exact same _ (incrementUsage_grace st u t raises stored)

end Grace

variable {client} {st : State} {user : UserId} {now : Time}

theorem GraceExpires.run (hst : GraceExpires st) (ops : List Op) :
    GraceExpires (run client st ops) := by
  induction ops generalizing st with
  | nil => exact hst
  | cons op ops ih => exact ih (hst.step client op)

theorem Reachable.graceExpires (hr : Reachable client st) : GraceExpires st := by
  obtain ⟨table, ops, rfl⟩ := hr
  exact GraceExpires.run (fun _ _ hen => by cases hen) ops

/-- A grace key that is there was started less than a day ago. -/
theorem GraceExpires.within (hst : GraceExpires st) {start : Time}
    (hg : get st.grace now user = some start) : now - start ≤ days 1 := by
  obtain ⟨en, hen, hlive, rfl⟩ := get_eq_some.mp hg
  rw [Entry.live, hst user en hen, Option.all_some, decide_eq_true_eq] at hlive
  unfold Time at *
  omega

/-- Above the limit, with Redis there: a client that decodes is always allowed; one
that returns bytes raises at a grace key. -/
theorem answer_of_overLimit {c : Check} (hst : GraceExpires c.before) (ho : c.OverLimit) :
    (c.answer client).map Verdict.allowed =
      if client = .bytes ∧ c.inGrace = true then none else some true := by
  obtain ⟨hraises, hover⟩ := ho
  have hg := getMonthlyUsage_grace c.before c.user c.now c.raises c.db
  unfold Check.answer checkExecutionLimit Check.inGrace
  simp only [hg]
  rw [if_neg (Int.not_lt.mpr hover), hraises]
  simp only [List.not_mem_nil, if_false]
  cases hget : get c.before.grace c.now c.user with
  | none => simp
  | some start =>
    cases client with
    | decoded => simp [fromisoformat, hst.within hget]
    | bytes => simp [fromisoformat]

theorem checks_graceExpires (hst : GraceExpires st) {ops : List Op} {c : Check}
    (hc : c ∈ checksOf client user st ops) : GraceExpires c.before := by
  induction ops generalizing st with
  | nil => cases hc
  | cons op ops ih =>
    have next := ih (hst.step client op)
    cases op with
    | check u limit t raises db =>
      simp only [checksOf] at hc
      split at hc
      · rcases List.mem_cons.mp hc with rfl | hc
        · exact hst
        · exact next hc
      · exact next hc
    | usage u t raises db => exact next hc
    | warm u t raises => exact next hc
    | increment u t raises stored => exact next hc

/-- The law holds of the calls of a run above the limit exactly when none is later
than a day after the first: then the key has vanished, and a new grace starts. A
client that returns bytes also needs that no call meets a grace key. -/
theorem graceThenBlock_iff (hr : Reachable client st) (user : UserId) (ops : List Op)
    (ho : ∀ c ∈ checksOf client user st ops, c.OverLimit) :
    GraceThenBlock client (checksOf client user st ops) ↔
      ∀ first ∈ (checksOf client user st ops).head?, ∀ c ∈ checksOf client user st ops,
        c.now ≤ first.now + days 1 ∧ ¬ (client = .bytes ∧ c.inGrace = true) := by
  unfold GraceThenBlock
  refine forall₂_congr fun first _ => forall₂_congr fun c hc => ?_
  rw [answer_of_overLimit (checks_graceExpires hr.graceExpires hc) (ho c hc)]
  by_cases hb : client = .bytes ∧ c.inGrace = true
  · simp [hb]
  · simp [hb]

/-- An empty Redis, and a user who has used 300 executions in January 1970. -/
def usedUp : State where
  usage _ := none
  grace _ := none
  usageMonthly user month := if user = 1 ∧ month = ⟨1970, 1, 1⟩ then some 300 else none

/-- Checks of user 1 against a limit of 300, at these hours. -/
def checksAt (hours : List Nat) : List Op :=
  hours.map fun n => .check 1 300 (seconds (3600 * n)) [] true

/-- 25 hours after the first call the user is allowed again. -/
theorem no_block_after_grace : Reachable .decoded usedUp ∧
    (∀ c ∈ checksOf .decoded 1 usedUp (checksAt [0, 25]), c.OverLimit) ∧
    ¬ GraceThenBlock .decoded (checksOf .decoded 1 usedUp (checksAt [0, 25])) :=
  ⟨⟨usedUp.usageMonthly, [], rfl⟩, by decide +kernel, by decide +kernel⟩

theorem graceThenBlock_within_day :
    GraceThenBlock .decoded (checksOf .decoded 1 usedUp (checksAt [0, 1, 23, 24])) :=
  (graceThenBlock_iff ⟨usedUp.usageMonthly, [], rfl⟩ 1 _ (by decide +kernel)).mpr
    (by decide +kernel)

/-! ## Decoded or bytes -/

section Clients

variable (st : State) (user : UserId) (now : Time) (raises : List Command)

/-- The limit check of `deliver_webhook_task`: whether the delivery goes on, `none` for an exception
that ends the job. -/
def limitCheck (client : Client) (userId : Option UserId) (redisClient : Bool) (monthlyLimit : Int) :
    Option Bool :=
  match userId with
  | none => some true
  | some user =>
      if redisClient ∧ 0 < monthlyLimit then
        (checkExecutionLimit st user now raises client monthlyLimit true).1.map Verdict.allowed
      else some true

/-- Both clients get the same answer, and none raises. -/
def ClientsAgree (limit : Int) (db : Bool) : Prop :=
  ∃ verdict st', checkExecutionLimit st user now raises .decoded limit db = (some verdict, st') ∧
    checkExecutionLimit st user now raises .bytes limit db = (some verdict, st')

/-- The check reads no grace key: the usage is below the limit, Redis does not answer, or there is
none. -/
def NoGraceRead (limit : Int) (db : Bool) : Prop :=
  ((getMonthlyUsage st user now raises db).1 : Int) < limit ∨ .getGrace ∈ raises ∨
    get st.grace now user = none

variable {st user now raises}

variable {limit : Int} {db : Bool}

theorem clientsAgree_iff_noGraceRead :
    ClientsAgree st user now raises limit db ↔ NoGraceRead st user now raises limit db := by
  have hg := getMonthlyUsage_grace st user now raises db
  unfold ClientsAgree NoGraceRead checkExecutionLimit
  simp only [hg]
  by_cases hlt : ((getMonthlyUsage st user now raises db).1 : Int) < limit
  · simp [hlt]
  by_cases hraise : .getGrace ∈ raises
  · simp [hlt, hraise]
  cases hget : get st.grace now user with
  | none =>
    simp only [hlt, hraise, if_false, or_true, iff_true]
    split <;> exact ⟨_, _, rfl, rfl⟩
  | some start => simp [hlt, hraise, fromisoformat]

theorem ClientsAgree.limitCheck (h : ClientsAgree st user now raises limit true)
    (redisClient : Bool) :
    (limitCheck st now raises .bytes (some user) redisClient limit).isSome = true := by
  obtain ⟨verdict, st', -, hbytes⟩ := h
  unfold Usage.limitCheck
  dsimp only
  split
  · rw [hbytes]
    rfl
  · rfl

/-- Both clients get the same answer, and the job of a worker gets through its check, exactly when no
grace key is read. -/
theorem clients_agree_iff :
    (ClientsAgree st user now raises limit db ∧ (db = true → ∀ redisClient,
      (limitCheck st now raises .bytes (some user) redisClient limit).isSome = true)) ↔
      NoGraceRead st user now raises limit db := by
  constructor
  · exact fun h => clientsAgree_iff_noGraceRead.mp h.1
  · intro h
    have hagree := clientsAgree_iff_noGraceRead.mpr h
    refine ⟨hagree, ?_⟩
    rintro rfl
    exact hagree.limitCheck

/-- User 1 in the first hour of a grace. -/
def inFirstHour : State := { usedUp with grace := put usedUp.grace 1 0 (some (days 1)) }

theorem bytes_end_the_job :
    (checkExecutionLimit inFirstHour 1 (seconds 3600) [] .decoded 300 true).1 =
      some ⟨true, true, true, 300⟩ ∧
    limitCheck inFirstHour (seconds 3600) [] .bytes (some 1) true 300 = none ∧
    ¬ ∀ (st : State) (user : UserId) (now : Time) (raises : List Command) (limit : Int) (db : Bool),
      ClientsAgree st user now raises limit db := by
  refine ⟨by decide +kernel, by decide +kernel, fun h => ?_⟩
  obtain ⟨verdict, st', -, hbytes⟩ := h inFirstHour 1 (seconds 3600) [] 300 true
  have hnone : (checkExecutionLimit inFirstHour 1 (seconds 3600) [] .bytes 300 true).1 = none := by
    decide +kernel
  rw [hbytes] at hnone
  cases hnone

end Clients

end CueApi.Usage
