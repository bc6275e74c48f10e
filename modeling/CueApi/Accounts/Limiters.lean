import Mathlib.Data.Rat.Floor
import CueApi.Accounts.RateLimit
import CueApi.Library.PyJson
import CueApi.Library.SortedWindow
import CueApi.Messages.Sending

/-! The sliding windows of `RateLimitMiddleware` and of `check_per_minute_rate_limit` on what their
Redis commands do to the sorted sets, with times as rationals. -/

namespace CueApi.Limiters

open Scheduler (Time UserId ApiError seconds)
open RateLimit (Bucket Credentials Verdict)
open PyJson (truncate)
open SortedWindow Expiring

variable (hashApiKey : List Char → String)

/-- A request to a path that is not exempt, with the exact time of which `now` holds the whole
microseconds. -/
structure Arrival extends RateLimit.Arrival hashApiKey where
  time : ℚ
  counted : RateLimit.exempt path = false
  whole : now = ⌊time * 1000000⌋

variable {hashApiKey}

/-! ## The middleware -/

def refuse (limit : Nat) (entries : List ℚ) (now : ℚ) : Verdict :=
  match entries.min? with
  | none => .limited limit 60 (truncate (now + 60))
  | some oldest => .limited limit (max 1 (truncate (60 - (now - oldest)))) (truncate (oldest + 60))

/-- `RateLimitMiddleware.dispatch`. -/
def dispatch (redis : Sets Bucket ℚ) (x : Arrival hashApiKey) : Verdict × Sets Bucket ℚ :=
  let now := x.time
  let key := x.bucket
  let redis := zremrangebyscore redis now key 0 (now - 60)
  let currentCount := zcard redis now key
  if x.rateLimit ≤ currentCount then (refuse x.rateLimit (zscores redis now key) now, redis)
  else
    (.allowed x.rateLimit (x.rateLimit - (currentCount + 1)) (truncate (now + 60)),
      expireAt (zadd redis now key now) now key (now + 70))

/-- Whether a request is let through. -/
def dispatchPasses (redis : Sets Bucket ℚ) (x : Arrival hashApiKey) : Bool × Sets Bucket ℚ :=
  ((dispatch redis x).1.passes, (dispatch redis x).2)

def Arrival.request (x : Arrival hashApiKey) : Request Bucket ℚ := ⟨x.bucket, x.rateLimit, x.time⟩

/-! ## Messages -/

/-- A user who sends a message, on a plan. -/
structure Sender where
  user : UserId
  plan : String
  time : ℚ
  deriving DecidableEq, Repr

/-- `check_per_minute_rate_limit`, under the keys `msg_ratelimit:{user_id}`. -/
def checkPerMinuteRateLimit (redis : Sets UserId ℚ) (x : Sender) :
    Except ApiError Unit × Sets UserId ℚ :=
  let limit := Messages.perMinuteByPlan x.plan
  let now := x.time
  let redis := zremrangebyscore redis now x.user 0 (now - 60)
  let count := zcard redis now x.user
  if limit ≤ count then (.error (Messages.rateLimitExceeded limit), redis)
  else (.ok (), expireAt (zadd redis now x.user now) now x.user (now + 120))

def checkPasses (redis : Sets UserId ℚ) (x : Sender) : Bool × Sets UserId ℚ :=
  ((checkPerMinuteRateLimit redis x).1.isOk, (checkPerMinuteRateLimit redis x).2)

def Sender.request (x : Sender) : Request UserId ℚ :=
  ⟨x.user, Messages.perMinuteByPlan x.plan, x.time⟩

/-! ## Both are limiters -/

def middlewareLimiter : Limiter ℚ := ⟨60, 70, by norm_num, by norm_num⟩

def messageLimiter : Limiter ℚ := ⟨60, 120, by norm_num, by norm_num⟩

theorem refuse_passes {limit : Nat} {entries : List ℚ} {now : ℚ} :
    (refuse limit entries now).passes = false := by
  unfold refuse
  split <;> rfl

theorem dispatchPasses_eq (redis : Sets Bucket ℚ) (x : Arrival hashApiKey) :
    dispatchPasses redis x = middlewareLimiter.check redis x.request := by
  rcases check_cases middlewareLimiter redis x.request with ⟨heq, hfull⟩ | ⟨heq, hroom⟩ <;> rw [heq]
  · have hdispatch : dispatch redis x = (refuse x.rateLimit _ x.time, _) := if_pos hfull
    unfold dispatchPasses
    rw [hdispatch, refuse_passes]
    rfl
  · have hdispatch : dispatch redis x = (.allowed x.rateLimit _ _, _) := if_neg (Nat.not_le.mpr hroom)
    unfold dispatchPasses
    rw [hdispatch]
    rfl

theorem checkPasses_eq (redis : Sets UserId ℚ) (x : Sender) :
    checkPasses redis x = messageLimiter.check redis x.request := by
  rcases check_cases messageLimiter redis x.request with ⟨heq, hfull⟩ | ⟨heq, hroom⟩ <;> rw [heq]
  · have hcheck : checkPerMinuteRateLimit redis x = (.error _, _) := if_pos hfull
    unfold checkPasses
    rw [hcheck]
    rfl
  · have hcheck : checkPerMinuteRateLimit redis x = (.ok (), _) := if_neg (Nat.not_le.mpr hroom)
    unfold checkPasses
    rw [hcheck]
    rfl

/-! ## Microseconds -/

/-- `RateLimit.dispatch` keeps its sets differently, but the scores that it reads are these. -/
def SameScores (redis : RateLimit.Redis) (s : Sets Bucket Time) (clock : Time) : Prop :=
  ∀ k t, clock ≤ t → RateLimit.scores redis k t = zscores s t k

def microLimiter : Limiter Time := ⟨seconds 60, seconds 70, by decide, by decide⟩

def microPasses (redis : RateLimit.Redis) (x : RateLimit.Arrival hashApiKey) :
    Bool × RateLimit.Redis :=
  ((RateLimit.dispatch redis x).1.passes, (RateLimit.dispatch redis x).2)

def microRequest (x : RateLimit.Arrival hashApiKey) : Request Bucket Time :=
  ⟨x.bucket, x.rateLimit, x.now⟩

variable {redis : RateLimit.Redis} {s : Sets Bucket Time} {clock : Time}
  {x : RateLimit.Arrival hashApiKey} {xs : List (RateLimit.Arrival hashApiKey)}

theorem scores_record_gone {k : Bucket} {score now t : Time} (h : ¬ t < now + seconds 70) :
    RateLimit.scores (RateLimit.record redis k score now) k t = [] := by
  unfold RateLimit.record RateLimit.scores Expiring.get put
  rw [Function.update_self]
  simp [Option.filter_some, Entry.live, h]

theorem SameScores.trim (h : SameScores redis s clock) (hc : clock ≤ x.now) :
    SameScores (RateLimit.trim redis x.bucket x.now)
      (zremrangebyscore s x.now x.bucket 0 (x.now - microLimiter.window)) x.now := by
  intro k t ht
  have hold := h k t (Int.le_trans hc ht)
  by_cases hk : k = x.bucket
  · subst hk
    rw [RateLimit.scores_trim_self ht, zscores_zremrangebyscore_self ht, hold]
    refine List.filter_congr fun y _ => ?_
    simp only [microLimiter, RateLimit.window]
    grind
  · rw [RateLimit.scores_trim_ne hk, zscores_zremrangebyscore_ne hk, hold]

theorem SameScores.record (h : SameScores redis s x.now) :
    SameScores (RateLimit.record redis x.bucket x.now x.now)
      (expireAt (zadd s x.now x.bucket x.now) x.now x.bucket (x.now + microLimiter.ttl)) x.now := by
  intro k t ht
  by_cases hk : k = x.bucket
  · subst hk
    rw [zscores_expireAt_self, ← h x.bucket x.now (Int.le_refl _)]
    split
    · rename_i hlive
      exact RateLimit.scores_record_self hlive
    · rename_i hgone
      exact scores_record_gone hgone
  · rw [RateLimit.scores_record_ne hk, zscores_expireAt_ne hk, h k t ht]

/-- One request, in whole microseconds. -/
theorem microPasses_eq (h : SameScores redis s clock) (hc : clock ≤ x.now)
    (hcounted : RateLimit.exempt x.path = false) :
    (microPasses redis x).1 = (microLimiter.check s (microRequest x)).1 ∧
      SameScores (microPasses redis x).2 (microLimiter.check s (microRequest x)).2 x.now := by
  have htrim := h.trim hc
  have hcard := congrArg List.length (htrim x.bucket x.now (Int.le_refl _))
  unfold microPasses
  rcases check_cases microLimiter s (microRequest x) with ⟨heq, hfull⟩ | ⟨heq, hroom⟩ <;> rw [heq]
  · have hcount := RateLimit.count_full hcounted (hfull.trans_eq hcard.symm)
    unfold RateLimit.dispatch
    rw [hcount]
    exact ⟨RateLimit.refuse_passes .., htrim⟩
  · have hcount := RateLimit.count_room hcounted (hcard.trans_lt hroom)
    unfold RateLimit.dispatch
    rw [hcount]
    exact ⟨rfl, htrim.record⟩

theorem decisions_microPasses (h : SameScores redis s clock)
    (hcounted : ∀ x ∈ xs, RateLimit.exempt x.path = false)
    (ht : Timely clock (xs.map microRequest)) :
    decisions microPasses redis xs = decisions microLimiter.check s (xs.map microRequest) := by
  induction xs generalizing redis s clock with
  | nil => rfl
  | cons x xs ih =>
    obtain ⟨hx, hcounted⟩ := List.forall_mem_cons.mp hcounted
    obtain ⟨hpasses, hscores⟩ := microPasses_eq h ht.1 hx
    rw [List.map_cons, decisions, decisions, hpasses, ih hscores hcounted ht.2]

/-- `RateLimit.dispatch` too lets a request through exactly when the last 60 seconds have room. -/
theorem microPasses_ideal (hcounted : ∀ x ∈ xs, RateLimit.exempt x.path = false)
    (ht : Timely 0 (xs.map microRequest)) :
    decisions microPasses (fun _ => none) xs = ideal (seconds 60) [] (xs.map microRequest) :=
  (decisions_microPasses (fun _ _ _ => rfl) hcounted ht).trans
    (decisions_eq keeps_start ht)

/-- Both decide as a limiter that looks at all that it let through in the last 60 seconds. -/
theorem limiters_exact :
    Exact 60 (@dispatchPasses hashApiKey) Arrival.request ∧
      Exact 60 checkPasses Sender.request :=
  ⟨middlewareLimiter.exact dispatchPasses_eq, messageLimiter.exact checkPasses_eq⟩

/-- Ten messages at one time fill the window of the free plan until 60 seconds later. -/
theorem limiters_exact_boundary :
    (checkPasses (after checkPasses (fun _ => none) (List.replicate 10 ⟨1, "free", 5⟩))
        ⟨1, "free", 65⟩).1 = true ∧
      (checkPasses (after checkPasses (fun _ => none) (List.replicate 10 ⟨1, "free", 5⟩))
        ⟨1, "free", 129 / 2⟩).1 ≠ true := by
  have hexact := (@limiters_exact fun _ => "").2
  constructor
  · exact (hexact (List.replicate 10 ⟨1, "free", 5⟩) ⟨1, "free", 65⟩ [] (by
      norm_num [List.replicate, Timely, Sender.request])).1.mpr (by decide +kernel)
  · exact mt (hexact (List.replicate 10 ⟨1, "free", 5⟩) ⟨1, "free", 129 / 2⟩ [] (by
      norm_num [List.replicate, Timely, Sender.request])).1.mp (by decide +kernel)

end CueApi.Limiters
