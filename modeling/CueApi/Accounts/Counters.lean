import CueApi.Library.FixedWindow
import CueApi.Messages.Sending

/-! `check_auth_rate_limit` of `app/utils/auth_rate_limit.py`, `check_priority_high_limits` of
`app/services/message_usage_service.py` and the limit of `_send_failure_email` in `worker/tasks.py`: their
counters under any interleaving of calls, errors and crashes. -/

namespace CueApi.Counters

open FixedWindow
open Messages (priorityHighRateLimit)
open Scheduler (ApiError)

/-! ## The limiters -/

/-- What the callers get. -/
inductive Outcome
  | allowed (b : Bool)
  | priority (effectivePriority : Int) (wasDowngraded : Bool)
  | refused (error : ApiError) (limit windowSeconds : Nat)
  | email (goesOut : Bool)
  | raised
  deriving DecidableEq, Repr

/-- Redis counts in milliseconds. -/
def seconds (n : Nat) : Nat := 1000 * n

def checkAuthRateLimit (key : String) (limit windowSeconds : Nat) : Limiter String Outcome where
  checks := [⟨key, limit, seconds windowSeconds, .allowed false⟩]
  passed := .allowed true
  failed := .raised

def priorityHighPerHourPerSender : Nat := 10

def priorityHighPerHourPerPair : Nat := 5

def checkPriorityHighLimits (userId fromAgentId toAgentId : String) (priority : Int) :
    Limiter String Outcome where
  checks :=
    if priority ≤ 3 then []
    else [⟨"msg_priority_high:" ++ userId, priorityHighPerHourPerSender, seconds 3600,
        .refused priorityHighRateLimit priorityHighPerHourPerSender 3600⟩,
      ⟨"msg_inbound_priority:" ++ fromAgentId ++ ":" ++ toAgentId, priorityHighPerHourPerPair,
        seconds 3600, .priority 3 true⟩]
  passed := .priority priority false
  failed := .priority priority false

/-- `_send_failure_email`, up to its email; `testCue` is `is_test_cue(cue_name)`. -/
def sendFailureEmail (userId : String) (testCue : Bool) : Limiter String Outcome where
  checks := if testCue then [] else [⟨"failure_email:" ++ userId, 10, seconds 3600, .email false⟩]
  passed := .email !testCue
  failed := .email false

inductive Request
  | auth (key : String) (limit windowSeconds : Nat)
  | priorityHigh (userId fromAgentId toAgentId : String) (priority : Int)
  | failureEmail (userId : String) (testCue : Bool)
  deriving DecidableEq, Repr

def Request.limiter : Request → Limiter String Outcome
  | .auth key limit windowSeconds => checkAuthRateLimit key limit windowSeconds
  | .priorityHigh userId fromAgentId toAgentId priority =>
      checkPriorityHighLimits userId fromAgentId toAgentId priority
  | .failureEmail userId testCue => sendFailureEmail userId testCue

/-- Of the calls that send a command, only those of the priority limiter go on when it raises. -/
theorem failsOpen_iff (r : Request) (h : r.limiter.checks ≠ []) :
    r.limiter.failed = r.limiter.passed ↔
      ∃ userId fromAgentId toAgentId priority, r = .priorityHigh userId fromAgentId toAgentId priority := by
  cases r with
  | auth key limit windowSeconds => simp [Request.limiter, checkAuthRateLimit]
  | priorityHigh userId fromAgentId toAgentId priority =>
    simp [Request.limiter, checkPriorityHighLimits]
  | failureEmail userId testCue =>
    cases testCue with
    | true => exact absurd rfl h
    | false => simp [Request.limiter, sendFailureEmail]

/-! ## Runs -/

abbrev Redis := State String Outcome

abbrev step : Redis → Event Request → Option Redis := FixedWindow.step Request.limiter

def start (now : Int) : Redis := { clock := now }

/-- At the end of the run the key has been left alone for a window, which is as long as any that the
calls gave it. -/
def LeftAlone (now : Int) (as : List (Event Request)) (s : Redis) (k : String) : Prop :=
  ∃ bs cs s₁, ∃ window : Nat, as = bs ++ cs ∧ Machine.run step (start now) bs = some s₁ ∧
    (∀ e ∈ bs, Fits Request.limiter k window e) ∧ ¬ Settling s₁.calls k ∧
    Machine.along step (fun s e => !touches k s e) s₁ cs = true ∧ s₁.clock + window ≤ s.clock

/-- What fixed windows are for. -/
structure Windowed (now : Int) (as : List (Event Request)) (s : Redis) : Prop where
  ttl : HasTtl s
  admits : ∀ k, LeftAlone now as s k → Admits Request.limiter s k
  limited : ∀ k window limit, (within s k window limit).length ≤ limit

variable {now : Int} {as : List (Event Request)} {s : Redis} {k : String}

theorem admits_leftAlone (hr : Machine.run step (start now) as = some s)
    (hsent : Machine.along step expireSent (start now) as = true) (hleft : LeftAlone now as s k) :
    Admits Request.limiter s k := by
  obtain ⟨bs, cs, s₁, window, rfl, hr₁, hfits, hno, halone, hw⟩ := hleft
  have httl : HasTtl s₁ := (hasTtl_iff hr).mpr hsent bs s₁ (List.prefix_append bs cs) hr₁
  have hbounded : Bounded k window s₁ := Bounded.run (bounded_start now) hfits hr₁
  rw [Machine.run_append, hr₁, Option.bind_some] at hr
  exact admits_of_gone (gone httl hbounded hno halone hr hw)

/-- The counters have their times to live exactly where none loses its EXPIRE; then, and where no
priority check meets an error of Redis, they are windows. What they let pass is never more than the
limit. -/
theorem counters_expire_iff (now : Int) (as : List (Event Request)) (s : Redis)
    (hr : Machine.run step (start now) as = some s) :
    ((∀ bs s₁, bs <+: as → Machine.run step (start now) bs = some s₁ → HasTtl s₁) ↔
      Machine.along step expireSent (start now) as = true) ∧
    (Machine.along step expireSent (start now) as = true →
      Machine.along step checked (start now) as = true → Windowed now as s) ∧
    ∀ k window limit, ((within s k window limit).filter fun p => p.count.isSome).length ≤ limit := by
  refine ⟨hasTtl_iff hr, fun hsent hchecked => ⟨?_, fun k => ?_, fun k window limit => ?_⟩, ?_⟩
  · exact (hasTtl_iff hr).mpr hsent as s (List.prefix_refl as) hr
  · exact admits_leftAlone hr hsent
  · exact within_le hr hchecked k window limit
  · exact (Inv.run (inv_start now) hr).limited

def echo : Request := .auth "echo_rl:203.0.113.7" 10 3600

/-- The process dies between the two commands. -/
def crashed : List (Event Request) := [.start 0 echo, .redis 0 .answered, .redis 0 (.died false)]

/-- Two calls each open a counter in turn, of which the first dies with its EXPIRE sent; then an INCR
raises, a message of high priority goes through its two counters, and an hour later the first key is
free again. -/
def interleaved : List (Event Request) :=
  [.start 0 echo, .start 1 (.failureEmail "7" false), .redis 0 .answered, .redis 1 .answered,
    .redis 0 (.died true), .redis 1 .answered, .start 2 echo, .start 3 (.priorityHigh "7" "1" "2" 4),
    .redis 3 .answered, .redis 2 (.raised true), .wait 1000, .redis 3 .answered, .redis 3 .answered,
    .redis 3 .answered, .wait (seconds 3600), .start 4 echo, .redis 4 .answered, .redis 4 .answered]

theorem counters_expire_interleaved : ∃ s, Machine.run step (start 0) interleaved = some s ∧
    Windowed 0 interleaved s ∧ s.ended = [(4, .allowed true), (3, .priority 4 false), (2, .raised),
      (1, .email true)] := by
  have hended : (Machine.run step (start 0) interleaved).map State.ended =
      some [(4, .allowed true), (3, .priority 4 false), (2, .raised), (1, .email true)] := by
    rfl
  obtain ⟨s, hs, hended⟩ := Option.map_eq_some_iff.mp hended
  exact ⟨s, hs, (counters_expire_iff 0 interleaved s hs).2.1 (by rfl) (by rfl), hended⟩

/-- The counter stays for good. -/
theorem not_windowed_crashed : ¬ ∀ now as s, Machine.run step (start now) as = some s →
    Windowed now as s := by
  intro h
  obtain ⟨s, hs⟩ : ∃ s, Machine.run step (start 0) crashed = some s := ⟨_, rfl⟩
  have hsent := (hasTtl_iff hs).mp fun bs s₁ _ hr => (h 0 bs s₁ hr).ttl
  exact Bool.false_ne_true hsent

end CueApi.Counters
