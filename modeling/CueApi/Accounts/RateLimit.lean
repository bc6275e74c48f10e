import Mathlib.Data.List.Infix
import Mathlib.Data.List.Perm.Basic
import CueApi.Accounts.KeyRotation
import CueApi.Library.SlidingWindow

/-! `RateLimitMiddleware` of `app/middleware/rate_limit.py` with `INTERNAL_AUTH_TOKEN` unset and
Redis at hand, over the requests of any clients. A request counts in one round trip to Redis and is
recorded in another, and others may come in between. The usage warning on the responses of users in
the cache is left out. -/

namespace CueApi.RateLimit

open Scheduler (Time seconds)
open KeyRotation (AuthenticatedUser)
open Expiring SlidingWindow

def exemptPaths : List String :=
  ["/health", "/status", "/v1/info", "/docs", "/openapi.json", "/redoc", "/v1/billing/webhook",
    "/auth/device", "/v1/auth/verify", "/v1/internal/deploy-hook"]

def exemptPrefixes : List String := ["/v1/blog/", "/v1/internal/"]

def defaultRateLimit : Nat := 60

def exempt (path : String) : Bool :=
  path ∈ exemptPaths || exemptPrefixes.any fun p => p.toList.isPrefixOf path.toList

/-- The white space that `str.strip` takes off a header, whose characters are below 256. -/
def pySpace (c : Char) : Bool := c.toNat ∈ [9, 10, 11, 12, 13, 28, 29, 30, 31, 32, 133, 160]

def strip (s : List Char) : List Char := ((s.dropWhile pySpace).reverse.dropWhile pySpace).reverse

def bearer : List Char := "Bearer ".toList

def cueSk : List Char := "cue_sk_".toList

/-- The text after `Bearer `. -/
def token (authorization : Option String) : Option (List Char) :=
  let header := (authorization.getD "").toList
  if bearer <+: header then some (strip (header.drop bearer.length)) else none

/-- The API key for which the middleware takes the header. -/
def presented (authorization : Option String) : Option (List Char) :=
  if cueSk <:+: (authorization.getD "").toList then token authorization else none

-- the hexadecimal SHA-256 of a key
variable (hashApiKey : List Char → String)

/-- What `get_current_user` consults: the cache `auth:` in Redis, the users by the hash of their
key, and the users of valid session tokens. Only API keys are cached. -/
structure Credentials where
  authCache : String → Option AuthenticatedUser
  users : String → Option AuthenticatedUser
  sessions : List Char → Option AuthenticatedUser
  cached : ∀ key, (authCache (hashApiKey key)).isSome → cueSk <+: key

variable {hashApiKey}

/-- `get_current_user`; a missing header is none that starts with `Bearer `. -/
def Credentials.getCurrentUser (creds : Credentials hashApiKey) (authorization : Option String) :
    Option AuthenticatedUser :=
  (token authorization).bind fun key =>
    if cueSk <+: key then
      (creds.authCache (hashApiKey key)).or (creds.users (hashApiKey key))
    else creds.sessions key

variable (hashApiKey)

/-- The keys `ratelimit:{key_hash}` and `ratelimit:ip:{client_ip}`. -/
inductive Bucket
  | key (hash : String)
  | ip (client : String)
  deriving DecidableEq, Repr

def bucketOf (client : String) (authorization : Option String) : Bucket :=
  match presented authorization with
  | some key => .key (hashApiKey key)
  | none => .ip client

/-- A request, with the clock of the middleware. -/
structure Arrival where
  client : Option String
  authorization : Option String
  path : String
  now : Time
  creds : Credentials hashApiKey

variable {hashApiKey}

/-- `request.client.host`. -/
def Arrival.clientIp (x : Arrival hashApiKey) : String := x.client.getD "unknown"

def Arrival.bucket (x : Arrival hashApiKey) : Bucket :=
  bucketOf hashApiKey x.clientIp x.authorization

def Arrival.rateLimit (x : Arrival hashApiKey) : Nat :=
  match (presented x.authorization).bind fun key => x.creds.authCache (hashApiKey key) with
  | some user => user.rateLimitPerMinute
  | none => defaultRateLimit

/-- The sorted sets, by the scores of their members, which are all different. -/
abbrev Redis := Store Bucket (List Time) Time

def window : Time := seconds 60

/-- `ZREMRANGEBYSCORE key 0 now-60`. -/
def trim (redis : Redis) (k : Bucket) (now : Time) : Redis :=
  Function.update redis k (((redis k).filter (Entry.live now)).map fun en =>
    { en with value := en.value.filter fun x => x < 0 || now - window < x })

/-- The scores under a key; a key that is not there counts as empty. -/
def scores (redis : Redis) (k : Bucket) (now : Time) : List Time := (get redis now k).getD []

/-- `ZADD key score` and `EXPIRE key 70`. -/
def record (redis : Redis) (k : Bucket) (score now : Time) : Redis :=
  put redis k (score :: scores redis k now) (some (now + seconds 70))

inductive Verdict
  | exempt
  | allowed (limit remaining : Nat) (resetAt : Int)
  | limited (limit : Nat) (retryAfter resetAt : Int)
  deriving DecidableEq, Repr

/-- The 429, by the oldest entry: `int` cuts off the fraction. -/
def refuse (limit : Nat) (entries : List Time) (now : Time) : Verdict :=
  match entries.min? with
  | none => .limited limit 60 ((now + window).tdiv (seconds 1))
  | some oldest => .limited limit (max 1 ((window - (now - oldest)).tdiv (seconds 1)))
      ((oldest + window).tdiv (seconds 1))

/-- The first round trip: the number of requests in the window, or an answer at once. -/
def count (redis : Redis) (x : Arrival hashApiKey) : Except Verdict Nat × Redis :=
  if exempt x.path then (.error .exempt, redis)
  else
    let redis := trim redis x.bucket x.now
    let entries := scores redis x.bucket x.now
    if x.rateLimit ≤ entries.length then (.error (refuse x.rateLimit entries x.now), redis)
    else (.ok entries.length, redis)

/-- `RateLimitMiddleware.dispatch`, when nobody comes between its round trips. -/
def dispatch (redis : Redis) (x : Arrival hashApiKey) : Verdict × Redis :=
  match count redis x with
  | (.error verdict, redis) => (verdict, redis)
  | (.ok currentCount, redis) =>
      (.allowed x.rateLimit (x.rateLimit - (currentCount + 1)) ((x.now + window).tdiv (seconds 1)),
        record redis x.bucket x.now x.now)

def Verdict.passes : Verdict → Bool
  | .allowed .. => true
  | _ => false

/-! ## Runs -/

variable (hashApiKey)

/-- `waiting` are the requests that have counted and are not recorded yet, `passed` those to paths
that are not exempt that the middleware has let through, latest first. -/
structure State where
  redis : Redis
  clock : Time
  waiting : List (Arrival hashApiKey)
  passed : List (Arrival hashApiKey)

/-- A request reads the clock and counts, one that waits is recorded, or its client is gone. -/
inductive Action
  | count (x : Arrival hashApiKey)
  | record (i : Nat) (now : Time)
  | drop (i : Nat)

variable {hashApiKey}

/-- There is one clock, which does not go back. -/
def step (s : State hashApiKey) : Action hashApiKey → Option (State hashApiKey)
  | .count x =>
      if x.now < s.clock then none
      else
        let (result, redis) := count s.redis x
        some { s with
          redis := redis
          clock := x.now
          waiting := if result.isOk then x :: s.waiting else s.waiting }
  | .record i now =>
      if now < s.clock then none
      else s.waiting[i]?.map fun x =>
        { redis := record s.redis x.bucket x.now now
          clock := now
          waiting := s.waiting.eraseIdx i
          passed := x :: s.passed }
  | .drop i => some { s with waiting := s.waiting.eraseIdx i }

def start (redis : Redis) (clock : Time) : State hashApiKey := ⟨redis, clock, [], []⟩

/-- The times of the requests of the client that have passed, by the clock that they read. -/
def State.passes (s : State hashApiKey) (client : String) : List Time :=
  (s.passed.filter fun x => x.clientIp = client).map Arrival.now

def State.idle (s : State hashApiKey) (client : String) : Bool :=
  s.waiting.all fun x => x.clientIp ≠ client

/-- To a path that is not exempt, the client sends only headers among these, none that
authenticates, and, unless its requests may overlap, only when none of them waits. -/
def anonymous (client : String) (headers : Option String → Bool) (overlapping : Bool)
    (s : State hashApiKey) : Action hashApiKey → Bool
  | .count x => x.clientIp ≠ client || exempt x.path ||
      (headers x.authorization && (x.creds.getCurrentUser x.authorization).isNone &&
        (overlapping || s.idle client))
  | _ => true

variable (hashApiKey)

/-- Whatever Redis holds at the start and whoever else sends requests: with these headers, at most
`DEFAULT_RATE_LIMIT` requests of the client pass in any window of 60 seconds. -/
def Bounded (client : String) (headers : Option String → Bool) (overlapping : Bool) : Prop :=
  ∀ (redis : Redis) (clock : Time) (as : List (Action hashApiKey)) (s : State hashApiKey),
    Machine.run step (start redis clock) as = some s →
    Machine.along step (anonymous client headers overlapping) (start redis clock) as = true →
    ∀ t, hits window t (s.passes client) ≤ defaultRateLimit

variable {hashApiKey} {redis : Redis} {k b : Bucket} {now score t : Time} {client : String}
  {headers : Option String → Bool} {overlapping : Bool} {x : Arrival hashApiKey}
  {a : Action hashApiKey} {s s' : State hashApiKey}

/-! ## The sorted sets -/

theorem live_mono {en : Entry (List Time) Time} (h : now ≤ t) (hl : en.live t = true) :
    en.live now = true := by
  unfold Entry.live at hl ⊢
  cases he : en.expires with
  | none => rfl
  | some e =>
    rw [he] at hl
    have hlt : t < e := of_decide_eq_true hl
    exact decide_eq_true (Int.lt_of_le_of_lt h hlt)

theorem live_value (en : Entry (List Time) Time) (v : List Time) :
    Entry.live t ⟨v, en.expires⟩ = Entry.live t en := rfl

theorem scores_trim_self (h : now ≤ t) : scores (trim redis k now) k t =
    (scores redis k t).filter fun x => x < 0 || now - window < x := by
  unfold scores Expiring.get trim
  rw [Function.update_self]
  cases hk : redis k with
  | none => rfl
  | some en =>
    by_cases hl : en.live t = true
    · simp [Option.filter_some, live_value, live_mono h hl, hl]
    · by_cases hn : en.live now = true
      · simp [Option.filter_some, live_value, hn, hl]
      · simp [Option.filter_some, hn, hl]

theorem scores_trim_ne (h : b ≠ k) : scores (trim redis k now) b t = scores redis b t := by
  unfold scores Expiring.get trim
  rw [Function.update_of_ne h]

theorem scores_record_self (h : t < now + seconds 70) :
    scores (record redis k score now) k t = score :: scores redis k now := by
  unfold record
  rw [scores, get_put_self h, Option.getD_some]

theorem scores_record_ne (h : b ≠ k) :
    scores (record redis k score now) b t = scores redis b t := by
  unfold record put scores Expiring.get
  rw [Function.update_of_ne h]

/-- A set stays until it vanishes. -/
theorem recent_scores_le (h : now ≤ t) :
    recent window t (scores redis b t) ≤ recent window t (scores redis b now) := by
  unfold scores Expiring.get
  cases hb : redis b with
  | none => exact Nat.le_refl _
  | some en =>
    by_cases hl : en.live t = true
    · rw [Option.filter_some, Option.filter_some, if_pos hl, if_pos (live_mono h hl)]
    · rw [Option.filter_some, if_neg hl]
      exact Nat.zero_le _

variable {log : List Time}

theorem recorded_trim {now' : Time} (h : Tracks window defaultRateLimit log now (scores redis b ·))
    (hn : now ≤ now') (t : Time) (ht : now' ≤ t) :
    recent window t log ≤ recent window t (scores (trim redis k now') b t) := by
  have hrec := h.recorded t (Int.le_trans hn ht)
  by_cases hk : b = k
  · subst hk
    rw [scores_trim_self ht, recent_filter (fun x hx => by simp [hx]) ht]
    exact hrec
  · rw [scores_trim_ne hk]
    exact hrec

/-- The set has the new request as long as it counts. -/
theorem recorded_record {now' : Time}
    (h : Tracks window defaultRateLimit log now (scores redis b ·)) (hn : now ≤ now')
    (hscore : score ≤ now') (t : Time) (ht : now' ≤ t) :
    recent window t (score :: log) ≤ recent window t (scores (record redis b score now') b t) := by
  by_cases hlive : t < now' + seconds 70
  · have hrec := h.recorded t (Int.le_trans hn ht)
    have hle := @recent_scores_le redis b now' t ht
    rw [scores_record_self hlive, recent_cons, recent_cons]
    omega
  · -- what the set has lost is older than the window
    have hold : recent window t (score :: log) = 0 := by
      have hgone : now' + window ≤ t :=
        Int.le_trans (Int.add_le_add_left (by decide) now') (Int.not_lt.mp hlive)
      have hpast : ∀ y ∈ score :: log, y ≤ now' :=
        List.forall_mem_cons.mpr ⟨hscore, fun y hy => Int.le_trans (h.past y hy) hn⟩
      refine recent_eq_zero fun y hy => Int.le_sub_right_of_add_le ?_
      exact Int.le_trans (Int.add_le_add_right (hpast y hy) window) hgone
    rw [hold]
    exact Nat.zero_le _

/-! ## One step -/

theorem count_exempt (he : exempt x.path = true) : count redis x = (.error .exempt, redis) :=
  if_pos he

theorem count_full (he : exempt x.path = false)
    (hfull : x.rateLimit ≤ (scores (trim redis x.bucket x.now) x.bucket x.now).length) :
    count redis x = (.error (refuse x.rateLimit
      (scores (trim redis x.bucket x.now) x.bucket x.now) x.now), trim redis x.bucket x.now) :=
  (if_neg (Bool.eq_false_iff.mp he)).trans (if_pos hfull)

theorem count_room (he : exempt x.path = false)
    (hroom : (scores (trim redis x.bucket x.now) x.bucket x.now).length < x.rateLimit) :
    count redis x = (.ok (scores (trim redis x.bucket x.now) x.bucket x.now).length,
      trim redis x.bucket x.now) :=
  (if_neg (Bool.eq_false_iff.mp he)).trans (if_neg (Nat.not_le.mpr hroom))

theorem refuse_passes (limit : Nat) (entries : List Time) (now : Time) :
    (refuse limit entries now).passes = false := by
  unfold refuse
  split <;> rfl

/-- What a step does: a request on an exempt path leaves Redis alone, another one trims its set and
waits when there is room; one that waits is recorded and passes, or goes. -/
inductive Stepped (s : State hashApiKey) : Action hashApiKey → State hashApiKey → Prop
  | exempt (x : Arrival hashApiKey) (hclock : s.clock ≤ x.now) (he : exempt x.path = true) :
      Stepped s (.count x) { s with clock := x.now }
  | limited (x : Arrival hashApiKey) (hclock : s.clock ≤ x.now) (he : exempt x.path = false) :
      Stepped s (.count x) { s with
        redis := trim s.redis x.bucket x.now
        clock := x.now }
  | room (x : Arrival hashApiKey) (hclock : s.clock ≤ x.now) (he : exempt x.path = false)
      (hlt : (scores (trim s.redis x.bucket x.now) x.bucket x.now).length < x.rateLimit) :
      Stepped s (.count x) { s with
        redis := trim s.redis x.bucket x.now
        clock := x.now
        waiting := x :: s.waiting }
  | record (i : Nat) (now : Time) (x : Arrival hashApiKey) (hclock : s.clock ≤ now)
      (hx : s.waiting[i]? = some x) :
      Stepped s (.record i now) {
        redis := record s.redis x.bucket x.now now
        clock := now
        waiting := s.waiting.eraseIdx i
        passed := x :: s.passed }
  | drop (i : Nat) : Stepped s (.drop i) { s with waiting := s.waiting.eraseIdx i }

theorem step_cases (h : step s a = some s') : Stepped s a s' := by
  cases a with
  | count x =>
    simp only [step] at h
    split at h
    · cases h
    · rename_i hclock
      have hclock := Int.not_lt.mp hclock
      by_cases he : exempt x.path = true
      · rw [count_exempt he] at h
        cases h
        exact .exempt x hclock he
      · have he := Bool.eq_false_iff.mpr he
        rcases Nat.lt_or_ge (scores (trim s.redis x.bucket x.now) x.bucket x.now).length
          x.rateLimit with hroom | hfull
        · rw [count_room he hroom] at h
          cases h
          exact .room x hclock he hroom
        · rw [count_full he hfull] at h
          cases h
          exact .limited x hclock he
  | record i now =>
    simp only [step] at h
    split at h
    · cases h
    · rename_i hclock
      obtain ⟨x, hx, rfl⟩ := Option.map_eq_some_iff.mp h
      exact .record i now x (Int.not_lt.mp hclock) hx
  | drop i =>
    cases h
    exact .drop i

/-- A header in the cache authenticates. -/
theorem rateLimit_anonymous (h : x.creds.getCurrentUser x.authorization = none) :
    x.rateLimit = defaultRateLimit := by
  unfold Arrival.rateLimit
  split
  · rename_i user huser
    obtain ⟨key, hkey, hcache⟩ := Option.bind_eq_some_iff.mp huser
    have htoken : token x.authorization = some key := by
      unfold presented at hkey
      split at hkey
      · exact hkey
      · cases hkey
    have hprefix := x.creds.cached key (by rw [hcache]; rfl)
    simp [Credentials.getCurrentUser, htoken, hprefix, hcache] at h
  · rfl

theorem passes_cons (redis : Redis) (clock : Time) (waiting passed : List (Arrival hashApiKey)) :
    State.passes ⟨redis, clock, waiting, x :: passed⟩ client =
      if x.clientIp = client then x.now :: State.passes ⟨redis, clock, waiting, passed⟩ client
      else State.passes ⟨redis, clock, waiting, passed⟩ client := by
  by_cases hx : x.clientIp = client <;> simp [State.passes, hx]

/-! ## One bucket, one request at a time -/

/-- The set `b` tracks the requests of the client, and the one that waits, if any, has found room. -/
structure Tracked (client : String) (b : Bucket) (s : State hashApiKey) : Prop where
  tracks : Tracks window defaultRateLimit (s.passes client) s.clock (scores s.redis b ·)
  past : ∀ x ∈ s.waiting, x.now ≤ s.clock
  room : ∀ x ∈ s.waiting, x.clientIp = client →
    x.bucket = b ∧ recent window x.now (s.passes client) < defaultRateLimit
  alone : (s.waiting.countP fun x => x.clientIp = client) ≤ 1

theorem Tracked.start (redis : Redis) (clock : Time) :
    Tracked client b (@start hashApiKey redis clock) where
  tracks := Tracks.nil
  past x hx := by cases hx
  room x hx := by cases hx
  alone := Nat.zero_le _

/-- Time passes. -/
theorem Tracked.tick (hs : Tracked client b s) (hclock : s.clock ≤ now) :
    Tracked client b { s with clock := now } where
  tracks := hs.tracks.keep hclock fun t ht => hs.tracks.recorded t (Int.le_trans hclock ht)
  past x hx := Int.le_trans (hs.past x hx) hclock
  room := hs.room
  alone := hs.alone

theorem Tracked.trim (hs : Tracked client b s) (hclock : s.clock ≤ now) :
    Tracked client b { s with redis := trim s.redis k now, clock := now } where
  tracks := hs.tracks.keep hclock (recorded_trim hs.tracks hclock)
  past := (hs.tick hclock).past
  room := hs.room
  alone := hs.alone

/-- What the trimmed set holds bounds what has passed in the last 60 seconds. -/
theorem Tracked.found (hs : Tracked client b s) (hclock : s.clock ≤ now) :
    recent window now (s.passes client) ≤ (scores (RateLimit.trim s.redis b now) b now).length :=
  Nat.le_trans ((hs.trim (k := b) hclock).tracks.recorded now (Int.le_refl now))
    List.countP_le_length

/-- A request has counted: another client's, or the client's with no other under way. -/
theorem Tracked.wait (hs : Tracked client b s) (hpast : x.now ≤ s.clock)
    (hx : x.clientIp = client → s.idle client = true ∧ x.bucket = b ∧
      recent window x.now (s.passes client) < defaultRateLimit) :
    Tracked client b { s with waiting := x :: s.waiting } where
  tracks := hs.tracks
  past := List.forall_mem_cons.mpr ⟨hpast, hs.past⟩
  room := List.forall_mem_cons.mpr ⟨fun hclient => (hx hclient).2, hs.room⟩
  alone := by
    by_cases hclient : x.clientIp = client
    · have hidle := (hx hclient).1
      have hzero : (s.waiting.countP fun y => y.clientIp = client) = 0 :=
        List.countP_eq_zero.mpr fun y hy => by
          simpa using List.all_eq_true.mp hidle y hy
      rw [List.countP_cons_of_pos (by simpa using hclient), hzero]
    · rw [List.countP_cons_of_neg (by simpa using hclient)]
      exact hs.alone

theorem Tracked.drop (hs : Tracked client b s) (i : Nat) :
    Tracked client b { s with waiting := s.waiting.eraseIdx i } where
  tracks := hs.tracks
  past x hx := hs.past x (List.mem_of_mem_eraseIdx hx)
  room x hx := hs.room x (List.mem_of_mem_eraseIdx hx)
  alone := Nat.le_trans (List.eraseIdx_sublist _ _).countP_le hs.alone

/-- Without the one that waits, nobody of the client does. -/
theorem none_waits {i : Nat} {waiting : List (Arrival hashApiKey)}
    (halone : (waiting.countP fun x => x.clientIp = client) ≤ 1) (hx : waiting[i]? = some x)
    (hclient : x.clientIp = client) : ∀ y ∈ waiting.eraseIdx i, y.clientIp ≠ client := by
  obtain ⟨hi, rfl⟩ := List.getElem?_eq_some_iff.mp hx
  have hperm := List.getElem_cons_eraseIdx_perm hi
  rw [← hperm.countP_eq, List.countP_cons_of_pos (by simpa using hclient)] at halone
  have hzero : ((waiting.eraseIdx i).countP fun x => x.clientIp = client) = 0 := by omega
  simpa using List.countP_eq_zero.mp hzero

theorem Tracked.record {i : Nat} (hs : Tracked client b s) (hclock : s.clock ≤ now)
    (hx : s.waiting[i]? = some x) :
    Tracked client b ⟨record s.redis x.bucket x.now now, now, s.waiting.eraseIdx i, x :: s.passed⟩
    := by
  have hmem := List.mem_of_getElem? hx
  have hnow := Int.le_trans (hs.past x hmem) hclock
  have hrest := (hs.drop i).tick hclock
  by_cases hclient : x.clientIp = client
  · obtain ⟨rfl, hlt⟩ := hs.room x hmem hclient
    refine ⟨?_, hrest.past, fun y hy hy' => ?_, hrest.alone⟩
    · rw [passes_cons, if_pos hclient]
      exact hs.tracks.admit hclock hnow hlt (recorded_record hs.tracks hclock hnow)
    · exact absurd hy' (none_waits hs.alone hx hclient y hy)
  · refine ⟨?_, hrest.past, fun y hy hy' => ?_, hrest.alone⟩
    · rw [passes_cons, if_neg hclient]
      refine hs.tracks.keep hclock fun t ht => ?_
      by_cases hbucket : b = x.bucket
      · -- one more entry in the set
        subst hbucket
        have hrec := recorded_record hs.tracks hclock hnow t ht
        rw [recent_cons] at hrec
        exact Nat.le_trans (Nat.le_add_right _ _) hrec
      · rw [scores_record_ne hbucket]
        exact hs.tracks.recorded t (Int.le_trans hclock ht)
    · rw [passes_cons, if_neg hclient]
      exact hrest.room y hy hy'

theorem Tracked.after
    (hb : ∀ h, headers h = true → overlapping = false ∧ bucketOf hashApiKey client h = b)
    (hs : Tracked client b s) (hc : anonymous client headers overlapping s a = true)
    (h : step s a = some s') : Tracked client b s' := by
  cases step_cases h with
  | exempt x hclock he => exact hs.tick hclock
  | limited x hclock he => exact hs.trim hclock
  | room x hclock he hlt =>
    refine (hs.trim (k := x.bucket) hclock).wait (Int.le_refl _) fun hclient => ?_
    simp only [anonymous, hclient, he, ne_eq, not_true_eq_false, decide_false, Bool.false_or,
      Bool.and_eq_true, Option.isNone_iff_eq_none] at hc
    obtain ⟨⟨hheader, hnobody⟩, hidle⟩ := hc
    obtain ⟨hserial, hone⟩ := hb _ hheader
    have hbucket : x.bucket = b := by
      unfold Arrival.bucket
      rw [hclient]
      exact hone
    rw [hserial, Bool.false_or] at hidle
    refine ⟨hidle, hbucket, ?_⟩
    rw [hbucket, rateLimit_anonymous hnobody] at hlt
    exact Nat.lt_of_le_of_lt (hs.found hclock) hlt
  | record i now x hclock hx => exact hs.record hclock hx
  | drop i => exact hs.drop i

theorem bounded_of_one
    (hb : ∀ h, headers h = true → overlapping = false ∧ bucketOf hashApiKey client h = b) :
    Bounded hashApiKey client headers overlapping := by
  intro redis clock as s hr ha
  have hs : Tracked client b s :=
    Machine.invariant (.start redis clock) (fun _ _ _ hs hc h => hs.after hb hc h) hr ha
  exact hs.tracks.bounded

/-! ## Bursts -/

/-- Nobody is known. -/
def nobody : Credentials hashApiKey where
  authCache _ := none
  users _ := none
  sessions _ := none
  cached _ h := by cases h

/-- A request for the cues, at the instant 0. -/
def cues (client : String) (authorization : Option String) : Arrival hashApiKey :=
  ⟨some client, authorization, "/v1/cues", 0, nobody⟩

theorem cues_exempt (h : Option String) :
    exempt (@cues hashApiKey client h).path = false := by
  change exempt "/v1/cues" = false
  decide +kernel

theorem cues_anonymous (h : Option String) :
    (@cues hashApiKey client h).creds.getCurrentUser h = none := by
  unfold Credentials.getCurrentUser cues nobody
  cases token h with
  | none => rfl
  | some key => simp

theorem anonymous_cues {h : Option String} (hh : headers h = true)
    (hidle : (overlapping || s.idle client) = true) :
    anonymous client headers overlapping s (.count (cues client h)) = true := by
  have hnone := @cues_anonymous hashApiKey client h
  simp only [anonymous, Bool.or_eq_true, Bool.and_eq_true]
  exact .inr ⟨⟨hh, Option.isNone_iff_eq_none.mpr hnone⟩, Bool.or_eq_true_iff.mp hidle⟩

/-- With fewer than sixty entries in its set a request waits. -/
theorem step_cues {h : Option String} {n : Nat} (hclock : s.clock = 0)
    (hset : scores s.redis (bucketOf hashApiKey client h) 0 = List.replicate n 0)
    (hn : n < defaultRateLimit) : ∃ redis,
      step s (.count (cues client h)) = some ⟨redis, 0, cues client h :: s.waiting, s.passed⟩ ∧
      ∀ k, scores redis k 0 = scores s.redis k 0 := by
  let x : Arrival hashApiKey := cues client h
  have hlimit : x.rateLimit = defaultRateLimit := rateLimit_anonymous (cues_anonymous h)
  have hbucket : x.bucket = bucketOf hashApiKey client h := rfl
  have htrim : scores (trim s.redis x.bucket 0) x.bucket 0 = scores s.redis x.bucket 0 := by
    rw [scores_trim_self (Int.le_refl 0), hbucket, hset]
    exact List.filter_eq_self.mpr fun y hy => by
      rw [List.eq_of_mem_replicate hy]
      rfl
  refine ⟨trim s.redis x.bucket 0, ?_, fun k => ?_⟩
  · have hnow : ¬ x.now < s.clock := by
      rw [hclock]
      exact Int.lt_irrefl 0
    have hroom : (scores (trim s.redis x.bucket x.now) x.bucket x.now).length < x.rateLimit := by
      change (scores (trim s.redis x.bucket 0) x.bucket 0).length < x.rateLimit
      rw [htrim, hlimit, hbucket, hset, List.length_replicate]
      exact hn
    change step s (.count x) = _
    rw [step, if_neg hnow, count_room (cues_exempt h) hroom]
    rfl
  · by_cases hk : k = x.bucket
    · rw [hk, htrim]
    · exact scores_trim_ne hk

theorem step_record {h : Option String} {rest : List (Arrival hashApiKey)} (hclock : s.clock = 0)
    (hwait : s.waiting = cues client h :: rest) :
    step s (.record 0 0) = some ⟨record s.redis (bucketOf hashApiKey client h) 0 0, 0, rest,
      cues client h :: s.passed⟩ := by
  have hnow : ¬ (0 : Time) < s.clock := by
    rw [hclock]
    exact Int.lt_irrefl 0
  simp only [step, if_neg hnow, hwait, List.getElem?_cons_zero, Option.map_some,
    List.eraseIdx_cons_zero]
  rfl

theorem passes_cues {h : Option String} (redis : Redis) (clock : Time)
    (waiting passed : List (Arrival hashApiKey)) :
    State.passes ⟨redis, clock, waiting, cues client h :: passed⟩ client =
      0 :: State.passes ⟨redis, clock, waiting, passed⟩ client := by
  have hclient : (@cues hashApiKey client h).clientIp = client := rfl
  rw [passes_cons, if_pos hclient]
  rfl

variable (hashApiKey) in
/-- Nothing has happened, and Redis is empty. -/
def quiet : State hashApiKey := start (fun _ => none) 0

variable (hashApiKey) in
/-- Requests one after the other. -/
def visits (client : String) (hs : List (Option String)) : List (Action hashApiKey) :=
  hs.flatMap fun h => [.count (cues client h), .record 0 0]

/-- One more request in a set that has room. -/
theorem run_visit {h : Option String} {n : Nat} (hh : headers h = true) (hclock : s.clock = 0)
    (hidle : s.waiting = []) (hn : n < defaultRateLimit)
    (hset : scores s.redis (bucketOf hashApiKey client h) 0 = List.replicate n 0) :
    ∃ s', Machine.run step s (visits hashApiKey client [h]) = some s' ∧
      Machine.along step (anonymous client headers overlapping) s
        (visits hashApiKey client [h]) = true ∧
      s'.clock = 0 ∧ s'.waiting = [] ∧ s'.passes client = 0 :: s.passes client ∧
      scores s'.redis (bucketOf hashApiKey client h) 0 = List.replicate (n + 1) 0 ∧
      ∀ k, k ≠ bucketOf hashApiKey client h → scores s'.redis k 0 = scores s.redis k 0 := by
  obtain ⟨redis, hcount, hsame⟩ := step_cues hclock hset hn
  have hrecord := @step_record _ client
    ⟨redis, 0, cues client h :: s.waiting, s.passed⟩ h s.waiting rfl rfl
  have hfree : (overlapping || s.idle client) = true := by
    rw [State.idle, hidle, List.all_nil, Bool.or_true]
  let s' : State hashApiKey := ⟨record redis (bucketOf hashApiKey client h) 0 0, 0, s.waiting,
    cues client h :: s.passed⟩
  refine ⟨s', ?_, ?_, rfl, hidle, passes_cues _ _ _ _, ?_, fun k hk => ?_⟩
  · exact Machine.run_cons.mpr ⟨_, hcount, Machine.run_cons.mpr ⟨_, hrecord, rfl⟩⟩
  · refine (Machine.along_cons hcount).mpr ⟨anonymous_cues hh hfree, ?_⟩
    exact (Machine.along_cons hrecord).mpr ⟨rfl, rfl⟩
  · rw [scores_record_self (by decide), hsame, hset]
    rfl
  · rw [scores_record_ne hk, hsame]

/-- Of requests of one bucket, one after the other, the first sixty pass, and the other sets stay
empty. -/
theorem run_visits {h : Option String} {n : Nat} (hh : headers h = true)
    (hn : n ≤ defaultRateLimit) : ∃ s,
      Machine.run step (quiet hashApiKey) (visits hashApiKey client (List.replicate n h)) = some s ∧
      Machine.along step (anonymous client headers overlapping) (quiet hashApiKey)
        (visits hashApiKey client (List.replicate n h)) = true ∧
      s.clock = 0 ∧ s.waiting = [] ∧ s.passes client = List.replicate n 0 ∧
      scores s.redis (bucketOf hashApiKey client h) 0 = List.replicate n 0 ∧
      ∀ k, k ≠ bucketOf hashApiKey client h → scores s.redis k 0 = [] := by
  induction n with
  | zero => exact ⟨_, rfl, rfl, rfl, rfl, rfl, rfl, fun _ _ => rfl⟩
  | succ n ih =>
    obtain ⟨s, hr, ha, hclock, hidle, hpass, hset, hrest⟩ := ih (Nat.le_of_succ_le hn)
    obtain ⟨s', hr', ha', hclock', hidle', hpass', hset', hrest'⟩ :=
      @run_visit _ _ _ overlapping s h n hh hclock hidle hn hset
    have hvisits : visits hashApiKey client (List.replicate (n + 1) h) =
        visits hashApiKey client (List.replicate n h) ++ visits hashApiKey client [h] := by
      unfold visits
      rw [List.replicate_succ', List.flatMap_append]
    rw [hvisits]
    refine ⟨s', ?_, ?_, hclock', hidle', ?_, hset', fun k hk => (hrest' k hk).trans (hrest k hk)⟩
    · rw [Machine.run_append, hr, Option.bind_some, hr']
    · exact (Machine.along_append hr).mpr ⟨ha, ha'⟩
    · rw [hpass', hpass]
      rfl

/-- Sixty requests of one bucket and one of another pass at once. -/
theorem one_of_bounded (hb : Bounded hashApiKey client headers overlapping)
    {h h' : Option String} (hh : headers h = true) (hh' : headers h' = true) :
    bucketOf hashApiKey client h = bucketOf hashApiKey client h' := by
  by_contra hne
  obtain ⟨s, hr, ha, hclock, hidle, hpass, -, hrest⟩ :=
    @run_visits hashApiKey client _ overlapping h _ hh (Nat.le_refl defaultRateLimit)
  obtain ⟨s', hr', ha', -, -, hpass', -⟩ :=
    @run_visit _ _ _ overlapping s h' 0 hh' hclock hidle (by decide) (hrest _ (Ne.symm hne))
  let as := visits hashApiKey client (List.replicate defaultRateLimit h) ++
    visits hashApiKey client [h']
  have hrun : Machine.run step (quiet hashApiKey) as = some s' := by
    rw [Machine.run_append, hr, Option.bind_some, hr']
  have hbound := hb _ _ as s' hrun ((Machine.along_append hr).mpr ⟨ha, ha'⟩) 0
  rw [hpass', hpass] at hbound
  revert hbound
  decide

/-- Requests that all count before the first of them is recorded. -/
theorem run_counts {h : Option String} (hh : headers h = true) (n : Nat) (hclock : s.clock = 0)
    (hset : scores s.redis (bucketOf hashApiKey client h) 0 = []) : ∃ redis,
      Machine.run step s (List.replicate n (.count (cues client h))) =
        some ⟨redis, 0, List.replicate n (cues client h) ++ s.waiting, s.passed⟩ ∧
      Machine.along step (anonymous client headers true) s
        (List.replicate n (.count (cues client h))) = true := by
  induction n generalizing s with
  | zero => exact ⟨s.redis, by rw [← hclock]; rfl, rfl⟩
  | succ n ih =>
    obtain ⟨redis, hcount, hsame⟩ := step_cues (n := 0) hclock hset (by decide)
    obtain ⟨redis', hr, ha⟩ := @ih ⟨redis, 0, cues client h :: s.waiting, s.passed⟩ rfl
      ((hsame _).trans hset)
    refine ⟨redis', ?_, (Machine.along_cons hcount).mpr ⟨anonymous_cues hh rfl, ha⟩⟩
    rw [List.replicate_succ, Machine.run_of_step hcount, hr, List.replicate_succ', List.append_assoc]
    rfl

theorem run_records {h : Option String} (n : Nat) (hclock : s.clock = 0)
    (hwait : s.waiting = List.replicate n (cues client h)) : ∃ s',
      Machine.run step s (List.replicate n (.record 0 0)) = some s' ∧
      Machine.along step (anonymous client headers overlapping) s
        (List.replicate n (.record 0 0)) = true ∧
      s'.passes client = List.replicate n 0 ++ s.passes client := by
  induction n generalizing s with
  | zero => exact ⟨s, rfl, rfl, rfl⟩
  | succ n ih =>
    have hrecord := step_record hclock hwait
    obtain ⟨s', hr, ha, hpass⟩ := @ih ⟨record s.redis (bucketOf hashApiKey client h) 0 0, 0,
      List.replicate n (cues client h), cues client h :: s.passed⟩ rfl rfl
    refine ⟨s', ?_, (Machine.along_cons hrecord).mpr ⟨rfl, ha⟩, ?_⟩
    · rw [List.replicate_succ, Machine.run_of_step hrecord, hr]
    · rw [hpass, passes_cues, List.replicate_succ', List.append_assoc]
      rfl

/-- Sixty-one requests that count at once all pass. -/
theorem serial_of_bounded (hb : Bounded hashApiKey client headers overlapping) {h : Option String}
    (hh : headers h = true) : overlapping = false := by
  by_contra hover
  obtain rfl : overlapping = true := by simpa using hover
  obtain ⟨redis, hr, ha⟩ := @run_counts hashApiKey client headers (quiet hashApiKey) h hh
    (defaultRateLimit + 1) rfl rfl
  obtain ⟨s', hr', ha', hpass⟩ := @run_records hashApiKey client headers true
    ⟨redis, 0, List.replicate (defaultRateLimit + 1) (cues client h), []⟩ h _ rfl rfl
  let as : List (Action hashApiKey) :=
    List.replicate (defaultRateLimit + 1) (.count (cues client h)) ++
      List.replicate (defaultRateLimit + 1) (.record 0 0)
  have hrun : Machine.run step (quiet hashApiKey) as = some s' := by
    rw [Machine.run_append, hr, Option.bind_some]
    exact hr'
  have hbound := hb _ _ as s' hrun ((Machine.along_append hr).mpr ⟨ha, ha'⟩) 0
  rw [hpass] at hbound
  change hits window 0 (List.replicate (defaultRateLimit + 1) 0 ++ []) ≤ defaultRateLimit at hbound
  revert hbound
  decide

/-- The bound per IP holds for a client that varies its `Authorization` header over some headers
exactly when it never sends a request while another one of its is under way, and the middleware
takes all these headers for one bucket: they either are no `Bearer ` header with `cue_sk_` in it, or
all carry one key. -/
theorem per_ip_bound_iff (client : String) (headers : Option String → Bool) (overlapping : Bool) :
    Bounded hashApiKey client headers overlapping ↔
      ∀ h h', headers h = true → headers h' = true →
        overlapping = false ∧ bucketOf hashApiKey client h = bucketOf hashApiKey client h' := by
  constructor
  · exact fun hb h h' hh hh' => ⟨serial_of_bounded hb hh, one_of_bounded hb hh hh'⟩
  · intro hone
    by_cases hany : ∃ h, headers h = true
    · obtain ⟨h, hh⟩ := hany
      exact bounded_of_one fun h' hh' => hone h' h hh' hh
    · exact bounded_of_one (b := .ip client) fun h hh => absurd ⟨h, hh⟩ hany

/-- Two made-up keys have two buckets, also for requests that come one after the other. -/
theorem made_up_keys_unbounded :
    ¬ Bounded String.ofList "203.0.113.9" (fun _ => true) false := by
  intro hb
  have hone := @one_of_bounded _ _ _ _ hb (some "Bearer cue_sk_1") (some "Bearer cue_sk_2") rfl rfl
  revert hone
  decide +kernel

end CueApi.RateLimit
