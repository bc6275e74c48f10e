import CueApi.Library.Machine
import CueApi.Library.Pending
import CueApi.Usage.ExecutionLimit

/-! The monthly counts of one user, `execution_count` of `app/services/usage_service.py` and
`message_count` of `app/services/message_usage_service.py`: a row in PostgreSQL and its copy in
Redis, call by call and statement by statement. `create_message` checks the second before it stores
a message and counts the message afterwards. A month is one row and one key. -/

namespace CueApi.Monthly

open Scheduler (Pid)

/-- Who reads the count: `get_monthly_usage`, `get_monthly_message_count` on its own, and the
`check_message_quota` of `create_message`. -/
inductive Reader
  | usage | messageCount | quota
  deriving DecidableEq, Repr

/-- The statement that a call issues next. `set` is the write-through of an increment and `warm` the
write of a reader; both carry the value, and how many increments have committed since its read. -/
inductive Phase
  | incr
  | upsert
  | set (value behind : Nat)
  | get (reader : Reader)
  | select (reader : Reader)
  | warm (value behind : Nat) (reader : Reader)
  | insert
  deriving DecidableEq, Repr

inductive Call
  | incrementUsage | getMonthlyUsage | incrementMonthlyCount | getMonthlyMessageCount
  | createMessage
  deriving DecidableEq, Repr

def Call.first : Call → Phase
  | .incrementUsage => .incr
  | .getMonthlyUsage => .get .usage
  | .incrementMonthlyCount => .upsert
  | .getMonthlyMessageCount => .get .messageCount
  | .createMessage => .get .quota

/-- `accepted` counts the messages stored in the month; `overtaken` tells how many increments had
committed between the read of the value that Redis was last given and that write. -/
structure Counter where
  count : Nat := 0
  cache : Option Nat := none
  calls : Pending Pid Phase := ∅
  accepted : Nat := 0
  overtaken : Nat := 0
  deriving DecidableEq

/-- Another increment commits. -/
def Phase.overtake : Phase → Phase
  | .set value behind => .set value (behind + 1)
  | .warm value behind reader => .warm value (behind + 1) reader
  | phase => phase

/-- `SET`, when Redis answers. -/
def Counter.store (s : Counter) (ok : Bool) (value behind : Nat) : Counter :=
  if ok then { s with cache := some value, overtaken := behind } else s

/-- The call once it has the count: `check_message_quota` lets a message pass below the limit. -/
def Reader.got (limit : Int) : Reader → Nat → Option Phase
  | .quota, value => if limit ≤ value then none else some .insert
  | _, _ => none

/-- One statement, and what the call issues after it; `ok` tells whether it works. The row lock of
the UPSERT lasts to its COMMIT, so the two are one step. `get_monthly_usage` raises when its SELECT
fails, `get_monthly_message_count` takes 0. -/
def Counter.issue (limit : Int) (s : Counter) (ok : Bool) : Phase → Counter × Option Phase
  | .incr => ({ s with cache := if ok then some (s.cache.getD 0 + 1) else s.cache }, some .upsert)
  | .upsert =>
      if ok then
        ({ s with count := s.count + 1, calls := s.calls.map Phase.overtake },
          some (.set (s.count + 1) 0))
      else (s, none)
  | .set value behind => (s.store ok value behind, none)
  | .get reader =>
      match if ok then s.cache else none with
      | some value => (s, reader.got limit value)
      | none => (s, some (.select reader))
  | .select reader =>
      if ok then (s, some (.warm s.count 0 reader))
      else if reader = .usage then (s, none)
      else (s, reader.got limit 0)
  | .warm value behind reader => (s.store ok value behind, reader.got limit value)
  | .insert => if ok then ({ s with accepted := s.accepted + 1 }, some .upsert) else (s, none)

inductive Action
  | start (p : Pid) (call : Call)
  | next (p : Pid) (ok : Bool)
  | expire
  deriving DecidableEq, Repr

/-- `limit` is the one that `check_message_quota` is given. -/
def step (limit : Int) (s : Counter) : Action → Option Counter
  | .start p call => (s.calls.enter p call.first).map fun calls => { s with calls }
  | .next p ok =>
      (s.calls.find p).map fun phase =>
        let (s', next) := s.issue limit ok phase
        { s' with calls := s'.calls.proceed p next }
  | .expire => some { s with cache := none }

/-- The month so far: nobody is calling, and Redis has the count or no key. -/
def quiet (n : Nat) (warm : Bool) : Counter :=
  { count := n, cache := if warm then some n else none, accepted := n }

variable {limit : Int} {s s' : Counter} {a : Action} {p : Pid}

theorem step_start {call : Call} (h : step limit s (.start p call) = some s') :
    ∃ calls, s.calls.enter p call.first = some calls ∧ s' = { s with calls } := by
  obtain ⟨calls, hcalls, rfl⟩ := Option.map_eq_some_iff.mp h
  exact ⟨calls, hcalls, rfl⟩

theorem step_next {ok : Bool} (h : step limit s (.next p ok) = some s') :
    ∃ phase, s.calls.find p = some phase ∧
      s' = { (s.issue limit ok phase).1 with
        calls := (s.issue limit ok phase).1.calls.proceed p (s.issue limit ok phase).2 } := by
  obtain ⟨phase, hphase, rfl⟩ := Option.map_eq_some_iff.mp h
  exact ⟨phase, hphase, rfl⟩

theorem store_cases (s : Counter) (ok : Bool) (value behind : Nat) :
    s.store ok value behind = s ∨
      s.store ok value behind = { s with cache := some value, overtaken := behind } := by
  unfold Counter.store
  split
  · exact .inr rfl
  · exact .inl rfl

/-- A statement leaves the other calls as they are, but for the note of a committed increment. -/
theorem issue_calls (limit : Int) (s : Counter) (ok : Bool) (phase : Phase) :
    (s.issue limit ok phase).1.calls = s.calls ∨
      (s.issue limit ok phase).1.calls = s.calls.map Phase.overtake := by
  have hstore (value behind : Nat) : (s.store ok value behind).calls = s.calls := by
    rcases store_cases s ok value behind with heq | heq <;> rw [heq]
  cases phase with
  | incr => exact .inl rfl
  | upsert =>
    cases ok with
    | true => exact .inr rfl
    | false => exact .inl rfl
  | set value behind => exact .inl (hstore value behind)
  | warm value behind reader => exact .inl (hstore value behind)
  | get reader =>
    left
    simp only [Counter.issue]
    split
    · rfl
    · rfl
  | select reader =>
    left
    simp only [Counter.issue]
    split
    · rfl
    · split <;> rfl
  | insert =>
    cases ok with
    | true => exact .inl rfl
    | false => exact .inl rfl

/-! ## Coherence -/

/-- The value that a call is about to write, and how far it is behind. -/
def Phase.held : Phase → Option (Nat × Nat)
  | .set value behind => some (value, behind)
  | .warm value behind _ => some (value, behind)
  | _ => none

/-- The call is going to write the count that it has made, or makes. -/
def Phase.counting : Phase → Bool
  | .upsert | .set _ _ => true
  | _ => false

/-- Every call of the run works. -/
def noFailure (_ : Counter) : Action → Bool
  | .next _ ok => ok
  | _ => true

/-- The values that are about to be written are as far behind as is noted, and so is the one in
Redis unless an increment is under way. -/
structure Noted (s : Counter) : Prop where
  held : ∀ y ∈ s.calls.entries, ∀ v b, y.2.held = some (v, b) → v + b = s.count
  cached : ∀ v, s.cache = some v →
    v + s.overtaken = s.count ∨ ∃ y ∈ s.calls.entries, y.2.counting = true

theorem overtake_held {phase : Phase} {v b : Nat} (h : phase.overtake.held = some (v, b)) :
    ∃ b', phase.held = some (v, b') ∧ b = b' + 1 := by
  cases phase with
  | set value behind =>
    cases h
    exact ⟨behind, rfl, rfl⟩
  | warm value behind reader =>
    cases h
    exact ⟨behind, rfl, rfl⟩
  | _ => cases h

/-- What follows a read holds no value. -/
theorem got_held {value : Nat} {reader : Reader} {phase : Phase}
    (h : reader.got limit value = some phase) : phase = .insert := by
  cases reader with
  | quota =>
    simp only [Reader.got] at h
    split at h
    · cases h
    · cases h
      rfl
  | _ => cases h

/-- A call that does not count is not the increment under way. -/
theorem Noted.cached_proceed (hs : Noted s) {phase : Phase} (hphase : s.calls.find p = some phase)
    (hno : phase.counting = false) (next : Option Phase) {v : Nat} (hv : s.cache = some v) :
    v + s.overtaken = s.count ∨
      ∃ y ∈ (s.calls.proceed p next).entries, y.2.counting = true := by
  rcases hs.cached v hv with hv | ⟨y, hy, hcount⟩
  · exact .inl hv
  · refine .inr ⟨y, Pending.mem_proceed.mpr (.inr ⟨hy, fun hp => ?_⟩), hcount⟩
    subst hp
    have hfind := Pending.find_iff.mpr hy
    rw [hphase] at hfind
    cases hfind
    rw [hno] at hcount
    cases hcount

theorem Noted.held_proceed (hs : Noted s) {next : Option Phase}
    (hnext : ∀ phase, next = some phase → ∀ v b, phase.held = some (v, b) → v + b = s.count)
    {y : Pid × Phase} (hy : y ∈ (s.calls.proceed p next).entries) {v b : Nat}
    (hheld : y.2.held = some (v, b)) : v + b = s.count := by
  rcases Pending.mem_proceed.mp hy with ⟨phase, hphase, rfl⟩ | ⟨hy, -⟩
  · exact hnext phase hphase v b hheld
  · exact hs.held y hy v b hheld

/-- A statement that writes neither the row nor Redis. -/
theorem Noted.quiet (hs : Noted s) {phase : Phase} (hphase : s.calls.find p = some phase)
    (hno : phase.counting = false) {next : Option Phase}
    (hnext : ∀ phase, next = some phase → ∀ v b, phase.held = some (v, b) → v + b = s.count)
    {accepted : Nat} : Noted { s with accepted, calls := s.calls.proceed p next } := by
  constructor
  · intro y hy v b hheld
    exact hs.held_proceed hnext hy hheld
  · intro v hv
    exact hs.cached_proceed hphase hno next hv

/-- A statement that gives Redis a value. -/
theorem Noted.stored (hs : Noted s) {phase : Phase} (hphase : s.calls.find p = some phase)
    {v b : Nat} (hheld : phase.held = some (v, b)) {next : Option Phase}
    (hnext : ∀ phase, next = some phase → ∀ v b, phase.held = some (v, b) → v + b = s.count) :
    Noted { s with cache := some v, overtaken := b, calls := s.calls.proceed p next } := by
  constructor
  · intro y hy v' b' hheld'
    exact hs.held_proceed hnext hy hheld'
  · intro v' hv'
    cases hv'
    exact .inl (hs.held _ (Pending.find_iff.mp hphase) v b hheld)

/-- The UPSERT of an increment. -/
theorem Noted.upserted (hs : Noted s) :
    Noted { s with
      count := s.count + 1
      calls := (s.calls.map Phase.overtake).proceed p (some (.set (s.count + 1) 0)) } := by
  constructor
  · intro y hy v b hheld
    show v + b = s.count + 1
    rcases Pending.mem_proceed.mp hy with ⟨phase, hphase, rfl⟩ | ⟨hy, -⟩
    · cases hphase
      cases hheld
      rfl
    · obtain ⟨z, hz, rfl⟩ := List.mem_map.mp hy
      obtain ⟨b', hb', rfl⟩ := overtake_held hheld
      have heq := hs.held z hz v b' hb'
      omega
  · intro v _
    exact .inr ⟨(p, .set (s.count + 1) 0), Pending.mem_proceed.mpr (.inl ⟨_, rfl, rfl⟩), rfl⟩

theorem Noted.after (hs : Noted s) (hc : noFailure s a = true) (h : step limit s a = some s') :
    Noted s' := by
  cases a with
  | start p call =>
    obtain ⟨calls, hcalls, rfl⟩ := step_start h
    have hentries := Pending.enter_some hcalls
    constructor
    · intro y hy v b hheld
      rw [hentries] at hy
      rcases List.mem_cons.mp hy with rfl | hy
      · cases call <;> cases hheld
      · exact hs.held y hy v b hheld
    · intro v hv
      rcases hs.cached v hv with hv | ⟨y, hy, hcount⟩
      · exact .inl hv
      · refine .inr ⟨y, ?_, hcount⟩
        rw [hentries]
        exact List.mem_cons_of_mem _ hy
  | expire =>
    cases h
    constructor
    · exact hs.held
    · intro v hv
      cases hv
  | next p ok =>
    have hok : ok = true := hc
    subst hok
    obtain ⟨phase, hphase, rfl⟩ := step_next h
    have hgot {reader : Reader} {value : Nat} (phase : Phase)
        (h : reader.got limit value = some phase) (v b : Nat) (hheld : phase.held = some (v, b)) :
        v + b = s.count := by
      rw [got_held h] at hheld
      cases hheld
    cases phase with
    | incr =>
      constructor
      · intro y hy v b hheld
        refine hs.held_proceed (fun phase h v b hheld => ?_) hy hheld
        cases h
        cases hheld
      · intro v _
        exact .inr ⟨(p, .upsert), Pending.mem_proceed.mpr (.inl ⟨_, rfl, rfl⟩), rfl⟩
    | upsert => exact hs.upserted
    | set value behind =>
      refine hs.stored hphase rfl fun phase h => ?_
      cases h
    | warm value behind reader => exact hs.stored hphase rfl hgot
    | get reader =>
      cases hread : s.cache with
      | none =>
        have hissue : s.issue limit true (.get reader) = (s, some (.select reader)) := by
          simp [Counter.issue, hread]
        rw [hissue]
        refine hs.quiet hphase rfl fun phase h v b hheld => ?_
        cases h
        cases hheld
      | some value =>
        have hissue : s.issue limit true (.get reader) = (s, reader.got limit value) := by
          simp [Counter.issue, hread]
        rw [hissue]
        exact hs.quiet hphase rfl hgot
    | select reader =>
      refine hs.quiet hphase rfl fun phase h v b hheld => ?_
      cases h
      cases hheld
      rfl
    | insert =>
      refine hs.quiet hphase rfl fun phase h v b hheld => ?_
      cases h
      cases hheld

theorem quiet_noted (n : Nat) (warm : Bool) : Noted (quiet n warm) := by
  constructor
  · intro y hy
    cases hy
  · intro v hv
    left
    cases warm <;> cases hv
    rfl

/-- When every call has returned, what Redis has is the count exactly when it has no key, or when no
increment had committed between the read of the value it was last given and that write. -/
theorem cache_coherent_iff {n : Nat} {warm : Bool} {as : List Action}
    (hr : Machine.run (step limit) (quiet n warm) as = some s)
    (hc : Machine.along (step limit) noFailure (quiet n warm) as = true) (hd : s.calls = ∅) :
    (∀ v, s.cache = some v → v = s.count) ↔ s.cache = none ∨ s.overtaken = 0 := by
  have hs : Noted s := Machine.invariant (quiet_noted n warm)
    (fun _ _ _ hs hc h => hs.after hc h) hr hc
  have hbehind (v : Nat) (hv : s.cache = some v) : v + s.overtaken = s.count := by
    rcases hs.cached v hv with heq | ⟨y, hy, -⟩
    · exact heq
    · rw [hd] at hy
      cases hy
  constructor
  · intro h
    cases hcache : s.cache with
    | none => exact .inl rfl
    | some v =>
      have heq := h v hcache
      have hsum := hbehind v hcache
      right
      omega
  · intro h v hv
    have hsum := hbehind v hv
    rcases h with hnone | hzero
    · rw [hnone] at hv
      cases hv
    · omega

/-- Two calls count while a third one reads and warms the cache: each writes what it has read before
another increment commits. -/
def overlapping : List Action :=
  [.start 1 .incrementUsage, .start 2 .incrementUsage, .start 3 .getMonthlyUsage, .next 1 true,
    .next 2 true, .expire, .next 3 true, .next 1 true, .next 3 true, .next 1 true, .next 3 true,
    .next 2 true, .next 2 true]

theorem cache_coherent_overlapping : ∃ s,
    Machine.run (step 300) (quiet 0 false) overlapping = some s ∧ s.count = 2 ∧
      ∀ v, s.cache = some v → v = s.count := by
  have hrun : ((Machine.run (step 300) (quiet 0 false) overlapping).map fun s =>
      (decide (s.calls = ∅), s.overtaken, s.count)) = some (true, 0, 2) := by
    decide
  obtain ⟨s, hs, heq⟩ := Option.map_eq_some_iff.mp hrun
  simp only [Prod.mk.injEq, decide_eq_true_eq] at heq
  obtain ⟨hcalls, hover, hcount⟩ := heq
  exact ⟨s, hs, hcount, (cache_coherent_iff hs (by decide) hcalls).mpr (.inr hover)⟩

/-- Two calls count; the one whose UPSERT was first is the last to write. -/
def crossed (call : Call) (incr : List Action) : List Action :=
  [.start 1 call, .start 2 call] ++ incr ++
    [.next 1 true, .next 2 true, .next 2 true, .next 1 true]

/-- Two executions are counted, or two messages, and Redis is left with one. -/
theorem stale_count_cached :
    (∃ s, Machine.run (step 300) (quiet 0 false)
          (crossed .incrementUsage [.next 1 true, .next 2 true]) = some s ∧
        Machine.along (step 300) noFailure (quiet 0 false)
          (crossed .incrementUsage [.next 1 true, .next 2 true]) = true ∧
        s.calls = ∅ ∧ s.cache = some 1 ∧ s.count = 2) ∧
      ∃ s, Machine.run (step 300) (quiet 0 false) (crossed .incrementMonthlyCount []) = some s ∧
        Machine.along (step 300) noFailure (quiet 0 false)
          (crossed .incrementMonthlyCount []) = true ∧
        s.calls = ∅ ∧ s.cache = some 1 ∧ s.count = 2 := by
  constructor
  · exact ⟨{ count := 2, cache := some 1, overtaken := 1 },
      by decide, by decide, rfl, rfl, rfl⟩
  · exact ⟨{ count := 2, cache := some 1, overtaken := 1 },
      by decide, by decide, rfl, rfl, rfl⟩

/-! ## A call alone -/

open Usage (currentMonthStart)

/-- What the month of a user is at an instant, when nobody is calling. -/
def viewOf (st : Usage.State) (user : Scheduler.UserId) (now : Scheduler.Time) : Counter where
  count := (st.usageMonthly user (currentMonthStart now)).getD 0
  cache := Expiring.get st.usage now (user, currentMonthStart now)

/-- The row and the key are the same. -/
structure Same (s s' : Counter) : Prop where
  count : s.count = s'.count
  cache : s.cache = s'.cache
  calls : s.calls = s'.calls

theorem lt_days (now : Scheduler.Time) {n : Nat} (h : 0 < n) : now < now + Usage.days n := by
  have hpos : (0 : Int) < n * 86400000000 := by omega
  exact Int.lt_add_of_pos_right now hpos

theorem step_enter (call : Call) (hs : s.calls = ∅) :
    step limit s (.start p call) =
      some { s with calls := (∅ : Pending Pid Phase).proceed p (some call.first) } := by
  simp [step, hs, Pending.enter_empty]

theorem step_alone {ok : Bool} {phase : Phase} {s₁ : Counter} {next : Option Phase}
    (hs : s.calls = (∅ : Pending Pid Phase).proceed p (some phase))
    (hi : s.issue limit ok phase = (s₁, next)) :
    step limit s (.next p ok) =
      some { s₁ with calls := (∅ : Pending Pid Phase).proceed p next } := by
  have hissue := issue_calls limit s ok phase
  rw [hi] at hissue
  have hcalls : s₁.calls.proceed p next = (∅ : Pending Pid Phase).proceed p next := by
    rcases hissue with heq | heq
    · rw [heq, hs, Pending.proceed_alone]
    · rw [heq, hs, Pending.map_alone, Pending.proceed_alone]
  simp [step, hs, Pending.find_alone, hi, hcalls]

/-- The rest of `get_monthly_usage` after the cache. -/
theorem select_alone (limit : Int) (warm : Bool)
    (hs : s.calls = (∅ : Pending Pid Phase).proceed p (some (.select .usage))) :
    ∃ s', Machine.run (step limit) s [.next p true, .next p warm] = some s' ∧
      Same s' { s with cache := if warm then some s.count else s.cache, calls := ∅ } := by
  have hselect := @step_alone limit s p true _ _ _ hs rfl
  have hwarm := @step_alone limit
    { s with calls := (∅ : Pending Pid Phase).proceed p (some (.warm s.count 0 .usage)) } p warm
    _ _ _ rfl rfl
  rw [Machine.run_of_step hselect, Machine.run_of_step hwarm]
  refine ⟨_, rfl, ?_⟩
  cases warm with
  | true => exact ⟨rfl, rfl, rfl⟩
  | false => exact ⟨rfl, rfl, rfl⟩

/-- The rest of `increment_usage` after its INCR. -/
theorem upsert_alone (limit : Int) (stored sync : Bool)
    (hs : s.calls = (∅ : Pending Pid Phase).proceed p (some .upsert)) :
    ∃ as s', Machine.run (step limit) s as = some s' ∧
      Same s' { s with
        count := if stored then s.count + 1 else s.count
        cache := if stored && sync then some (s.count + 1) else s.cache
        calls := ∅ } := by
  cases stored with
  | false =>
    have hupsert : step limit s (.next p false) = some { s with calls := ∅ } :=
      @step_alone limit s p false _ _ _ hs rfl
    refine ⟨[.next p false], _, ?_, rfl, rfl, rfl⟩
    rw [Machine.run_of_step hupsert]
    rfl
  | true =>
    have hupsert : step limit s (.next p true) = some { s with
        count := s.count + 1
        calls := (∅ : Pending Pid Phase).proceed p (some (.set (s.count + 1) 0)) } :=
      @step_alone limit s p true _ _ _ hs rfl
    have hset := @step_alone limit { s with
        count := s.count + 1
        calls := (∅ : Pending Pid Phase).proceed p (some (.set (s.count + 1) 0)) } p sync
    cases sync with
    | true =>
      refine ⟨[.next p true, .next p true], { s with
        count := s.count + 1, cache := some (s.count + 1), overtaken := 0, calls := ∅ },
        ?_, rfl, rfl, rfl⟩
      rw [Machine.run_of_step hupsert, Machine.run_of_step (hset rfl rfl)]
      rfl
    | false =>
      refine ⟨[.next p true, .next p false], { s with count := s.count + 1, calls := ∅ },
        ?_, rfl, rfl, rfl⟩
      rw [Machine.run_of_step hupsert, Machine.run_of_step (hset rfl rfl)]
      rfl

section

variable (st : Usage.State) (user : Scheduler.UserId) (now : Scheduler.Time)
  (raises : List Usage.Command) (limit : Int)

/-- A user's month when `p` has called and nobody else. -/
def calling (p : Pid) (phase : Phase) : Counter :=
  { viewOf st user now with calls := (∅ : Pending Pid Phase).proceed p (some phase) }

theorem usageFromDb_alone (p : Pid) : ∃ as s,
    Machine.run (step limit) (calling st user now p (.select .usage)) as = some s ∧
      Same s (viewOf (Usage.usageFromDb st user now raises true).2 user now) := by
  obtain ⟨s, hr, hs⟩ := @select_alone (calling st user now p (.select .usage)) p limit
    (decide (.warmUsage ∉ raises)) rfl
  refine ⟨_, s, hr, ?_⟩
  by_cases hwarm : .warmUsage ∈ raises
  · simp only [hwarm, not_true_eq_false, decide_false, Bool.false_eq_true, if_false] at hs
    simp only [Usage.usageFromDb, hwarm, if_true]
    exact hs
  · simp only [hwarm, not_false_eq_true, decide_true, if_true] at hs
    simp only [Usage.usageFromDb, hwarm, if_true, if_false]
    have hput := Expiring.get_put_self (lt_days now Nat.one_pos) st.usage
      (user, currentMonthStart now) (viewOf st user now).count
    exact ⟨hs.count, hs.cache.trans hput.symm, hs.calls⟩

theorem calling_start (p : Pid) (call : Call) :
    step limit (viewOf st user now) (.start p call) = some (calling st user now p call.first) :=
  step_enter call rfl

/-- `get_monthly_usage` is the machine's call when no other call comes between. -/
theorem getMonthlyUsage_alone (p : Pid) : ∃ as s,
    Machine.run (step limit) (viewOf st user now) as = some s ∧
      Same s (viewOf (Usage.getMonthlyUsage st user now raises true).2 user now) := by
  have henter := calling_start st user now limit p .getMonthlyUsage
  have hissue (ok : Bool) (read : Option Nat)
      (hread : (if ok then (viewOf st user now).cache else none) = read) :
      (calling st user now p (.get .usage)).issue limit ok (.get .usage) =
        (calling st user now p (.get .usage),
          if read.isSome then none else some (.select .usage)) := by
    have hread' : (if ok then (calling st user now p (.get .usage)).cache else none) = read := hread
    simp only [Counter.issue, hread']
    cases read <;> rfl
  obtain ⟨as, s, hr, hs⟩ := usageFromDb_alone st user now raises limit p
  have hmiss (ok : Bool) (hread : (if ok then (viewOf st user now).cache else none) = none) :
      Machine.run (step limit) (viewOf st user now)
        (.start p .getMonthlyUsage :: .next p ok :: as) = some s := by
    have hget : step limit (calling st user now p (.get .usage)) (.next p ok) =
        some (calling st user now p (.select .usage)) :=
      @step_alone limit _ p ok _ (calling st user now p (.get .usage)) _ rfl (hissue ok none hread)
    rw [Machine.run_of_step henter, Call.first, Machine.run_of_step hget]
    exact hr
  unfold Usage.getMonthlyUsage
  by_cases hget : .getUsage ∈ raises
  · rw [if_pos hget]
    exact ⟨_, s, hmiss false rfl, hs⟩
  · rw [if_neg hget]
    cases hcache : Expiring.get st.usage now (user, currentMonthStart now) with
    | none => exact ⟨_, s, hmiss true hcache, hs⟩
    | some count =>
      have hstep : step limit (calling st user now p (.get .usage)) (.next p true) =
          some (viewOf st user now) :=
        @step_alone limit _ p true _ (calling st user now p (.get .usage)) _ rfl
          (hissue true (some count) hcache)
      refine ⟨[.start p .getMonthlyUsage, .next p true], viewOf st user now, ?_, rfl, rfl, rfl⟩
      rw [Machine.run_of_step henter, Call.first, Machine.run_of_step hstep]
      rfl

/-- And so is `increment_usage`. -/
theorem incrementUsage_alone (p : Pid) (stored : Bool) : ∃ as s,
    Machine.run (step limit) (viewOf st user now) as = some s ∧
      Same s (viewOf (Usage.incrementUsage st user now raises stored) user now) := by
  have henter := calling_start st user now limit p .incrementUsage
  have hincr := @step_alone limit (calling st user now p .incr) p (decide (.incrUsage ∉ raises))
    _ _ _ rfl rfl
  obtain ⟨as, s, hr, hs⟩ := upsert_alone limit stored (decide (.syncUsage ∉ raises))
    (s := { calling st user now p .incr with
      cache := if decide (.incrUsage ∉ raises) then
        some ((viewOf st user now).cache.getD 0 + 1) else (viewOf st user now).cache
      calls := (∅ : Pending Pid Phase).proceed p (some .upsert) }) rfl
  have hput (store : Expiring.Store (Scheduler.UserId × Usage.Date) Nat Scheduler.Time)
      (v : Nat) :
      Expiring.get (Expiring.put store (user, currentMonthStart now) v
        (some (now + Usage.days 35))) now (user, currentMonthStart now) = some v :=
    Expiring.get_put_self (lt_days now (by omega)) store (user, currentMonthStart now) v
  refine ⟨.start p .incrementUsage :: .next p (decide (.incrUsage ∉ raises)) :: as, s, ?_, ?_⟩
  · rw [Machine.run_of_step henter, Call.first, Machine.run_of_step hincr]
    exact hr
  · refine ⟨hs.count.trans ?_, hs.cache.trans ?_, hs.calls⟩
    · cases stored with
      | false => rfl
      | true => simp [Usage.incrementUsage, viewOf, calling]
    · have hcached : (if decide (.incrUsage ∉ raises) then
            some ((viewOf st user now).cache.getD 0 + 1) else (viewOf st user now).cache) =
          Expiring.get (if .incrUsage ∈ raises then st.usage
            else Expiring.put st.usage (user, currentMonthStart now)
              ((Expiring.get st.usage now (user, currentMonthStart now)).getD 0 + 1)
              (some (now + Usage.days 35))) now (user, currentMonthStart now) := by
        by_cases hraises : .incrUsage ∈ raises
        · simp [hraises, viewOf]
        · simp only [hraises, not_false_eq_true, decide_true, if_true, if_false]
          exact (hput _ _).symm
      cases stored with
      | false => exact hcached
      | true =>
        by_cases hsync : .syncUsage ∈ raises
        · simpa [hsync, Usage.incrementUsage, viewOf] using hcached
        · simp only [hsync, not_false_eq_true, decide_true, Bool.and_self, if_true, viewOf,
            Usage.incrementUsage, Function.update_self, Option.getD_some, if_false]
          exact (hput _ _).symm

end

end CueApi.Monthly
