import CueApi.Library.Expiring
import CueApi.Library.Machine
import CueApi.Library.Pending
import CueApi.Scheduler.Tables

/-! The leader election of `worker/poller.py`: replicas that take the key `poller:leader` or renew
it, and run a cycle of any length. -/

namespace CueApi.Leader

open Scheduler (Time seconds)
open Expiring (Entry)

variable {R : Type}

/-- `RAILWAY_REPLICA_ID` of each replica, and `POLLER_LEADER_LOCK_TTL_SECONDS`, which Redis wants to
be positive. -/
structure Deployment (R : Type) where
  railwayReplicaId : R → Option String
  ttl : Nat := 30
  positive : 0 < ttl := by decide

/-- `_REPLICA_ID`. -/
def Deployment.replicaId (dp : Deployment R) (r : R) : String :=
  (dp.railwayReplicaId r).getD "default"

/-- Where a replica is in the loop of `run_poller`, unless it sleeps. -/
inductive Phase
  /-- `renew_poller_lock` before the cycle, at its GET and at its EXPIRE -/
  | checkGet | checkExpire
  /-- from `poll_due_cues` to `write_poller_heartbeat` -/
  | work
  /-- `renew_poller_lock` after the work -/
  | renewGet | renewExpire
  /-- digests and cleanup -/
  | rest
  deriving DecidableEq, Repr

/-- Between the leader check and the end of the cycle. -/
def Phase.leading : Phase → Bool
  | .checkGet | .checkExpire => false
  | .work | .renewGet | .renewExpire | .rest => true

structure State (R : Type) where
  now : Time
  leader : Option (Entry String Time)
  replicas : Pending R Phase

/-- `GET poller:leader`. -/
def State.get (s : State R) : Option String := (s.leader.filter (Entry.live s.now)).map Entry.value

/-- `EXPIRE poller:leader`, which does nothing when there is no such key. -/
def State.expire (dp : Deployment R) (s : State R) : State R :=
  { s with leader := (s.leader.filter (Entry.live s.now)).map fun en =>
      { en with expires := some (s.now + seconds dp.ttl) } }

/-- `renew_poller_lock` finds the replica's own name. -/
def State.renews (dp : Deployment R) (s : State R) (r : R) : Bool :=
  s.get = some (dp.replicaId r) && dp.replicaId r ≠ ""

inductive Action (R : Type)
  | tick (d : Nat)
  | acquire (r : R) (ok : Bool)
  | next (r : R) (ok : Bool)
  deriving DecidableEq, Repr

variable [DecidableEq R] (dp : Deployment R)

/-- The next statement of a replica that is not asleep; `none` is the sleep. -/
def State.advance (s : State R) (r : R) : Phase → State R × Option Phase
  | .checkGet => (s, if s.renews dp r then some .checkExpire else none)
  | .checkExpire => (s.expire dp, some .work)
  | .work => (s, some .renewGet)
  | .renewGet => (s, if s.renews dp r then some .renewExpire else some .rest)
  | .renewExpire => (s.expire dp, some .rest)
  | .rest => (s, none)

/-- A statement that raises ends the cycle. -/
def step (s : State R) : Action R → Option (State R)
  | .tick d => some { s with now := s.now + d }
  | .acquire r ok =>
      if ok then
        if s.get.isNone then
          (s.replicas.enter r .work).map fun replicas =>
            { s with
              leader := some ⟨dp.replicaId r, some (s.now + seconds dp.ttl)⟩
              replicas }
        else (s.replicas.enter r .checkGet).map fun replicas => { s with replicas }
      else if (s.replicas.find r).isNone then some s else none
  | .next r ok =>
      (s.replicas.find r).map fun phase =>
        if ok then
          let (s', next) := s.advance dp r phase
          { s' with replicas := s.replicas.proceed r next }
        else { s with replicas := s.replicas.proceed r none }

/-- Every replica is asleep, whatever the key is. -/
def start (now : Time) (leader : Option (Entry String Time)) : State R := ⟨now, leader, ∅⟩

/-- At most one replica is between the leader check and the end of its cycle. -/
def SingleLeader (s : State R) : Prop :=
  ∀ p q φ ψ, (p, φ) ∈ s.replicas.entries → (q, ψ) ∈ s.replicas.entries →
    φ.leading = true → ψ.leading = true → p = q

/-- From the first look at its key on. -/
def Phase.relies (φ : Phase) : Bool := φ.leading || φ = .checkExpire

/-- The key does not run out while the replica that it names relies on it. -/
def outlasts (s : State R) : Action R → Bool
  | .tick d => s.leader.all fun en => !en.live s.now || en.live (s.now + d) ||
      s.replicas.entries.all fun y => !(y.2.relies && dp.replicaId y.1 = en.value)
  | _ => true

variable {dp} {s s' : State R} {a : Action R} {r : R}

/-- Who relies on the key is named by it. -/
def Held (dp : Deployment R) (s : State R) : Prop :=
  ∀ r φ, (r, φ) ∈ s.replicas.entries → φ.relies = true → s.get = some (dp.replicaId r)

omit [DecidableEq R] in
theorem get_some {v : String} : s.get = some v ↔
    ∃ en, s.leader = some en ∧ en.live s.now = true ∧ en.value = v := by
  simp [State.get, Option.filter_eq_some_iff, and_assoc]

omit [DecidableEq R] in
theorem live_ttl (dp : Deployment R) (now : Time) (v : String) :
    (Entry.mk v (some (now + seconds dp.ttl))).live now = true := by
  have hpos := dp.positive
  have hlt : (0 : Int) < dp.ttl * 1000000 := by omega
  simp only [Entry.live, Option.all_some, decide_eq_true_eq]
  exact Int.lt_add_of_pos_right now hlt

omit [DecidableEq R] in
theorem get_expire (dp : Deployment R) (s : State R) : (s.expire dp).get = s.get := by
  cases hget : s.get with
  | none =>
    have hnone : s.leader.filter (Entry.live s.now) = none := by
      simpa [State.get] using hget
    simp [State.get, State.expire, hnone]
  | some v =>
    obtain ⟨en, hleader, hlive, rfl⟩ := get_some.mp hget
    exact get_some.mpr ⟨_, by simp [State.expire, hleader, hlive], live_ttl dp s.now en.value, rfl⟩

omit [DecidableEq R] in
/-- A replica at its next statement leaves the name in the key, and relies on it there only if it
is its own. -/
theorem advance_held (hs : Held dp s) {φ : Phase} (hφ : (r, φ) ∈ s.replicas.entries) :
    (s.advance dp r φ).1.get = s.get ∧
      ∀ ψ, (s.advance dp r φ).2 = some ψ → ψ.relies = true → s.get = some (dp.replicaId r) := by
  have named := hs r φ hφ
  cases φ with
  | checkGet =>
    refine ⟨rfl, fun ψ hψ _ => ?_⟩
    simp only [State.advance] at hψ
    split at hψ
    · next hown =>
      simp only [State.renews, Bool.and_eq_true, decide_eq_true_eq] at hown
      exact hown.1
    · cases hψ
  | checkExpire => exact ⟨get_expire dp s, fun _ _ _ => named rfl⟩
  | work => exact ⟨rfl, fun _ _ _ => named rfl⟩
  | renewGet => exact ⟨rfl, fun _ _ _ => named rfl⟩
  | renewExpire => exact ⟨get_expire dp s, fun _ _ _ => named rfl⟩
  | rest => exact ⟨rfl, fun _ _ _ => named rfl⟩

theorem Held.after (hs : Held dp s) (hc : outlasts dp s a = true) (h : step dp s a = some s') :
    Held dp s' := by
  cases a with
  | tick d =>
    cases h
    intro r φ hr hrel
    obtain ⟨en, hleader, hlive, hval⟩ := get_some.mp (hs r φ hr hrel)
    refine get_some.mpr ⟨en, hleader, ?_, hval⟩
    by_contra hlate
    simp only [outlasts, hleader, Option.all_some, hlive, Bool.not_true, Bool.false_or,
      eq_false_of_ne_true hlate, List.all_eq_true] at hc
    have hno := hc _ hr
    simp [hrel, hval] at hno
  | acquire r ok =>
    simp only [step] at h
    split at h
    · split at h
      · next hfree =>
        obtain ⟨replicas, henter, rfl⟩ := Option.map_eq_some_iff.mp h
        intro q φ hq hrel
        rw [Pending.enter_some henter] at hq
        rcases List.mem_cons.mp hq with heq | hq
        · cases heq
          exact get_some.mpr ⟨_, rfl, live_ttl dp s.now _, rfl⟩
        · rw [hs q φ hq hrel] at hfree
          cases hfree
      · obtain ⟨replicas, henter, rfl⟩ := Option.map_eq_some_iff.mp h
        intro q φ hq hrel
        rw [Pending.enter_some henter] at hq
        rcases List.mem_cons.mp hq with heq | hq
        · cases heq
          cases hrel
        · exact hs q φ hq hrel
    · split at h
      · cases h
        exact hs
      · cases h
  | next r ok =>
    obtain ⟨φ, hφ, rfl⟩ := Option.map_eq_some_iff.mp h
    obtain ⟨hget, hown⟩ := advance_held hs (Pending.find_iff.mp hφ)
    intro q ψ hq hrel
    cases ok with
    | false =>
      rcases Pending.mem_proceed.mp hq with ⟨_, heq, -⟩ | ⟨hq, -⟩
      · cases heq
      · exact hs q ψ hq hrel
    | true =>
      refine Eq.trans hget ?_
      rcases Pending.mem_proceed.mp hq with ⟨χ, hnext, heq⟩ | ⟨hq, -⟩
      · cases heq
        exact hown ψ hnext hrel
      · exact hs q ψ hq hrel

omit [DecidableEq R] in
/-- With different replica ids, two replicas that rely on the key are one. -/
theorem Held.single (hs : Held dp s) (hid : Function.Injective dp.replicaId) : SingleLeader s := by
  intro p q φ ψ hp hq hφ hψ
  have relies {φ : Phase} (h : φ.leading = true) : φ.relies = true := by simp [Phase.relies, h]
  have hp := hs p φ hp (relies hφ)
  rw [hs q ψ hq (relies hψ)] at hp
  exact (hid (Option.some.inj hp)).symm

/-- One replica leads at a time in every run of replicas with different ids in which the key does not
run out on the one that it names between the look of its leader check and the end of its cycle. -/
theorem single_leader {now : Time} {leader : Option (Entry String Time)} {as : List (Action R)}
    (hid : Function.Injective dp.replicaId)
    (hr : Machine.run (step dp) (start now leader) as = some s)
    (hc : Machine.along (step dp) (outlasts dp) (start now leader) as = true) :
    SingleLeader s := by
  have hstart : Held dp (start now leader : State R) := fun _ _ h => (by cases h)
  have hs : Held dp s := Machine.invariant hstart (fun _ _ _ hs hc h => hs.after hc h) hr hc
  exact hs.single hid

/-- Two replicas on a platform that names them. -/
def named : Deployment Bool := { railwayReplicaId := fun r => some (if r then "a" else "b") }

/-- Two replicas where `RAILWAY_REPLICA_ID` is not set. -/
def unnamed : Deployment Bool := { railwayReplicaId := fun _ => none }

/-- A cycle with slow webhooks, of 31 s. -/
def slowCycle : List (Action Bool) :=
  [.acquire true true, .tick 31000000, .acquire false true]

/-- The second replica finds the key taken, and renews it as its own. -/
def sharedName : List (Action Bool) :=
  [.acquire true true, .tick 1000, .acquire false true, .next false true, .next false true]

theorem two_leaders :
    (∃ s, Machine.run (step named) (start 0 none) slowCycle = some s ∧ ¬ SingleLeader s) ∧
      ∃ s, Machine.run (step unnamed) (start 0 none) sharedName = some s ∧ ¬ SingleLeader s := by
  constructor
  · refine ⟨_, rfl, fun h => ?_⟩
    have heq := h true false .work .work (by decide) (by decide) rfl rfl
    cases heq
  · refine ⟨_, rfl, fun h => ?_⟩
    have heq := h true false .work .work (by decide) (by decide) rfl rfl
    cases heq

/-- A cycle of 20 s, whose renewal is still in time, and another replica in between. -/
def inTime : List (Action Bool) :=
  [.acquire true true, .tick 20000000, .acquire false true, .next false true, .next true true,
    .next true true, .next true true, .tick 20000000, .acquire false true, .next false true,
    .next true true]

theorem named_injective : Function.Injective named.replicaId := by
  intro p q h
  revert h
  cases p <;> cases q <;> decide

theorem single_leader_in_time : ∃ s,
    Machine.run (step named) (start 0 none) inTime = some s ∧ SingleLeader s :=
  ⟨_, rfl, @single_leader Bool _ named _ 0 none inTime named_injective rfl (by decide)⟩

end CueApi.Leader
