import CueApi.Library.Expiring
import CueApi.Library.Machine
import CueApi.Library.Pending
import CueApi.Scheduler.World

/-! `regenerate_key` of `app/routers/auth_routes.py` against any number of `_auth_via_api_key` calls
of `app/auth.py`, statement by statement: the hash in the user's row and the authenticated user that
Redis keeps for five minutes. -/

namespace CueApi.KeyRotation

open Scheduler (Time UserId ApiError Pid seconds)

/-- `AuthenticatedUser`, of the row with everything but the hash. -/
structure AuthenticatedUser where
  id : UserId
  email : String
  plan : String
  activeCueLimit : Nat
  monthlyExecutionLimit : Nat
  rateLimitPerMinute : Nat
  deriving DecidableEq, Repr

structure User where
  user : AuthenticatedUser
  apiKeyHash : String
  deriving DecidableEq, Repr

/-- The SHA-256 digests of the key in use and of the one that replaces it. -/
structure Keys where
  old : String
  new : String
  ne : new ≠ old
  old_ne : old ≠ ""

/-- The statement that an authentication issues next. -/
inductive Point
  | get
  | select
  | set (user : AuthenticatedUser)
  | rotated
  deriving DecidableEq, Repr

/-- A call; `late` tells whether it started after `regenerate_key` had returned. -/
structure Call where
  keyHash : String
  late : Bool
  point : Point
  deriving DecidableEq, Repr

inductive Outcome
  | authenticated (user : AuthenticatedUser)
  | unauthorized (e : ApiError)
  deriving DecidableEq, Repr

structure Reply where
  keyHash : String
  late : Bool
  outcome : Outcome
  deriving DecidableEq, Repr

/-- The statement that `regenerate_key` issues next. -/
inductive Rotation
  | idle
  | select
  | update (oldHash : String)
  | delete (oldHash : String)
  | note (oldHash : String)
  | cache
  | returned
  | failed
  deriving DecidableEq, Repr

/-- `auth` and `rotated` are the keys `auth:` and `rotated:` of Redis, by their hash. -/
structure State where
  now : Time
  row : User
  auth : Expiring.Store String AuthenticatedUser Time
  rotated : Expiring.Store String String Time
  calls : Pending Pid Call
  rotation : Rotation
  replies : List Reply

def keyRotated : ApiError :=
  ⟨"key_rotated", "This API key has been rotated. Use your new key.", 401⟩

def invalidApiKey : ApiError := ⟨"invalid_api_key", "Invalid API key", 401⟩

/-- What a statement of `_auth_via_api_key` leads to. -/
inductive Next
  | goOn (point : Point)
  | answer (outcome : Outcome)
  | raise
  deriving DecidableEq, Repr

/-- One statement; `ok` tells whether it works. -/
def State.issue (s : State) (keyHash : String) (ok : Bool) : Point → Next
  | .get =>
      match if ok then Expiring.get s.auth s.now keyHash else none with
      | some user => .answer (.authenticated user)
      | none => .goOn .select
  | .select =>
      if ok then
        if s.row.apiKeyHash = keyHash then .goOn (.set s.row.user) else .goOn .rotated
      else .raise
  | .set user => .answer (.authenticated user)
  | .rotated =>
      if ok ∧ (Expiring.get s.rotated s.now keyHash).isSome then .answer (.unauthorized keyRotated)
      else .answer (.unauthorized invalidApiKey)

/-- `SET auth:hash ... EX 300`, the only write of a call. -/
def State.store (s : State) (keyHash : String) (ok : Bool) : Point → State
  | .set user =>
      if ok then { s with auth := Expiring.put s.auth keyHash user (some (s.now + seconds 300)) }
      else s
  | _ => s

/-- A statement of `regenerate_key`; any that fails makes it raise. -/
def State.rotate (keys : Keys) (s : State) : Rotation → Option State
  | .select => some { s with rotation := .update s.row.apiKeyHash }
  | .update oldHash =>
      some { s with
        row := { s.row with apiKeyHash := keys.new }
        rotation := if oldHash = "" then .cache else .delete oldHash }
  | .delete oldHash => some { s with auth := Expiring.del s.auth oldHash, rotation := .note oldHash }
  | .note oldHash =>
      some { s with
        rotated := Expiring.put s.rotated oldHash "1" (some (s.now + seconds 86400))
        rotation := .cache }
  | .cache =>
      some { s with
        auth := Expiring.put s.auth keys.new s.row.user (some (s.now + seconds 300))
        rotation := .returned }
  | .idle | .returned | .failed => none

inductive Action
  | tick (d : Nat)
  | call (p : Pid) (keyHash : String)
  | next (p : Pid) (ok : Bool)
  | regenerate
  | rotation (ok : Bool)
  deriving DecidableEq, Repr

def step (keys : Keys) (s : State) : Action → Option State
  | .tick d => some { s with now := s.now + d }
  | .call p keyHash =>
      (s.calls.enter p ⟨keyHash, decide (s.rotation = .returned), .get⟩).map fun calls =>
        { s with calls }
  | .next p ok =>
      (s.calls.find p).map fun call =>
        let s' := s.store call.keyHash ok call.point
        match s.issue call.keyHash ok call.point with
        | .goOn point => { s' with calls := s.calls.proceed p (some { call with point }) }
        | .answer outcome =>
            { s' with
              calls := s.calls.proceed p none
              replies := ⟨call.keyHash, call.late, outcome⟩ :: s.replies }
        | .raise => { s' with calls := s.calls.proceed p none }
  | .regenerate => if s.rotation = .idle then some { s with rotation := .select } else none
  | .rotation ok =>
      (s.rotate keys s.rotation).map fun s' => if ok then s' else { s with rotation := .failed }

/-- Nobody is calling, whatever Redis has. -/
def start (keys : Keys) (now : Time) (user : AuthenticatedUser)
    (auth : Expiring.Store String AuthenticatedUser Time)
    (rotated : Expiring.Store String String Time) : State :=
  ⟨now, ⟨user, keys.old⟩, auth, rotated, ∅, .idle, []⟩

/-- `DEL auth:old` is done. -/
def Rotation.deleted : Rotation → Bool
  | .note _ | .cache | .returned => true
  | _ => false

/-- No call that had found the old key's row writes it to Redis after the rotation has deleted it
there. -/
def notOvertaken (keys : Keys) (s : State) : Action → Bool
  | .next p ok => (s.calls.find p).all fun call =>
      match call.point with
      | .set _ => !(ok && call.keyHash = keys.old && s.rotation.deleted)
      | _ => true
  | _ => true

/-- The old key is of no use to those who start after `regenerate_key` has returned. -/
def Revoked (keys : Keys) (s : State) : Prop :=
  ∀ r ∈ s.replies, r.late = true → r.keyHash = keys.old →
    ∃ e, r.outcome = .unauthorized e

variable {keys : Keys} {s s' : State} {a : Action}

/-- What the row and `old_hash` are at each point of the rotation. -/
def Rotation.Fits (keys : Keys) (hash : String) : Rotation → Prop
  | .idle | .select => hash = keys.old
  | .update oldHash => oldHash = keys.old ∧ hash = keys.old
  | .delete oldHash => oldHash = keys.old ∧ hash = keys.new
  | .note _ | .cache | .returned => hash = keys.new
  | .failed => True

/-- A call that started after the return has nothing of the old key to write. -/
def Call.Barred (keys : Keys) (rotation : Rotation) (call : Call) : Prop :=
  call.late = true → rotation = .returned ∧
    (call.keyHash = keys.old → ∀ user, call.point ≠ .set user)

structure Fenced (keys : Keys) (s : State) : Prop where
  fits : s.rotation.Fits keys s.row.apiKeyHash
  cleared : s.rotation.deleted = true → s.auth keys.old = none
  calls : ∀ y ∈ s.calls.entries, y.2.Barred keys s.rotation
  revoked : Revoked keys s

theorem start_fenced (now : Time) (user : AuthenticatedUser)
    (auth : Expiring.Store String AuthenticatedUser Time)
    (rotated : Expiring.Store String String Time) :
    Fenced keys (start keys now user auth rotated) :=
  ⟨rfl, fun h => (by cases h), fun _ hy => (by cases hy), fun _ hr => (by cases hr)⟩

/-- The rotation goes on before it has returned, when no call is late. -/
theorem Fenced.early (hs : Fenced keys s) (hrot : s.rotation ≠ .returned) (rotation : Rotation) :
    ∀ y ∈ s.calls.entries, y.2.Barred keys rotation :=
  fun y hy hlate => absurd (hs.calls y hy hlate).1 hrot

theorem Fenced.rotate (hs : Fenced keys s) (h : s.rotate keys s.rotation = some s') :
    Fenced keys s' := by
  have hfits := hs.fits
  have hcleared := hs.cleared
  have hearly := hs.early
  cases hrot : s.rotation with
  | select =>
    rw [hrot] at h hfits hearly
    cases h
    exact ⟨⟨hfits, hfits⟩, fun h => (by cases h), hearly (fun h => by cases h) _, hs.revoked⟩
  | update oldHash =>
    rw [hrot] at h hfits hearly
    cases h
    rw [if_neg (by rw [hfits.1]; exact keys.old_ne)]
    exact ⟨⟨hfits.1, rfl⟩, fun h => (by cases h), hearly (fun h => by cases h) _, hs.revoked⟩
  | delete oldHash =>
    rw [hrot] at h hfits hearly
    cases h
    refine ⟨hfits.2, fun _ => ?_, hearly (fun h => by cases h) _, hs.revoked⟩
    rw [hfits.1]
    exact Function.update_self ..
  | note oldHash =>
    rw [hrot] at h hfits hearly hcleared
    cases h
    exact ⟨hfits, fun _ => hcleared rfl, hearly (fun h => by cases h) _, hs.revoked⟩
  | cache =>
    rw [hrot] at h hfits hearly hcleared
    cases h
    refine ⟨hfits, fun _ => ?_, hearly (fun h => by cases h) _, hs.revoked⟩
    exact (Function.update_of_ne keys.ne.symm _ _).trans (hcleared rfl)
  | _ =>
    rw [hrot] at h
    cases h

/-- A statement of a call leaves the row and the rotation. -/
theorem store_same (s : State) (keyHash : String) (ok : Bool) (point : Point) :
    ∃ auth, s.store keyHash ok point = { s with auth } := by
  unfold State.store
  split
  · split
    · exact ⟨_, rfl⟩
    · exact ⟨_, rfl⟩
  · exact ⟨_, rfl⟩

/-- The cache after a statement of a call. -/
theorem Fenced.stored (hs : Fenced keys s) {p : Pid} {ok : Bool} {call : Call}
    (hcall : s.calls.find p = some call) (hc : notOvertaken keys s (.next p ok) = true)
    (hdel : s.rotation.deleted = true) :
    (s.store call.keyHash ok call.point).auth keys.old = none := by
  have hnone := hs.cleared hdel
  cases hpoint : call.point with
  | set user =>
    simp only [State.store]
    split
    · next hok =>
      have hne : call.keyHash ≠ keys.old := by
        simpa [notOvertaken, hcall, hpoint, hok, hdel] using hc
      exact (Function.update_of_ne hne.symm _ _).trans hnone
    · exact hnone
  | _ => exact hnone

/-- What a late call with the old key comes to. -/
theorem Fenced.issued (hs : Fenced keys s) {p : Pid} {ok : Bool} {call : Call}
    (hcall : s.calls.find p = some call) (hlate : call.late = true)
    (hold : call.keyHash = keys.old) :
    (∀ user, s.issue call.keyHash ok call.point ≠ .goOn (.set user)) ∧
      ∀ user, s.issue call.keyHash ok call.point ≠ .answer (.authenticated user) := by
  obtain ⟨hret, hpoint⟩ := hs.calls _ (Pending.find_iff.mp hcall) hlate
  have hfits := hs.fits
  have hcleared := hs.cleared
  rw [hret] at hfits hcleared
  have hmiss : Expiring.get s.auth s.now keys.old = none := Expiring.get_none (hcleared rfl)
  have hhash : s.row.apiKeyHash ≠ keys.old := fun h => keys.ne (hfits.symm.trans h)
  rw [hold]
  cases hp : call.point with
  | get => simp [State.issue, hmiss]
  | select => cases ok <;> simp [State.issue, hhash]
  | set user => exact absurd hp (hpoint hold user)
  | rotated =>
    simp only [State.issue]
    split <;> simp

theorem Fenced.after (hs : Fenced keys s) (hc : notOvertaken keys s a = true)
    (h : step keys s a = some s') : Fenced keys s' := by
  cases a with
  | tick d =>
    cases h
    exact ⟨hs.fits, hs.cleared, hs.calls, hs.revoked⟩
  | call p keyHash =>
    obtain ⟨calls, hcalls, rfl⟩ := Option.map_eq_some_iff.mp h
    refine ⟨hs.fits, hs.cleared, fun y hy => ?_, hs.revoked⟩
    rw [Pending.enter_some hcalls] at hy
    rcases List.mem_cons.mp hy with rfl | hy
    · exact fun hlate => ⟨of_decide_eq_true hlate, fun _ _ h => (by cases h)⟩
    · exact hs.calls y hy
  | regenerate =>
    simp only [step] at h
    split at h
    · next hidle =>
      cases h
      have hfits := hs.fits
      rw [hidle] at hfits
      exact ⟨hfits, fun h => (by cases h), hs.early (by rw [hidle]; exact fun h => (by cases h)) _,
        hs.revoked⟩
    · cases h
  | rotation ok =>
    obtain ⟨s₁, hrot, rfl⟩ := Option.map_eq_some_iff.mp h
    cases ok with
    | true => exact hs.rotate hrot
    | false =>
      refine ⟨trivial, fun h => (by cases h), hs.early (fun hret => ?_) _, hs.revoked⟩
      rw [hret] at hrot
      cases hrot
  | next p ok =>
    obtain ⟨call, hcall, rfl⟩ := Option.map_eq_some_iff.mp h
    obtain ⟨auth, hstore⟩ := store_same s call.keyHash ok call.point
    have hauth (hdel : s.rotation.deleted = true) : auth keys.old = none := by
      have hnone := hs.stored hcall hc hdel
      rwa [hstore] at hnone
    have left (y : Pid × Call) (hy : y ∈ (s.calls.proceed p none).entries) :
        y.2.Barred keys s.rotation := by
      rcases Pending.mem_proceed.mp hy with ⟨_, heq, -⟩ | ⟨hy, -⟩
      · cases heq
      · exact hs.calls y hy
    simp only [hstore]
    cases hnext : s.issue call.keyHash ok call.point with
    | goOn point =>
      refine ⟨hs.fits, hauth, fun y hy => ?_, hs.revoked⟩
      rcases Pending.mem_proceed.mp hy with ⟨_, heq, rfl⟩ | ⟨hy, -⟩
      · cases heq
        intro hlate
        refine ⟨(hs.calls _ (Pending.find_iff.mp hcall) hlate).1, fun hold user hset => ?_⟩
        exact (hs.issued hcall hlate hold).1 user (hnext.trans (congrArg Next.goOn hset))
      · exact hs.calls y hy
    | raise => exact ⟨hs.fits, hauth, left, hs.revoked⟩
    | answer outcome =>
      refine ⟨hs.fits, hauth, left, fun r hr hlate hold => ?_⟩
      rcases List.mem_cons.mp hr with rfl | hr
      · cases outcome with
        | unauthorized e => exact ⟨e, rfl⟩
        | authenticated user => exact absurd hnext ((hs.issued hcall hlate hold).2 user)
      · exact hs.revoked r hr hlate hold

/-- The old key is revoked in every run in which no call writes to Redis, after the rotation's DEL, a
row that it read before the rotation's COMMIT. -/
theorem key_revoked {now : Time} {user : AuthenticatedUser}
    {auth : Expiring.Store String AuthenticatedUser Time}
    {rotated : Expiring.Store String String Time} {as : List Action}
    (hr : Machine.run (step keys) (start keys now user auth rotated) as = some s)
    (hc : Machine.along (step keys) (notOvertaken keys) (start keys now user auth rotated) as =
      true) : Revoked keys s :=
  (Machine.invariant (start_fenced now user auth rotated)
    (fun _ _ _ hs hc h => hs.after hc h) hr hc).revoked

def exampleKeys : Keys := ⟨"5f1d", "a077", by decide, by decide⟩

def owner : AuthenticatedUser := ⟨7, "a@example.com", "free", 10, 300, 60⟩

/-- `regenerate_key` without a failure. -/
def regeneration : List Action :=
  [.regenerate, .rotation true, .rotation true, .rotation true, .rotation true, .rotation true]

/-- A call misses the cache and finds the row; the key is regenerated; the call caches the user. A
second later another one finds it there. -/
def overtaken : List Action :=
  [.call 1 "5f1d", .next 1 true, .next 1 true] ++ regeneration ++
    [.next 1 true, .tick 1000000, .call 2 "5f1d", .next 2 true]

theorem old_key_authenticates : ∃ s,
    Machine.run (step exampleKeys)
        (start exampleKeys 0 owner (fun _ => none) fun _ => none) overtaken = some s ∧
      s.rotation = .returned ∧
      s.replies = [⟨"5f1d", true, .authenticated owner⟩, ⟨"5f1d", false, .authenticated owner⟩] ∧
      ¬ Revoked exampleKeys s := by
  refine ⟨_, rfl, rfl, rfl, fun h => ?_⟩
  obtain ⟨e, he⟩ := h _ List.mem_cons_self rfl rfl
  cases he

/-- The call caches the user before the key is deleted there. -/
def inTurn : List Action :=
  [.call 1 "5f1d", .next 1 true, .next 1 true, .next 1 true] ++ regeneration ++
    [.call 2 "5f1d", .next 2 true, .next 2 true, .next 2 true]

theorem key_revoked_in_turn : ∃ s,
    Machine.run (step exampleKeys)
        (start exampleKeys 0 owner (fun _ => none) fun _ => none) inTurn = some s ∧
      s.replies = [⟨"5f1d", true, .unauthorized keyRotated⟩,
        ⟨"5f1d", false, .authenticated owner⟩] ∧ Revoked exampleKeys s :=
  ⟨_, rfl, rfl, @key_revoked exampleKeys _ 0 owner (fun _ => none) (fun _ => none) inTurn rfl
    (by decide)⟩

end CueApi.KeyRotation
