import CueApi.Accounts.KeyRotation
import CueApi.Accounts.SignIn
import CueApi.Library.ReadCommitted

/-! The rows of accounts (`app/models/user.py` and `device_code.py`) and the statements of the sign-in,
of the keys and of the integrator's mirror that write them. -/

namespace CueApi.Accounts

open Scheduler (Time UserId Table insertNew modify lookup_insertNew lookup_modify)
open ReadCommitted
open SignIn (DeviceCode Status)
open KeyRotation (AuthenticatedUser)

/-- `device_codes.id`. -/
abbrev CodeId := Nat

/-- The columns of a user that these requests read. -/
structure User where
  email : String
  apiKeyHash : String
  apiKeyPrefix : String
  plan : String := "free"
  activeCueLimit : Nat := 10
  monthlyExecutionLimit : Nat := 300
  monthlyMessageLimit : Nat := 300
  rateLimitPerMinute : Nat := 60
  slug : String
  apiKeyEncrypted : Option String := none
  deriving DecidableEq, Repr

/-- `AuthenticatedUser` of a row. -/
def User.authenticated (row : User) (u : UserId) : AuthenticatedUser :=
  ⟨u, row.email, row.plan, row.activeCueLimit, row.monthlyExecutionLimit, row.rateLimitPerMinute⟩

/-- What the integrator sends of a user. -/
structure UserUpsert where
  email : String
  slug : String
  plan : Option String := none
  activeCueLimit : Option Nat := none
  monthlyExecutionLimit : Option Nat := none
  monthlyMessageLimit : Option Nat := none
  rateLimitPerMinute : Option Nat := none
  deriving DecidableEq, Repr

/-- The UPDATEs of `users`: of `regenerate_key`, of `patch_me` and of `upsert_user`. -/
inductive UserUpdate
  | rekey (apiKeyHash apiKeyPrefix : String) (apiKeyEncrypted : Option String)
  | patch (email : Option String)
  | upsert (body : UserUpsert)
  deriving DecidableEq, Repr

def UserUpdate.set : UserUpdate → User → User
  | .rekey apiKeyHash apiKeyPrefix apiKeyEncrypted, row =>
      { row with
        apiKeyHash := apiKeyHash
        apiKeyPrefix := apiKeyPrefix
        apiKeyEncrypted := apiKeyEncrypted.or row.apiKeyEncrypted }
  | .patch email, row => { row with email := email.getD row.email }
  | .upsert body, row =>
      { row with
        email := body.email
        slug := body.slug
        plan := body.plan.getD row.plan
        activeCueLimit := body.activeCueLimit.getD row.activeCueLimit
        monthlyExecutionLimit := body.monthlyExecutionLimit.getD row.monthlyExecutionLimit
        monthlyMessageLimit := body.monthlyMessageLimit.getD row.monthlyMessageLimit
        rateLimitPerMinute := body.rateLimitPerMinute.getD row.rateLimitPerMinute }

structure Code where
  deviceCode : String
  row : DeviceCode
  deriving DecidableEq, Repr

/-- The UPDATEs of `device_codes`. -/
inductive CodeUpdate
  | submit (email verificationToken : String)
  | expire
  | claim
  | claimExisting
  | approve (apiKeyPlaintext : Option String) (sessionToken : String) (user : UserId)
  | exchange
  deriving DecidableEq, Repr

def CodeUpdate.set : CodeUpdate → DeviceCode → DeviceCode
  | .submit email verificationToken, dc =>
      { dc with
        email := some email
        verificationToken := some verificationToken
        status := .emailSent }
  | .expire, dc => { dc with status := .expired }
  | .claim, dc => { dc with status := .claimed, apiKeyPlaintext := none }
  | .claimExisting, dc => { dc with status := .claimed }
  | .approve apiKeyPlaintext sessionToken user, dc =>
      { dc with
        apiKeyPlaintext := apiKeyPlaintext
        status := .approved
        verificationToken := none
        sessionToken := some sessionToken
        userId := some user }
  | .exchange, dc => { dc with sessionToken := none }

/-! ## Tables and writes -/

structure Tables where
  users : Table UserId User := ∅
  codes : Table CodeId Code := ∅

inductive Write
  | insertUser (u : UserId) (row : User)
  | updateUser (u : UserId) (update : UserUpdate)
  | insertCode (r : CodeId) (code : Code)
  | updateCode (r : CodeId) (update : CodeUpdate)
  | deleteCodes (rs : List CodeId)
  deriving DecidableEq, Repr

section Table

variable {K V : Type} [DecidableEq K]

/-- DELETE. -/
def removeAll (t : Table K V) (ks : List K) : Table K V := ks.foldl (fun t k => t.erase k) t

theorem lookup_removeAll (t : Table K V) (ks : List K) (j : K) :
    (removeAll t ks).lookup j = if j ∈ ks then none else t.lookup j := by
  induction ks generalizing t with
  | nil => simp [removeAll]
  | cons k ks ih =>
    rw [removeAll, List.foldl_cons, ← removeAll, ih]
    by_cases hk : j = k
    · subst hk
      simp
    · simp [hk, AList.lookup_erase_ne]

end Table

namespace Tables

def user (t : Tables) (u : UserId) : Option User := t.users.lookup u
def code (t : Tables) (r : CodeId) : Option Code := t.codes.lookup r

def apply : Write → Tables → Tables
  | .insertUser u row, t => { t with users := insertNew t.users u row }
  | .updateUser u update, t => { t with users := modify t.users u update.set }
  | .insertCode r code, t => { t with codes := insertNew t.codes r code }
  | .updateCode r update, t =>
      { t with codes := modify t.codes r fun code => { code with row := update.set code.row } }
  | .deleteCodes rs, t => { t with codes := removeAll t.codes rs }

theorem user_apply (w : Write) (t : Tables) (u : UserId) :
    (apply w t).user u = match w with
      | .insertUser u' row => if u = u' then (t.user u).or (some row) else t.user u
      | .updateUser u' update => if u = u' then (t.user u).map update.set else t.user u
      | _ => t.user u := by
  cases w <;> simp only [apply, user, lookup_insertNew, lookup_modify]

theorem code_apply (w : Write) (t : Tables) (r : CodeId) :
    (apply w t).code r = match w with
      | .insertCode r' code => if r = r' then (t.code r).or (some code) else t.code r
      | .updateCode r' update =>
          if r = r' then (t.code r).map fun code => { code with row := update.set code.row }
          else t.code r
      | .deleteCodes rs => if r ∈ rs then none else t.code r
      | _ => t.code r := by
  cases w <;> simp only [apply, code, lookup_insertNew, lookup_modify, lookup_removeAll]

end Tables

/-! ## Locks -/

/-- A row, or an entry of a unique index. -/
inductive Key
  | user (u : UserId)
  | email (email : String)
  | apiKeyHash (hash : String)
  | slug (slug : String)
  | code (r : CodeId)
  | deviceCode (deviceCode : String)
  deriving DecidableEq, Repr

/-- The entries that an UPDATE of a user may add. -/
def UserUpdate.entries : UserUpdate → List Key
  | .rekey apiKeyHash _ _ => [.apiKeyHash apiKeyHash]
  | .patch email => (email.map Key.email).toList
  | .upsert body => [.email body.email, .slug body.slug]

/-- The entries of a row of `users`. -/
def User.entries (row : User) : List Key :=
  [.email row.email, .apiKeyHash row.apiKeyHash, .slug row.slug]

def Write.keys : Write → List Key
  | .insertUser u row => .user u :: row.entries
  | .updateUser u update => .user u :: update.entries
  | .insertCode r code => [.code r, .deviceCode code.deviceCode]
  | .updateCode r _ => [.code r]
  | .deleteCodes rs => rs.map .code

def Key.Row : Key → Type
  | .user _ => Option User
  | .code _ => Option Code
  | _ => Unit

def Tables.row (t : Tables) : (k : Key) → k.Row
  | .user u => t.user u
  | .code r => t.code r
  | .email _ | .apiKeyHash _ | .slug _ | .deviceCode _ => ()

/-- The tables of accounts as a transactional database; an entry of an index is a lock and holds
nothing of its own. -/
def schema : Schema Key Tables Write where
  Row := Key.Row
  row k t := t.row k
  keys := Write.keys
  apply := Tables.apply
  row_apply w t k hk := by
    cases k with
    | user u =>
      change (Tables.apply w t).user u = t.user u
      rw [Tables.user_apply]
      cases w with
      | insertUser u' row => exact if_neg fun h => hk (by simp [Write.keys, h])
      | updateUser u' update => exact if_neg fun h => hk (by simp [Write.keys, h])
      | _ => rfl
    | code r =>
      change (Tables.apply w t).code r = t.code r
      rw [Tables.code_apply]
      cases w with
      | insertCode r' code => exact if_neg fun h => hk (by simp [Write.keys, h])
      | updateCode r' update => exact if_neg fun h => hk (by simp [Write.keys, h])
      | deleteCodes rs => exact if_neg fun h => hk (List.mem_map.mpr ⟨r, h, rfl⟩)
      | _ => rfl
    | _ => rfl

end CueApi.Accounts
