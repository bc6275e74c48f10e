import CueApi.Library.Snapshot
import CueApi.Scheduler.World

/-! A device code after `submit_email`: `poll_device_code` and `verify_token` of
`app/services/device_code_service.py` and `create_session` of `app/routers/auth_routes.py`, each a
SELECT and, by what it has seen, the COMMIT of an UPDATE by id. -/

namespace CueApi.SignIn

open Scheduler (Time UserId ApiError Pid seconds)
open Snapshot Trace

inductive Status
  | pending | emailSent | approved | claimed | expired
  deriving DecidableEq, Repr

structure DeviceCode where
  email : Option String
  status : Status
  apiKeyPlaintext : Option String := none
  verificationToken : Option String := none
  sessionToken : Option String := none
  userId : Option UserId := none
  expiresAt : Time
  deriving DecidableEq, Repr

/-- What `verify_token` draws, and the id of the user that it may create. -/
structure Drawn where
  sessionToken : String
  apiKey : String
  userId : UserId
  apiKey_ne : apiKey ≠ "" := by decide
  deriving DecidableEq, Repr

/-- A request with the clock after its SELECT, and what it finds outside the row: `stored` is the
user's key, when it is there and decrypts; `account` is the user of the address; `user` is the
address of the user of the row; `jwt` is what `create_session_jwt` makes, unless no secret is
configured. -/
inductive Request
  | poll (now : Time) (stored : Option String)
  | verify (now : Time) (token : String) (account : Option UserId) (drawn : Drawn)
  | session (now : Time) (token : String) (user jwt : Option String)
  deriving DecidableEq, Repr

inductive Reply
  | status (s : Status)
  | approved (email apiKey sessionToken : Option String) (existingUser : Bool)
  | verifyError (text : String)
  | verified (existingUser : Bool) (email apiKey : Option String) (sessionToken : String)
  | session (sessionToken email : String)
  | refused (e : ApiError)
  | sessionSecretMissing
  deriving DecidableEq, Repr

/-- The UPDATEs, with the secret that goes out with them. -/
inductive Update
  | expire
  | claim (apiKey : String)
  | claimExisting
  | approve (plaintext : Option String) (sessionToken : String) (user : UserId)
  | exchange (sessionToken : String) (issued : Bool)
  deriving DecidableEq, Repr

/-- Python's truth of an optional string. -/
def truthy (s : Option String) : Option String := s.filter fun s => s ≠ ""

def pollDeviceCode (now : Time) (stored : Option String) (dc : DeviceCode) :
    Reply × Option Update :=
  if dc.expiresAt < now then
    (.status .expired,
      if dc.status ∉ [.expired, .claimed, .approved] then some .expire else none)
  else if dc.status = .approved then
    match truthy dc.apiKeyPlaintext with
    | some apiKey =>
        (.approved dc.email (some apiKey) (truthy dc.sessionToken) false, some (.claim apiKey))
    | none =>
        match dc.userId.bind fun _ => stored with
        | some apiKey =>
            (.approved dc.email (some apiKey) (truthy dc.sessionToken) false, some .claimExisting)
        | none => (.approved dc.email none (truthy dc.sessionToken) true, some .claimExisting)
  else (.status dc.status, none)

def verifyToken (now : Time) (token : String) (account : Option UserId) (drawn : Drawn)
    (dc : DeviceCode) : Reply × Option Update :=
  if dc.expiresAt < now then (.verifyError "Device code expired", none)
  else if dc.status ≠ .emailSent then (.verifyError "Invalid device code status", none)
  else if dc.verificationToken ≠ some token then
    (.verifyError "Invalid verification token", none)
  else
    match account with
    | some user =>
        (.verified true dc.email none drawn.sessionToken,
          some (.approve none drawn.sessionToken user))
    | none =>
        (.verified false dc.email (some drawn.apiKey) drawn.sessionToken,
          some (.approve (some drawn.apiKey) drawn.sessionToken drawn.userId))

def invalidToken : ApiError := ⟨"invalid_token", "Invalid or expired session token", 401⟩

def userNotFound : ApiError := ⟨"user_not_found", "User not found", 401⟩

def createSession (token : String) (user jwt : Option String) (dc : DeviceCode) :
    Reply × Option Update :=
  if dc.sessionToken = some token ∧ dc.status ∈ [.approved, .claimed] ∧ dc.userId.isSome then
    match user, jwt with
    | none, _ => (.refused userNotFound, none)
    | some _, none => (.sessionSecretMissing, some (.exchange token false))
    | some email, some jwt => (.session jwt email, some (.exchange token true))
  else (.refused invalidToken, none)

def Request.serve : Request → DeviceCode → Reply × Option Update
  | .poll now stored => pollDeviceCode now stored
  | .verify now token account drawn => verifyToken now token account drawn
  | .session _ token user jwt => createSession token user jwt

def Update.apply : Update → DeviceCode → DeviceCode
  | .expire, dc => { dc with status := .expired }
  | .claim _, dc => { dc with status := .claimed, apiKeyPlaintext := none }
  | .claimExisting, dc => { dc with status := .claimed }
  | .approve plaintext sessionToken user, dc =>
      { dc with
        apiKeyPlaintext := plaintext
        status := .approved
        verificationToken := none
        sessionToken := some sessionToken
        userId := some user }
  | .exchange _ _, dc => { dc with sessionToken := none }

/-- A new key, an approval or a JWT. -/
def Update.grants : Update → Bool
  | .claim _ | .approve _ _ _ | .exchange _ true => true
  | _ => false

def service : Service DeviceCode Request Update where
  decide req dc := (req.serve dc).2
  write := Update.apply
  grants := Update.grants

abbrev Log := List (Served DeviceCode Request Time)

def reply (x : Served DeviceCode Request Time) : Reply := (x.req.serve x.seen).1

/-- The key in a poll's response. -/
def Reply.polledKey : Reply → Option String
  | .approved _ apiKey _ _ => apiKey
  | _ => none

/-- The key that `verify_token` has made. -/
def Reply.newKey : Reply → Option String
  | .verified _ _ apiKey _ => apiKey
  | _ => none

def Reply.approves : Reply → Bool
  | .verified _ _ _ _ => true
  | _ => false

def Reply.issues : Reply → Bool
  | .session _ _ => true
  | _ => false

def Request.sends (token : String) : Request → Bool
  | .session _ t _ _ => t = token
  | _ => false

def carries (key : String) (x : Served DeviceCode Request Time) : Bool :=
  (reply x).polledKey = some key

def approves (x : Served DeviceCode Request Time) : Bool := (reply x).approves

/-- `create_session` gives a JWT for this one-time token. -/
def exchanges (token : String) (x : Served DeviceCode Request Time) : Bool :=
  x.req.sends token && (reply x).issues

/-- The key has been made for this code. -/
def generated (log : Log) (key : String) : Prop := ∃ y ∈ log, (reply y).newKey = some key

/-- The code's secrets work once, and until it expires. -/
structure OneTime (expiresAt : Time) (log : Log) : Prop where
  key : ∀ key, generated log key → log.countP (carries key) ≤ 1
  session : ∀ token, log.countP (exchanges token) ≤ 1
  verification : log.countP approves ≤ 1
  inTime : ∀ x ∈ log, (approves x = true ∨ (∃ token, exchanges token x = true) ∨
    ∃ key, generated log key ∧ carries key x = true) → x.time ≤ expiresAt

/-- A request that grants something is not overtaken by the expiry either: it ends in time if its
SELECT was, and a session token is sent in time. -/
def beforeExpiry (x : Served DeviceCode Request Time) : Bool :=
  (service.decide x.req x.seen).all fun u => !u.grants ||
    match x.req with
    | .poll now _ | .verify now _ _ _ => x.seen.expiresAt < now || x.time ≤ x.seen.expiresAt
    | .session now _ _ _ =>
        now ≤ x.seen.expiresAt && x.time ≤ x.seen.expiresAt

/-- The reply carries no secret. -/
def Reply.silent (reply : Reply) : Bool :=
  reply.polledKey.isNone && !reply.approves && !reply.issues

/-- The inversion of a request. -/
inductive Serves (dc : DeviceCode) : Request → Reply → Option Update → Prop
  | silent (req : Request) (reply : Reply) : reply.silent = true → Serves dc req reply none
  | expire (now : Time) (stored : Option String) : dc.expiresAt < now →
      dc.status ∉ [.expired, .claimed, .approved] →
      Serves dc (.poll now stored) (.status .expired) (some .expire)
  | claim (now : Time) (stored : Option String) (apiKey : String) : dc.expiresAt ≥ now →
      dc.status = .approved → truthy dc.apiKeyPlaintext = some apiKey →
      Serves dc (.poll now stored)
        (.approved dc.email (some apiKey) (truthy dc.sessionToken) false) (some (.claim apiKey))
  | claimExisting (now : Time) (stored apiKey : Option String) (existing : Bool) :
      dc.status = .approved → truthy dc.apiKeyPlaintext = none →
      Serves dc (.poll now stored)
        (.approved dc.email apiKey (truthy dc.sessionToken) existing) (some .claimExisting)
  | approve (now : Time) (token : String) (account : Option UserId) (drawn : Drawn)
      (existing : Bool) (apiKey : Option String) (user : UserId) : dc.expiresAt ≥ now →
      dc.status = .emailSent → (∀ key, apiKey = some key → key ≠ "") →
      Serves dc (.verify now token account drawn)
        (.verified existing dc.email apiKey drawn.sessionToken)
        (some (.approve apiKey drawn.sessionToken user))
  | unissued (now : Time) (token : String) (user jwt : Option String) (reply : Reply) :
      reply.silent = true → Serves dc (.session now token user jwt) reply
        (some (.exchange token false))
  | exchange (now : Time) (token : String) (user jwt : Option String) (secret email : String) :
      dc.sessionToken = some token → dc.status ∈ [.approved, .claimed] →
      Serves dc (.session now token user jwt) (.session secret email)
        (some (.exchange token true))

theorem serves (req : Request) (dc : DeviceCode) :
    Serves dc req (req.serve dc).1 (req.serve dc).2 := by
  cases req with
  | poll now stored =>
    simp only [Request.serve, pollDeviceCode]
    split
    · next hlate =>
      by_cases hst : dc.status ∉ [.expired, .claimed, .approved]
      · rw [if_pos hst]
        exact .expire now stored hlate hst
      · rw [if_neg hst]
        exact .silent _ _ rfl
    · next hnow =>
      split
      · next hst =>
        cases hkey : truthy dc.apiKeyPlaintext with
        | some apiKey => exact .claim now stored apiKey (Int.not_lt.mp hnow) hst hkey
        | none =>
          cases dc.userId.bind fun _ => stored with
          | some apiKey => exact .claimExisting now stored (some apiKey) false hst hkey
          | none => exact .claimExisting now stored none true hst hkey
      · exact .silent _ _ rfl
  | verify now token account drawn =>
    simp only [Request.serve, verifyToken]
    split
    · exact .silent _ _ rfl
    · next hnow =>
      split
      · exact .silent _ _ rfl
      · next hst =>
        split
        · exact .silent _ _ rfl
        · have hst := Decidable.not_not.mp hst
          cases account with
          | some user =>
            exact .approve now token (some user) drawn true none user (Int.not_lt.mp hnow) hst
              fun _ h => (by cases h)
          | none =>
            refine .approve now token none drawn false (some drawn.apiKey) drawn.userId
              (Int.not_lt.mp hnow) hst fun key hkey => ?_
            cases hkey
            exact drawn.apiKey_ne
  | session now token user jwt =>
    simp only [Request.serve, createSession]
    split
    · next hcond =>
      cases user with
      | none => exact .silent _ _ rfl
      | some email =>
        cases jwt with
        | none => exact .unissued now token _ _ _ rfl
        | some jwt => exact .exchange now token _ _ jwt email hcond.1 hcond.2.1
    · exact .silent _ _ rfl

variable {dc : DeviceCode} {req : Request} {rep : Reply} {u : Update} {update : Option Update}
  {log log₀ : Log} {key token : String} {x : Served DeviceCode Request Time}

/-! ## What the replies tell of the UPDATEs -/

theorem Serves.approves (hs : Serves dc req rep update) (h : rep.approves = true) :
    ∃ apiKey token user, update = some (.approve apiKey token user) := by
  cases hs with
  | approve => exact ⟨_, _, _, rfl⟩
  | silent req reply hno => simp_all [Reply.silent]
  | unissued now token user jwt reply hno => simp_all [Reply.silent]
  | _ => cases h

theorem Serves.newKey (hs : Serves dc req rep update) (h : rep.newKey = some key) :
    key ≠ "" ∧ ∃ token user, update = some (.approve (some key) token user) := by
  have happ : rep.approves = true := by
    cases rep <;> first | rfl | cases h
  cases hs with
  | approve now token account drawn existing apiKey user hnow hst hne =>
    obtain rfl : apiKey = some key := h
    exact ⟨hne key rfl, _, _, rfl⟩
  | silent req reply hno => simp_all [Reply.silent]
  | unissued now token user jwt reply hno => simp_all [Reply.silent]
  | _ => cases h

theorem Serves.issues (hs : Serves dc req rep update) (hsends : req.sends token = true)
    (h : rep.issues = true) : update = some (.exchange token true) := by
  cases hs with
  | exchange now t user jwt secret email htoken hst =>
    obtain rfl : t = token := by simpa [Request.sends] using hsends
    rfl
  | silent req reply hno => simp_all [Reply.silent]
  | unissued now token user jwt reply hno => simp_all [Reply.silent]
  | _ => cases h

theorem Serves.polledKey (hs : Serves dc req rep update) (h : rep.polledKey = some key) :
    update = some (.claim key) ∨ update = some .claimExisting := by
  cases hs with
  | claim now stored apiKey hnow hst hkey =>
    obtain rfl : apiKey = key := by simpa [Reply.polledKey] using h
    exact .inl rfl
  | claimExisting => exact .inr rfl
  | silent req reply hno => simp_all [Reply.silent]
  | unissued now token user jwt reply hno => simp_all [Reply.silent]
  | _ => cases h

/-- What the row was like when the UPDATE was decided. -/
def Update.due (dc : DeviceCode) : Update → Prop
  | .expire => True
  | .claim apiKey => dc.status = .approved ∧ truthy dc.apiKeyPlaintext = some apiKey
  | .claimExisting => dc.status = .approved ∧ truthy dc.apiKeyPlaintext = none
  | .approve _ _ _ => dc.status = .emailSent
  | .exchange token issued => issued = true →
      dc.sessionToken = some token ∧ dc.status ∈ [.approved, .claimed]

theorem Serves.due (hs : Serves dc req rep (some u)) : u.due dc := by
  cases hs with
  | expire => trivial
  | claim now stored apiKey hnow hst hkey => exact ⟨hst, hkey⟩
  | claimExisting now stored apiKey existing hst hkey => exact ⟨hst, hkey⟩
  | approve now token account drawn existing apiKey user hnow hst hne => exact hst
  | unissued => exact fun h => (by cases h)
  | exchange now token user jwt secret email htoken hst => exact fun _ => ⟨htoken, hst⟩

theorem decide_due (h : service.decide req dc = some u) : u.due dc := by
  have hs := serves req dc
  rw [show (req.serve dc).2 = some u from h] at hs
  exact hs.due

/-! ## Once -/

def Update.isApprove : Update → Bool
  | .approve _ _ _ => true
  | _ => false

def Update.isClaim : Update → Bool
  | .claim _ => true
  | _ => false

def Update.isExchange (token : String) : Update → Bool
  | .exchange t true => t = token
  | _ => false

/-- It holds of codes that have been approved, or never will be, and no UPDATE but an approval could
end it. -/
structure Lasting (Q : DeviceCode → Prop) : Prop where
  unsent : ∀ dc, Q dc → dc.status ≠ .emailSent
  rest : ∀ dc (u : Update), u.isApprove = false → Q dc → Q (u.apply dc)

variable {Q : DeviceCode → Prop}

theorem Lasting.keep (hQ : Lasting Q) (req : Request) (dc : DeviceCode) (u : Update) (h : Q dc)
    (hd : service.decide req dc = some u) : Q (service.write u dc) := by
  refine hQ.rest dc u ?_ h
  cases u with
  | approve => exact absurd (decide_due hd) (hQ.unsent dc h)
  | _ => rfl

theorem Lasting.free (hQ : Lasting Q) (dc : DeviceCode) (u : Update) (h : Q dc)
    (hg : service.grants u = false) : Q (service.write u dc) := by
  refine hQ.rest dc u ?_ h
  cases u with
  | approve => cases hg
  | _ => rfl

theorem lasting_unsent : Lasting fun dc => dc.status ≠ .emailSent := by
  refine ⟨fun _ h => h, fun dc u hu h => ?_⟩
  cases u with
  | approve => cases hu
  | exchange => exact h
  | _ => exact fun h => (by cases h)

theorem lasting_claimed : Lasting fun dc => dc.status ∉ [.emailSent, .approved] := by
  refine ⟨fun dc h hst => h (by simp [hst]), fun dc u hu h => ?_⟩
  cases u with
  | approve => cases hu
  | exchange => exact h
  | _ => simp [Update.apply]

theorem lasting_exchanged (token : String) :
    Lasting fun dc => dc.status ≠ .emailSent ∧ dc.sessionToken ≠ some token := by
  refine ⟨fun _ h => h.1, fun dc u hu h => ⟨lasting_unsent.rest dc u hu h.1, ?_⟩⟩
  cases u with
  | approve => cases hu
  | exchange => exact fun h => (by cases h)
  | _ => exact h.2

/-- A code approved with a new key is not claimed without it. -/
theorem lasting_keyed : Lasting fun dc =>
    dc.status ≠ .emailSent ∧ (dc.status = .approved → truthy dc.apiKeyPlaintext ≠ none) := by
  refine ⟨fun _ h => h.1, fun dc u hu h => ⟨lasting_unsent.rest dc u hu h.1, ?_⟩⟩
  cases u with
  | approve => cases hu
  | exchange => exact h.2
  | _ => exact fun h => (by cases h)

section

variable (hl : Along (service.Follows dc) log) (hc : service.Confirmed log)

include hl hc

theorem Lasting.replay (hQ : Lasting Q) (hs : log₀ <:+ log) (h : Q (service.replay dc log₀)) :
    Q (service.replay dc log) :=
  replay_invariant hQ.keep hQ.free hl hc hs h

theorem approved_once : log.countP (service.granted Update.isApprove) ≤ 1 := by
  have hQ := lasting_unsent
  refine (granted_once (fun u h => ?_) (fun req dc u _ h => ?_) hQ.keep hQ.free
    (fun req dc u hdc hd => ?_) hl hc).1
  · cases u with
    | approve => rfl
    | _ => cases h
  · cases u with
    | approve => exact fun h => (by cases h)
    | _ => cases h
  · have hdue := decide_due hd
    cases u with
    | approve => exact absurd hdue hdc
    | _ => rfl

theorem claimed_once : log.countP (service.granted Update.isClaim) ≤ 1 := by
  have hQ := lasting_claimed
  refine (granted_once (fun u h => ?_) (fun req dc u _ h => ?_) hQ.keep hQ.free
    (fun req dc u hdc hd => ?_) hl hc).1
  · cases u with
    | claim => rfl
    | _ => cases h
  · cases u with
    | claim => simp [service, Update.apply]
    | _ => cases h
  · have hdue := decide_due hd
    cases u with
    | claim => exact absurd (by simp [hdue.1]) hdc
    | _ => rfl

theorem exchanged_once (token : String) :
    log.countP (service.granted (Update.isExchange token)) ≤ 1 := by
  have hQ := lasting_exchanged token
  have issued {u : Update} (h : u.isExchange token = true) : u = .exchange token true := by
    cases u with
    | exchange t issued =>
      cases issued with
      | true => simpa [Update.isExchange] using h
      | false => cases h
    | _ => cases h
  refine (granted_once (fun u h => ?_) (fun req dc u hd h => ?_) hQ.keep hQ.free
    (fun req dc u hdc hd => ?_) hl hc).1
  · rw [issued h]
    rfl
  · rw [issued h] at hd ⊢
    obtain ⟨-, hst⟩ := decide_due hd rfl
    refine ⟨fun h => ?_, fun h => (by cases h)⟩
    rw [show dc.status = .emailSent from h] at hst
    simp at hst
  · by_contra hg
    have heq : u = .exchange token true := issued (by simpa using hg)
    rw [heq] at hd
    exact hdc.2 (decide_due hd rfl).1

/-- Once the code is approved with a new key, every claim is a claim of that key, and before there
is none. -/
theorem claims_new_key (hgen : generated log key) {x : Served DeviceCode Request Time}
    (hx : x ∈ log) : service.decide x.req x.seen ≠ some .claimExisting := by
  obtain ⟨y, hy, hkey⟩ := hgen
  obtain ⟨hne, token, user, hd⟩ := (serves y.req y.seen).newKey hkey
  obtain ⟨early, hearly⟩ := mem_split hy
  obtain ⟨log₁, hlog₁⟩ := mem_split hx
  obtain ⟨log₀, hlog₀, hseen⟩ := (hl.at hlog₁).seen
  have hlog₀ : log₀ <:+ log := hlog₀.trans ((List.suffix_cons _ _).trans hlog₁)
  have confirmed {log₀ : Log} (hs : log₀ <:+ log) : service.Confirmed log₀ :=
    fun z hz => hc z (hs.subset hz)
  intro hclaim
  obtain ⟨hst, hnone⟩ := decide_due hclaim
  rw [hseen] at hst hnone
  have hcases : y :: early <:+ log₀ ∨ log₀ <:+ early := by
    rcases List.suffix_or_suffix_of_suffix hearly hlog₀ with hsuf | hsuf
    · exact .inl hsuf
    · rcases List.suffix_cons_iff.mp hsuf with rfl | hsuf
      · exact .inl (List.suffix_refl _)
      · exact .inr hsuf
  rcases hcases with hsuf | hsuf
  · -- it was approved with the key before
    have hkeyed := lasting_keyed.replay (hl.suffix hlog₀) (confirmed hlog₀) hsuf (by
      simp only [Service.replay, show service.decide y.req y.seen = _ from hd, Option.elim_some]
      refine ⟨fun h => (by cases h), fun _ => ?_⟩
      simp [service, Update.apply, truthy, Option.filter, hne])
    exact hkeyed.2 hst hnone
  · -- or it is approved with the key afterwards, and has been approved already
    have hmet := confirms_of_decide (hc y hy) hd rfl
    rw [(hl.at hearly).met] at hmet
    have hlate : early <:+ log := (List.suffix_cons _ _).trans hearly
    have hunsent := lasting_unsent.replay (hl.suffix hlate) (confirmed hlate) hsuf
      (fun h => by rw [hst] at h; cases h)
    exact hunsent (decide_due hmet)

end

/-! ## In time -/

theorem replay_expiresAt : (service.replay dc log).expiresAt = dc.expiresAt := by
  induction log with
  | nil => rfl
  | cons x log ih =>
    simp only [Service.replay]
    cases service.decide x.req x.seen with
    | none => exact ih
    | some u => cases u <;> exact ih

/-- What grants something ends before the code that it has seen expires. -/
theorem time_le (h : beforeExpiry x = true) (hd : service.decide x.req x.seen = some u)
    (hg : u.grants = true) : x.time ≤ x.seen.expiresAt := by
  have hs := serves x.req x.seen
  rw [show (x.req.serve x.seen).2 = some u from hd] at hs
  simp only [beforeExpiry, hd, Option.all_some, hg, Bool.not_true, Bool.false_or] at h
  generalize x.req = req, (x.req.serve x.seen).1 = rep at hs h
  cases hs with
  | claim now stored apiKey hnow => simpa [Int.not_lt.mpr hnow] using h
  | approve now token account drawn existing apiKey user hnow =>
    simpa [Int.not_lt.mpr hnow] using h
  | exchange => exact (by simpa using h : _ ∧ _).2
  | _ => cases hg

/-- Sign-in secrets work once, and in time, in every run in which no request that grants something
is overtaken, by another one or by the expiry, and no session token is sent after the expiry. -/
theorem sign_in_secrets_once {as : List (Action Pid Request Time)}
    {s : State Pid DeviceCode Request Time}
    (hr : Machine.run (step service) (start dc) as = some s)
    (hcond : Machine.along (step service)
      (fun s a => upToDate service s a && checked beforeExpiry s a) (start dc) as = true) :
    OneTime dc.expiresAt s.served := by
  rw [Machine.along_and, Bool.and_eq_true] at hcond
  have hc : service.Confirmed s.served := (checked_start hr).mpr hcond.1
  have htime := (checked_start hr).mpr hcond.2
  have hl := ((Logged.start dc).run hr).log
  have claims {key : String} (hgen : generated s.served key) {x : Served DeviceCode Request Time}
      (hx : x ∈ s.served) (hcar : carries key x = true) :
      service.decide x.req x.seen = some (.claim key) :=
    ((serves x.req x.seen).polledKey (of_decide_eq_true hcar)).resolve_right
      (claims_new_key hl hc hgen hx)
  have exchanged {token : String} {x : Served DeviceCode Request Time}
      (hex : exchanges token x = true) :
      service.decide x.req x.seen = some (.exchange token true) := by
    simp only [exchanges, Bool.and_eq_true] at hex
    exact (serves x.req x.seen).issues hex.1 hex.2
  constructor
  · intro key hgen
    refine (List.countP_mono_left fun x hx hcar => ?_).trans (claimed_once hl hc)
    simp [Service.granted, claims hgen hx hcar, Update.isClaim]
  · intro token
    refine (List.countP_mono_left fun x hx hex => ?_).trans (exchanged_once hl hc token)
    simp [Service.granted, exchanged hex, Update.isExchange]
  · refine (List.countP_mono_left fun x hx happ => ?_).trans (approved_once hl hc)
    obtain ⟨apiKey, token, user, hd⟩ := (serves x.req x.seen).approves happ
    simp [Service.granted, show service.decide x.req x.seen = _ from hd, Update.isApprove]
  · intro x hx hgrant
    obtain ⟨log₁, hlog₁⟩ := mem_split hx
    obtain ⟨log₀, -, hseen⟩ := (hl.at hlog₁).seen
    have hexp : x.seen.expiresAt = dc.expiresAt := by rw [hseen, replay_expiresAt]
    rw [← hexp]
    rcases hgrant with happ | ⟨token, hex⟩ | ⟨key, hgen, hcar⟩
    · obtain ⟨apiKey, token, user, hd⟩ := (serves x.req x.seen).approves happ
      exact time_le (htime x hx) hd rfl
    · exact time_le (htime x hx) (exchanged hex) rfl
    · exact time_le (htime x hx) (claims hgen hx hcar) rfl

/-- `submit_email` has sent the link of a code that is good for 15 minutes. -/
def emailSent : DeviceCode where
  email := some "a@example.com"
  status := .emailSent
  verificationToken := some "link"
  expiresAt := seconds 900

def drawn : Drawn := { sessionToken := "one-time", apiKey := "cue_sk_new", userId := 5 }

/-- Two polls see the approved code, both tabs exchange the session token, and a link opened twice is
seen twice before it is used. -/
def overlaps : List (Action Pid Request Time) :=
  [.select 1 (.verify (seconds 10) "link" none drawn),
    .select 2 (.verify (seconds 11) "link" (some 5) { drawn with sessionToken := "second" }),
    .finish 1 (seconds 12),
    .select 3 (.poll (seconds 13) none), .select 4 (.poll (seconds 13) none),
    .finish 3 (seconds 14), .finish 4 (seconds 14),
    .select 5 (.session (seconds 15) "one-time" (some "a@example.com") (some "jwt")),
    .select 6 (.session (seconds 15) "one-time" (some "a@example.com") (some "jwt")),
    .finish 5 (seconds 16), .finish 6 (seconds 16), .finish 2 (seconds 17)]

/-- The session token is exchanged a day later. -/
def late : List (Action Pid Request Time) :=
  [.select 1 (.verify (seconds 10) "link" none drawn), .finish 1 (seconds 12),
    .select 2 (.session (seconds 86400) "one-time" (some "a@example.com") (some "jwt")),
    .finish 2 (seconds 86401)]

theorem sign_in_secrets_reused :
    (∃ s, Machine.run (step service) (start emailSent) overlaps = some s ∧
      ¬ s.served.countP (carries "cue_sk_new") ≤ 1 ∧
      ¬ s.served.countP (exchanges "one-time") ≤ 1 ∧ ¬ s.served.countP approves ≤ 1 ∧
      ¬ OneTime (seconds 900) s.served) ∧
    ∃ s, Machine.run (step service) (start emailSent) late = some s ∧
      ¬ OneTime (seconds 900) s.served := by
  constructor
  · refine ⟨_, rfl, by decide, by decide, by decide, fun h => ?_⟩
    have hone := h.verification
    revert hone
    decide
  · refine ⟨_, rfl, fun h => ?_⟩
    have hin := h.inTime _ List.mem_cons_self (.inr (.inl ⟨"one-time", by decide⟩))
    revert hin
    decide

/-- The link is opened, the key polled and the token exchanged, one after the other. -/
def inTurn : List (Action Pid Request Time) :=
  [.select 1 (.verify (seconds 10) "link" none drawn), .finish 1 (seconds 12),
    .select 2 (.poll (seconds 13) none), .finish 2 (seconds 14),
    .select 3 (.session (seconds 15) "one-time" (some "a@example.com") (some "jwt")),
    .finish 3 (seconds 16)]

theorem sign_in_secrets_in_turn : ∃ s,
    Machine.run (step service) (start emailSent) inTurn = some s ∧
      s.served.map reply = [.session "jwt" "a@example.com",
        .approved (some "a@example.com") (some "cue_sk_new") (some "one-time") false,
        .verified false (some "a@example.com") (some "cue_sk_new") "one-time"] ∧
      OneTime (seconds 900) s.served :=
  ⟨_, rfl, by decide, @sign_in_secrets_once emailSent inTurn _ rfl (by decide)⟩

end CueApi.SignIn
