import CueApi.Accounts.Tables
import CueApi.Library.Expiring
import CueApi.Library.Recorded

/-! The shared state of accounts and its statements: the database, and what Redis keeps of
authenticated users, which is told by the record of its commands. -/

namespace CueApi.Accounts

open Scheduler (Time UserId ApiError Pid seconds keysWhere)
open ReadCommitted Interleaving
open SignIn (DeviceCode Status)
open KeyRotation (AuthenticatedUser)

/-! ## Settings and third parties -/

/-- The claims of a session JWT. -/
structure Claims where
  sub : UserId
  email : String
  type : String
  iat : Time
  exp : Time
  deriving DecidableEq, Repr

/-- `jwt.ExpiredSignatureError`, or another exception. -/
inductive JwtError
  | expired
  | invalid
  deriving DecidableEq, Repr

/-- `sha256` is the digest in hexadecimal; `fernet` decrypts, and `jwtEncode` and `jwtDecode` sign and
check, all with `SESSION_SECRET`; `validateCallbackUrl` is the text of its error. -/
structure Env where
  sha256 : String → String
  fernet : String → Option String
  jwtEncode : Claims → String
  jwtDecode : Time → String → Except JwtError Claims
  sessionSecret : Bool := true
  externalAuthBackend : Bool := false
  internalAuthToken : String := ""
  allowRegister : Bool := true
  baseUrl : String := ""
  uuid : String → Option UserId
  validateCallbackUrl : String → Option String := fun _ => none

/-- The headers that are read. -/
structure Headers where
  authorization : Option String := none
  onBehalfOf : Option String := none
  confirmDestructive : Option String := none
  deriving DecidableEq, Repr

/-! ## The record -/

inductive CacheKey
  | auth (keyHash : String)
  | session (user : UserId)
  | rotated (keyHash : String)
  deriving DecidableEq, Repr

inductive Cached
  | user (user : AuthenticatedUser)
  | flag
  deriving DecidableEq, Repr

/-- What a request is authenticated by. -/
inductive Credential
  | apiKey (key : String)
  | session (jwt : String)
  | internal
  deriving DecidableEq, Repr

inductive Call
  | authenticated (headers : Headers)
  | register (email : String)
  | regenerateKey (headers : Headers)
  | patchMe (headers : Headers) (email alertWebhookUrl : Option String)
  | refreshSession (headers : Headers)
  | revealKey (headers : Headers)
  | upsertUser (headers : Headers) (userId : String) (body : UserUpsert)
  | createDeviceCode (deviceCode : String)
  | pollDeviceCode (deviceCode : String)
  | submitEmail (deviceCode email : String)
  | verify (token deviceCode : String)
  | createSession (token : String)
  | cleanupDeviceCodes
  deriving DecidableEq, Repr

inductive Reply
  | error (e : ApiError)
  | user (user : AuthenticatedUser)
  | registered (apiKey email : String)
  | regenerated (apiKey : String)
  | updated (now : Time)
  | session (jwt email : String)
  | key (apiKey : Option String) (apiKeyPrefix message : String)
  | upserted (u : UserId) (row : User) (created : Bool)
  | deviceCode (verificationUrl : String) (expiresIn : Nat)
  | status (s : Status)
  | approved (email apiKey sessionToken : Option String) (existingUser : Bool)
  | emailSent
  | errorPage (text : String)
  | verifiedPage (email : Option String) (sessionToken : String)
  | cleaned (n : Nat)
  deriving DecidableEq, Repr

/-- What a process notes: the link it has mailed, the row of a code or of a user that it has seen, its
commands to Redis and what they found, whom it has identified, and the JWT it has signed. -/
inductive Mark
  | sent (email verificationToken deviceCode : String)
  | opened (r : CodeId) (row : DeviceCode) (now : Time)
  | found (u : UserId) (row : User) (now : Time)
  | set (key : CacheKey) (value : Cached) (now expires : Time)
  | deleted (key : CacheKey)
  | hit (key : CacheKey) (user : AuthenticatedUser) (now : Time)
  | identified (credential : Credential) (user : AuthenticatedUser)
  | issued (jwt : String) (claims : Claims)
  deriving DecidableEq, Repr

abbrev Event := Recorded.Event Pid Call Write Mark Reply

abbrev History := Recorded.History Pid Call Write Mark Reply

abbrev World := Recorded.World schema Pid Call Mark Reply Unit

/-- The entries of Redis after what has happened. -/
def cache : History → Expiring.Store CacheKey Cached Time
  | [] => fun _ => none
  | .marked _ (.set key value _ expires) :: h => Expiring.put (cache h) key value (some expires)
  | .marked _ (.deleted key) :: h => Expiring.del (cache h) key
  | _ :: h => cache h

/-! ## Statements -/

/-- What the outside decides in a step. A command to Redis works, fails, or works and its reply is
lost. -/
inductive Answer
  | go
  | fresh (id : Nat)
  | text (s : String)
  | bool (b : Bool)
  | redisError
  | replyLost
  deriving DecidableEq, Repr

abbrev Program := Prog World Answer

def note (w : World) (p : Pid) (mark : Mark) : World := w.log (.marked p mark)

def clock : Program Time := .step fun w _ => some (w.clock, w)

/-- A verdict from elsewhere. -/
def ask : Program Bool :=
  .step fun w a =>
    match a with
    | .bool b => some (b, w)
    | _ => none

/-- `secrets.token_hex` and `derive_user_slug`. -/
def draw : Program String :=
  .step fun w a =>
    match a with
    | .text s => some (s, w)
    | _ => none

/-- An id for a row to be. -/
def freshId : Program Nat :=
  .step fun w a =>
    match a with
    | .fresh id => some (id, w)
    | _ => none

/-- The user that a SELECT finds; `scalar_one_or_none` raises where there are several. -/
def selectUser (p : Pid) (wh : UserId → User → Bool) : Program (Option (UserId × User)) :=
  .step fun w _ =>
    let t := w.view p
    match keysWhere t.users wh with
    | [] => some (none, w)
    | [u] => (t.user u).map fun row => (some (u, row), note w p (.found u row w.clock))
    | _ => none

/-- The device code that a SELECT finds. -/
def selectCode (p : Pid) (wh : Code → Bool) : Program (Option (CodeId × Code)) :=
  .step fun w _ =>
    let t := w.view p
    match keysWhere t.codes fun _ code => wh code with
    | [] => some (none, w)
    | [r] => (t.code r).map fun code => (some (r, code), note w p (.opened r code.row w.clock))
    | _ => none

def write (p : Pid) (wr : Write) : Program Unit :=
  .step fun w _ => (w.store.write p wr).map fun s => ((), { w with store := s })

/-- Two rows of `users` have an entry of a unique index in common. -/
def User.clashes (row row' : User) : Bool :=
  row.email = row'.email || row.apiKeyHash = row'.apiKeyHash || row.slug = row'.slug

/-- The rows that an INSERT or an UPDATE of a user would collide with. -/
def clashing (t : Tables) (u : UserId) (row : User) : List UserId :=
  keysWhere t.users fun u' row' => u' ≠ u && row'.clashes row

/-- INSERT; false is an `IntegrityError`. It waits for whoever writes a row that it may collide
with. -/
def insertUser (p : Pid) (u : UserId) (row : User) : Program Bool :=
  .step fun w _ =>
    let t := w.view p
    if ∀ u' ∈ u :: clashing t u row, w.store.Free p (.user u') then
      if t.user u = none ∧ clashing t u row = [] then
        (w.store.write p (.insertUser u row)).map fun s => (true, { w with store := s })
      else some (false, w)
    else none

/-- UPDATE by id; false is an `IntegrityError`. -/
def updateUser (p : Pid) (u : UserId) (update : UserUpdate) : Program Bool :=
  .step fun w _ =>
    let t := w.view p
    let others := (t.user u).elim [] fun row => clashing t u (update.set row)
    if ∀ u' ∈ u :: others, w.store.Free p (.user u') then
      if others = [] then
        (w.store.write p (.updateUser u update)).map fun s => (true, { w with store := s })
      else some (false, w)
    else none

/-- INSERT of a device code; false is an `IntegrityError`. -/
def insertCode (p : Pid) (r : CodeId) (code : Code) : Program Bool :=
  .step fun w _ =>
    let t := w.view p
    let others := keysWhere t.codes fun _ code' => code'.deviceCode = code.deviceCode
    if ∀ r' ∈ r :: others, w.store.Free p (.code r') then
      if t.code r = none ∧ others = [] then
        (w.store.write p (.insertCode r code)).map fun s => (true, { w with store := s })
      else some (false, w)
    else none

def commit (p : Pid) : Program Unit := .step fun w _ => some ((), w.commit p)

def rollback (p : Pid) : Program Unit :=
  .step fun w _ => some ((), { w with store := w.store.rollback p })

/-! ## Redis -/

/-- `GET`; none is a missing key or an exception, which is passed over. -/
def getCached (p : Pid) (key : CacheKey) : Program (Option Cached) :=
  .step fun w a =>
    match a with
    | .go =>
        match Expiring.get (cache w.history) w.clock key with
        | some (.user user) => some (some (.user user), note w p (.hit key user w.clock))
        | found => some (found, w)
    | .redisError => some (none, w)
    | _ => none

/-- `SET … EX`; false is an exception. -/
def setCached (p : Pid) (key : CacheKey) (value : Cached) (ex : Nat) : Program Bool :=
  .step fun w a =>
    let done := note w p (.set key value w.clock (w.clock + seconds ex))
    match a with
    | .go => some (true, done)
    | .replyLost => some (false, done)
    | .redisError => some (false, w)
    | _ => none

/-- `DEL`; false is an exception. -/
def deleteCached (p : Pid) (key : CacheKey) : Program Bool :=
  .step fun w a =>
    match a with
    | .go => some (true, note w p (.deleted key))
    | .replyLost => some (false, note w p (.deleted key))
    | .redisError => some (false, w)
    | _ => none

end CueApi.Accounts
