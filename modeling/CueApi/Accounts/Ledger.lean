import CueApi.Accounts.Requests

/-! The abstract level of accounts: histories. `Allowed` says of each event what the code guarantees at
that point, whatever the other processes do around it; one constructor of `Commits` is one transaction of
the source. -/

namespace CueApi.Accounts

open Scheduler (Time UserId ApiError Pid seconds)
open ReadCommitted Interleaving Trace Recorded
open SignIn (DeviceCode Status truthy)
open KeyRotation (AuthenticatedUser)

/-- The tables that a history leaves of `t₀`. -/
abbrev replayed (t₀ : Tables) (h : History) : Tables := replay schema t₀ h

/-- The headers of a request that is made for a user. -/
def Call.headers : Call → Option Headers
  | .authenticated headers | .regenerateKey headers | .patchMe headers _ _
  | .refreshSession headers | .revealKey headers => some headers
  | _ => none

/-- A text that encrypts the key, or none where no secret is configured. -/
def Encrypts (env : Env) (apiKey : String) (encrypted : Option String) : Prop :=
  (∀ c, encrypted = some c → decryptApiKey env c = some apiKey) ∧
    (encrypted = none → env.sessionSecret = false)

/-! ## Transactions -/

inductive Commits (env : Env) (t₀ : Tables) (h : History) (p : Pid) (time : Time) :
    Call → List Write → Prop
  | registered (email apiKey slug : String) (u : UserId) : (replayed t₀ h).user u = none →
      Commits env t₀ h p time (.register email)
        [.insertUser u (User.new env email apiKey slug none)]
  | rekeyed (headers : Headers) (credential : Credential) (user : AuthenticatedUser)
      (newKey : String) (newEncrypted : Option String) :
      .marked p (.identified credential user) ∈ h → Encrypts env newKey newEncrypted →
      Commits env t₀ h p time (.regenerateKey headers)
        [.updateUser user.id (.rekey (env.sha256 newKey) (getApiKeyPrefix newKey) newEncrypted)]
  | patched (headers : Headers) (email alertWebhookUrl : Option String) (credential : Credential)
      (user : AuthenticatedUser) : .marked p (.identified credential user) ∈ h →
      Commits env t₀ h p time (.patchMe headers email alertWebhookUrl)
        [.updateUser user.id (.patch email)]
  | mirrored (headers : Headers) (userId rawKey : String) (body : UserUpsert) (u : UserId) :
      (replayed t₀ h).user u = none →
      Commits env t₀ h p time (.upsertUser headers userId body) [.insertUser u (body.row env rawKey)]
  | upserted (headers : Headers) (userId : String) (body : UserUpsert) (u : UserId) :
      Commits env t₀ h p time (.upsertUser headers userId body) [.updateUser u (.upsert body)]
  | made (deviceCode : String) (r : CodeId) (expiresAt : Time) (deleted : List CodeId) :
      expiresAt ≤ time + seconds deviceCodeExpirySeconds →
      Commits env t₀ h p time (.createDeviceCode deviceCode)
        (.insertCode r ⟨deviceCode, { email := none, status := .pending, expiresAt := expiresAt }⟩ ::
          if deleted = [] then [] else [.deleteCodes deleted])
  | expired (deviceCode : String) (r : CodeId) :
      Commits env t₀ h p time (.pollDeviceCode deviceCode) [.updateCode r .expire]
  | claimed (deviceCode : String) (r : CodeId) (u : CodeUpdate) : u = .claim ∨ u = .claimExisting →
      Commits env t₀ h p time (.pollDeviceCode deviceCode) [.updateCode r u]
  | submitted (deviceCode email verificationToken : String) (r : CodeId) :
      Commits env t₀ h p time (.submitEmail deviceCode email)
        [.updateCode r (.submit email verificationToken)]
  | approved (token deviceCode sessionToken : String) (r : CodeId) (row : DeviceCode) (now : Time)
      (u : UserId) (account : User) (now' : Time) : .marked p (.opened r row now) ∈ h →
      now ≤ row.expiresAt → row.verificationToken = some token → .marked p (.found u account now') ∈ h →
      row.email = some account.email →
      Commits env t₀ h p time (.verify token deviceCode)
        [.updateCode r (.approve none sessionToken u)]
  | approvedNew (token deviceCode sessionToken email newApiKey slug : String) (r : CodeId)
      (row : DeviceCode) (now : Time) (u : UserId) (newEncrypted : Option String) :
      .marked p (.opened r row now) ∈ h → now ≤ row.expiresAt →
      row.verificationToken = some token → row.email = some email →
      Encrypts env newApiKey newEncrypted → (replayed t₀ h).user u = none →
      Commits env t₀ h p time (.verify token deviceCode)
        [.updateCode r (.approve (some newApiKey) sessionToken u),
          .insertUser u (User.new env email newApiKey slug newEncrypted)]
  | exchanged (token : String) (r : CodeId) :
      Commits env t₀ h p time (.createSession token) [.updateCode r .exchange]
  | cleaned (rs : List CodeId) : Commits env t₀ h p time .cleanupDeviceCodes [.deleteCodes rs]

/-! ## Notes -/

/-- Where a user that goes to Redis under the hash of a key comes from. -/
inductive Holds (h : History) (p : Pid) (keyHash : String) (user : AuthenticatedUser) : Prop
  | found (row : User) (now : Time) : .marked p (.found user.id row now) ∈ h →
      row.apiKeyHash = keyHash → user = row.authenticated user.id → Holds h p keyHash user
  | rekeyed (credential : Credential) (time : Time) (prefix' : String) (encrypted : Option String) :
      .marked p (.identified credential user) ∈ h →
      .commit p time [.updateUser user.id (.rekey keyHash prefix' encrypted)] ∈ h →
      Holds h p keyHash user

/-- What a request is made for a user upon. -/
inductive Identifies (env : Env) (h : History) (p : Pid) (call : Call) (user : AuthenticatedUser) :
    Credential → Prop
  | cachedKey (headers : Headers) (key : String) (now : Time) : call.headers = some headers →
      bearer headers.authorization = some key →
      .marked p (.hit (.auth (env.sha256 key)) user now) ∈ h → Identifies env h p call user (.apiKey key)
  | foundKey (headers : Headers) (key : String) (row : User) (now : Time) :
      call.headers = some headers → bearer headers.authorization = some key →
      .marked p (.found user.id row now) ∈ h → row.apiKeyHash = env.sha256 key →
      user = row.authenticated user.id → Identifies env h p call user (.apiKey key)
  | cachedSession (headers : Headers) (jwt : String) (now now' : Time) (claims : Claims) :
      call.headers = some headers → bearer headers.authorization = some jwt →
      decodeSessionJwt env now' jwt = .ok claims → .marked p (.hit (.session claims.sub) user now) ∈ h →
      Identifies env h p call user (.session jwt)
  | foundSession (headers : Headers) (jwt : String) (now now' : Time) (claims : Claims) (row : User) :
      call.headers = some headers → bearer headers.authorization = some jwt →
      decodeSessionJwt env now' jwt = .ok claims → .marked p (.found claims.sub row now) ∈ h →
      user = row.authenticated claims.sub → Identifies env h p call user (.session jwt)
  | internal (headers : Headers) (text : String) (row : User) (now : Time) :
      call.headers = some headers → env.externalAuthBackend = true → env.internalAuthToken ≠ "" →
      bearer headers.authorization = some env.internalAuthToken →
      headers.onBehalfOf = some text → env.uuid text = some user.id →
      .marked p (.found user.id row now) ∈ h → user = row.authenticated user.id →
      Identifies env h p call user .internal

/-- Whom `create_session_jwt` is called for. -/
inductive Signs (h : History) (p : Pid) : Call → UserId → Prop
  | refreshed (call : Call) (credential : Credential) (user : AuthenticatedUser) :
      .marked p (.identified credential user) ∈ h → Signs h p call user.id
  | exchanged (token : String) (r : CodeId) (row : DeviceCode) (now : Time) (u : UserId) :
      .marked p (.opened r row now) ∈ h → row.sessionToken = some token → row.userId = some u →
      Signs h p (.createSession token) u

/-- What a note says at its point. -/
def Marks (env : Env) (t₀ : Tables) (h : History) (p : Pid) (call : Call) : Mark → Prop
  | .sent email verificationToken deviceCode => call = .submitEmail deviceCode email ∧
      ∃ time r, .commit p time [.updateCode r (.submit email verificationToken)] ∈ h
  | .opened r row _ => ∃ deviceCode, (replayed t₀ h).code r = some ⟨deviceCode, row⟩
  | .found u row _ => (replayed t₀ h).user u = some row
  | .set (.auth keyHash) (.user user) now expires =>
      expires = now + seconds 300 ∧ Holds h p keyHash user
  | .set (.session u) (.user user) now expires => expires = now + seconds 300 ∧
      ∃ row now', .marked p (.found u row now') ∈ h ∧ user = row.authenticated u
  | .set (.rotated _) value _ _ => value = .flag
  | .set _ .flag _ _ => False
  | .deleted _ => True
  | .hit key user now => Expiring.get (cache h) now key = some (.user user)
  | .identified credential user => Identifies env h p call user credential
  | .issued jwt claims => jwt = env.jwtEncode claims ∧ Signs h p call claims.sub

/-! ## Replies -/

/-- What a reply hands over to enter an account with. -/
inductive Access
  | apiKey (key : String)
  | sessionToken (token : String)
  | jwt (jwt : String)
  deriving DecidableEq, Repr

def Reply.access : Reply → List Access
  | .registered apiKey _ | .regenerated apiKey => [.apiKey apiKey]
  | .session jwt _ => [.jwt jwt]
  | .key apiKey _ _ => apiKey.toList.map .apiKey
  | .approved _ apiKey sessionToken _ =>
      apiKey.toList.map .apiKey ++ sessionToken.toList.map .sessionToken
  | .verifiedPage _ sessionToken => [.sessionToken sessionToken]
  | _ => []

/-- The key of a user that a request reads from its row. -/
def Reads (env : Env) (h : History) (p : Pid) (u : UserId) (apiKey : String) : Prop :=
  ∃ row now c, .marked p (.found u row now) ∈ h ∧ row.apiKeyEncrypted = some c ∧
    decryptApiKey env c = some apiKey

def Returns (env : Env) (h : History) (p : Pid) : Call → Reply → Prop
  | .authenticated _, .user user => ∃ credential, .marked p (.identified credential user) ∈ h
  | .register email, .registered apiKey email' => email' = email ∧ ∃ time u slug,
      .commit p time [.insertUser u (User.new env email apiKey slug none)] ∈ h
  | .regenerateKey _, .regenerated apiKey => ∃ credential user time encrypted,
      .marked p (.identified credential user) ∈ h ∧ .commit p time [.updateUser user.id
        (.rekey (env.sha256 apiKey) (getApiKeyPrefix apiKey) encrypted)] ∈ h
  | .revealKey _, .key (some apiKey) _ _ => ∃ credential user,
      .marked p (.identified credential user) ∈ h ∧ Reads env h p user.id apiKey
  | .refreshSession _, .session jwt _ | .createSession _, .session jwt _ =>
      ∃ claims, .marked p (.issued jwt claims) ∈ h
  | .verify _ _, .verifiedPage _ sessionToken => ∃ time ws r apiKeyPlaintext u,
      .commit p time ws ∈ h ∧ .updateCode r (.approve apiKeyPlaintext sessionToken u) ∈ ws
  | .pollDeviceCode _, .approved _ apiKey sessionToken _ => ∃ r row now,
      .marked p (.opened r row now) ∈ h ∧ row.status = .approved ∧
      sessionToken = truthy row.sessionToken ∧ ∀ key, apiKey = some key →
        row.apiKeyPlaintext = some key ∨ ∃ u, row.userId = some u ∧ Reads env h p u key
  | _, reply => reply.access = []

/-! ## Legal histories -/

def Allowed (env : Env) (t₀ : Tables) (h : History) : Event → Prop
  | .began p _ => own p h = []
  | .commit p time ws => ∃ call, callOf p h = some call ∧ Commits env t₀ h p time call ws
  | .marked p mark => ∃ call, callOf p h = some call ∧ Marks env t₀ h p call mark
  | .ended p (.returned reply) => ∃ call, callOf p h = some call ∧ Returns env h p call reply
  | .ended p _ => ∃ call, callOf p h = some call

/-- Every event is allowed after the events before it. -/
def Legal (env : Env) (t₀ : Tables) (h : History) : Prop := Along (Allowed env t₀) h

end CueApi.Accounts
