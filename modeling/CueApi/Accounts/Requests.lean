import CueApi.Accounts.World

/-! The requests of accounts: `get_current_user` of `app/auth.py`, the routes of
`app/routers/auth_routes.py` and `internal_users.py`, and `device_code_service.py` with its routes and
`cleanup_device_codes` of `worker/poller.py`. Rate limits and the slug of a new user are verdicts from
elsewhere. -/

namespace CueApi.Accounts

open Scheduler (Time UserId ApiError Pid seconds)
open ReadCommitted Interleaving
open SignIn (DeviceCode Status truthy invalidToken userNotFound)
open KeyRotation (AuthenticatedUser keyRotated invalidApiKey)

variable (env : Env)

/-! ## Keys and tokens -/

/-- White space, as a header may hold it. -/
def space (c : Char) : Bool := c.toNat ∈ [9, 10, 11, 12, 13, 28, 29, 30, 31, 32, 0x85, 0xa0]

def strip (cs : List Char) : String :=
  String.ofList ((cs.dropWhile space).reverse.dropWhile space).reverse

def startsWith (start s : String) : Bool := start.toList.isPrefixOf s.toList

/-- The token of `Authorization: Bearer`. -/
def bearer (authorization : Option String) : Option String :=
  authorization.bind fun header =>
    if startsWith "Bearer " header then some (strip (header.toList.drop 7)) else none

/-- `hmac.compare_digest` of texts, which takes ASCII only. -/
def compareDigest (a b : String) : Option Bool :=
  if (a ++ b).toList.all fun c => c.toNat < 128 then some (decide (a = b)) else none

def generateApiKey : Program String := do
  let hex ← draw
  return "cue_sk_" ++ hex

def getApiKeyPrefix (apiKey : String) : String := String.ofList (apiKey.toList.take 12)

/-- `encrypt_api_key`, whose exception is passed over: a text that `fernet` gives the key back for. -/
def encryptApiKey (apiKey : String) : Program (Option String) :=
  .step fun w a =>
    match a with
    | .text c =>
        if env.sessionSecret ∧ c ≠ "" ∧ env.fernet c = some apiKey then some (some c, w)
        else none
    | .go => if env.sessionSecret then none else some (none, w)
    | _ => none

def decryptApiKey (c : String) : Option String :=
  if env.sessionSecret then env.fernet c else none

def sessionHours : Nat := 24

/-- `create_session_jwt`; none is the `RuntimeError` of a missing secret. -/
def createSessionJwt (p : Pid) (user : UserId) (email : String) : Program (Option String) :=
  .step fun w _ =>
    if env.sessionSecret then
      let claims : Claims :=
        ⟨user, email, "session", w.clock, w.clock + seconds (sessionHours * 3600)⟩
      some (some (env.jwtEncode claims), note w p (.issued (env.jwtEncode claims) claims))
    else some (none, w)

def decodeSessionJwt (now : Time) (token : String) : Except JwtError Claims :=
  if env.sessionSecret then
    match env.jwtDecode now token with
    | .ok claims => if claims.type = "session" then .ok claims else .error .invalid
    | .error e => .error e
  else .error .invalid

/-! ## `get_current_user` -/

def missingAuthorization : ApiError :=
  ⟨"invalid_api_key", "Missing or invalid Authorization header", 401⟩

def onBehalfOfRequired : ApiError :=
  ⟨"internal_token_requires_on_behalf_of",
    "Internal-token auth requires X-On-Behalf-Of header with a user UUID.", 400⟩

def invalidOnBehalfOf : ApiError :=
  ⟨"invalid_on_behalf_of", "X-On-Behalf-Of must be a valid UUID.", 400⟩

def unknownOnBehalfOf : ApiError :=
  ⟨"user_not_found", "User referenced in X-On-Behalf-Of does not exist. Upsert via PUT " ++
    "/v1/internal/users/\x7buser_id\x7d first.", 404⟩

def sessionExpired : ApiError := ⟨"session_expired", "Session expired. Please log in again.", 401⟩

def invalidSession : ApiError := ⟨"invalid_session", "Invalid session token", 401⟩

/-- `_auth_via_internal_token`. -/
def authViaInternalToken (p : Pid) (onBehalfOf : Option String) :
    Program (Except ApiError AuthenticatedUser) :=
  match truthy onBehalfOf with
  | none => return .error onBehalfOfRequired
  | some text =>
      match env.uuid text with
      | none => return .error invalidOnBehalfOf
      | some user => do
          let found ← selectUser p fun u _ => u = user
          match found with
          | none => return .error unknownOnBehalfOf
          | some (u, row) => return .ok (row.authenticated u)

/-- `_auth_via_api_key` without the cache. -/
def findByKey (p : Pid) (keyHash : String) : Program (Except ApiError AuthenticatedUser) := do
  let found ← selectUser p fun _ row => row.apiKeyHash = keyHash
  match found with
  | none =>
      let isRotated ← getCached p (.rotated keyHash)
      return .error (if isRotated.isSome then keyRotated else invalidApiKey)
  | some (u, row) =>
      let _ ← setCached p (.auth keyHash) (.user (row.authenticated u)) 300
      return .ok (row.authenticated u)

/-- `_auth_via_api_key`. -/
def authViaApiKey (p : Pid) (apiKey : String) : Program (Except ApiError AuthenticatedUser) := do
  let keyHash := env.sha256 apiKey
  let cached ← getCached p (.auth keyHash)
  match cached with
  | some (.user user) => return .ok user
  | _ => findByKey p keyHash

/-- `_auth_via_session_jwt` without the cache. -/
def findBySub (p : Pid) (sub : UserId) : Program (Except ApiError AuthenticatedUser) := do
  let found ← selectUser p fun u _ => u = sub
  match found with
  | none => return .error userNotFound
  | some (u, row) =>
      let _ ← setCached p (.session sub) (.user (row.authenticated u)) 300
      return .ok (row.authenticated u)

/-- `_auth_via_session_jwt`. -/
def authViaSessionJwt (p : Pid) (token : String) : Program (Except ApiError AuthenticatedUser) := do
  let now ← clock
  match decodeSessionJwt env now token with
  | .error .expired => return .error sessionExpired
  | .error .invalid => return .error invalidSession
  | .ok claims =>
      let cached ← getCached p (.session claims.sub)
      match cached with
      | some (.user user) => return .ok user
      | _ => findBySub p claims.sub

/-- Note whom a request is made for. -/
def identify (p : Pid) (credential : Credential) (prog : Program (Except ApiError AuthenticatedUser)) :
    Program (Except ApiError AuthenticatedUser) := do
  let user? ← prog
  match user? with
  | .error e => return .error e
  | .ok user => .step fun w _ => some (.ok user, note w p (.identified credential user))

def authViaToken (p : Pid) (token : String) : Program (Except ApiError AuthenticatedUser) :=
  if startsWith "cue_sk_" token then identify p (.apiKey token) (authViaApiKey env p token)
  else identify p (.session token) (authViaSessionJwt env p token)

def getCurrentUser (p : Pid) (headers : Headers) : Program (Except ApiError AuthenticatedUser) :=
  match bearer headers.authorization with
  | none => return .error missingAuthorization
  | some token =>
      if env.externalAuthBackend ∧ env.internalAuthToken ≠ "" then
        match compareDigest token env.internalAuthToken with
        | none => .fail
        | some true => identify p .internal (authViaInternalToken env p headers.onBehalfOf)
        | some false => authViaToken env p token
      else authViaToken env p token

/-- A request of the user that it is authenticated for. -/
def asUser (p : Pid) (headers : Headers) (k : AuthenticatedUser → Program Reply) : Program Reply := do
  let user? ← getCurrentUser env p headers
  match user? with
  | .error e => return .error e
  | .ok user => k user

/-! ## `auth_routes.py` -/

def notFound : ApiError := ⟨"not_found", "Not found", 404⟩

def duplicateEmail : ApiError := ⟨"duplicate_email", "Email already registered", 409⟩

def confirmationRequired : ApiError :=
  ⟨"confirmation_required",
    "This action is destructive. Set X-Confirm-Destructive: true header to confirm.", 400⟩

def noFields : ApiError := ⟨"no_fields", "No fields to update", 422⟩

def sessionUnavailable : ApiError :=
  ⟨"session_unavailable", "SESSION_SECRET is not configured", 503⟩

/-- A new row with its key. -/
def User.new (email apiKey slug : String) (apiKeyEncrypted : Option String) : User where
  email := email
  apiKeyHash := env.sha256 apiKey
  apiKeyPrefix := getApiKeyPrefix apiKey
  slug := slug
  apiKeyEncrypted := apiKeyEncrypted

/-- `register`, when the address is new. -/
def registerNew (p : Pid) (email : String) : Program Reply := do
  let apiKey ← generateApiKey
  let slug ← draw
  let u ← freshId
  let inserted ← insertUser p u (User.new env email apiKey slug none)
  if !inserted then .fail
  else
    commit p
    return .registered apiKey email

def register (p : Pid) (email : String) : Program Reply := do
  if !env.allowRegister then return .error notFound
  else
    let existing ← selectUser p fun _ row => row.email = email
    if existing.isSome then return .error duplicateEmail
    else registerNew env p email

/-- The commands to Redis after a rotation; any that fails raises. -/
def forgetKey (p : Pid) (oldHash newHash : String) (user : AuthenticatedUser) : Program Unit := do
  if oldHash ≠ "" then
    let deleted ← deleteCached p (.auth oldHash)
    if !deleted then .fail
    else
      let rotated ← setCached p (.rotated oldHash) .flag 86400
      if !rotated then .fail
      else
        let cached ← setCached p (.auth newHash) (.user user) 300
        if !cached then .fail else return ()
  else
    let cached ← setCached p (.auth newHash) (.user user) 300
    if !cached then .fail else return ()

/-- `regenerate_key` from the new key on. -/
def rotateKey (p : Pid) (user : AuthenticatedUser) (oldHash : String) : Program Reply := do
  let newKey ← generateApiKey
  let newEncrypted ← encryptApiKey env newKey
  let updated ← updateUser p user.id
    (.rekey (env.sha256 newKey) (getApiKeyPrefix newKey) (truthy newEncrypted))
  if !updated then .fail
  else
    commit p
    forgetKey p oldHash (env.sha256 newKey) user
    return .regenerated newKey

def regenerateKey (p : Pid) (headers : Headers) : Program Reply :=
  asUser env p headers fun user => do
    if headers.confirmDestructive ≠ some "true" then return .error confirmationRequired
    else
      let row? ← selectUser p fun u _ => u = user.id
      rotateKey env p user (row?.elim "" fun x => x.2.apiKeyHash)

def patchMe (p : Pid) (headers : Headers) (email alertWebhookUrl : Option String) : Program Reply :=
  asUser env p headers fun user => do
    let now ← clock
    match (truthy alertWebhookUrl).bind env.validateCallbackUrl with
    | some err => return .error ⟨"invalid_alert_webhook_url", err, 400⟩
    | none =>
        if email.isNone ∧ alertWebhookUrl.isNone then return .error noFields
        else
          let updated ← updateUser p user.id (.patch email)
          if !updated then .fail
          else
            commit p
            return .updated now

def refreshSession (p : Pid) (headers : Headers) : Program Reply :=
  asUser env p headers fun user => do
    let jwt? ← createSessionJwt env p user.id user.email
    match jwt? with
    | none => return .error sessionUnavailable
    | some jwt => return .session jwt user.email

def revealKey (p : Pid) (headers : Headers) : Program Reply :=
  asUser env p headers fun user => do
    let row? ← selectUser p fun u _ => u = user.id
    match row? with
    | none => return .key none "" "Key not available. Regenerate to enable Reveal."
    | some (_, row) =>
        match truthy row.apiKeyEncrypted with
        | none =>
            return .key none row.apiKeyPrefix "Key not available. Regenerate to enable Reveal."
        | some c =>
            match decryptApiKey env c with
            | none => return .key none row.apiKeyPrefix "Key decryption failed. Regenerate to fix."
            | some apiKey => return .key (some apiKey) "" ""

/-! ## `internal_users.py` -/

def missingInternalToken : ApiError :=
  ⟨"invalid_internal_token", "Missing or invalid Authorization header", 401⟩

def wrongInternalToken : ApiError :=
  ⟨"invalid_internal_token", "Bearer token does not match INTERNAL_AUTH_TOKEN", 401⟩

def invalidUserId : ApiError := ⟨"invalid_user_id", "user_id must be a UUID", 400⟩

/-- The row of a user that the integrator has new. -/
def UserUpsert.row (body : UserUpsert) (rawKey : String) : User where
  email := body.email
  apiKeyHash := env.sha256 rawKey
  apiKeyPrefix := getApiKeyPrefix rawKey
  plan := (truthy body.plan).getD "free"
  activeCueLimit := body.activeCueLimit.getD 10
  monthlyExecutionLimit := body.monthlyExecutionLimit.getD 300
  monthlyMessageLimit := body.monthlyMessageLimit.getD 300
  rateLimitPerMinute := body.rateLimitPerMinute.getD 60
  slug := body.slug

/-- The commit and the refresh of an upsert. -/
def finishUpsert (p : Pid) (u : UserId) (created : Bool) : Program Reply := do
  commit p
  let row? ← selectUser p fun u' _ => u' = u
  match row? with
  | none => .fail
  | some (_, row) => return .upserted u row created

def upsertUserRow (p : Pid) (userId : String) (body : UserUpsert) : Program Reply :=
  match env.uuid userId with
  | none => return .error invalidUserId
  | some target => do
      let found ← selectUser p fun u _ => u = target
      if found.isNone then
        let rawKey ← generateApiKey
        let inserted ← insertUser p target (body.row env rawKey)
        if !inserted then .fail else finishUpsert p target true
      else
        let updated ← updateUser p target (.upsert body)
        if !updated then .fail else finishUpsert p target false

def upsertUser (p : Pid) (headers : Headers) (userId : String) (body : UserUpsert) : Program Reply :=
  match bearer headers.authorization with
  | none => return .error missingInternalToken
  | some token =>
      if env.internalAuthToken = "" then return .error wrongInternalToken
      else
        match compareDigest token env.internalAuthToken with
        | none => .fail
        | some false => return .error wrongInternalToken
        | some true => upsertUserRow env p userId body

/-! ## `device_code_service.py` -/

def deviceCodeExpirySeconds : Nat := 900

def invalidDeviceCode : ApiError :=
  ⟨"invalid_device_code", "Device code must be 6-128 characters", 400⟩

def rateLimited (message : String) : ApiError := ⟨"rate_limit_exceeded", message, 429⟩

def deviceCodeExists : ApiError := ⟨"device_code_exists", "Device code already in use", 409⟩

def deviceCodeNotFound : ApiError := ⟨"device_code_not_found", "Device code not found", 404⟩

def deviceCodeExpired : ApiError := ⟨"device_code_expired", "Device code expired", 400⟩

/-- `status` as the column spells it. -/
def statusText : Status → String
  | .pending => "pending"
  | .emailSent => "email_sent"
  | .approved => "approved"
  | .claimed => "claimed"
  | .expired => "expired"

def invalidStatus (s : Status) : ApiError :=
  ⟨"invalid_status", "Device code status is '" ++ statusText s ++ "', expected 'pending'", 400⟩

/-- The INSERT and the commit of a new code. -/
def addCode (p : Pid) (deviceCode : String) : Program Reply := do
  let now ← clock
  let r ← freshId
  let inserted ← insertCode p r ⟨deviceCode,
    { email := none, status := .pending, expiresAt := now + seconds deviceCodeExpirySeconds }⟩
  if !inserted then
    rollback p
    return .error deviceCodeExists
  else
    commit p
    return .deviceCode (env.baseUrl ++ "/auth/device?code=" ++ deviceCode) deviceCodeExpirySeconds

def createDeviceCode (p : Pid) (deviceCode : String) : Program Reply := do
  if deviceCode.length < 6 ∨ 128 < deviceCode.length then return .error invalidDeviceCode
  else
    let allowed ← ask
    if !allowed then return .error (rateLimited "Too many device code requests")
    else
      let existing ← selectCode p fun code => code.deviceCode = deviceCode
      match existing with
      | none => addCode env p deviceCode
      | some (r, code) =>
          let now ← clock
          if now < code.row.expiresAt ∧ code.row.status ∉ [.expired, .claimed] then
            return .error deviceCodeExists
          else
            write p (.deleteCodes [r])
            addCode env p deviceCode

/-- The branch of `poll_device_code` for a user that has been there before. -/
def claimExisting (p : Pid) (r : CodeId) (dc : DeviceCode) : Program Reply := do
  write p (.updateCode r .claimExisting)
  commit p
  match dc.userId with
  | none => return .approved dc.email none (truthy dc.sessionToken) true
  | some user =>
      let row? ← selectUser p fun u _ => u = user
      match (row?.bind fun x => truthy x.2.apiKeyEncrypted).bind (decryptApiKey env) with
      | some apiKey => return .approved dc.email (some apiKey) (truthy dc.sessionToken) false
      | none => return .approved dc.email none (truthy dc.sessionToken) true

def pollDeviceCode (p : Pid) (deviceCode : String) : Program Reply := do
  let allowed ← ask
  if !allowed then return .error (rateLimited "Poll rate limit exceeded")
  else
    let found ← selectCode p fun code => code.deviceCode = deviceCode
    match found with
    | none => return .status .expired
    | some (r, code) =>
        let dc := code.row
        let now ← clock
        if dc.expiresAt < now then
          if dc.status ∉ [.expired, .claimed, .approved] then
            write p (.updateCode r .expire)
            commit p
            return .status .expired
          else return .status .expired
        else if dc.status = .approved then
          match truthy dc.apiKeyPlaintext with
          | some apiKey =>
              write p (.updateCode r .claim)
              commit p
              return .approved dc.email (some apiKey) (truthy dc.sessionToken) false
          | none => claimExisting env p r dc
        else return .status dc.status

/-- The mail with the magic link, or an exception that is passed over. -/
def sendMagicLink (p : Pid) (email verificationToken deviceCode : String) : Program Unit :=
  .step fun w a =>
    match a with
    | .go => some ((), note w p (.sent email verificationToken deviceCode))
    | .bool false => some ((), w)
    | _ => none

def submitEmail (p : Pid) (deviceCode email : String) : Program Reply := do
  let emailAllowed ← ask
  if !emailAllowed then
    return .error (rateLimited "Too many magic link requests for this email")
  else
    let ipAllowed ← ask
    if !ipAllowed then return .error (rateLimited "Too many magic link requests")
    else
      let found ← selectCode p fun code => code.deviceCode = deviceCode
      match found with
      | none => return .error deviceCodeNotFound
      | some (r, code) =>
          let now ← clock
          if code.row.expiresAt < now then return .error deviceCodeExpired
          else if code.row.status ≠ .pending then return .error (invalidStatus code.row.status)
          else
            let verificationToken ← draw
            write p (.updateCode r (.submit email verificationToken))
            commit p
            sendMagicLink p email verificationToken deviceCode
            return .emailSent

/-- The branch of `verify_token` for a new user. -/
def approveNew (p : Pid) (r : CodeId) (email sessionToken : String) : Program Reply := do
  let newApiKey ← generateApiKey
  let newEncrypted ← encryptApiKey env newApiKey
  let slug ← draw
  let u ← freshId
  let inserted ← insertUser p u (User.new env email newApiKey slug newEncrypted)
  if !inserted then .fail
  else
    write p (.updateCode r (.approve (some newApiKey) sessionToken u))
    commit p
    return .verifiedPage (some email) sessionToken

def verify (p : Pid) (token deviceCode : String) : Program Reply := do
  let found ← selectCode p fun code => code.deviceCode = deviceCode
  match found with
  | none => return .errorPage "Device code not found"
  | some (r, code) =>
      let dc := code.row
      let now ← clock
      if dc.expiresAt < now then return .errorPage "Device code expired"
      else if dc.status ≠ .emailSent then return .errorPage "Invalid device code status"
      else if dc.verificationToken ≠ some token then
        return .errorPage "Invalid verification token"
      else
        let account ← selectUser p fun _ row => dc.email = some row.email
        let sessionToken ← draw
        match account with
        | some (u, _) =>
            write p (.updateCode r (.approve none sessionToken u))
            commit p
            return .verifiedPage dc.email sessionToken
        | none =>
            match dc.email with
            | none => .fail
            | some email => approveNew env p r email sessionToken

def createSession (p : Pid) (token : String) : Program Reply := do
  let found ← selectCode p fun code =>
    code.row.sessionToken = some token && code.row.status ∈ [.approved, .claimed]
  match found with
  | none => return .error invalidToken
  | some (r, code) =>
      match code.row.userId with
      | none => return .error invalidToken
      | some user =>
          let row? ← selectUser p fun u _ => u = user
          match row? with
          | none => return .error userNotFound
          | some (u, row) =>
              write p (.updateCode r .exchange)
              commit p
              let jwt? ← createSessionJwt env p u row.email
              match jwt? with
              | none => .fail
              | some jwt => return .session jwt row.email

/-- The DELETE of `cleanup_device_codes`. -/
def deleteCodesWhere (p : Pid) (wh : Code → Bool) : Program Nat :=
  .step fun w _ =>
    let rs := Scheduler.keysWhere (w.view p).codes fun _ code => wh code
    (w.store.write p (.deleteCodes rs)).map fun s => (rs.length, { w with store := s })

def cleanupDeviceCodes (p : Pid) : Program Reply := do
  let now ← clock
  let deleted ← deleteCodesWhere p fun code => code.row.expiresAt < now - seconds 86400
  commit p
  return .cleaned deleted

/-! ## The system -/

def programOf (p : Pid) : Call → Program Reply
  | .authenticated headers => asUser env p headers fun user => return .user user
  | .register email => register env p email
  | .regenerateKey headers => regenerateKey env p headers
  | .patchMe headers email alertWebhookUrl => patchMe env p headers email alertWebhookUrl
  | .refreshSession headers => refreshSession env p headers
  | .revealKey headers => revealKey env p headers
  | .upsertUser headers userId body => upsertUser env p headers userId body
  | .createDeviceCode deviceCode => createDeviceCode env p deviceCode
  | .pollDeviceCode deviceCode => pollDeviceCode env p deviceCode
  | .submitEmail deviceCode email => submitEmail p deviceCode email
  | .verify token deviceCode => verify env p token deviceCode
  | .createSession token => createSession env p token
  | .cleanupDeviceCodes => cleanupDeviceCodes p

abbrev Sys := Recorded.System schema Pid Call Mark Reply Unit Answer

abbrev Action := Recorded.Action Pid Call Answer

/-- No device code has been made, Redis holds nothing of accounts, and the users are any. -/
def start (users : Scheduler.Table UserId User) (now : Time) : Sys :=
  Recorded.init { users := users } () now

def run (s : Sys) (as : List Action) : Option Sys := Recorded.run (programOf env) s as

end CueApi.Accounts
