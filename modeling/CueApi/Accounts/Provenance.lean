import CueApi.Accounts.StoredKeys

/-! Where the columns of a device code come from, and what its sign-in hands over: an account is entered
without credentials only upon a link that was made for its address. -/

namespace CueApi.Accounts

open Scheduler (Time UserId Pid Table seconds)
open ReadCommitted Interleaving Trace Recorded
open SignIn (DeviceCode Status truthy)

variable {env : Env} {t₀ : Tables} {p : Pid} {h h' h₁ : History} {ev : Event} {r : CodeId} {u : UserId}
variable {time : Time} {ws : List Write}

/-! ## The columns of a device code -/

/-- A code was made with this instant of expiry. -/
def Made (h : History) (r : CodeId) (expiresAt : Time) : Prop :=
  ∃ q time ws code, .commit q time ws ∈ h ∧ .insertCode r code ∈ ws ∧
    code.row.expiresAt = expiresAt ∧ expiresAt ≤ time + seconds deviceCodeExpirySeconds

/-- `submit_email` drew this token for this address. -/
def Submitted (h : History) (r : CodeId) (email verificationToken : String) : Prop :=
  ∃ q time, .commit q time [.updateCode r (.submit email verificationToken)] ∈ h

/-- `verify_token` gave the code to `u`. -/
def Approved (h : History) (r : CodeId) (apiKeyPlaintext : Option String) (sessionToken : String)
    (u : UserId) : Prop :=
  ∃ q time ws, .commit q time ws ∈ h ∧ .updateCode r (.approve apiKeyPlaintext sessionToken u) ∈ ws

theorem Made.suffix {expiresAt : Time} (hm : Made h r expiresAt) (hs : h <:+ h') :
    Made h' r expiresAt := by
  obtain ⟨q, time, ws, code, hc, hw, hexp, hle⟩ := hm
  exact ⟨q, time, ws, code, hs.mem hc, hw, hexp, hle⟩

theorem Submitted.suffix {email token : String} (hm : Submitted h r email token) (hs : h <:+ h') :
    Submitted h' r email token := by
  obtain ⟨q, time, hc⟩ := hm
  exact ⟨q, time, hs.mem hc⟩

theorem Approved.suffix {plaintext : Option String} {token : String}
    (hm : Approved h r plaintext token u) (hs : h <:+ h') : Approved h' r plaintext token u := by
  obtain ⟨q, time, ws, hc, hw⟩ := hm
  exact ⟨q, time, ws, hs.mem hc, hw⟩

/-- The key, the token and the user of a row are of one approval, as far as they are there. -/
def Granted (h : History) (r : CodeId) (row : DeviceCode) : Prop :=
  row.apiKeyPlaintext = none ∧ row.sessionToken = none ∧ row.userId = none ∨
  ∃ plaintext token u, Approved h r plaintext token u ∧ row.userId = some u ∧
    (∀ key, row.apiKeyPlaintext = some key → plaintext = some key) ∧
    (∀ token', row.sessionToken = some token' → token' = token)

theorem Granted.suffix {row : DeviceCode} (hg : Granted h r row) (hs : h <:+ h') :
    Granted h' r row :=
  hg.imp id fun ⟨plaintext, token, u, ha, hrest⟩ => ⟨plaintext, token, u, ha.suffix hs, hrest⟩

/-- Where the columns of a row come from. -/
structure Backed (h : History) (r : CodeId) (row : DeviceCode) : Prop where
  made : Made h r row.expiresAt
  submitted : ∀ token, row.verificationToken = some token →
    ∃ email, row.email = some email ∧ Submitted h r email token
  granted : Granted h r row

theorem Backed.suffix {row : DeviceCode} (hb : Backed h r row) (hs : h <:+ h') : Backed h' r row where
  made := hb.made.suffix hs
  submitted token ht := by
    obtain ⟨email, he, hsub⟩ := hb.submitted token ht
    exact ⟨email, he, hsub.suffix hs⟩
  granted := hb.granted.suffix hs

/-- What a code takes from a write has its source in the history. -/
def Sourced (h : History) : Write → Prop
  | .insertCode r code => Backed h r code.row
  | .updateCode r (.submit email token) => Submitted h r email token
  | .updateCode r (.approve plaintext token u) => Approved h r plaintext token u
  | _ => True

theorem Backed.set {row : DeviceCode} {update : CodeUpdate} (hb : Backed h r row)
    (ht : Sourced h (.updateCode r update)) : Backed h r (update.set row) := by
  cases update with
  | submit email token =>
    refine ⟨hb.made, fun token' heq => ?_, hb.granted⟩
    cases heq
    exact ⟨email, rfl, ht⟩
  | expire => exact ⟨hb.made, hb.submitted, hb.granted⟩
  | claim =>
    refine ⟨hb.made, hb.submitted, hb.granted.imp (fun ⟨_, htoken, huser⟩ => ⟨rfl, htoken, huser⟩) ?_⟩
    rintro ⟨plaintext, token, u, ha, hu, -, htoken⟩
    exact ⟨plaintext, token, u, ha, hu, nofun, htoken⟩
  | claimExisting => exact ⟨hb.made, hb.submitted, hb.granted⟩
  | approve plaintext token u =>
    refine ⟨hb.made, nofun, .inr ⟨plaintext, token, u, ht, rfl, fun key heq => heq, ?_⟩⟩
    intro token' heq
    exact (Option.some.inj heq).symm
  | exchange =>
    refine ⟨hb.made, hb.submitted, hb.granted.imp (fun ⟨hkey, _, huser⟩ => ⟨hkey, rfl, huser⟩) ?_⟩
    rintro ⟨plaintext, token, u, ha, hu, hkey, -⟩
    exact ⟨plaintext, token, u, ha, hu, hkey, nofun⟩

/-- Every row of a device code is backed. -/
def CodesBacked (h : History) (t : Tables) : Prop :=
  ∀ r code, t.code r = some code → Backed h r code.row

theorem CodesBacked.apply {t : Tables} {w : Write} (hb : CodesBacked h t) (ht : Sourced h w) :
    CodesBacked h (Tables.apply w t) := by
  intro r code hcode
  rw [Tables.code_apply] at hcode
  cases w with
  | insertUser u row => exact hb r code hcode
  | updateUser u update => exact hb r code hcode
  | insertCode r' code' =>
    dsimp only at hcode
    split at hcode
    · rename_i heq
      subst heq
      cases hold : t.code r with
      | some old =>
        rw [hold] at hcode
        cases hcode
        exact hb r _ hold
      | none =>
        rw [hold] at hcode
        cases hcode
        exact ht
    · exact hb r code hcode
  | updateCode r' update =>
    dsimp only at hcode
    split at hcode
    · rename_i heq
      subst heq
      obtain ⟨old, hold, rfl⟩ := Option.map_eq_some_iff.mp hcode
      exact (hb r old hold).set ht
    · exact hb r code hcode
  | deleteCodes rs =>
    dsimp only at hcode
    split at hcode
    · cases hcode
    · exact hb r code hcode

theorem CodesBacked.applyAll {t : Tables} (hb : CodesBacked h t) (ht : ∀ w ∈ ws, Sourced h w) :
    CodesBacked h (schema.applyAll ws t) := by
  induction ws with
  | nil => exact hb
  | cons w ws ih =>
    exact (ih fun w' hw' => ht w' (List.mem_cons_of_mem _ hw')).apply (ht w List.mem_cons_self)

/-- The writes of a transaction are sourced once it has committed. -/
theorem sourced_of_commits {call : Call} (hc : Commits env t₀ h p time call ws) :
    ∀ w ∈ ws, Sourced (.commit p time ws :: h) w := by
  intro w hw
  have approves : ∀ {r plaintext token u}, w = .updateCode r (.approve plaintext token u) →
      Sourced (.commit p time ws :: h) w := by
    rintro r plaintext token u rfl
    exact ⟨p, time, ws, List.mem_cons_self, hw⟩
  cases hc with
  | made deviceCode r expiresAt deleted hle =>
    rcases List.mem_cons.mp hw with rfl | hw'
    · refine ⟨⟨p, time, _, _, List.mem_cons_self, hw, rfl, hle⟩, nofun, .inl ⟨rfl, rfl, rfl⟩⟩
    · split at hw'
      · cases hw'
      · obtain rfl := List.mem_singleton.mp hw'
        trivial
  | submitted deviceCode email token r =>
    obtain rfl := List.mem_singleton.mp hw
    exact ⟨p, time, List.mem_cons_self⟩
  | approved token deviceCode sessionToken r row now u account now' =>
    exact approves (List.mem_singleton.mp hw)
  | approvedNew token deviceCode sessionToken email newApiKey slug r row now u encrypted =>
    rcases List.mem_cons.mp hw with heq | hw'
    · exact approves heq
    · obtain rfl := List.mem_singleton.mp hw'
      trivial
  | claimed deviceCode r update hu =>
    obtain rfl := List.mem_singleton.mp hw
    rcases hu with rfl | rfl <;> trivial
  | _ =>
    obtain rfl := List.mem_singleton.mp hw
    trivial

/-- The run lemma of device codes. -/
theorem codes_backed (ht : ∀ r, t₀.code r = none) (hl : Legal env t₀ h) :
    CodesBacked h (replayed t₀ h) := by
  refine Along.invariant (J := fun h => CodesBacked h (replayed t₀ h)) ?_ ?_ hl
  · intro r code hcode
    rw [show replayed t₀ [] = t₀ from rfl, ht r] at hcode
    cases hcode
  · intro h ev _ ha hj
    have hj' : CodesBacked (ev :: h) (replayed t₀ h) := fun r code hcode =>
      (hj r code hcode).suffix (List.suffix_cons _ _)
    cases ev with
    | commit p time ws =>
      obtain ⟨call, -, hc⟩ := ha
      exact hj'.applyAll (sourced_of_commits hc)
    | _ => exact hj'

/-- What a request has seen of a code is backed. -/
theorem backed_of_opened (ht : ∀ r, t₀.code r = none) (hl : Legal env t₀ h) {row : DeviceCode}
    {now : Time} (hm : .marked p (.opened r row now) ∈ h) : Backed h r row := by
  obtain ⟨h', _, hs, _, deviceCode, hcode⟩ := marks_of_legal hl hm
  have hs : h' <:+ h := (List.suffix_cons _ _).trans hs
  exact (codes_backed ht (hl.suffix hs) r _ hcode).suffix hs

/-! ## Approvals -/

/-- `u` has had this address. -/
def Addressed (t₀ : Tables) (h : History) (u : UserId) (email : String) : Prop :=
  ∃ h' row, h' <:+ h ∧ (replayed t₀ h').user u = some row ∧ row.email = email

/-- The code `r` went to `u` because a link was opened in time whose token was drawn when the address of
`u` was submitted. What that request has mailed, if anything, went to this address alone: in
development, and without a key of the mail service, it only prints the link. -/
inductive Vouched (t₀ : Tables) (h : History) (r : CodeId) (u : UserId) : Prop
  | intro (creator submitter verifier : Pid) (made time now : Time) (ws : List Write) (code : Code)
      (row : DeviceCode) (email token deviceCode : String) :
      .commit creator made ws ∈ h → .insertCode r code ∈ ws →
      .commit submitter time [.updateCode r (.submit email token)] ∈ h →
      (∀ email' token' deviceCode', .marked submitter (.sent email' token' deviceCode') ∈ h →
        email' = email) →
      .began verifier (.verify token deviceCode) ∈ h → .marked verifier (.opened r row now) ∈ h →
      row.verificationToken = some token → now ≤ made + seconds deviceCodeExpirySeconds →
      Addressed t₀ h u email → Vouched t₀ h r u

/-- The call of a process that has submitted an address. -/
theorem submits {call : Call} {email token : String}
    (hc : Commits env t₀ h p time call [.updateCode r (.submit email token)]) :
    ∃ deviceCode, call = .submitEmail deviceCode email := by
  cases hc with
  | submitted deviceCode => exact ⟨deviceCode, rfl⟩
  | claimed deviceCode r update hu => rcases hu with hu | hu <;> cases hu

/-- A request mails to the address that it submits. -/
theorem sent_to (hl : Legal env t₀ h) {email token email' token' deviceCode' : String}
    (hc : .commit p time [.updateCode r (.submit email token)] ∈ h)
    (hm : .marked p (.sent email' token' deviceCode') ∈ h) : email' = email := by
  obtain ⟨h₁, call₁, hs₁, hc₁, hcm⟩ := commits_of_legal hl hc
  obtain ⟨h₂, call₂, hs₂, hc₂, hcall₂, -⟩ := marks_of_legal hl hm
  obtain ⟨deviceCode, hcall₁⟩ := submits hcm
  have heq := callOf_eq_of_legal hl ((List.suffix_cons _ _).trans hs₁)
    ((List.suffix_cons _ _).trans hs₂) hc₁ hc₂
  rw [hcall₁, hcall₂] at heq
  cases heq
  rfl

/-- What a transaction that approves a code rests on. -/
structure Approves (env : Env) (t₀ : Tables) (h : History) (p : Pid) (call : Call) (ws : List Write)
    (r : CodeId) (plaintext : Option String) (u : UserId) (row : DeviceCode) (now : Time)
    (email token : String) : Prop where
  presented : ∃ deviceCode, call = .verify token deviceCode
  opened : .marked p (.opened r row now) ∈ h
  inTime : now ≤ row.expiresAt
  token_eq : row.verificationToken = some token
  email_eq : row.email = some email
  account : (plaintext = none ∧ ∃ account now', .marked p (.found u account now') ∈ h ∧
      account.email = email) ∨
    ∃ apiKey slug encrypted wr, plaintext = some apiKey ∧ (replayed t₀ h).user u = none ∧
      ws = [.updateCode r wr, .insertUser u (User.new env email apiKey slug encrypted)]

theorem approves {call : Call} {plaintext : Option String} {token : String}
    (hc : Commits env t₀ h p time call ws)
    (hw : .updateCode r (.approve plaintext token u) ∈ ws) :
    ∃ row now email verificationToken,
      Approves env t₀ h p call ws r plaintext u row now email verificationToken := by
  cases hc with
  | approved verificationToken deviceCode sessionToken r' row now u' account now' hm hle ht hf he =>
    cases List.mem_singleton.mp hw
    exact ⟨row, now, account.email, verificationToken, ⟨deviceCode, rfl⟩, hm, hle, ht, he,
      .inl ⟨rfl, account, now', hf, rfl⟩⟩
  | approvedNew verificationToken deviceCode sessionToken email newApiKey slug r' row now u' encrypted
      hm hle ht he henc hnone =>
    rcases List.mem_cons.mp hw with heq | hw'
    · cases heq
      exact ⟨row, now, email, verificationToken, ⟨deviceCode, rfl⟩, hm, hle, ht, he,
        .inr ⟨newApiKey, slug, encrypted, _, rfl, hnone, rfl⟩⟩
    · cases List.mem_singleton.mp hw'
  | made deviceCode r' expiresAt deleted hle =>
    rcases List.mem_cons.mp hw with heq | hw'
    · cases heq
    · split at hw'
      · cases hw'
      · cases List.mem_singleton.mp hw'
  | claimed deviceCode r' update hu =>
    rcases hu with rfl | rfl <;> cases List.mem_singleton.mp hw
  | _ => cases List.mem_singleton.mp hw

/-- The account of a new address, once it has been approved. -/
theorem user_of_approvedNew {wr : CodeUpdate} {row : User} (hnone : (replayed t₀ h).user u = none) :
    (replayed t₀ (.commit p time [.updateCode r wr, .insertUser u row] :: h)).user u = some row := by
  have hrow : (replayed t₀ (.commit p time [.updateCode r wr, .insertUser u row] :: h)).user u = _ :=
    (Tables.user_apply (.updateCode r wr) _ u).trans
      (Tables.user_apply (.insertUser u row) (replayed t₀ h) u)
  rw [hrow]
  simp [hnone]

/-- Every approval is vouched for. -/
theorem vouched_of_approved (ht : ∀ r, t₀.code r = none) (hl : Legal env t₀ h)
    {plaintext : Option String} {token : String} (ha : Approved h r plaintext token u) :
    Vouched t₀ h r u := by
  obtain ⟨v, time, ws, hc, hw⟩ := ha
  obtain ⟨h₁, call, hs, hcall, hcm⟩ := commits_of_legal hl hc
  have hs₁ : h₁ <:+ h := (List.suffix_cons _ _).trans hs
  obtain ⟨row, now, email, verificationToken, happ⟩ := approves hcm hw
  have hb := backed_of_opened ht (hl.suffix hs₁) happ.opened
  obtain ⟨creator, made, ws', code, hmade, hinsert, -, hle⟩ := hb.made
  obtain ⟨email', hemail', submitter, time', hsub⟩ := hb.submitted _ happ.token_eq
  obtain rfl : email = email' := Option.some.inj (happ.email_eq.symm.trans hemail')
  obtain ⟨deviceCode, rfl⟩ := happ.presented
  refine .intro creator submitter v made time' now ws' code row email verificationToken deviceCode
    (hs₁.mem hmade) hinsert (hs₁.mem hsub) (fun _ _ _ hm => sent_to hl (hs₁.mem hsub) hm)
    (hs₁.mem (began_of_callOf hcall)) (hs₁.mem happ.opened) happ.token_eq
    (Int.le_trans happ.inTime hle) ?_
  rcases happ.account with ⟨-, account, now', hf, hemail⟩ | ⟨apiKey, slug, encrypted, wr, -, hnone, rfl⟩
  · obtain ⟨h₂, _, hs₂, _, hrow⟩ := marks_of_legal (hl.suffix hs₁) hf
    exact ⟨h₂, account, (List.suffix_cons _ _).trans (hs₂.trans hs₁), hrow, hemail⟩
  · exact ⟨_, _, hs, user_of_approvedNew hnone, rfl⟩

/-- The key that an approval leaves with the code is the one of the account that it makes. -/
theorem keyed_of_approved (hl : Legal env t₀ h) {key token : String}
    (ha : Approved h r (some key) token u) : ∃ h', h' <:+ h ∧ Keyed env t₀ h' u key := by
  obtain ⟨v, time, ws, hc, hw⟩ := ha
  obtain ⟨h₁, call, hs, hcall, hcm⟩ := commits_of_legal hl hc
  obtain ⟨row, now, email, verificationToken, happ⟩ := approves hcm hw
  rcases happ.account with ⟨hnone, -⟩ | ⟨apiKey, slug, encrypted, wr, heq, hnone, rfl⟩
  · cases hnone
  · cases heq
    exact ⟨_, hs, _, user_of_approvedNew hnone, rfl⟩

/-! ## What a sign-in hands over -/

/-- The account that a reply lets in to. -/
def Enters (env : Env) (t₀ : Tables) (h : History) (u : UserId) : Access → Prop
  | .apiKey key => ∃ h', h' <:+ h ∧ Keyed env t₀ h' u key
  | .sessionToken token => ∃ r plaintext, Approved h r plaintext token u
  | .jwt jwt => ∃ q claims, .marked q (.issued jwt claims) ∈ h ∧ claims.sub = u

/-- A request that reads headers is the only one that is made for a user. -/
theorem headers_of_identified (hl : Legal env t₀ h) {call : Call} {credential : Credential}
    {user : KeyRotation.AuthenticatedUser} (hc : callOf p h = some call)
    (hm : .marked p (.identified credential user) ∈ h) : call.headers.isSome := by
  obtain ⟨h', call', hs, hc', hid⟩ := marks_of_legal hl hm
  obtain rfl := callOf_eq_of_legal hl ((List.suffix_cons _ _).trans hs) (List.suffix_refl _) hc' hc
  have hid : Identifies env h' p call' user credential := hid
  cases hid with
  | cachedKey headers key now hh => rw [hh]; rfl
  | foundKey headers key row now hh => rw [hh]; rfl
  | cachedSession headers jwt now now' claims hh => rw [hh]; rfl
  | foundSession headers jwt now now' claims row hh => rw [hh]; rfl
  | internal headers text row now hh => rw [hh]; rfl

/-- A JWT that is signed for a sign-in is vouched for. -/
theorem vouched_of_exchanged (ht : ∀ r, t₀.code r = none) (hl : Legal env t₀ h) {row : DeviceCode}
    {now : Time} {token : String} (hm : .marked p (.opened r row now) ∈ h)
    (htoken : row.sessionToken = some token) (huser : row.userId = some u) : Vouched t₀ h r u := by
  rcases (backed_of_opened ht hl hm).granted with ⟨-, hnone, -⟩ | ⟨plaintext, token', u', ha, hu, -, -⟩
  · rw [hnone] at htoken
    cases htoken
  · obtain rfl : u' = u := Option.some.inj (hu.symm.trans huser)
    exact vouched_of_approved ht hl ha

/-- What the poll of an approved code hands over is vouched for. -/
theorem polled_vouched (ht : ∀ r, t₀.code r = none)
    (hst : ∀ u row, t₀.user u = some row → Stored env row) (hl : Legal env t₀ h) {call : Call}
    (hc : callOf p h = some call) {email apiKey sessionToken : Option String} {existing : Bool}
    {row : DeviceCode} {now : Time} (hm : .marked p (.opened r row now) ∈ h)
    (htoken : sessionToken = truthy row.sessionToken)
    (hkey : ∀ key, apiKey = some key →
      row.apiKeyPlaintext = some key ∨ ∃ u, row.userId = some u ∧ Reads env h p u key)
    {access : Access} (ha : access ∈ (Reply.approved email apiKey sessionToken existing).access) :
    ∃ u, Enters env t₀ h u access ∧ Vouched t₀ h r u := by
  rcases (backed_of_opened ht hl hm).granted with ⟨hplain, hsession, huser⟩ |
    ⟨plaintext, token, u, happ, huser, hplain, hsession⟩
  · -- an approved code that nobody has approved hands over nothing
    rw [hsession] at htoken
    subst htoken
    cases apiKey with
    | none => simp [Reply.access, truthy] at ha
    | some key =>
      rcases hkey key rfl with heq | ⟨u, heq, -⟩
      · rw [hplain] at heq
        cases heq
      · rw [huser] at heq
        cases heq
  · refine ⟨u, ?_, vouched_of_approved ht hl happ⟩
    rcases List.mem_append.mp ha with hmem | hmem
    · obtain ⟨key, hin, rfl⟩ := List.mem_map.mp hmem
      rcases hkey key (Option.mem_toList.mp hin) with heq | ⟨u', heq, hreads⟩
      · obtain rfl := hplain key heq
        exact keyed_of_approved hl happ
      · obtain rfl : u = u' := Option.some.inj (huser.symm.trans heq)
        obtain ⟨h', hs, -, hk⟩ := hreads.keyed hl hst hc
        exact ⟨h', hs, hk⟩
    · obtain ⟨token', hin, rfl⟩ := List.mem_map.mp hmem
      rw [htoken] at hin
      obtain rfl := hsession token' (Option.filter_eq_some_iff.mp (Option.mem_toList.mp hin)).1
      exact ⟨r, plaintext, happ⟩

/-- The request has made the account of `u` itself. -/
def Registers (t₀ : Tables) (h : History) (p : Pid) (u : UserId) : Prop :=
  ∃ h' time row, .commit p time [.insertUser u row] :: h' <:+ h ∧ (replayed t₀ h').user u = none

/-- The accounts that a registration makes. -/
theorem registers_of_commit (hl : Legal env t₀ h) {email apiKey slug : String}
    (hc : .commit p time [.insertUser u (User.new env email apiKey slug none)] ∈ h) :
    Registers t₀ h p u ∧ Enters env t₀ h u (.apiKey apiKey) := by
  obtain ⟨h₁, call, hs, -, hcm⟩ := commits_of_legal hl hc
  have hnone : (replayed t₀ h₁).user u = none := by
    generalize User.new env email apiKey slug none = row at hcm
    cases hcm with
    | registered email apiKey slug u hnone => exact hnone
    | mirrored headers userId rawKey body u hnone => exact hnone
  have hrow : (replayed t₀ (.commit p time [.insertUser u (User.new env email apiKey slug none)] ::
      h₁)).user u = _ := Tables.user_apply (.insertUser u _) (replayed t₀ h₁) u
  simp only [if_true, hnone] at hrow
  exact ⟨⟨h₁, time, _, hs, hnone⟩, _, hs, _, hrow, rfl⟩

/-- Without credentials no account is entered but the one that the request has just registered, or one
whose address was submitted and the link of that submission opened in time. -/
theorem anonymous_access_vouched {users : Table UserId User} {s : Sys} (hr : Reachable env users s)
    (hst : ∀ u row, users.lookup u = some row → Stored env row) {call : Call} {reply : Reply}
    {access : Access} (hm : .ended p (.returned reply) ∈ s.shared.history)
    (hc : callOf p s.shared.history = some call) (hh : call.headers = none)
    (ha : access ∈ reply.access) : ∃ u, Enters env { users := users } s.shared.history u access ∧
      (Registers { users := users } s.shared.history p u ∨
        ∃ r, Vouched { users := users } s.shared.history r u) := by
  have hl := hr.legal
  have ht : ∀ r, ({ users := users } : Tables).code r = none := fun _ => rfl
  obtain ⟨h, hended⟩ := mem_split hm
  obtain ⟨call', hc', hret⟩ := hl.at hended
  have hs : h <:+ s.shared.history := (List.suffix_cons _ _).trans hended
  obtain rfl := callOf_eq_of_legal hl hs (List.suffix_refl _) hc' hc
  unfold Returns at hret
  split at hret
  · cases ha
  · obtain ⟨rfl, time, u, slug, hcm⟩ := hret
    obtain rfl := List.mem_singleton.mp ha
    obtain ⟨hreg, hent⟩ := registers_of_commit hl (hs.mem hcm)
    exact ⟨u, hent, .inl hreg⟩
  · cases hh
  · cases hh
  · cases hh
  · rename_i token jwt email
    obtain ⟨claims, hj⟩ := hret
    obtain rfl := List.mem_singleton.mp ha
    obtain ⟨h₁, call₁, hs₁, hc₁, -, hsigns⟩ := marks_of_legal (hl.suffix hs) hj
    have hs₁ : h₁ <:+ s.shared.history := (List.suffix_cons _ _).trans (hs₁.trans hs)
    obtain rfl := callOf_eq_of_legal hl hs₁ hs hc₁ hc'
    refine ⟨claims.sub, ⟨p, claims, hs.mem hj, rfl⟩, .inr ?_⟩
    generalize claims.sub = u at hsigns
    cases hsigns with
    | refreshed call credential user hid =>
      exact absurd (headers_of_identified (hl.suffix hs₁) hc₁ hid) (by simp [Call.headers])
    | exchanged token r row now u hopened htoken huser =>
      exact ⟨r, vouched_of_exchanged ht hl (hs₁.mem hopened) htoken huser⟩
  · obtain ⟨time, ws, r, plaintext, u, hcm, hw⟩ := hret
    obtain rfl := List.mem_singleton.mp ha
    have happ : Approved s.shared.history r plaintext _ u := ⟨p, time, ws, hs.mem hcm, hw⟩
    exact ⟨u, ⟨r, plaintext, happ⟩, .inr ⟨r, vouched_of_approved ht hl happ⟩⟩
  · obtain ⟨r, row, now, hopened, -, htoken, hkey⟩ := hret
    obtain ⟨u, hent, hv⟩ := polled_vouched ht hst hl hc (hs.mem hopened) htoken (fun key heq =>
      (hkey key heq).imp id fun ⟨u, hu, row, now, c, hf, hrest⟩ => ⟨u, hu, row, now, c, hs.mem hf, hrest⟩) ha
    exact ⟨u, hent, .inr ⟨r, hv⟩⟩
  · rw [hret] at ha
    cases ha

theorem anonymous_access_vouched_signedIn : ∃ s, Reachable plainEnv ∅ s ∧
    ∃ u, Enters plainEnv {} s.shared.history u (.sessionToken "once") ∧
      (Registers {} s.shared.history 4 u ∨ ∃ r, Vouched {} s.shared.history r u) := by
  obtain ⟨s, hr, hv⟩ := reachable_of_run signIn (fun s =>
    (decide ((4, .approved (some "a@b.c") (some "cue_sk_k") (some "once") false) ∈
      replies s.shared.history), callOf 4 s.shared.history))
    (v := (true, some (.pollDeviceCode "code-1"))) (by decide +kernel)
  simp only [Prod.mk.injEq, decide_eq_true_eq] at hv
  exact ⟨s, hr, anonymous_access_vouched hr (by simp) (mem_of_replies hv.1) hv.2 rfl
    (by simp [Reply.access])⟩

end CueApi.Accounts
