import CueApi.Accounts.Provenance

/-! Whom a request is made for: behind every identity, through any number of caches and of sessions that
were refreshed, stands a key of the account, a link that was made for its address, the integrator, or a
JWT that was not issued. -/

namespace CueApi.Accounts

open Scheduler (Time UserId Pid Table)
open ReadCommitted Interleaving Trace Recorded
open KeyRotation (AuthenticatedUser)

variable {env : Env} {t₀ : Tables} {p : Pid} {h h' : History} {ev : Event} {u : UserId}

/-- `p` has come with this bearer token. -/
def Presented (h : History) (p : Pid) (headers : Headers) (token : String) : Prop :=
  ∃ call, .began p call ∈ h ∧ call.headers = some headers ∧ bearer headers.authorization = some token

theorem Presented.of_callOf {call : Call} {headers : Headers} {token : String}
    (hc : callOf p h = some call) (hh : call.headers = some headers)
    (hb : bearer headers.authorization = some token) : Presented h p headers token :=
  ⟨call, began_of_callOf hc, hh, hb⟩

/-- What stands behind an identity of `u`. -/
inductive Entered (env : Env) (t₀ : Tables) (h : History) (u : UserId) : Prop
  | key (q : Pid) (headers : Headers) (key : String) (h' : History) : Presented h q headers key →
      h' <:+ h → Keyed env t₀ h' u key → Entered env t₀ h u
  | link (r : CodeId) : Vouched t₀ h r u → Entered env t₀ h u
  | integrator (q : Pid) (headers : Headers) (text : String) : env.externalAuthBackend = true →
      env.internalAuthToken ≠ "" → Presented h q headers env.internalAuthToken →
      headers.onBehalfOf = some text → env.uuid text = some u → Entered env t₀ h u
  | forged (q : Pid) (headers : Headers) (jwt : String) (now : Time) (claims : Claims) (h' : History) :
      h' <:+ h → Presented h' q headers jwt → decodeSessionJwt env now jwt = .ok claims →
      claims.sub = u → (∀ q' claims', .marked q' (.issued jwt claims') ∉ h') → Entered env t₀ h u

/-- What `jwt.decode` takes of a JWT that `jwt.encode` has signed names the same user. -/
def KeepsSub (env : Env) : Prop :=
  ∀ now issued claims, env.jwtDecode now (env.jwtEncode issued) = .ok claims → claims.sub = issued.sub

theorem Presented.suffix {headers : Headers} {token : String} (hp : Presented h p headers token)
    (hs : h <:+ h') : Presented h' p headers token := by
  obtain ⟨call, hm, hrest⟩ := hp
  exact ⟨call, hs.mem hm, hrest⟩

theorem Vouched.suffix {r : CodeId} (hl : Legal env t₀ h') (hv : Vouched t₀ h r u) (hs : h <:+ h') :
    Vouched t₀ h' r u := by
  obtain ⟨creator, submitter, verifier, made, time, now, ws, code, row, email, token, deviceCode, hmade,
    hinsert, hsub, -, hbegan, hopened, htoken, hle, h₁, account, hs₁, hrow, hemail⟩ := hv
  exact .intro creator submitter verifier made time now ws code row email token deviceCode
    (hs.mem hmade) hinsert (hs.mem hsub) (fun _ _ _ hm => sent_to hl (hs.mem hsub) hm) (hs.mem hbegan)
    (hs.mem hopened) htoken hle ⟨h₁, account, hs₁.trans hs, hrow, hemail⟩

theorem Entered.suffix (hl : Legal env t₀ h') (he : Entered env t₀ h u) (hs : h <:+ h') :
    Entered env t₀ h' u := by
  cases he with
  | key q headers key h₁ hp hs₁ hk => exact .key q headers key h₁ (hp.suffix hs) (hs₁.trans hs) hk
  | link r hv => exact .link r (hv.suffix hl hs)
  | integrator q headers text hext hne hp htext huuid =>
    exact .integrator q headers text hext hne (hp.suffix hs) htext huuid
  | forged q headers jwt now claims h₁ hs₁ hp hd hsub hnot =>
    exact .forged q headers jwt now claims h₁ (hs₁.trans hs) hp hd hsub hnot

/-- The user that Redis holds under the hash of a key has had that key. -/
theorem keyed_of_holds (hl : Legal env t₀ h) {key : String} {user : AuthenticatedUser}
    (hh : Holds h p (env.sha256 key) user) : ∃ h', h' <:+ h ∧ Keyed env t₀ h' user.id key := by
  cases hh with
  | found row now hf hhash heq =>
    obtain ⟨h', _, hs, _, hrow⟩ := marks_of_legal hl hf
    exact ⟨h', (List.suffix_cons _ _).trans hs, row, hrow, hhash⟩
  | rekeyed credential time prefix' encrypted hid hc =>
    obtain ⟨h', _, hs, _, hk⟩ := keyed_of_rekey hl hc
    exact ⟨_, hs, hk⟩

/-- The user of a JWT that has been signed has entered. -/
theorem entered_of_signs (ht : ∀ r, t₀.code r = none) (hl : Legal env t₀ h)
    (hj : ∀ p credential (user : AuthenticatedUser),
      .marked p (.identified credential user) ∈ h → Entered env t₀ h user.id)
    {jwt : String} {claims : Claims} (hm : .marked p (.issued jwt claims) ∈ h) :
    Entered env t₀ h claims.sub := by
  obtain ⟨h₁, call, hs, hc, -, hsigns⟩ := marks_of_legal hl hm
  have hs : h₁ <:+ h := (List.suffix_cons _ _).trans hs
  generalize claims.sub = u at hsigns
  cases hsigns with
  | refreshed call credential user hid => exact hj p credential user (hs.mem hid)
  | exchanged token r row now u hopened htoken huser =>
    exact .link r (vouched_of_exchanged ht hl (hs.mem hopened) htoken huser)

theorem decode_of_session {jwt : String} {now : Time} {claims : Claims}
    (h : decodeSessionJwt env now jwt = .ok claims) : env.jwtDecode now jwt = .ok claims := by
  unfold decodeSessionJwt at h
  split at h
  · split at h
    · rename_i hd
      split at h
      · cases h
        exact hd
      · cases h
    · cases h
  · cases h

/-- The user of a session has entered, or its JWT was not issued. -/
theorem entered_of_session (hsub : KeepsSub env) (ht : ∀ r, t₀.code r = none) (hl : Legal env t₀ h)
    (hj : ∀ p credential (user : AuthenticatedUser),
      .marked p (.identified credential user) ∈ h → Entered env t₀ h user.id)
    {headers : Headers} {jwt : String} {now : Time} {claims : Claims}
    (hp : Presented h p headers jwt) (hd : decodeSessionJwt env now jwt = .ok claims) :
    Entered env t₀ h claims.sub := by
  by_cases hissued : ∃ q claims', .marked q (.issued jwt claims') ∈ h
  · obtain ⟨q, claims', hm⟩ := hissued
    obtain ⟨-, -, -, -, rfl, -⟩ := marks_of_legal hl hm
    rw [hsub now claims' claims (decode_of_session hd)]
    exact entered_of_signs ht hl hj hm
  · exact .forged p headers jwt now claims h (List.suffix_refl _) hp hd rfl
      fun q claims' hm => hissued ⟨q, claims', hm⟩

/-- The step of the induction: an identity rests on what came before it. -/
theorem entered_of_identifies (hsub : KeepsSub env) (ht : ∀ r, t₀.code r = none) (hl : Legal env t₀ h)
    (hj : ∀ p credential (user : AuthenticatedUser),
      .marked p (.identified credential user) ∈ h → Entered env t₀ h user.id)
    {call : Call} {credential : Credential} {user : AuthenticatedUser} (hc : callOf p h = some call)
    (hid : Identifies env h p call user credential) : Entered env t₀ h user.id := by
  cases hid with
  | cachedKey headers key now hh hb hhit =>
    obtain ⟨q, now', expires, h₁, call', -, hs, -, hholds⟩ := set_of_hit hl hhit
    have hs : h₁ <:+ h := (List.suffix_cons _ _).trans hs
    obtain ⟨h₂, hs₂, hk⟩ := keyed_of_holds (hl.suffix hs) hholds
    exact .key p headers key h₂ (.of_callOf hc hh hb) (hs₂.trans hs) hk
  | foundKey headers key row now hh hb hf hhash heq =>
    obtain ⟨h₁, hs₁, hk⟩ := keyed_of_holds hl (.found row now hf hhash heq)
    exact .key p headers key h₁ (.of_callOf hc hh hb) hs₁ hk
  | cachedSession headers jwt now now' claims hh hb hd hhit =>
    obtain ⟨q, now₁, expires, h₁, call', -, -, -, row, now₂, hf, heq⟩ := set_of_hit hl hhit
    rw [heq]
    exact entered_of_session hsub ht hl hj (.of_callOf hc hh hb) hd
  | foundSession headers jwt now now' claims row hh hb hd hf heq =>
    rw [heq]
    exact entered_of_session hsub ht hl hj (.of_callOf hc hh hb) hd
  | internal headers text row now hh hext hne hb htext huuid hf heq =>
    exact .integrator p headers text hext hne (.of_callOf hc hh hb) htext huuid

/-- Every identity is one that the account, its address or the integrator stands for, unless its JWT was
never issued. -/
theorem identified_entered {users : Table UserId User} {s : Sys} (hr : Reachable env users s)
    (hsub : KeepsSub env) {credential : Credential} {user : AuthenticatedUser}
    (hm : .marked p (.identified credential user) ∈ s.shared.history) :
    Entered env { users := users } s.shared.history user.id := by
  suffices h : ∀ p credential (user : AuthenticatedUser),
      .marked p (.identified credential user) ∈ s.shared.history →
      Entered env { users := users } s.shared.history user.id from h p credential user hm
  refine Along.invariant (J := fun h => ∀ p credential (user : AuthenticatedUser),
    .marked p (.identified credential user) ∈ h → Entered env { users := users } h user.id)
    nofun ?_ hr.legal
  intro h ev hl ha hj p credential user hm
  have hl' : Legal env { users := users } (ev :: h) := ⟨ha, hl⟩
  refine Entered.suffix hl' ?_ (List.suffix_cons _ _)
  rcases List.mem_cons.mp hm with rfl | hm
  · obtain ⟨call, hc, hid⟩ := ha
    exact entered_of_identifies hsub (fun _ => rfl) hl hj hc hid
  · exact hj p credential user hm

theorem plainEnv_keepsSub : KeepsSub plainEnv := by
  intro now issued claims h
  change (if now < _ then _ else _) = _ at h
  split at h
  · cases h
    simp [plainEnv]
  · cases h

/-- The session token buys a JWT, and that one another. -/
def sessions : List Action :=
  play 5 (.createSession "once") [.go, .go, .go, .go, .go] ++
  play 6 (.refreshSession { authorization := some "Bearer s" }) [.go, .go, .go, .go, .go, .go]

theorem identified_entered_refreshed : ∃ s, Reachable plainEnv ∅ s ∧
    (∃ user, .marked 6 (.identified (.session "s") user) ∈ s.shared.history ∧ user.id = 1) ∧
    Entered plainEnv {} s.shared.history 1 := by
  obtain ⟨s, hr, hv⟩ := reachable_of_run (signIn ++ sessions)
    (fun s => s.shared.history.any (entersBy 6 (.session "s"))) (v := true) (by decide +kernel)
  obtain ⟨user, hm, hid⟩ := entered_of_entersBy hv
  exact ⟨s, hr, ⟨user, hm, hid⟩, hid ▸ identified_entered hr plainEnv_keepsSub hm⟩

end CueApi.Accounts
