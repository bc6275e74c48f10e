import CueApi.Accounts.Refinement
import CueApi.Library.Noted

/-! The keys that an account's row keeps: the encrypted one is the one whose hash the row has, and what
a request of the user shows is the key that the row had at some moment of that request. -/

namespace CueApi.Accounts

open Scheduler (Time UserId Pid Table seconds)
open ReadCommitted Interleaving Trace Recorded
open KeyRotation (AuthenticatedUser)

variable {env : Env} {t₀ : Tables} {p : Pid} {h h' h₁ h₂ : History} {ev : Event} {u : UserId}

/-! ## Calls -/

/-- The call of a process, wherever in the history it is asked for. -/
theorem callOf_eq_of_legal (hl : Legal env t₀ h) {call call' : Call} (hs₁ : h₁ <:+ h) (hs₂ : h₂ <:+ h)
    (hc₁ : callOf p h₁ = some call) (hc₂ : callOf p h₂ = some call') : call = call' := by
  have hA : ∀ h p call, Allowed env t₀ h (.began p call) → own p h = [] := fun _ _ _ ha => ha
  exact Option.some.inj ((callOf_suffix hA hl hs₁ hc₁).symm.trans (callOf_suffix hA hl hs₂ hc₂))

/-- What a note says at its point. -/
theorem marks_of_legal (hl : Legal env t₀ h) {mark : Mark} (hm : .marked p mark ∈ h) :
    ∃ h' call, .marked p mark :: h' <:+ h ∧ callOf p h' = some call ∧ Marks env t₀ h' p call mark := by
  obtain ⟨h', hs⟩ := mem_split hm
  obtain ⟨call, hc, hmark⟩ := hl.at hs
  exact ⟨h', call, hs, hc, hmark⟩

/-- What a transaction may be at its point. -/
theorem commits_of_legal (hl : Legal env t₀ h) {time : Time} {ws : List Write}
    (hm : .commit p time ws ∈ h) : ∃ h' call, .commit p time ws :: h' <:+ h ∧
      callOf p h' = some call ∧ Commits env t₀ h' p time call ws := by
  obtain ⟨h', hs⟩ := mem_split hm
  obtain ⟨call, hc, hcm⟩ := hl.at hs
  exact ⟨h', call, hs, hc, hcm⟩

/-! ## What an event does to a user -/

/-- The encrypted key, where it decrypts, is the one of the hash. -/
def Stored (env : Env) (row : User) : Prop :=
  ∀ c key, row.apiKeyEncrypted = some c → decryptApiKey env c = some key →
    row.apiKeyHash = env.sha256 key

/-- What an event does to the row of `u`. -/
inductive UserMoves (env : Env) (t₀ : Tables) (h : History) (ev : Event) (u : UserId) : Prop
  | same : (replayed t₀ (ev :: h)).user u = (replayed t₀ h).user u → UserMoves env t₀ h ev u
  | inserted (row : User) : (replayed t₀ h).user u = none →
      (replayed t₀ (ev :: h)).user u = some row → Stored env row → UserMoves env t₀ h ev u
  | updated (row : User) (update : UserUpdate) : (replayed t₀ h).user u = some row →
      (replayed t₀ (ev :: h)).user u = some (update.set row) →
      (∀ hash prefix' encrypted, update = .rekey hash prefix' encrypted →
        ∃ key, hash = env.sha256 key ∧ Encrypts env key encrypted) → UserMoves env t₀ h ev u

/-- A key that is not kept is not read back. -/
theorem Stored.of_encrypts {row : User} {key : String} (henc : Encrypts env key row.apiKeyEncrypted)
    (hhash : row.apiKeyHash = env.sha256 key) : Stored env row := by
  intro c key' hc hd
  rw [henc.1 c hc] at hd
  cases hd
  exact hhash

theorem Stored.of_none {row : User} (hnone : row.apiKeyEncrypted = none) : Stored env row := by
  intro c key hc
  rw [hnone] at hc
  cases hc

theorem UserMoves.insert {p : Pid} {time : Time} {ws : List Write} {v : UserId} {row : User}
    (hws : ∀ u, (replayed t₀ (.commit p time ws :: h)).user u =
      (Tables.apply (.insertUser v row) (replayed t₀ h)).user u)
    (hnone : (replayed t₀ h).user v = none) (hst : Stored env row) (u : UserId) :
    UserMoves env t₀ h (.commit p time ws) u := by
  have hrow := hws u
  rw [Tables.user_apply] at hrow
  dsimp only at hrow
  split at hrow
  · rename_i heq
    subst heq
    exact .inserted row hnone (by rw [hrow, hnone]; rfl) hst
  · exact .same hrow

theorem UserMoves.update {p : Pid} {time : Time} {v : UserId} {update : UserUpdate}
    (hkey : ∀ hash prefix' encrypted, update = .rekey hash prefix' encrypted →
      ∃ key, hash = env.sha256 key ∧ Encrypts env key encrypted) (u : UserId) :
    UserMoves env t₀ h (.commit p time [.updateUser v update]) u := by
  have hrow : (replayed t₀ (.commit p time [.updateUser v update] :: h)).user u = _ :=
    Tables.user_apply (.updateUser v update) (replayed t₀ h) u
  dsimp only at hrow
  split at hrow
  · cases hold : (replayed t₀ h).user u with
    | none => exact .same (by rw [hrow, hold]; rfl)
    | some row => exact .updated row update hold (by rw [hrow, hold]; rfl) hkey
  · exact .same hrow

/-- A transaction of device codes. -/
theorem UserMoves.codes {p : Pid} {time : Time} {ws : List Write}
    (hws : ∀ w ∈ ws, Key.user u ∉ w.keys) : UserMoves env t₀ h (.commit p time ws) u :=
  .same (schema.row_applyAll ws (replayed t₀ h) (Key.user u) hws)

/-- The step lemma of users. -/
theorem user_moves (ha : Allowed env t₀ h ev) (u : UserId) : UserMoves env t₀ h ev u := by
  cases ev with
  | began p call => exact .same rfl
  | marked p mark => exact .same rfl
  | ended p how => exact .same rfl
  | commit p time ws =>
    obtain ⟨call, -, hc⟩ := ha
    cases hc with
    | registered email apiKey slug v hnone =>
      exact .insert (fun _ => rfl) hnone (.of_none rfl) u
    | rekeyed headers credential user newKey newEncrypted hid henc =>
      refine .update (fun hash prefix' encrypted heq => ?_) u
      cases heq
      exact ⟨newKey, rfl, henc⟩
    | patched headers email url credential user hid => exact .update (fun _ _ _ heq => by cases heq) u
    | mirrored headers userId rawKey body v hnone =>
      exact .insert (fun _ => rfl) hnone (.of_none rfl) u
    | upserted headers userId body v => exact .update (fun _ _ _ heq => by cases heq) u
    | made deviceCode r expiresAt deleted hle =>
      refine .codes fun w hw => ?_
      by_cases hd : deleted = [] <;> simp only [hd, if_true, if_false, List.mem_cons] at hw
      · rcases hw with rfl | hw
        · simp [Write.keys]
        · cases hw
      · rcases hw with rfl | rfl | hw
        · simp [Write.keys]
        · simp [Write.keys]
        · cases hw
    | approvedNew token deviceCode sessionToken email newApiKey slug r row now v encrypted _ _ _ _ henc
        hnone =>
      have hst : Stored env (User.new env email newApiKey slug encrypted) := .of_encrypts henc rfl
      refine .insert (fun u' => ?_) hnone hst u
      exact Tables.user_apply (.updateCode r _) _ u'
    | _ => exact .codes (by simp [Write.keys])

/-! ## Rows along a run -/

theorem Stored.set {row : User} {update : UserUpdate} (hst : Stored env row)
    (hkey : ∀ hash prefix' encrypted, update = .rekey hash prefix' encrypted →
      ∃ key, hash = env.sha256 key ∧ Encrypts env key encrypted) : Stored env (update.set row) := by
  cases update with
  | patch email => exact hst
  | upsert body => exact hst
  | rekey hash prefix' encrypted =>
    obtain ⟨key, rfl, henc⟩ := hkey _ _ _ rfl
    cases encrypted with
    | some c => exact Stored.of_encrypts henc rfl
    | none =>
      -- the row keeps the key before, which nothing decrypts
      intro c key' _ hd
      simp [decryptApiKey, henc.2 rfl] at hd

/-- The run lemma of encrypted keys. -/
theorem stored_along (ht : ∀ u row, t₀.user u = some row → Stored env row) (hl : Legal env t₀ h) :
    ∀ u row, (replayed t₀ h).user u = some row → Stored env row := by
  refine Along.invariant
    (J := fun h => ∀ u row, (replayed t₀ h).user u = some row → Stored env row) ht ?_ hl
  intro h ev _ ha hj u row hrow
  cases user_moves ha u with
  | same heq => exact hj u row (heq ▸ hrow)
  | inserted row' _ hnew hst =>
    rw [hnew] at hrow
    cases hrow
    exact hst
  | updated row' update hold hnew hkey =>
    rw [hnew] at hrow
    cases hrow
    exact (hj u row' hold).set hkey

/-- No user is ever deleted. -/
theorem user_stays (hl : Legal env t₀ h') (hs : h <:+ h') {row : User}
    (hrow : (replayed t₀ h).user u = some row) : ∃ row', (replayed t₀ h').user u = some row' := by
  refine Along.invariant_from (J := fun h => ∃ row, (replayed t₀ h).user u = some row) ⟨row, hrow⟩ ?_
    hs hl
  rintro h ev - - ha ⟨row, hrow⟩
  cases user_moves ha u with
  | same heq => exact ⟨row, heq.trans hrow⟩
  | inserted row' hnone => rw [hrow] at hnone; cases hnone
  | updated row' update _ hnew => exact ⟨_, hnew⟩

/-! ## Whom a request is made for -/

/-- What Redis holds was put there. -/
theorem set_of_cache {key : CacheKey} {en : Expiring.Entry Cached Time} (hc : cache h key = some en) :
    ∃ q now expires, .marked q (.set key en.value now expires) ∈ h ∧ en.expires = some expires := by
  induction h with
  | nil => cases hc
  | cons ev h ih =>
    have before : cache h key = some en →
        ∃ q now expires, .marked q (.set key en.value now expires) ∈ ev :: h ∧
          en.expires = some expires := by
      intro hc
      obtain ⟨q, now, expires, hm, hexp⟩ := ih hc
      exact ⟨q, now, expires, List.mem_cons_of_mem _ hm, hexp⟩
    cases ev with
    | marked q mark =>
      cases mark with
      | set key' value now expires =>
        by_cases heq : key = key'
        · subst heq
          simp only [cache, Expiring.put, Function.update_self, Option.some.injEq] at hc
          subst hc
          exact ⟨q, now, expires, List.mem_cons_self, rfl⟩
        · rw [cache, Expiring.put, Function.update_of_ne heq] at hc
          exact before hc
      | deleted key' =>
        by_cases heq : key = key'
        · subst heq
          rw [cache, Expiring.del, Function.update_self] at hc
          cases hc
        · rw [cache, Expiring.del, Function.update_of_ne heq] at hc
          exact before hc
      | _ => exact before hc
    | _ => exact before hc

/-- What a request has found in Redis was put there and has not expired. -/
theorem set_of_hit (hl : Legal env t₀ h) {key : CacheKey} {user : AuthenticatedUser} {now : Time}
    (hm : .marked p (.hit key user now) ∈ h) : ∃ q now' expires h' call, now < expires ∧
      .marked q (.set key (.user user) now' expires) :: h' <:+ h ∧
      Marks env t₀ h' q call (.set key (.user user) now' expires) := by
  obtain ⟨h₁, _, hs₁, _, hget⟩ := marks_of_legal hl hm
  obtain ⟨en, hen, hlive, hvalue⟩ := Expiring.get_eq_some.mp hget
  obtain ⟨q, now', expires, hset, hexp⟩ := set_of_cache hen
  rw [hvalue] at hset
  have hs₁ : h₁ <:+ h := (List.suffix_cons _ _).trans hs₁
  obtain ⟨h₂, call, hs₂, -, hmark⟩ := marks_of_legal (hl.suffix hs₁) hset
  refine ⟨q, now', expires, h₂, call, ?_, hs₂.trans hs₁, hmark⟩
  simpa [Expiring.Entry.live, hexp] using hlive

/-- `u` has been there. -/
def Existed (t₀ : Tables) (h : History) (u : UserId) : Prop := ∃ row, (replayed t₀ h).user u = some row

theorem Existed.found (hl : Legal env t₀ h) {row : User} {now : Time}
    (hm : .marked p (.found u row now) ∈ h) : Existed t₀ h u := by
  obtain ⟨h', _, hs, _, hrow⟩ := marks_of_legal hl hm
  exact user_stays hl ((List.suffix_cons _ _).trans hs) hrow

/-- The run lemma of identities: a user that a request is made for is there. -/
theorem identified_existed (hl : Legal env t₀ h) : ∀ p credential (user : AuthenticatedUser),
    .marked p (.identified credential user) ∈ h → Existed t₀ h user.id := by
  refine Along.invariant (J := fun h => ∀ p credential (user : AuthenticatedUser),
    .marked p (.identified credential user) ∈ h → Existed t₀ h user.id) nofun ?_ hl
  intro h ev hl ha hj p credential user hm
  have hl' : Legal env t₀ (ev :: h) := ⟨ha, hl⟩
  have later : Existed t₀ h user.id → Existed t₀ (ev :: h) user.id := fun ⟨row, hrow⟩ =>
    user_stays hl' (List.suffix_cons _ _) hrow
  rcases List.mem_cons.mp hm with rfl | hm
  · obtain ⟨call, -, hid⟩ := ha
    refine later ?_
    cases hid with
    | cachedKey headers key now hh hb hhit =>
      obtain ⟨q, now', expires, h', call', -, hs, -, hholds⟩ := set_of_hit hl hhit
      have hs : h' <:+ h := (List.suffix_cons _ _).trans hs
      cases hholds with
      | found row now hf hhash heq => exact .found hl (hs.mem hf)
      | rekeyed credential' time prefix' encrypted hid hc => exact hj _ _ _ (hs.mem hid)
    | foundKey headers key row now hh hb hf hhash heq => exact .found hl hf
    | cachedSession headers jwt now now' claims hh hb hd hhit =>
      obtain ⟨q, now', expires, h', call', -, hs, -, row, now'', hf, heq⟩ := set_of_hit hl hhit
      rw [heq]
      exact .found hl (((List.suffix_cons _ _).trans hs).mem hf)
    | foundSession headers jwt now now' claims row hh hb hd hf heq =>
      rw [heq]
      exact .found hl hf
    | internal headers text row now hh hext hne hb htext huuid hf heq => exact .found hl hf
  · exact later (hj p credential user hm)

/-! ## What a request shows -/

/-- `key` is the one of `u` after `h`. -/
def Keyed (env : Env) (t₀ : Tables) (h : History) (u : UserId) (key : String) : Prop :=
  ∃ row, (replayed t₀ h).user u = some row ∧ row.apiKeyHash = env.sha256 key

/-- What a request reads back from a row is its key. -/
theorem Reads.keyed (hl : Legal env t₀ h) (ht : ∀ u row, t₀.user u = some row → Stored env row)
    {call : Call} {key : String} (hc : callOf p h = some call) (hr : Reads env h p u key) :
    ∃ h', h' <:+ h ∧ callOf p h' = some call ∧ Keyed env t₀ h' u key := by
  obtain ⟨row, now, c, hf, hrow, hd⟩ := hr
  obtain ⟨h', call', hs, hc', hfound⟩ := marks_of_legal hl hf
  have hs : h' <:+ h := (List.suffix_cons _ _).trans hs
  obtain rfl := callOf_eq_of_legal hl hs (List.suffix_refl _) hc' hc
  exact ⟨h', hs, hc', row, hfound, stored_along ht (hl.suffix hs) u row hfound c key hrow hd⟩

/-- A rotation is for a user that has been identified. -/
theorem identified_of_rekey {time : Time} {call : Call} {hash prefix' : String}
    {encrypted : Option String}
    (hc : Commits env t₀ h p time call [.updateUser u (.rekey hash prefix' encrypted)]) :
    ∃ credential user, .marked p (.identified credential user) ∈ h ∧ user.id = u := by
  cases hc with
  | rekeyed headers credential user newKey newEncrypted hid => exact ⟨credential, user, hid, rfl⟩

/-- The key that a rotation has committed is the one of the user. -/
theorem keyed_of_rekey (hl : Legal env t₀ h) {time : Time} {key prefix' : String}
    {encrypted : Option String}
    (hm : .commit p time [.updateUser u (.rekey (env.sha256 key) prefix' encrypted)] ∈ h) :
    ∃ h' call, .commit p time [.updateUser u (.rekey (env.sha256 key) prefix' encrypted)] :: h' <:+ h ∧
      callOf p h' = some call ∧ Keyed env t₀
        (.commit p time [.updateUser u (.rekey (env.sha256 key) prefix' encrypted)] :: h') u key := by
  obtain ⟨h₁, call, hs, hc, hcm⟩ := commits_of_legal hl hm
  refine ⟨h₁, call, hs, hc, ?_⟩
  have hl₁ : Legal env t₀ h₁ := hl.suffix ((List.suffix_cons _ _).trans hs)
  obtain ⟨credential, user, hid, rfl⟩ := identified_of_rekey hcm
  obtain ⟨row, hrow⟩ := identified_existed hl₁ _ _ _ hid
  have hnew := Tables.user_apply (.updateUser user.id (.rekey (env.sha256 key) prefix' encrypted))
    (replayed t₀ h₁) user.id
  simp only [if_true, hrow] at hnew
  exact ⟨_, hnew, rfl⟩

/-- A key that a request of a user is shown is the user's own at some moment of that request, whoever
replaces it around. -/
theorem shown_key_own {users : Table UserId User} {s : Sys} (hr : Reachable env users s)
    (ht : ∀ u row, users.lookup u = some row → Stored env row) {call : Call} {reply : Reply}
    {key : String} (hm : .ended p (.returned reply) ∈ s.shared.history)
    (hc : callOf p s.shared.history = some call) (hh : call.headers.isSome)
    (hkey : .apiKey key ∈ reply.access) :
    ∃ credential user h, .marked p (.identified credential user) ∈ s.shared.history ∧
      h <:+ s.shared.history ∧ callOf p h = some call ∧
      Keyed env { users := users } h user.id key := by
  have hl := hr.legal
  obtain ⟨h, hended⟩ := mem_split hm
  obtain ⟨call', hc', hret⟩ := hl.at hended
  have hs : h <:+ s.shared.history := (List.suffix_cons _ _).trans hended
  obtain rfl := callOf_eq_of_legal hl hs (List.suffix_refl _) hc' hc
  unfold Returns at hret
  split at hret
  · cases hkey
  · cases hh
  · rename_i apiKey
    obtain ⟨credential, user, time, encrypted, hid, hcm⟩ := hret
    obtain rfl : key = apiKey := by simpa [Reply.access] using hkey
    obtain ⟨h', call', hs', hc'', hk⟩ := keyed_of_rekey (hl.suffix hs) hcm
    have hs' := hs'.trans hs
    obtain rfl := callOf_eq_of_legal hl ((List.suffix_cons _ _).trans hs') hs hc'' hc'
    exact ⟨credential, user, _, hs.mem hid, hs', hc'', hk⟩
  · rename_i apiKey _ _
    obtain ⟨credential, user, hid, hreads⟩ := hret
    obtain rfl : key = apiKey := by simpa [Reply.access] using hkey
    obtain ⟨h', hs', hc'', hk⟩ := hreads.keyed (hl.suffix hs) ht hc'
    exact ⟨credential, user, h', hs.mem hid, hs'.trans hs, hc'', hk⟩
  · simp [Reply.access] at hkey
  · simp [Reply.access] at hkey
  · cases hh
  · cases hh
  · rw [hret] at hkey
    cases hkey

/-! ### A sign-in -/

/-- Ciphers and digests that can be told apart, and JWTs that name their user, signed at the instant
0 for one address. -/
def plainEnv : Env where
  sha256 s := "sha256:" ++ s
  fernet c := some (String.ofList (c.toList.drop 1))
  jwtEncode claims := String.ofList (List.replicate claims.sub 's')
  jwtDecode now jwt :=
    if now < seconds (sessionHours * 3600) then
      .ok ⟨jwt.length, "a@b.c", "session", 0, seconds (sessionHours * 3600)⟩
    else .error .expired
  uuid _ := none

/-- A request that runs to its end. -/
def play (p : Pid) (call : Call) (answers : List Answer) : List Action :=
  .start p call :: answers.map (.advance p) ++ [.leave p]

/-- A new address signs in with a device code. -/
def signIn : List Action :=
  play 1 (.createDeviceCode "code-1") [.bool true, .go, .go, .fresh 7, .go, .go] ++
  play 2 (.submitEmail "code-1" "a@b.c")
    [.bool true, .bool true, .go, .go, .text "link", .go, .go, .go] ++
  play 3 (.verify "link" "code-1")
    [.go, .go, .go, .text "once", .text "k", .text "+cue_sk_k", .text "slug", .fresh 1, .go, .go, .go] ++
  play 4 (.pollDeviceCode "code-1") [.bool true, .go, .go, .go, .go]

def keyHeaders : Headers := { authorization := some "Bearer cue_sk_k" }

/-- Then the key is shown. -/
def showKey : List Action := play 5 (.revealKey keyHeaders) [.go, .go, .go, .go, .go]

/-- A run that evaluates to `v` under `f`. -/
theorem reachable_of_run (as : List Action) {α : Type} (f : Sys → α) {v : α}
    (hrun : (run plainEnv (start ∅ 0) as).map f = some v) : ∃ s, Reachable plainEnv ∅ s ∧ f s = v := by
  obtain ⟨s, hs, hv⟩ := Option.map_eq_some_iff.mp hrun
  exact ⟨s, ⟨0, as, hs⟩, hv⟩

/-- What has been replied, by whom. -/
def replies (h : History) : List (Pid × Reply) :=
  h.filterMap fun ev => match ev with
    | .ended p (.returned reply) => some (p, reply)
    | _ => none

theorem mem_of_replies {reply : Reply} (hm : (p, reply) ∈ replies h) :
    .ended p (.returned reply) ∈ h := by
  obtain ⟨ev, hev, heq⟩ := List.mem_filterMap.mp hm
  split at heq <;> cases heq
  exact hev

/-- Process `q` has been let in with the credential as user 1. -/
def entersBy (q : Pid) (credential : Credential) : Event → Bool
  | .marked p (.identified credential' user) => p = q && credential' = credential && user.id = 1
  | _ => false

theorem entered_of_entersBy {s : History} {q : Pid} {credential : Credential}
    (h : s.any (entersBy q credential) = true) :
    ∃ user, .marked q (.identified credential user) ∈ s ∧ user.id = 1 := by
  obtain ⟨ev, hev, hmatch⟩ := List.any_eq_true.mp h
  unfold entersBy at hmatch
  split at hmatch
  · rename_i p credential' user
    simp only [Bool.and_eq_true, decide_eq_true_eq] at hmatch
    obtain ⟨⟨rfl, rfl⟩, hid⟩ := hmatch
    exact ⟨user, hev, hid⟩
  · cases hmatch

theorem shown_key_own_signedIn : ∃ s, Reachable plainEnv ∅ s ∧
    ∃ credential user h, .marked 5 (.identified credential user) ∈ s.shared.history ∧
      h <:+ s.shared.history ∧ callOf 5 h = some (.revealKey keyHeaders) ∧
      Keyed plainEnv {} h user.id "cue_sk_k" := by
  obtain ⟨s, hr, hv⟩ := reachable_of_run (signIn ++ showKey) (fun s =>
    (decide ((5, .key (some "cue_sk_k") "" "") ∈ replies s.shared.history),
      callOf 5 s.shared.history)) (v := (true, some (.revealKey keyHeaders))) (by decide +kernel)
  simp only [Prod.mk.injEq, decide_eq_true_eq] at hv
  exact ⟨s, hr, shown_key_own hr (by simp) (mem_of_replies hv.1) hv.2 rfl (by simp [Reply.access])⟩

end CueApi.Accounts
