import CueApi.Accounts.Statements

/-! Every request of accounts keeps to the transactions of `Commits`, notes what it has seen and replies
upon it, whatever runs beside it. -/

namespace CueApi.Accounts

open Scheduler (Time UserId ApiError Pid seconds)
open ReadCommitted Interleaving Trace Recorded
open SignIn (DeviceCode Status truthy)
open KeyRotation (AuthenticatedUser)

variable {env : Env} {t₀ : Tables} {p : Pid} {call : Call} {B : List Write} {w w' : World}

/-- The reply is one that the call may end with. -/
def Replies (env : Env) (t₀ : Tables) (p : Pid) (reply : Reply) (w : World) : Prop :=
  Allowed env t₀ w.history (.ended p (.returned reply))

theorem Here.replies (hw : Here p call B w) {reply : Reply} (hr : Returns env w.history p call reply) :
    RunsOn env t₀ p (Replies env t₀ p) (return reply) w := ⟨call, hw.running, hr⟩

theorem Returns.suffix {h h' : History} {reply : Reply} (hr : Returns env h p call reply)
    (hs : h <:+ h') : Returns env h' p call reply := by
  unfold Returns at hr ⊢
  split at hr
  · obtain ⟨credential, hm⟩ := hr
    exact ⟨credential, hs.mem hm⟩
  · obtain ⟨heq, time, u, slug, hm⟩ := hr
    exact ⟨heq, time, u, slug, hs.mem hm⟩
  · obtain ⟨credential, user, time, encrypted, hm, hc⟩ := hr
    exact ⟨credential, user, time, encrypted, hs.mem hm, hs.mem hc⟩
  · obtain ⟨credential, user, hm, row, now, c, hf, hr⟩ := hr
    exact ⟨credential, user, hs.mem hm, row, now, c, hs.mem hf, hr⟩
  · obtain ⟨claims, hm⟩ := hr
    exact ⟨claims, hs.mem hm⟩
  · obtain ⟨claims, hm⟩ := hr
    exact ⟨claims, hs.mem hm⟩
  · obtain ⟨time, ws, r, plain, u, hm, hw⟩ := hr
    exact ⟨time, ws, r, plain, u, hs.mem hm, hw⟩
  · obtain ⟨r, row, now, hm, hst, htok, hkey⟩ := hr
    refine ⟨r, row, now, hs.mem hm, hst, htok, fun key heq => (hkey key heq).imp id ?_⟩
    rintro ⟨u, hu, urow, now', c, hf, hr⟩
    exact ⟨u, hu, urow, now', c, hs.mem hf, hr⟩
  · exact hr

/-! ## `get_current_user` -/

/-- `p` goes on with a result of which `φ` holds. -/
def Goes {α : Type} (p : Pid) (call : Call) (w : World) (φ : α → History → Prop) (a : α)
    (w' : World) : Prop := Later p w w' ∧ Here p call [] w' ∧ φ a w'.history

/-- The user that an authentication yields is of that credential. -/
def Yields (env : Env) (p : Pid) (call : Call) (credential : Credential)
    (r : Except ApiError AuthenticatedUser) (h : History) : Prop :=
  ∀ user, r = .ok user → Identifies env h p call user credential

variable {headers : Headers} {credential : Credential}

theorem Goes.error (hl : Later p w w') (hw : Here p call [] w') (e : ApiError) :
    RunsOn env t₀ p (Goes p call w (Yields env p call credential)) (return .error e) w' :=
  ⟨hl, hw, nofun⟩

theorem Goes.ok (hl : Later p w w') (hw : Here p call [] w') {user : AuthenticatedUser}
    (hi : Identifies env w'.history p call user credential) :
    RunsOn env t₀ p (Goes p call w (Yields env p call credential)) (return .ok user) w' :=
  ⟨hl, hw, fun _ heq => by cases heq; exact hi⟩

theorem runs_authViaInternalToken (hw : Here p call [] w) (hh : call.headers = some headers)
    (hext : env.externalAuthBackend = true) (hne : env.internalAuthToken ≠ "")
    (hb : bearer headers.authorization = some env.internalAuthToken) :
    RunsOn env t₀ p (Goes p call w (Yields env p call .internal))
      (authViaInternalToken env p headers.onBehalfOf) w := by
  unfold authViaInternalToken
  split
  · exact Goes.error (.refl p w) hw _
  · rename_i text htext
    have htext : headers.onBehalfOf = some text := (Option.filter_eq_some_iff.mp htext).1
    split
    · exact Goes.error (.refl p w) hw _
    · rename_i user huuid
      refine runs_selectUser hw (fun w₁ hl₁ hw₁ => ?_) fun w₁ u row now hl₁ hw₁ hwh _ hm => ?_
      · exact Goes.error hl₁ hw₁ _
      · obtain rfl : u = user := of_decide_eq_true hwh
        exact Goes.ok hl₁ hw₁ (.internal headers text row now hh hext hne hb htext huuid hm rfl)

theorem runs_findByKey {key : String} (hw : Here p call [] w) (hh : call.headers = some headers)
    (hb : bearer headers.authorization = some key) :
    RunsOn env t₀ p (Goes p call w (Yields env p call (.apiKey key)))
      (findByKey p (env.sha256 key)) w := by
  refine runs_selectUser hw (fun w₂ hl₂ hw₂ => ?_) fun w₂ u row now hl₂ hw₂ hwh _ hm => ?_
  · refine runs_getCached hw₂ fun w₃ _ hl₃ hw₃ _ => ?_
    exact Goes.error (hl₂.trans hl₃) hw₃ _
  · have hhash : row.apiKeyHash = env.sha256 key := of_decide_eq_true hwh
    refine runs_setCached hw₂ (fun w₃ hs => ⟨rfl, .found row now (hs.mem hm) hhash rfl⟩)
      fun w₃ _ hl₃ hw₃ => ?_
    exact Goes.ok (hl₂.trans hl₃) hw₃
      (.foundKey headers key row now hh hb (hl₃.history.mem hm) hhash rfl)

theorem Goes.before {α : Type} {φ : α → History → Prop} {prog : Program α} (hl : Later p w w')
    (h : RunsOn env t₀ p (Goes p call w' φ) prog w') : RunsOn env t₀ p (Goes p call w φ) prog w' :=
  h.weaken fun _ _ ⟨hl', hw', hφ⟩ => ⟨hl.trans hl', hw', hφ⟩

theorem runs_authViaApiKey {key : String} (hw : Here p call [] w) (hh : call.headers = some headers)
    (hb : bearer headers.authorization = some key) :
    RunsOn env t₀ p (Goes p call w (Yields env p call (.apiKey key))) (authViaApiKey env p key) w := by
  refine runs_getCached hw fun w₁ found hl₁ hw₁ hhit => ?_
  cases found with
  | none => exact Goes.before hl₁ (runs_findByKey hw₁ hh hb)
  | some value =>
    cases value with
    | flag => exact Goes.before hl₁ (runs_findByKey hw₁ hh hb)
    | user user =>
      obtain ⟨now, hm⟩ := hhit user rfl
      exact Goes.ok hl₁ hw₁ (.cachedKey headers key now hh hb hm)

theorem runs_findBySub {jwt : String} {claims : Claims} {now' : Time} (hw : Here p call [] w)
    (hh : call.headers = some headers) (hb : bearer headers.authorization = some jwt)
    (hd : decodeSessionJwt env now' jwt = .ok claims) :
    RunsOn env t₀ p (Goes p call w (Yields env p call (.session jwt))) (findBySub p claims.sub) w := by
  refine runs_selectUser hw (fun w₂ hl₂ hw₂ => ?_) fun w₂ u row now hl₂ hw₂ hwh _ hm => ?_
  · exact Goes.error hl₂ hw₂ _
  · obtain rfl : u = claims.sub := of_decide_eq_true hwh
    refine runs_setCached hw₂ (fun w₃ hs => ⟨rfl, row, now, hs.mem hm, rfl⟩) fun w₃ _ hl₃ hw₃ => ?_
    exact Goes.ok (hl₂.trans hl₃) hw₃
      (.foundSession headers jwt now now' claims row hh hb hd (hl₃.history.mem hm) rfl)

theorem runs_authViaSessionJwt {jwt : String} (hw : Here p call [] w)
    (hh : call.headers = some headers) (hb : bearer headers.authorization = some jwt) :
    RunsOn env t₀ p (Goes p call w (Yields env p call (.session jwt)))
      (authViaSessionJwt env p jwt) w := by
  refine runs_clock hw fun w₀ hl₀ hw₀ _ => ?_
  split
  · exact Goes.error hl₀ hw₀ _
  · exact Goes.error hl₀ hw₀ _
  · rename_i claims hd
    refine runs_getCached hw₀ fun w₁ found hl₁ hw₁ hhit => ?_
    cases found with
    | none => exact Goes.before (hl₀.trans hl₁) (runs_findBySub hw₁ hh hb hd)
    | some value =>
      cases value with
      | flag => exact Goes.before (hl₀.trans hl₁) (runs_findBySub hw₁ hh hb hd)
      | user user =>
        obtain ⟨now, hm⟩ := hhit user rfl
        exact Goes.ok (hl₀.trans hl₁) hw₁
          (.cachedSession headers jwt now w₀.clock claims hh hb hd hm)

theorem Identifies.suffix {h h' : History} {user : AuthenticatedUser}
    (hi : Identifies env h p call user credential) (hs : h <:+ h') :
    Identifies env h' p call user credential := by
  cases hi with
  | cachedKey headers key now hh hb hm => exact .cachedKey headers key now hh hb (hs.mem hm)
  | foundKey headers key row now hh hb hm hhash heq =>
    exact .foundKey headers key row now hh hb (hs.mem hm) hhash heq
  | cachedSession headers jwt now now' claims hh hb hd hm =>
    exact .cachedSession headers jwt now now' claims hh hb hd (hs.mem hm)
  | foundSession headers jwt now now' claims row hh hb hd hm heq =>
    exact .foundSession headers jwt now now' claims row hh hb hd (hs.mem hm) heq
  | internal headers text row now hh hext hne hb htext huuid hm heq =>
    exact .internal headers text row now hh hext hne hb htext huuid (hs.mem hm) heq

/-- The user is noted. -/
def Identified (p : Pid) (r : Except ApiError AuthenticatedUser) (h : History) : Prop :=
  ∀ user, r = .ok user → ∃ credential, .marked p (.identified credential user) ∈ h

theorem runs_identify {prog : Program (Except ApiError AuthenticatedUser)}
    (hp : RunsOn env t₀ p (Goes p call w (Yields env p call credential)) prog w) :
    RunsOn env t₀ p (Goes p call w (Identified p)) (identify p credential prog) w := by
  refine Safe.bind hp fun r w₁ ⟨hl₁, hw₁, hy⟩ => ?_
  cases r with
  | error e => exact ⟨hl₁, hw₁, nofun⟩
  | ok user =>
    refine Safe.weaken (runs_noting (k := fun r => return r) hw₁
      (Q := Goes p call w₁ (Identified p)) fun w₂ hl₂ hw₂ hi₂ a r w₃ hs => ?_) ?_
    · cases hs
      refine .inr ⟨_, rfl, (hy user rfl).suffix hl₂.history, fun hl hw _ => ⟨hl, hw, ?_⟩⟩
      intro user' heq
      cases heq
      exact ⟨credential, mem_note ..⟩
    · rintro r w₃ ⟨hl, hw, hid⟩
      exact ⟨hl₁.trans hl, hw, hid⟩

theorem runs_authViaToken {token : String} (hw : Here p call [] w) (hh : call.headers = some headers)
    (hb : bearer headers.authorization = some token) :
    RunsOn env t₀ p (Goes p call w (Identified p)) (authViaToken env p token) w := by
  unfold authViaToken
  split
  · exact runs_identify (runs_authViaApiKey hw hh hb)
  · exact runs_identify (runs_authViaSessionJwt hw hh hb)

theorem runs_getCurrentUser (hw : Here p call [] w) (hh : call.headers = some headers) :
    RunsOn env t₀ p (Goes p call w (Identified p)) (getCurrentUser env p headers) w := by
  unfold getCurrentUser
  split
  · exact ⟨.refl p w, hw, nofun⟩
  · rename_i token hb
    split
    · rename_i hext
      split
      · trivial
      · rename_i hsame
        obtain rfl : token = env.internalAuthToken := by
          simp only [compareDigest] at hsame
          split at hsame
          · exact of_decide_eq_true (Option.some.inj hsame)
          · cases hsame
        exact runs_identify (runs_authViaInternalToken hw hh hext.1 hext.2 hb)
      · exact runs_authViaToken hw hh hb
    · exact runs_authViaToken hw hh hb

theorem runs_asUser {k : AuthenticatedUser → Program Reply} (hw : Here p call [] w)
    (hh : call.headers = some headers)
    (herror : ∀ w' e, Here p call [] w' → Returns env w'.history p call (.error e))
    (h : ∀ w' user credential, Here p call [] w' →
      .marked p (.identified credential user) ∈ w'.history →
      RunsOn env t₀ p (Replies env t₀ p) (k user) w') :
    RunsOn env t₀ p (Replies env t₀ p) (asUser env p headers k) w := by
  refine Safe.bind (runs_getCurrentUser hw hh) fun r w₁ ⟨_, hw₁, hid⟩ => ?_
  cases r with
  | error e => exact hw₁.replies (herror w₁ e hw₁)
  | ok user =>
    obtain ⟨credential, hm⟩ := hid user rfl
    exact h w₁ user credential hw₁ hm

/-! ## `auth_routes.py` -/

theorem runs_authenticated (hw : Here p (.authenticated headers) [] w) :
    RunsOn env t₀ p (Replies env t₀ p) (programOf env p (.authenticated headers)) w :=
  runs_asUser hw rfl (fun _ _ _ => rfl) fun _ _ credential hw₁ hm => hw₁.replies ⟨credential, hm⟩

theorem runs_registerNew {email : String} (hw : Here p (.register email) [] w) :
    RunsOn env t₀ p (Replies env t₀ p) (registerNew env p email) w := by
  refine runs_generateApiKey hw fun w₁ apiKey _ hw₁ => ?_
  refine runs_draw hw₁ fun w₂ slug _ hw₂ => ?_
  refine runs_freshId hw₂ fun w₃ u _ hw₃ => ?_
  refine runs_insertUser hw₃ (fun w₄ _ hw₄ hi₄ hnone => ?_) fun w₄ _ hw₄ => trivial
  refine runs_commit hw₄ fun w₅ hl₅ hi₅ => ⟨?_, fun w₆ time _ hw₆ hm => ?_⟩
  · exact .registered email apiKey slug u (hw₄.unseen (List.mem_singleton_self _) hi₄ hl₅ hi₅ hnone)
  · exact hw₆.replies ⟨rfl, time, u, slug, hm⟩

theorem runs_register {email : String} (hw : Here p (.register email) [] w) :
    RunsOn env t₀ p (Replies env t₀ p) (register env p email) w := by
  unfold register
  split
  · exact hw.replies rfl
  · refine runs_selectUser hw (fun w₁ _ hw₁ => runs_registerNew hw₁) fun w₁ u row now _ hw₁ _ _ _ => ?_
    exact hw₁.replies rfl

/-- The commands to Redis after a rotation. -/
theorem runs_forgetKey {oldHash newHash prefix' : String} {encrypted : Option String} {time : Time}
    {user : AuthenticatedUser} (hw : Here p call [] w)
    (hid : .marked p (.identified credential user) ∈ w.history)
    (hc : .commit p time [.updateUser user.id (.rekey newHash prefix' encrypted)] ∈ w.history) :
    RunsOn env t₀ p (Goes p call w fun _ _ => True) (forgetKey p oldHash newHash user) w := by
  have remember : ∀ {w'}, Later p w w' → Here p call [] w' →
      RunsOn env t₀ p (Goes p call w fun _ _ => True)
        (setCached p (.auth newHash) (.user user) 300 >>= fun cached =>
          if !cached then .fail else return ()) w' := by
    intro w' hl hw'
    refine runs_setCached hw' (fun w₁ hs => ⟨rfl, .rekeyed credential time prefix' encrypted
      (hs.mem (hl.history.mem hid)) (hs.mem (hl.history.mem hc))⟩) fun w₁ b hl₁ hw₁ => ?_
    cases b with
    | false => trivial
    | true => exact ⟨hl.trans hl₁, hw₁, trivial⟩
  unfold forgetKey
  split
  · refine runs_deleteCached hw fun w₁ b hl₁ hw₁ => ?_
    cases b with
    | false => trivial
    | true =>
      refine runs_setCached hw₁ (fun w₂ hs => rfl) fun w₂ b hl₂ hw₂ => ?_
      cases b with
      | false => trivial
      | true => exact remember (hl₁.trans hl₂) hw₂
  · exact remember (.refl p w) hw

theorem runs_rotateKey {oldHash : String} {user : AuthenticatedUser}
    (hw : Here p (.regenerateKey headers) [] w)
    (hid : .marked p (.identified credential user) ∈ w.history) :
    RunsOn env t₀ p (Replies env t₀ p) (rotateKey env p user oldHash) w := by
  refine runs_generateApiKey hw fun w₂ newKey hl₂ hw₂ => ?_
  refine runs_encryptApiKey hw₂ fun w₃ newEncrypted hl₃ hw₃ henc htruthy => ?_
  rw [htruthy]
  refine runs_updateUser hw₃ (fun w₄ hl₄ hw₄ => ?_) fun w₄ _ hw₄ => trivial
  have hid₄ := (hl₂.trans (hl₃.trans hl₄)).history.mem hid
  refine runs_commit hw₄ fun w₅ hl₅ hi₅ => ⟨?_, fun w₆ time hs₆ hw₆ hc => ?_⟩
  · exact .rekeyed headers credential user newKey _ (hl₅.history.mem hid₄) henc
  · have hid₆ := hs₆.mem (hl₅.history.mem hid₄)
    refine Safe.bind (runs_forgetKey hw₆ hid₆ hc) fun _ w₇ ⟨hl₇, hw₇, _⟩ => ?_
    exact hw₇.replies ⟨credential, user, time, _, hl₇.history.mem hid₆, hl₇.history.mem hc⟩

theorem runs_regenerateKey (hw : Here p (.regenerateKey headers) [] w) :
    RunsOn env t₀ p (Replies env t₀ p) (regenerateKey env p headers) w := by
  refine runs_asUser hw rfl (fun _ _ _ => rfl) fun w₁ user credential hw₁ hid => ?_
  split
  · exact hw₁.replies rfl
  · refine runs_selectUser hw₁ (fun w₂ hl₂ hw₂ => ?_) fun w₂ u row now hl₂ hw₂ _ _ _ => ?_
    · exact runs_rotateKey hw₂ (hl₂.history.mem hid)
    · exact runs_rotateKey hw₂ (hl₂.history.mem hid)

theorem runs_patchMe {email alertWebhookUrl : Option String}
    (hw : Here p (.patchMe headers email alertWebhookUrl) [] w) :
    RunsOn env t₀ p (Replies env t₀ p) (patchMe env p headers email alertWebhookUrl) w := by
  refine runs_asUser hw rfl (fun _ _ _ => rfl) fun w₁ user credential hw₁ hid => ?_
  refine runs_clock hw₁ fun w₂ hl₂ hw₂ _ => ?_
  split
  · exact hw₂.replies rfl
  · split
    · exact hw₂.replies rfl
    · refine runs_updateUser hw₂ (fun w₃ hl₃ hw₃ => ?_) fun w₃ _ hw₃ => trivial
      refine runs_commit hw₃ fun w₄ hl₄ _ => ⟨?_, fun w₅ _ _ hw₅ _ => hw₅.replies rfl⟩
      exact .patched headers email alertWebhookUrl credential user
        ((hl₂.trans (hl₃.trans hl₄)).history.mem hid)

theorem runs_refreshSession (hw : Here p (.refreshSession headers) [] w) :
    RunsOn env t₀ p (Replies env t₀ p) (refreshSession env p headers) w := by
  refine runs_asUser hw rfl (fun _ _ _ => rfl) fun w₁ user credential hw₁ hid => ?_
  refine runs_createSessionJwt hw₁ (fun w' hs => .refreshed _ credential user (hs.mem hid))
    fun w₂ jwt _ hw₂ hm => ?_
  cases jwt with
  | none => exact hw₂.replies rfl
  | some jwt => exact hw₂.replies (hm jwt rfl)

theorem runs_revealKey (hw : Here p (.revealKey headers) [] w) :
    RunsOn env t₀ p (Replies env t₀ p) (revealKey env p headers) w := by
  refine runs_asUser hw rfl (fun _ _ _ => rfl) fun w₁ user credential hw₁ hid => ?_
  refine runs_selectUser hw₁ (fun w₂ hl₂ hw₂ => hw₂.replies rfl)
    fun w₂ u row now hl₂ hw₂ hwh _ hm => ?_
  obtain rfl : u = user.id := of_decide_eq_true hwh
  dsimp only
  split
  · exact hw₂.replies rfl
  · rename_i c hc
    have hc : row.apiKeyEncrypted = some c := (Option.filter_eq_some_iff.mp hc).1
    split
    · exact hw₂.replies rfl
    · rename_i apiKey hd
      exact hw₂.replies ⟨credential, user, hl₂.history.mem hid, row, now, c, hm, hc, hd⟩

/-! ## `internal_users.py` -/

theorem runs_finishUpsert {u : UserId} {created : Bool} {userId : String} {body : UserUpsert}
    (hw : Here p (.upsertUser headers userId body) B w)
    (hc : ∀ w' time, Later p w w' → LegalInv env t₀ w' →
      Commits env t₀ w'.history p time (.upsertUser headers userId body) B) :
    RunsOn env t₀ p (Replies env t₀ p) (finishUpsert p u created) w := by
  refine runs_commit hw fun w₁ hl₁ hi₁ => ⟨hc w₁ _ hl₁ hi₁, fun w₂ time hs₂ hw₂ hm => ?_⟩
  refine runs_selectUser hw₂ (fun w₃ _ _ => trivial) fun w₃ u' row now _ hw₃ _ _ _ => ?_
  exact hw₃.replies rfl

theorem runs_upsertUserRow {userId : String} {body : UserUpsert}
    (hw : Here p (.upsertUser headers userId body) [] w) :
    RunsOn env t₀ p (Replies env t₀ p) (upsertUserRow env p userId body) w := by
  have change : ∀ {target w'}, Here p (.upsertUser headers userId body) [] w' →
      RunsOn env t₀ p (Replies env t₀ p)
        (updateUser p target (.upsert body) >>= fun updated =>
          if !updated then .fail else finishUpsert p target false) w' := by
    intro target w' hw'
    refine runs_updateUser hw' (fun w₁ _ hw₁ => ?_) fun w₁ _ _ => trivial
    exact runs_finishUpsert hw₁ fun _ _ _ _ => .upserted headers userId body target
  unfold upsertUserRow
  split
  · exact hw.replies rfl
  · rename_i target _
    refine runs_selectUser hw (fun w₁ _ hw₁ => ?_) fun w₁ u row now _ hw₁ _ _ _ => change hw₁
    refine runs_generateApiKey hw₁ fun w₂ rawKey _ hw₂ => ?_
    refine runs_insertUser hw₂ (fun w₃ _ hw₃ hi₃ hnone => ?_) fun w₃ _ _ => trivial
    refine runs_finishUpsert hw₃ fun w₄ time hl₄ hi₄ => ?_
    exact .mirrored headers userId rawKey body target
      (hw₃.unseen (List.mem_singleton_self _) hi₃ hl₄ hi₄ hnone)

theorem runs_upsertUser {userId : String} {body : UserUpsert}
    (hw : Here p (.upsertUser headers userId body) [] w) :
    RunsOn env t₀ p (Replies env t₀ p) (upsertUser env p headers userId body) w := by
  unfold upsertUser
  split
  · exact hw.replies rfl
  · split
    · exact hw.replies rfl
    · split
      · trivial
      · exact hw.replies rfl
      · exact runs_upsertUserRow hw

/-! ## `device_code_service.py` -/

theorem runs_addCode {deviceCode : String} (deleted : List CodeId)
    (hw : Here p (.createDeviceCode deviceCode)
      (if deleted = [] then [] else [.deleteCodes deleted]) w) :
    RunsOn env t₀ p (Replies env t₀ p) (addCode env p deviceCode) w := by
  refine runs_clock hw fun w₁ _ hw₁ _ => ?_
  refine runs_freshId hw₁ fun w₂ r hl₂ hw₂ => ?_
  refine runs_insertCode hw₂ (fun w₃ hl₃ hw₃ => ?_) fun w₃ _ hw₃ => ?_
  · refine runs_commit hw₃ fun w₄ hl₄ _ => ⟨?_, fun w₅ _ _ hw₅ _ => hw₅.replies rfl⟩
    have hle : w₁.clock ≤ w₄.clock := (hl₂.trans (hl₃.trans hl₄)).clock
    exact .made deviceCode r _ deleted (Int.add_le_add_right hle _)
  · exact runs_rollback hw₃ fun w₄ hw₄ => hw₄.replies rfl

theorem runs_createDeviceCode {deviceCode : String}
    (hw : Here p (.createDeviceCode deviceCode) [] w) :
    RunsOn env t₀ p (Replies env t₀ p) (createDeviceCode env p deviceCode) w := by
  unfold createDeviceCode
  split
  · exact hw.replies rfl
  · refine runs_verdict hw fun w₁ allowed _ hw₁ => ?_
    split
    · exact hw₁.replies rfl
    · refine runs_selectCode hw₁ (fun w₂ _ hw₂ => runs_addCode [] hw₂)
        fun w₂ r code now _ hw₂ _ _ _ => ?_
      refine runs_clock hw₂ fun w₃ _ hw₃ _ => ?_
      split
      · exact hw₃.replies rfl
      · exact runs_write hw₃ fun w₄ _ hw₄ => runs_addCode [r] hw₄

theorem runs_claimExisting {deviceCode : String} {r : CodeId} {row : DeviceCode} {now : Time}
    (hw : Here p (.pollDeviceCode deviceCode) [] w)
    (hm : .marked p (.opened r row now) ∈ w.history) (happroved : row.status = .approved) :
    RunsOn env t₀ p (Replies env t₀ p) (claimExisting env p r row) w := by
  refine runs_write hw fun w₁ hl₁ hw₁ => ?_
  refine runs_commit hw₁ fun w₂ hl₂ _ => ⟨.claimed deviceCode r _ (.inr rfl), fun w₃ _ hs₃ hw₃ _ => ?_⟩
  have hm₃ := hs₃.mem ((hl₁.trans hl₂).history.mem hm)
  split
  · exact hw₃.replies ⟨r, row, now, hm₃, happroved, rfl, nofun⟩
  · rename_i user huser
    refine runs_selectUser hw₃ (fun w₄ hl₄ hw₄ => ?_) fun w₄ u account now' hl₄ hw₄ hwh _ hf => ?_
    · exact hw₄.replies ⟨r, row, now, hl₄.history.mem hm₃, happroved, rfl, nofun⟩
    · obtain rfl : u = user := of_decide_eq_true hwh
      have hm₄ := hl₄.history.mem hm₃
      split
      · rename_i apiKey hkey
        obtain ⟨c, hc, hd⟩ := Option.bind_eq_some_iff.mp hkey
        refine hw₄.replies ⟨r, row, now, hm₄, happroved, rfl, fun key heq => .inr ?_⟩
        cases heq
        exact ⟨u, huser, account, now', c, hf, (Option.filter_eq_some_iff.mp hc).1, hd⟩
      · exact hw₄.replies ⟨r, row, now, hm₄, happroved, rfl, nofun⟩

theorem runs_pollDeviceCode {deviceCode : String} (hw : Here p (.pollDeviceCode deviceCode) [] w) :
    RunsOn env t₀ p (Replies env t₀ p) (pollDeviceCode env p deviceCode) w := by
  refine runs_verdict hw fun w₁ allowed _ hw₁ => ?_
  split
  · exact hw₁.replies rfl
  · refine runs_selectCode hw₁ (fun w₂ _ hw₂ => hw₂.replies rfl)
      fun w₂ r code now _ hw₂ _ _ hm => ?_
    refine runs_clock hw₂ fun w₃ hl₃ hw₃ _ => ?_
    have hm₃ := hl₃.history.mem hm
    split
    · split
      · refine runs_write hw₃ fun w₄ _ hw₄ => ?_
        refine runs_commit hw₄ fun w₅ _ _ => ⟨.expired deviceCode r, fun w₆ _ _ hw₆ _ => ?_⟩
        exact hw₆.replies rfl
      · exact hw₃.replies rfl
    · split
      · rename_i happroved
        split
        · rename_i apiKey hkey
          refine runs_write hw₃ fun w₄ hl₄ hw₄ => ?_
          refine runs_commit hw₄ fun w₅ hl₅ _ => ⟨.claimed deviceCode r _ (.inl rfl), fun w₆ _ hs₆ hw₆ _ => ?_⟩
          have hm₆ := hs₆.mem ((hl₄.trans hl₅).history.mem hm₃)
          refine hw₆.replies ⟨r, code.row, now, hm₆, happroved, rfl, fun key heq => .inl ?_⟩
          cases heq
          exact (Option.filter_eq_some_iff.mp hkey).1
        · exact runs_claimExisting hw₃ hm₃ happroved
      · exact hw₃.replies rfl

theorem runs_submitEmail {deviceCode email : String}
    (hw : Here p (.submitEmail deviceCode email) [] w) :
    RunsOn env t₀ p (Replies env t₀ p) (submitEmail p deviceCode email) w := by
  refine runs_verdict hw fun w₁ _ _ hw₁ => ?_
  split
  · exact hw₁.replies rfl
  · refine runs_verdict hw₁ fun w₂ _ _ hw₂ => ?_
    split
    · exact hw₂.replies rfl
    · refine runs_selectCode hw₂ (fun w₃ _ hw₃ => hw₃.replies rfl)
        fun w₃ r code now _ hw₃ _ _ _ => ?_
      refine runs_clock hw₃ fun w₄ _ hw₄ _ => ?_
      split
      · exact hw₄.replies rfl
      · split
        · exact hw₄.replies rfl
        · refine runs_draw hw₄ fun w₅ verificationToken _ hw₅ => ?_
          refine runs_write hw₅ fun w₆ _ hw₆ => ?_
          refine runs_commit hw₆ fun w₇ _ _ => ⟨.submitted .., fun w₈ time _ hw₈ hc => ?_⟩
          refine runs_sendMagicLink hw₈ (fun w₉ hs => ⟨rfl, time, r, hs.mem hc⟩) fun w₉ _ hw₉ => ?_
          exact hw₉.replies rfl

theorem runs_approveNew {token deviceCode email sessionToken : String} {r : CodeId}
    {row : DeviceCode} {now : Time} (hw : Here p (.verify token deviceCode) [] w)
    (hm : .marked p (.opened r row now) ∈ w.history) (hexpires : now ≤ row.expiresAt)
    (htoken : row.verificationToken = some token) (hemail : row.email = some email) :
    RunsOn env t₀ p (Replies env t₀ p) (approveNew env p r email sessionToken) w := by
  refine runs_generateApiKey hw fun w₁ newApiKey hl₁ hw₁ => ?_
  refine runs_encryptApiKey hw₁ fun w₂ newEncrypted hl₂ hw₂ henc _ => ?_
  refine runs_draw hw₂ fun w₃ slug hl₃ hw₃ => ?_
  refine runs_freshId hw₃ fun w₄ u hl₄ hw₄ => ?_
  refine runs_insertUser hw₄ (fun w₅ hl₅ hw₅ hi₅ hnone => ?_) fun w₅ _ _ => trivial
  refine runs_write hw₅ fun w₆ hl₆ hw₆ => ?_
  have hl₀₅ := hl₁.trans (hl₂.trans (hl₃.trans (hl₄.trans hl₅)))
  refine runs_commit hw₆ fun w₇ hl₇ hi₇ => ⟨?_, fun w₈ time hs₈ hw₈ hc => ?_⟩
  · exact .approvedNew token deviceCode sessionToken email newApiKey slug r row now u newEncrypted
      ((hl₀₅.trans (hl₆.trans hl₇)).history.mem hm) hexpires htoken hemail henc
      (hw₅.unseen (List.mem_singleton_self _) hi₅ (hl₆.trans hl₇) hi₇ hnone)
  · exact hw₈.replies ⟨time, _, r, _, u, hc, List.mem_cons_self⟩

theorem runs_verify {token deviceCode : String} (hw : Here p (.verify token deviceCode) [] w) :
    RunsOn env t₀ p (Replies env t₀ p) (verify env p token deviceCode) w := by
  refine runs_selectCode hw (fun w₁ _ hw₁ => hw₁.replies rfl)
    fun w₁ r code now _ hw₁ _ hnow hm => ?_
  refine runs_clock hw₁ fun w₂ hl₂ hw₂ _ => ?_
  have hm₂ := hl₂.history.mem hm
  split
  · exact hw₂.replies rfl
  · rename_i hexpires
    have hexpires : now ≤ code.row.expiresAt :=
      Int.le_trans (Int.le_trans hnow hl₂.clock) (Int.not_lt.mp hexpires)
    split
    · exact hw₂.replies rfl
    · split
      · exact hw₂.replies rfl
      · rename_i htoken
        have htoken := not_not.mp htoken
        refine runs_selectUser hw₂ (fun w₃ hl₃ hw₃ => ?_) fun w₃ u account now' hl₃ hw₃ hwh _ hf => ?_
        · refine runs_draw hw₃ fun w₄ sessionToken hl₄ hw₄ => ?_
          dsimp only
          split
          · trivial
          · rename_i email hemail
            exact runs_approveNew hw₄ ((hl₃.trans hl₄).history.mem hm₂) hexpires htoken hemail
        · refine runs_draw hw₃ fun w₄ sessionToken hl₄ hw₄ => ?_
          refine runs_write hw₄ fun w₅ hl₅ hw₅ => ?_
          have hl₃₅ := hl₄.trans hl₅
          refine runs_commit hw₅ fun w₆ hl₆ _ => ⟨?_, fun w₇ time hs₇ hw₇ hc => ?_⟩
          · exact .approved token deviceCode sessionToken r code.row now u account now'
              ((hl₃.trans (hl₃₅.trans hl₆)).history.mem hm₂) hexpires htoken
              ((hl₃₅.trans hl₆).history.mem hf) (of_decide_eq_true hwh)
          · exact hw₇.replies ⟨time, _, r, _, u, hc, List.mem_cons_self⟩

theorem runs_createSession {token : String} (hw : Here p (.createSession token) [] w) :
    RunsOn env t₀ p (Replies env t₀ p) (createSession env p token) w := by
  refine runs_selectCode hw (fun w₁ _ hw₁ => hw₁.replies rfl)
    fun w₁ r code now _ hw₁ hwh _ hm => ?_
  have htoken : code.row.sessionToken = some token :=
    of_decide_eq_true (Bool.and_eq_true_iff.mp hwh).1
  dsimp only
  split
  · exact hw₁.replies rfl
  · rename_i user huser
    refine runs_selectUser hw₁ (fun w₂ _ hw₂ => hw₂.replies rfl)
      fun w₂ u account now' hl₂ hw₂ hwh _ _ => ?_
    obtain rfl : u = user := of_decide_eq_true hwh
    refine runs_write hw₂ fun w₃ hl₃ hw₃ => ?_
    refine runs_commit hw₃ fun w₄ hl₄ _ => ⟨.exchanged token r, fun w₅ _ hs₅ hw₅ _ => ?_⟩
    have hm₅ := hs₅.mem ((hl₂.trans (hl₃.trans hl₄)).history.mem hm)
    refine runs_createSessionJwt hw₅ (fun w₆ hs => .exchanged token r code.row now u (hs.mem hm₅)
      htoken huser) fun w₆ jwt _ hw₆ hj => ?_
    cases jwt with
    | none => trivial
    | some jwt => exact hw₆.replies (hj jwt rfl)

theorem runs_cleanupDeviceCodes (hw : Here p .cleanupDeviceCodes [] w) :
    RunsOn env t₀ p (Replies env t₀ p) (cleanupDeviceCodes p) w := by
  refine runs_clock hw fun w₁ _ hw₁ _ => ?_
  refine runs_deleteCodesWhere hw₁ fun w₂ rs n _ hw₂ => ?_
  exact runs_commit hw₂ fun w₃ _ _ => ⟨.cleaned rs, fun w₄ _ _ hw₄ _ => hw₄.replies rfl⟩

end CueApi.Accounts
