import CueApi.Accounts.StoredKeys
import CueApi.Library.Stamped

/-! A key that a user no longer has: how long Redis may still let it in. -/

namespace CueApi.Accounts

open Scheduler (Time UserId Pid Table seconds)
open ReadCommitted Interleaving Prog Trace Recorded
open KeyRotation (AuthenticatedUser)

variable {env : Env} {p : Pid}

/-! ## Stamps -/

/-- The clock at which an event was noted. -/
def stamp : Event → Option Time
  | .commit _ time _ => some time
  | .marked _ (.opened _ _ now) | .marked _ (.found _ _ now) | .marked _ (.set _ _ now _)
  | .marked _ (.hit _ _ now) => some now
  | _ => none

abbrev Stamped {α : Type} (prog : Program α) : Prop := prog.Always (fun _ => True) (Stamps stamp)

section Statements

/-- A statement that leaves the clock and the record. -/
theorem stamped_quiet {α : Type} {act : World → Answer → Option (α × World)}
    (h : ∀ w a r w', act w a = some (r, w') → w'.clock = w.clock ∧ w'.history = w.history) :
    Stamped (Prog.step act) :=
  Always.step fun w a r w' _ hs => .quiet (h w a r w' hs).1 (h w a r w' hs).2

theorem stamped_clock : Stamped clock := stamped_quiet fun w _ _ _ hs => by
  cases hs
  exact ⟨rfl, rfl⟩

theorem stamped_ask : Stamped ask := stamped_quiet fun w a _ _ hs => by
  split at hs <;> cases hs
  exact ⟨rfl, rfl⟩

theorem stamped_draw : Stamped draw := stamped_quiet fun w a _ _ hs => by
  split at hs <;> cases hs
  exact ⟨rfl, rfl⟩

theorem stamped_freshId : Stamped freshId := stamped_quiet fun w a _ _ hs => by
  split at hs <;> cases hs
  exact ⟨rfl, rfl⟩

theorem stamped_encryptApiKey (apiKey : String) : Stamped (encryptApiKey env apiKey) :=
  stamped_quiet fun w a _ _ hs => by
    split at hs
    · split at hs <;> cases hs
      exact ⟨rfl, rfl⟩
    · split at hs <;> cases hs
      exact ⟨rfl, rfl⟩
    · cases hs

theorem stamps_note (w : World) (p : Pid) {mark : Mark}
    (ht : ∀ t, stamp (.marked p mark) = some t → t = w.clock) : Stamps stamp w (note w p mark) :=
  .log rfl rfl ht

theorem stamped_selectUser (wh : UserId → User → Bool) : Stamped (selectUser p wh) :=
  Always.step fun w a r w' _ hs => by
    dsimp only at hs
    split at hs
    · cases hs
      exact .quiet rfl rfl
    · obtain ⟨row, -, heq⟩ := Option.map_eq_some_iff.mp hs
      cases heq
      exact stamps_note w p fun t ht => (Option.some.inj ht).symm
    · cases hs

theorem stamped_selectCode (wh : Code → Bool) : Stamped (selectCode p wh) :=
  Always.step fun w a r w' _ hs => by
    dsimp only at hs
    split at hs
    · cases hs
      exact .quiet rfl rfl
    · obtain ⟨code, -, heq⟩ := Option.map_eq_some_iff.mp hs
      cases heq
      exact stamps_note w p fun t ht => (Option.some.inj ht).symm
    · cases hs

theorem stamped_getCached (key : CacheKey) : Stamped (getCached p key) :=
  Always.step fun w a r w' _ hs => by
    split at hs
    · split at hs
      · cases hs
        exact stamps_note w p fun t ht => (Option.some.inj ht).symm
      · cases hs
        exact .quiet rfl rfl
    · cases hs
      exact .quiet rfl rfl
    · cases hs

theorem stamped_setCached (key : CacheKey) (value : Cached) (ex : Nat) :
    Stamped (setCached p key value ex) :=
  Always.step fun w a r w' _ hs => by
    dsimp only at hs
    split at hs <;> cases hs
    · exact stamps_note w p fun t ht => (Option.some.inj ht).symm
    · exact stamps_note w p fun t ht => (Option.some.inj ht).symm
    · exact .quiet rfl rfl

theorem stamped_deleteCached (key : CacheKey) : Stamped (deleteCached p key) :=
  Always.step fun w a r w' _ hs => by
    split at hs <;> cases hs
    · exact stamps_note w p nofun
    · exact stamps_note w p nofun
    · exact .quiet rfl rfl

theorem stamped_sendMagicLink (email verificationToken deviceCode : String) :
    Stamped (sendMagicLink p email verificationToken deviceCode) :=
  Always.step fun w a r w' _ hs => by
    split at hs <;> cases hs
    · exact stamps_note w p nofun
    · exact .quiet rfl rfl

theorem stamped_createSessionJwt (user : UserId) (email : String) :
    Stamped (createSessionJwt env p user email) :=
  Always.step fun w a r w' _ hs => by
    dsimp only at hs
    split at hs <;> cases hs
    · exact stamps_note w p nofun
    · exact .quiet rfl rfl

/-- A write leaves the clock and the record. -/
theorem quiet_of_write {α : Type} {w w' : World} {r r' : α} {wr : Write}
    (hs : ((w.store.write p wr).map fun s => (r, ({ w with store := s } : World))) = some (r', w')) :
    w'.clock = w.clock ∧ w'.history = w.history := by
  obtain ⟨s, -, heq⟩ := Option.map_eq_some_iff.mp hs
  cases heq
  exact ⟨rfl, rfl⟩

theorem stamped_write (wr : Write) : Stamped (write p wr) :=
  stamped_quiet fun _ _ _ _ hs => quiet_of_write hs

theorem stamped_deleteCodesWhere (wh : Code → Bool) : Stamped (deleteCodesWhere p wh) :=
  stamped_quiet fun _ _ _ _ hs => quiet_of_write hs

theorem stamped_insertUser (u : UserId) (row : User) : Stamped (insertUser p u row) :=
  stamped_quiet fun _ _ _ _ hs => by
    dsimp only at hs
    split at hs
    · split at hs
      · exact quiet_of_write hs
      · cases hs
        exact ⟨rfl, rfl⟩
    · cases hs

theorem stamped_updateUser (u : UserId) (update : UserUpdate) : Stamped (updateUser p u update) :=
  stamped_quiet fun _ _ _ _ hs => by
    dsimp only at hs
    split at hs
    · split at hs
      · exact quiet_of_write hs
      · cases hs
        exact ⟨rfl, rfl⟩
    · cases hs

theorem stamped_insertCode (r : CodeId) (code : Code) : Stamped (insertCode p r code) :=
  stamped_quiet fun _ _ _ _ hs => by
    dsimp only at hs
    split at hs
    · split at hs
      · exact quiet_of_write hs
      · cases hs
        exact ⟨rfl, rfl⟩
    · cases hs

theorem stamped_commit : Stamped (commit p) := Always.step fun w _ _ _ _ hs => by
  cases hs
  exact .log rfl rfl fun t ht => (Option.some.inj ht).symm

theorem stamped_rollback : Stamped (rollback p) := stamped_quiet fun w _ _ _ hs => by
  cases hs
  exact ⟨rfl, rfl⟩

end Statements

section Programs

theorem stamped_findByKey (keyHash : String) : Stamped (findByKey p keyHash) := by
  refine (stamped_selectUser _).bind fun found => ?_
  cases found with
  | none => exact (stamped_getCached _).bind fun _ => trivial
  | some x => exact (stamped_setCached _ _ _).bind fun _ => trivial

theorem stamped_authViaApiKey (apiKey : String) : Stamped (authViaApiKey env p apiKey) := by
  refine (stamped_getCached _).bind fun cached => ?_
  split
  · trivial
  · exact stamped_findByKey _

theorem stamped_findBySub (sub : UserId) : Stamped (findBySub p sub) := by
  refine (stamped_selectUser _).bind fun found => ?_
  cases found with
  | none => trivial
  | some x => exact (stamped_setCached _ _ _).bind fun _ => trivial

theorem stamped_authViaSessionJwt (token : String) : Stamped (authViaSessionJwt env p token) := by
  refine stamped_clock.bind fun now => ?_
  split
  · trivial
  · trivial
  · refine (stamped_getCached _).bind fun cached => ?_
    split
    · trivial
    · exact stamped_findBySub _

theorem stamped_authViaInternalToken (onBehalfOf : Option String) :
    Stamped (authViaInternalToken env p onBehalfOf) := by
  unfold authViaInternalToken
  split
  · trivial
  · split
    · trivial
    · refine (stamped_selectUser _).bind fun found => ?_
      cases found <;> trivial

theorem stamped_identify (credential : Credential)
    {prog : Program (Except Scheduler.ApiError AuthenticatedUser)} (hp : Stamped prog) :
    Stamped (identify p credential prog) := by
  refine hp.bind fun user? => ?_
  cases user? with
  | error e => trivial
  | ok user =>
    refine Always.step fun w a r w' _ hs => ?_
    cases hs
    exact stamps_note w p nofun

theorem stamped_authViaToken (token : String) : Stamped (authViaToken env p token) := by
  unfold authViaToken
  split
  · exact stamped_identify _ (stamped_authViaApiKey _)
  · exact stamped_identify _ (stamped_authViaSessionJwt _)

theorem stamped_getCurrentUser (headers : Headers) : Stamped (getCurrentUser env p headers) := by
  unfold getCurrentUser
  split
  · trivial
  · split
    · split
      · trivial
      · exact stamped_identify _ (stamped_authViaInternalToken _)
      · exact stamped_authViaToken _
    · exact stamped_authViaToken _

theorem stamped_asUser {headers : Headers} {k : AuthenticatedUser → Program Reply}
    (hk : ∀ user, Stamped (k user)) : Stamped (asUser env p headers k) := by
  refine (stamped_getCurrentUser headers).bind fun user? => ?_
  cases user? with
  | error e => trivial
  | ok user => exact hk user

theorem stamped_register (email : String) : Stamped (register env p email) := by
  unfold register
  split
  · trivial
  · refine (stamped_selectUser _).bind fun existing => ?_
    split
    · trivial
    · refine stamped_draw.bind fun hex => stamped_draw.bind fun slug => ?_
      refine stamped_freshId.bind fun u => (stamped_insertUser _ _).bind fun inserted => ?_
      split
      · trivial
      · exact stamped_commit.bind fun _ => trivial

theorem stamped_forgetKey (oldHash newHash : String) (user : AuthenticatedUser) :
    Stamped (forgetKey p oldHash newHash user) := by
  have remember : Stamped (setCached p (.auth newHash) (.user user) 300 >>= fun cached =>
      if !cached then .fail else return ()) := by
    refine (stamped_setCached _ _ _).bind fun cached => ?_
    split <;> trivial
  unfold forgetKey
  split
  · refine (stamped_deleteCached _).bind fun deleted => ?_
    split
    · trivial
    · refine (stamped_setCached _ _ _).bind fun rotated => ?_
      split
      · trivial
      · exact remember
  · exact remember

theorem stamped_regenerateKey (headers : Headers) : Stamped (regenerateKey env p headers) := by
  refine stamped_asUser fun user => ?_
  split
  · trivial
  · refine (stamped_selectUser _).bind fun row? => stamped_draw.bind fun hex => ?_
    refine (stamped_encryptApiKey _).bind fun newEncrypted => ?_
    refine (stamped_updateUser _ _).bind fun updated => ?_
    split
    · trivial
    · refine stamped_commit.bind fun _ => ?_
      exact (stamped_forgetKey _ _ _).bind fun _ => trivial

theorem stamped_patchMe (headers : Headers) (email alertWebhookUrl : Option String) :
    Stamped (patchMe env p headers email alertWebhookUrl) := by
  refine stamped_asUser fun user => stamped_clock.bind fun now => ?_
  split
  · trivial
  · split
    · trivial
    · refine (stamped_updateUser _ _).bind fun updated => ?_
      split
      · trivial
      · exact stamped_commit.bind fun _ => trivial

theorem stamped_refreshSession (headers : Headers) : Stamped (refreshSession env p headers) := by
  refine stamped_asUser fun user => (stamped_createSessionJwt _ _).bind fun jwt? => ?_
  cases jwt? <;> trivial

theorem stamped_revealKey (headers : Headers) : Stamped (revealKey env p headers) := by
  refine stamped_asUser fun user => (stamped_selectUser _).bind fun row? => ?_
  split
  · trivial
  · split
    · trivial
    · split <;> trivial

theorem stamped_finishUpsert (u : UserId) (created : Bool) : Stamped (finishUpsert p u created) := by
  refine stamped_commit.bind fun _ => (stamped_selectUser _).bind fun row? => ?_
  cases row? <;> trivial

theorem stamped_upsertUser (headers : Headers) (userId : String) (body : UserUpsert) :
    Stamped (upsertUser env p headers userId body) := by
  have upserts : Stamped (upsertUserRow env p userId body) := by
    unfold upsertUserRow
    split
    · trivial
    · refine (stamped_selectUser _).bind fun found => ?_
      split
      · refine stamped_draw.bind fun hex => (stamped_insertUser _ _).bind fun inserted => ?_
        split
        · trivial
        · exact stamped_finishUpsert _ _
      · refine (stamped_updateUser _ _).bind fun updated => ?_
        split
        · trivial
        · exact stamped_finishUpsert _ _
  unfold upsertUser
  split
  · trivial
  · split
    · trivial
    · split
      · trivial
      · trivial
      · exact upserts

theorem stamped_addCode (deviceCode : String) : Stamped (addCode env p deviceCode) := by
  refine stamped_clock.bind fun now => stamped_freshId.bind fun r => ?_
  refine (stamped_insertCode _ _).bind fun inserted => ?_
  split
  · exact stamped_rollback.bind fun _ => trivial
  · exact stamped_commit.bind fun _ => trivial

theorem stamped_createDeviceCode (deviceCode : String) :
    Stamped (createDeviceCode env p deviceCode) := by
  unfold createDeviceCode
  split
  · trivial
  · refine stamped_ask.bind fun allowed => ?_
    split
    · trivial
    · refine (stamped_selectCode _).bind fun existing => ?_
      split
      · exact stamped_addCode _
      · refine stamped_clock.bind fun now => ?_
        split
        · trivial
        · exact (stamped_write _).bind fun _ => stamped_addCode _

theorem stamped_claimExisting (r : CodeId) (dc : SignIn.DeviceCode) :
    Stamped (claimExisting env p r dc) := by
  refine (stamped_write _).bind fun _ => stamped_commit.bind fun _ => ?_
  split
  · trivial
  · refine (stamped_selectUser _).bind fun row? => ?_
    split <;> trivial

theorem stamped_pollDeviceCode (deviceCode : String) : Stamped (pollDeviceCode env p deviceCode) := by
  refine stamped_ask.bind fun allowed => ?_
  split
  · trivial
  · refine (stamped_selectCode _).bind fun found => ?_
    split
    · trivial
    · refine stamped_clock.bind fun now => ?_
      split
      · split
        · exact (stamped_write _).bind fun _ => stamped_commit.bind fun _ => trivial
        · trivial
      · split
        · split
          · exact (stamped_write _).bind fun _ => stamped_commit.bind fun _ => trivial
          · exact stamped_claimExisting _ _
        · trivial

theorem stamped_submitEmail (deviceCode email : String) : Stamped (submitEmail p deviceCode email) := by
  refine stamped_ask.bind fun emailAllowed => ?_
  split
  · trivial
  · refine stamped_ask.bind fun ipAllowed => ?_
    split
    · trivial
    · refine (stamped_selectCode _).bind fun found => ?_
      split
      · trivial
      · refine stamped_clock.bind fun now => ?_
        split
        · trivial
        · split
          · trivial
          · refine stamped_draw.bind fun token => (stamped_write _).bind fun _ => ?_
            exact stamped_commit.bind fun _ => (stamped_sendMagicLink _ _ _).bind fun _ => trivial

theorem stamped_verify (token deviceCode : String) : Stamped (verify env p token deviceCode) := by
  have approves : ∀ r email sessionToken, Stamped (approveNew env p r email sessionToken) := by
    intro r email sessionToken
    refine stamped_draw.bind fun hex => (stamped_encryptApiKey _).bind fun newEncrypted => ?_
    refine stamped_draw.bind fun slug => stamped_freshId.bind fun u => ?_
    refine (stamped_insertUser _ _).bind fun inserted => ?_
    split
    · trivial
    · exact (stamped_write _).bind fun _ => stamped_commit.bind fun _ => trivial
  refine (stamped_selectCode _).bind fun found => ?_
  split
  · trivial
  · refine stamped_clock.bind fun now => ?_
    split
    · trivial
    · split
      · trivial
      · split
        · trivial
        · refine (stamped_selectUser _).bind fun account => stamped_draw.bind fun sessionToken => ?_
          split
          · exact (stamped_write _).bind fun _ => stamped_commit.bind fun _ => trivial
          · split
            · trivial
            · exact approves _ _ _

theorem stamped_createSession (token : String) : Stamped (createSession env p token) := by
  refine (stamped_selectCode _).bind fun found => ?_
  split
  · trivial
  · split
    · trivial
    · refine (stamped_selectUser _).bind fun row? => ?_
      split
      · trivial
      · refine (stamped_write _).bind fun _ => stamped_commit.bind fun _ => ?_
        refine (stamped_createSessionJwt _ _).bind fun jwt? => ?_
        split <;> trivial

theorem stamped_cleanupDeviceCodes : Stamped (cleanupDeviceCodes p) :=
  stamped_clock.bind fun _ => (stamped_deleteCodesWhere _).bind fun _ =>
    stamped_commit.bind fun _ => trivial

end Programs

/-- Every request stamps what it notes. -/
theorem stamping (env : Env) : Stamping stamp (programOf env) where
  began _ _ := rfl
  ended _ _ := rfl
  programs p call := by
    cases call with
    | authenticated headers => exact stamped_asUser fun _ => trivial
    | register email => exact stamped_register email
    | regenerateKey headers => exact stamped_regenerateKey headers
    | patchMe headers email url => exact stamped_patchMe headers email url
    | refreshSession headers => exact stamped_refreshSession headers
    | revealKey headers => exact stamped_revealKey headers
    | upsertUser headers userId body => exact stamped_upsertUser headers userId body
    | createDeviceCode deviceCode => exact stamped_createDeviceCode deviceCode
    | pollDeviceCode deviceCode => exact stamped_pollDeviceCode deviceCode
    | submitEmail deviceCode email => exact stamped_submitEmail deviceCode email
    | verify token deviceCode => exact stamped_verify token deviceCode
    | createSession token => exact stamped_createSession token
    | cleanupDeviceCodes => exact stamped_cleanupDeviceCodes

/-! ## A key that is gone -/

section Gone

variable {t₀ : Tables} {h h₀ : History} {u : UserId} {key : String} {q : Pid} {time : Time} {D : Nat}
variable {ws : List Write}

/-- The requests that put a user under the hash of a key into Redis do so within `D` of whatever they
have read or committed before. -/
def Prompt (D : Nat) (h : History) : Prop :=
  ∀ q keyHash user now expires h', .marked q (.set (.auth keyHash) (.user user) now expires) :: h' <:+ h →
    ∀ ev ∈ h', ev.pid = q → ∀ t, stamp ev = some t → now ≤ t + D

/-- From the commit on, the user does not have the key. -/
def Gone (env : Env) (t₀ : Tables) (h h₀ : History) (u : UserId) (key : String) : Prop :=
  ∀ h', h₀ <:+ h' → h' <:+ h → ¬ Keyed env t₀ h' u key

/-- Whoever saw the user with the key saw it by the commit. -/
theorem stamp_le_of_keyed (ho : InOrder stamp h) (hc : .commit q time ws :: h₀ <:+ h)
    (hgone : Gone env t₀ h (.commit q time ws :: h₀) u key) {ev : Event} {h' : History}
    (hs : ev :: h' <:+ h) (hk : Keyed env t₀ h' u key ∨ Keyed env t₀ (ev :: h') u key) {t : Time}
    (ht : stamp ev = some t) : t ≤ time := by
  rcases suffix_cases hs hc with heq | hsuf | hsuf
  · cases heq
    exact Int.le_of_eq (Option.some.inj ht).symm
  · exact ho.le hc (hsuf.mem List.mem_cons_self) rfl ht
  · rcases hk with hk | hk
    · exact absurd hk (hgone h' hsuf ((List.suffix_cons _ _).trans hs))
    · exact absurd hk (hgone _ (hsuf.trans (List.suffix_cons _ _)) hs)

/-- What goes to Redis for the key goes there within `D` of the commit. -/
theorem set_le (hl : Legal env t₀ h) (ho : InOrder stamp h) (hp : Prompt D h)
    (hc : .commit q time ws :: h₀ <:+ h)
    {user : AuthenticatedUser} (hgone : Gone env t₀ h (.commit q time ws :: h₀) user.id key)
    {now expires : Time} {h' : History}
    (hs : .marked p (.set (.auth (env.sha256 key)) (.user user) now expires) :: h' <:+ h)
    (hholds : Holds h' p (env.sha256 key) user) : now ≤ time + D := by
  have hs' : h' <:+ h := (List.suffix_cons _ _).trans hs
  cases hholds with
  | found row now' hf hhash heq =>
    obtain ⟨h₁, _, hs₁, _, hrow⟩ := marks_of_legal (hl.suffix hs') hf
    have hle : now' ≤ time :=
      stamp_le_of_keyed ho hc hgone (hs₁.trans hs') (.inl ⟨row, hrow, hhash⟩) rfl
    calc now ≤ now' + D := hp _ _ _ _ _ _ hs _ hf rfl now' rfl
      _ ≤ time + D := Int.add_le_add_right hle _
  | rekeyed credential time' prefix' encrypted hid hcm =>
    obtain ⟨h₁, _, hs₁, _, hk⟩ := keyed_of_rekey (hl.suffix hs') hcm
    have hle : time' ≤ time := stamp_le_of_keyed ho hc hgone (hs₁.trans hs') (.inr hk) rfl
    calc now ≤ time' + D := hp _ _ _ _ _ _ hs _ hcm rfl time' rfl
      _ ≤ time + D := Int.add_le_add_right hle _

/-- A key that a user has lost lets nobody in later than the five minutes of Redis and the `D` that a
request may take to get there. -/
theorem gone_key_dies {users : Table UserId User} {s : Sys} (hr : Reachable env users s)
    (hp : Prompt D s.shared.history) {user : AuthenticatedUser}
    (hc : .commit q time ws :: h₀ <:+ s.shared.history)
    (hgone : Gone env { users := users } s.shared.history (.commit q time ws :: h₀) user.id key)
    (hm : .marked p (.identified (.apiKey key) user) ∈ s.shared.history) :
    ∃ now, now ≤ time + D + seconds 300 ∧
      (.marked p (.hit (.auth (env.sha256 key)) user now) ∈ s.shared.history ∨
        ∃ row, .marked p (.found user.id row now) ∈ s.shared.history) := by
  have hl := hr.legal
  obtain ⟨bs, as, hrun⟩ := hr
  have ho := (clocked_of_run (stamping env) hrun).inOrder
  obtain ⟨h₁, call, hs₁, -, hid⟩ := marks_of_legal hl hm
  have hs₁ : h₁ <:+ s.shared.history := (List.suffix_cons _ _).trans hs₁
  have hid : Identifies env h₁ p call user (.apiKey key) := hid
  cases hid with
  | cachedKey headers key now hh hb hhit =>
    refine ⟨now, ?_, .inl (hs₁.mem hhit)⟩
    obtain ⟨q', now', expires, h₂, call', hlive, hs₂, hexp, hholds⟩ := set_of_hit (hl.suffix hs₁) hhit
    have hle : now' ≤ time + D := set_le hl ho hp hc hgone (hs₂.trans hs₁) hholds
    calc now ≤ expires := Int.le_of_lt hlive
      _ = now' + seconds 300 := hexp
      _ ≤ time + D + seconds 300 := Int.add_le_add_right hle _
  | foundKey headers key row now hh hb hf hhash heq =>
    refine ⟨now, ?_, .inr ⟨row, hs₁.mem hf⟩⟩
    obtain ⟨h₂, _, hs₂, _, hrow⟩ := marks_of_legal (hl.suffix hs₁) hf
    calc now ≤ time :=
          stamp_le_of_keyed ho hc hgone (hs₂.trans hs₁) (.inl ⟨row, hrow, hhash⟩) rfl
      _ ≤ time + D := Int.le_add_of_nonneg_right (Int.natCast_nonneg D)
      _ ≤ time + D + seconds 300 := Int.le_add_of_nonneg_right (by decide)

end Gone

instance (env : Env) (t₀ : Tables) (h : History) (u : UserId) (key : String) :
    Decidable (Keyed env t₀ h u key) :=
  decidable_of_iff (((replayed t₀ h).user u).any fun row => row.apiKeyHash = env.sha256 key)
    (by simp [Keyed, Option.any_eq_true])

/-- The key is in Redis when its rotation commits and dies. -/
def lateEntry : List Action :=
  signIn ++ play 5 (.authenticated keyHeaders) [.go, .go, .go, .go] ++
  play 6 (.regenerateKey { keyHeaders with confirmDestructive := some "true" })
    [.go, .go, .go, .text "n", .text "+cue_sk_n", .go, .go] ++
  play 7 (.authenticated keyHeaders) [.go, .go]

/-- Process 6 has committed, and the key is not the one of user 1 from then on. -/
def rotated (h : History) : Bool :=
  h.tails.any fun h₁ => match h₁ with
    | .commit 6 0 _ :: _ => h.tails.all fun h' =>
        h'.length < h₁.length || !decide (Keyed plainEnv {} h' 1 "cue_sk_k")
    | _ => false

theorem gone_of_rotated {h : History} (hr : rotated h = true) : ∃ ws h₀,
    .commit 6 0 ws :: h₀ <:+ h ∧ Gone plainEnv {} h (.commit 6 0 ws :: h₀) 1 "cue_sk_k" := by
  obtain ⟨h₁, hm, hmatch⟩ := List.any_eq_true.mp hr
  split at hmatch
  · rename_i ws h₀
    refine ⟨ws, h₀, (List.mem_tails _ _).mp hm, fun h' hs hs' hk => ?_⟩
    have hall := List.all_eq_true.mp hmatch h' ((List.mem_tails _ _).mpr hs')
    have hlen := hs.length_le
    simp only [hk, decide_true, Bool.not_true, Bool.or_false, decide_eq_true_eq] at hall
    omega
  · cases hmatch

theorem gone_key_dies_rotated : ∃ s, Reachable plainEnv ∅ s ∧ ∃ user : AuthenticatedUser, ∃ now,
    now ≤ 0 + ((0 : Nat) : Time) + seconds 300 ∧
      (.marked 7 (.hit (.auth (plainEnv.sha256 "cue_sk_k")) user now) ∈ s.shared.history ∨
        ∃ row, .marked 7 (.found user.id row now) ∈ s.shared.history) := by
  obtain ⟨s, hr, hv⟩ := reachable_of_run lateEntry (fun s =>
    (rotated s.shared.history, s.shared.history.all fun ev => stamp ev ∈ [none, some 0],
      s.shared.history.any (entersBy 7 (.apiKey "cue_sk_k")))) (v := (true, true, true)) (by decide +kernel)
  simp only [Prod.mk.injEq] at hv
  obtain ⟨hrot, hstamps, hid⟩ := hv
  have zero : ∀ ev ∈ s.shared.history, ∀ t, stamp ev = some t → t = 0 := by
    intro ev hm t ht
    have h := List.all_eq_true.mp hstamps ev hm
    simpa [ht] using h
  have hp : Prompt 0 s.shared.history := by
    intro q keyHash user now expires h' hs ev hev _ t ht
    rw [zero _ (hs.mem List.mem_cons_self) now rfl,
      zero ev (((List.suffix_cons _ _).trans hs).mem hev) t ht]
    decide
  obtain ⟨ws, h₀, hc, hgone⟩ := gone_of_rotated hrot
  obtain ⟨user, hm, huser⟩ := entered_of_entersBy hid
  exact ⟨s, hr, user, gone_key_dies hr hp hc (huser ▸ hgone) hm⟩

end CueApi.Accounts
