import CueApi.Accounts.Ledger

/-! The rule of each statement of accounts, as instances of the rules of recorded worlds. -/

namespace CueApi.Accounts

open Scheduler (Time UserId ApiError Pid seconds keysWhere mem_keysWhere)
open ReadCommitted Interleaving Trace Recorded
open KeyRotation (AuthenticatedUser)

/-- The tables are the replay of a legal history. -/
abbrev LegalInv (env : Env) (t₀ : Tables) (w : World) : Prop := Recorded.Inv t₀ (Allowed env t₀) w

abbrev RunsOn {α : Type} (env : Env) (t₀ : Tables) (p : Pid) (Q : α → World → Prop)
    (prog : Program α) (w : World) : Prop := Runs t₀ (Allowed env t₀) p Q prog w

/-- Where `p` stands: the call that it runs and its open writes. -/
structure Here (p : Pid) (call : Call) (B : List Write) (w : World) : Prop where
  buf : w.store.buf p = B
  running : callOf p w.history = some call

variable {env : Env} {t₀ : Tables} {p : Pid} {call : Call} {B : List Write} {w w' : World}
variable {α β : Type} {Q : α → World → Prop}

theorem Here.at_ (h : Here p call B w) : At p B (own p w.history) w := ⟨h.buf, rfl⟩

theorem Here.of_at {E : History} (h : Here p call B w) {B' : List Write}
    (hw : At p B' E w') (ho : callOf p E = callOf p (own p w.history)) : Here p call B' w' := by
  refine ⟨hw.buf, ?_⟩
  rw [hw.callOf_eq, ho, callOf_own]
  exact h.running

/-- The same events of its own. -/
theorem Here.later (h : Here p call B w) {B' : List Write} (hw : At p B' (own p w.history) w') :
    Here p call B' w' := h.of_at hw rfl

/-- What `p` sees when it has nothing open. -/
theorem Here.view (h : Here p call [] w) (hi : LegalInv env t₀ w) :
    w.view p = replayed t₀ w.history := h.at_.view hi

/-! ## Reads -/

/-- A statement that leaves the store and the record. -/
theorem runs_ask {act : World → Answer → Option (β × World)} {k : β → Program α}
    (hw : Here p call B w)
    (hact : ∀ w' a r w'', act w' a = some (r, w'') → w'' = w')
    (h : ∀ w' a r, Later p w w' → Here p call B w' → LegalInv env t₀ w' →
      act w' a = some (r, w') → RunsOn env t₀ p Q (k r) w') :
    RunsOn env t₀ p Q (Prog.step act >>= k) w := by
  refine runs_quiet hw.at_ (fun w' a r w'' hs => by rw [hact w' a r w'' hs]; exact ⟨rfl, rfl, rfl⟩) ?_
  intro w' w'' a r hl hw'' hi hs _ _
  obtain rfl := hact w' a r w'' hs
  exact h w'' a r hl (hw.later hw'') hi hs

theorem runs_clock {k : Time → Program α} (hw : Here p call B w)
    (h : ∀ w', Later p w w' → Here p call B w' → LegalInv env t₀ w' →
      RunsOn env t₀ p Q (k w'.clock) w') : RunsOn env t₀ p Q (clock >>= k) w := by
  refine runs_ask hw (fun w' a r w'' hs => by cases hs; rfl) fun w' a r hl hw' hi hs => ?_
  cases hs
  exact h w' hl hw' hi

theorem runs_verdict {k : Bool → Program α} (hw : Here p call B w)
    (h : ∀ w' b, Later p w w' → Here p call B w' → RunsOn env t₀ p Q (k b) w') :
    RunsOn env t₀ p Q (ask >>= k) w := by
  refine runs_ask hw (fun w' a r w'' hs => ?_) fun w' a r hl hw' _ _ => h w' r hl hw'
  cases a <;> cases hs
  rfl

theorem runs_draw {k : String → Program α} (hw : Here p call B w)
    (h : ∀ w' s, Later p w w' → Here p call B w' → RunsOn env t₀ p Q (k s) w') :
    RunsOn env t₀ p Q (draw >>= k) w := by
  refine runs_ask hw (fun w' a r w'' hs => ?_) fun w' a r hl hw' _ _ => h w' r hl hw'
  cases a <;> cases hs
  rfl

theorem runs_freshId {k : Nat → Program α} (hw : Here p call B w)
    (h : ∀ w' id, Later p w w' → Here p call B w' → RunsOn env t₀ p Q (k id) w') :
    RunsOn env t₀ p Q (freshId >>= k) w := by
  refine runs_ask hw (fun w' a r w'' hs => ?_) fun w' a r hl hw' _ _ => h w' r hl hw'
  cases a <;> cases hs
  rfl

theorem runs_generateApiKey {k : String → Program α} (hw : Here p call B w)
    (h : ∀ w' s, Later p w w' → Here p call B w' → RunsOn env t₀ p Q (k s) w') :
    RunsOn env t₀ p Q (generateApiKey >>= k) w :=
  runs_draw hw fun w' _ hl hw' => h w' _ hl hw'

theorem runs_encryptApiKey {apiKey : String} {k : Option String → Program α} (hw : Here p call B w)
    (h : ∀ w' c, Later p w w' → Here p call B w' → Encrypts env apiKey c → SignIn.truthy c = c →
      RunsOn env t₀ p Q (k c) w') : RunsOn env t₀ p Q (encryptApiKey env apiKey >>= k) w := by
  refine runs_ask hw (fun w' a r w'' hs => ?_) fun w' a r hl hw' _ hs => ?_
  · cases a with
    | text c =>
      simp only at hs
      split at hs <;> cases hs
      rfl
    | go =>
      simp only at hs
      split at hs <;> cases hs
      rfl
    | _ => cases hs
  · cases a with
    | text c =>
      simp only at hs
      split at hs
      · rename_i hc
        cases hs
        refine h w' _ hl hw' ⟨fun c' heq => ?_, fun heq => by cases heq⟩ (by simp [SignIn.truthy, hc.2.1])
        cases heq
        simp [decryptApiKey, hc.1, hc.2.2]
      · cases hs
    | go =>
      simp only at hs
      split at hs
      · cases hs
      · rename_i hno
        cases hs
        exact h w' _ hl hw' ⟨fun c heq => (by cases heq), fun _ => Bool.eq_false_iff.mpr hno⟩ rfl
    | _ => cases hs

/-! ## Notes -/

/-- A statement that may note something. -/
theorem runs_noting {act : World → Answer → Option (β × World)} {k : β → Program α}
    (hw : Here p call B w)
    (h : ∀ w', Later p w w' → Here p call B w' → LegalInv env t₀ w' → ∀ a r w'',
      act w' a = some (r, w'') →
      (w'' = w' ∧ RunsOn env t₀ p Q (k r) w') ∨
      ∃ mark, w'' = note w' p mark ∧ Marks env t₀ w'.history p call mark ∧
        (Later p w w'' → Here p call B w'' → LegalInv env t₀ w'' → RunsOn env t₀ p Q (k r) w'')) :
    RunsOn env t₀ p Q (Prog.step act >>= k) w := by
  refine runs_step hw.at_ fun w' hl hw' hi a r w'' hs => ?_
  have hw' := hw.later hw'
  rcases h w' hl hw' hi a r w'' hs with ⟨rfl, hk⟩ | ⟨mark, rfl, hm, hk⟩
  · exact ⟨_, _, Stepped.quiet hw'.at_ hi rfl rfl rfl, hk⟩
  · have hstep := Stepped.mark hw'.at_ hi (show Allowed env t₀ w'.history (.marked p mark) from
      ⟨call, hw'.running, hm⟩)
    exact ⟨_, _, hstep, hk (hl.trans (Later.log p w' _)) (hw'.of_at hstep.at_ rfl) hstep.inv⟩

theorem mem_note (w : World) (p : Pid) (mark : Mark) : .marked p mark ∈ (note w p mark).history :=
  List.mem_cons_self

theorem keysWhere_mem {K V : Type} [DecidableEq K] {t : Scheduler.Table K V} {wh : K → V → Bool}
    {k : K} {v : V} (hk : keysWhere t wh = [k]) (hv : t.lookup k = some v) : wh k v = true := by
  obtain ⟨v', hv', hwh⟩ := (mem_keysWhere t wh k).mp (hk ▸ List.mem_singleton_self k)
  rw [hv] at hv'
  cases hv'
  exact hwh

theorem runs_selectUser {wh : UserId → User → Bool} {k : Option (UserId × User) → Program α}
    (hw : Here p call [] w)
    (hnone : ∀ w', Later p w w' → Here p call [] w' → RunsOn env t₀ p Q (k none) w')
    (hsome : ∀ w' u row now, Later p w w' → Here p call [] w' → wh u row = true → now ≤ w'.clock →
      .marked p (.found u row now) ∈ w'.history → RunsOn env t₀ p Q (k (some (u, row))) w') :
    RunsOn env t₀ p Q (selectUser p wh >>= k) w := by
  refine runs_noting hw fun w' hl hw' hi a r w'' hs => ?_
  simp only [hw'.view hi] at hs
  split at hs
  · cases hs
    exact .inl ⟨rfl, hnone _ hl hw'⟩
  · rename_i u hu
    obtain ⟨row, hrow, heq⟩ := Option.map_eq_some_iff.mp hs
    cases heq
    exact .inr ⟨_, rfl, hrow, fun hl hw'' hi'' => hsome _ u row w'.clock hl hw''
      (keysWhere_mem hu hrow) (Int.le_refl _) (mem_note ..)⟩
  · cases hs

theorem runs_selectCode {wh : Code → Bool} {k : Option (CodeId × Code) → Program α}
    (hw : Here p call [] w)
    (hnone : ∀ w', Later p w w' → Here p call [] w' → RunsOn env t₀ p Q (k none) w')
    (hsome : ∀ w' r code now, Later p w w' → Here p call [] w' → wh code = true → now ≤ w'.clock →
      .marked p (.opened r code.row now) ∈ w'.history →
      RunsOn env t₀ p Q (k (some (r, code))) w') :
    RunsOn env t₀ p Q (selectCode p wh >>= k) w := by
  refine runs_noting hw fun w' hl hw' hi a r w'' hs => ?_
  simp only [hw'.view hi] at hs
  split at hs
  · cases hs
    exact .inl ⟨rfl, hnone _ hl hw'⟩
  · rename_i r hr
    obtain ⟨code, hcode, heq⟩ := Option.map_eq_some_iff.mp hs
    cases heq
    refine .inr ⟨_, rfl, ⟨code.deviceCode, hcode⟩, fun hl hw'' hi'' => ?_⟩
    exact hsome _ r code w'.clock hl hw'' (keysWhere_mem hr hcode) (Int.le_refl _) (mem_note ..)
  · cases hs

theorem runs_getCached {key : CacheKey} {k : Option Cached → Program α} (hw : Here p call B w)
    (h : ∀ w' found, Later p w w' → Here p call B w' → (∀ user, found = some (.user user) →
      ∃ now, .marked p (.hit key user now) ∈ w'.history) → RunsOn env t₀ p Q (k found) w') :
    RunsOn env t₀ p Q (getCached p key >>= k) w := by
  refine runs_noting hw fun w' hl hw' hi a r w'' hs => ?_
  cases a with
  | go =>
    simp only at hs
    split at hs
    · rename_i user hget
      cases hs
      refine .inr ⟨_, rfl, hget, fun hl hw'' hi'' => h _ _ hl hw'' fun user' heq => ?_⟩
      cases heq
      exact ⟨_, mem_note ..⟩
    · rename_i hnot
      cases hs
      exact .inl ⟨rfl, h _ _ hl hw' fun user heq => absurd heq (hnot user)⟩
  | redisError =>
    cases hs
    exact .inl ⟨rfl, h _ _ hl hw' fun _ heq => by cases heq⟩
  | _ => cases hs

theorem runs_setCached {key : CacheKey} {value : Cached} {ex : Nat} {k : Bool → Program α}
    (hw : Here p call B w) (hm : ∀ w' : World, w.history <:+ w'.history →
      Marks env t₀ w'.history p call (.set key value w'.clock (w'.clock + seconds ex)))
    (h : ∀ w' b, Later p w w' → Here p call B w' → RunsOn env t₀ p Q (k b) w') :
    RunsOn env t₀ p Q (setCached p key value ex >>= k) w := by
  refine runs_noting hw fun w' hl hw' hi a r w'' hs => ?_
  cases a with
  | go =>
    cases hs
    exact .inr ⟨_, rfl, hm w' hl.history, fun hl hw'' hi'' => h _ _ hl hw''⟩
  | replyLost =>
    cases hs
    exact .inr ⟨_, rfl, hm w' hl.history, fun hl hw'' hi'' => h _ _ hl hw''⟩
  | redisError =>
    cases hs
    exact .inl ⟨rfl, h _ _ hl hw'⟩
  | _ => cases hs

theorem runs_deleteCached {key : CacheKey} {k : Bool → Program α} (hw : Here p call B w)
    (h : ∀ w' b, Later p w w' → Here p call B w' → RunsOn env t₀ p Q (k b) w') :
    RunsOn env t₀ p Q (deleteCached p key >>= k) w := by
  refine runs_noting hw fun w' hl hw' hi a r w'' hs => ?_
  cases a with
  | go =>
    cases hs
    exact .inr ⟨_, rfl, trivial, fun hl hw'' hi'' => h _ _ hl hw''⟩
  | replyLost =>
    cases hs
    exact .inr ⟨_, rfl, trivial, fun hl hw'' hi'' => h _ _ hl hw''⟩
  | redisError =>
    cases hs
    exact .inl ⟨rfl, h _ _ hl hw'⟩
  | _ => cases hs

theorem runs_sendMagicLink {email verificationToken deviceCode : String} {k : Unit → Program α}
    (hw : Here p call B w) (hm : ∀ w' : World, w.history <:+ w'.history →
      Marks env t₀ w'.history p call (.sent email verificationToken deviceCode))
    (h : ∀ w', Later p w w' → Here p call B w' → RunsOn env t₀ p Q (k ()) w') :
    RunsOn env t₀ p Q (sendMagicLink p email verificationToken deviceCode >>= k) w := by
  refine runs_noting hw fun w' hl hw' hi a r w'' hs => ?_
  cases a with
  | go =>
    cases hs
    exact .inr ⟨_, rfl, hm w' hl.history, fun hl hw'' hi'' => h _ hl hw''⟩
  | bool b =>
    cases b <;> cases hs
    exact .inl ⟨rfl, h _ hl hw'⟩
  | _ => cases hs

theorem runs_createSessionJwt {user : UserId} {email : String} {k : Option String → Program α}
    (hw : Here p call B w) (hs : ∀ w' : World, w.history <:+ w'.history → Signs w'.history p call user)
    (h : ∀ w' jwt, Later p w w' → Here p call B w' → (∀ s, jwt = some s →
      ∃ claims, .marked p (.issued s claims) ∈ w'.history) → RunsOn env t₀ p Q (k jwt) w') :
    RunsOn env t₀ p Q (createSessionJwt env p user email >>= k) w := by
  refine runs_noting hw fun w' hl hw' hi a r w'' hact => ?_
  simp only at hact
  split at hact
  · cases hact
    refine .inr ⟨_, rfl, ⟨rfl, hs w' hl.history⟩, fun hl hw'' hi'' => h _ _ hl hw'' ?_⟩
    intro s heq
    cases heq
    exact ⟨_, mem_note ..⟩
  · cases hact
    exact .inl ⟨rfl, h _ _ hl hw' fun _ heq => by cases heq⟩

/-! ## Writes -/

/-- A write that may be refused. -/
theorem runs_writing {act : World → Answer → Option (β × World)} {k : β → Program α}
    (hw : Here p call B w)
    (h : ∀ w', Later p w w' → Here p call B w' → LegalInv env t₀ w' → ∀ a r w'',
      act w' a = some (r, w'') →
      (w'' = w' ∧ RunsOn env t₀ p Q (k r) w') ∨
      ∃ wr s, w'' = { w' with store := s } ∧ w'.store.write p wr = some s ∧
        (Later p w w'' → Here p call (wr :: B) w'' → LegalInv env t₀ w'' →
          RunsOn env t₀ p Q (k r) w'')) :
    RunsOn env t₀ p Q (Prog.step act >>= k) w := by
  refine runs_step hw.at_ fun w' hl hw' hi a r w'' hs => ?_
  have hw' := hw.later hw'
  rcases h w' hl hw' hi a r w'' hs with ⟨rfl, hk⟩ | ⟨wr, s, rfl, hwr, hk⟩
  · exact ⟨_, _, Stepped.quiet hw'.at_ hi rfl rfl rfl, hk⟩
  · have hstep := Stepped.write hw'.at_ hi hwr
    exact ⟨_, _, hstep, hk (hl.trans (Later.write hwr)) (hw'.of_at hstep.at_ rfl) hstep.inv⟩

theorem runs_write {wr : Write} {k : Unit → Program α} (hw : Here p call B w)
    (h : ∀ w', Later p w w' → Here p call (wr :: B) w' → RunsOn env t₀ p Q (k ()) w') :
    RunsOn env t₀ p Q (write p wr >>= k) w := by
  refine runs_writing hw fun w' hl hw' hi a r w'' hs => ?_
  obtain ⟨s, hwr, heq⟩ := Option.map_eq_some_iff.mp hs
  cases heq
  exact .inr ⟨wr, s, rfl, hwr, fun hl hw'' _ => h _ hl hw''⟩

theorem runs_insertUser {u : UserId} {row : User} {k : Bool → Program α} (hw : Here p call [] w)
    (hnew : ∀ w', Later p w w' → Here p call [.insertUser u row] w' → LegalInv env t₀ w' →
      (replayed t₀ w'.history).user u = none → RunsOn env t₀ p Q (k true) w')
    (hclash : ∀ w', Later p w w' → Here p call [] w' → RunsOn env t₀ p Q (k false) w') :
    RunsOn env t₀ p Q (insertUser p u row >>= k) w := by
  refine runs_writing hw fun w' hl hw' hi a r w'' hs => ?_
  simp only [hw'.view hi] at hs
  split at hs
  · split at hs
    · rename_i hnone
      obtain ⟨s, hwr, heq⟩ := Option.map_eq_some_iff.mp hs
      cases heq
      exact .inr ⟨_, s, rfl, hwr, fun hl hw'' hi'' => hnew _ hl hw'' hi'' hnone.1⟩
    · cases hs
      exact .inl ⟨rfl, hclash _ hl hw'⟩
  · cases hs

theorem runs_updateUser {u : UserId} {update : UserUpdate} {k : Bool → Program α}
    (hw : Here p call [] w)
    (hdone : ∀ w', Later p w w' → Here p call [.updateUser u update] w' →
      RunsOn env t₀ p Q (k true) w')
    (hclash : ∀ w', Later p w w' → Here p call [] w' → RunsOn env t₀ p Q (k false) w') :
    RunsOn env t₀ p Q (updateUser p u update >>= k) w := by
  refine runs_writing hw fun w' hl hw' hi a r w'' hs => ?_
  simp only [hw'.view hi] at hs
  split at hs
  · split at hs
    · obtain ⟨s, hwr, heq⟩ := Option.map_eq_some_iff.mp hs
      cases heq
      exact .inr ⟨_, s, rfl, hwr, fun hl hw'' _ => hdone _ hl hw''⟩
    · cases hs
      exact .inl ⟨rfl, hclash _ hl hw'⟩
  · cases hs

theorem runs_insertCode {r : CodeId} {code : Code} {k : Bool → Program α} (hw : Here p call B w)
    (hnew : ∀ w', Later p w w' → Here p call (.insertCode r code :: B) w' →
      RunsOn env t₀ p Q (k true) w')
    (hclash : ∀ w', Later p w w' → Here p call B w' → RunsOn env t₀ p Q (k false) w') :
    RunsOn env t₀ p Q (insertCode p r code >>= k) w := by
  refine runs_writing hw fun w' hl hw' hi a b w'' hs => ?_
  dsimp only at hs
  split at hs
  · split at hs
    · obtain ⟨s, hwr, heq⟩ := Option.map_eq_some_iff.mp hs
      cases heq
      exact .inr ⟨_, s, rfl, hwr, fun hl hw'' _ => hnew _ hl hw''⟩
    · cases hs
      exact .inl ⟨rfl, hclash _ hl hw'⟩
  · cases hs

theorem runs_deleteCodesWhere {wh : Code → Bool} {k : Nat → Program α} (hw : Here p call [] w)
    (h : ∀ w' rs n, Later p w w' → Here p call [.deleteCodes rs] w' →
      RunsOn env t₀ p Q (k n) w') :
    RunsOn env t₀ p Q (deleteCodesWhere p wh >>= k) w := by
  refine runs_writing hw fun w' hl hw' hi a r w'' hs => ?_
  obtain ⟨s, hwr, heq⟩ := Option.map_eq_some_iff.mp hs
  cases heq
  exact .inr ⟨_, s, rfl, hwr, fun hl hw'' _ => h _ _ _ hl hw''⟩

/-! ## The ends of a transaction -/

theorem runs_commit {k : Unit → Program α} (hw : Here p call B w)
    (h : ∀ w', Later p w w' → LegalInv env t₀ w' →
      Commits env t₀ w'.history p w'.clock call B ∧
      ∀ w'' time, w'.history <:+ w''.history → Here p call [] w'' →
        .commit p time B ∈ w''.history → RunsOn env t₀ p Q (k ()) w'') :
    RunsOn env t₀ p Q (commit p >>= k) w := by
  refine runs_step hw.at_ fun w' hl hw' hi a r w'' hs => ?_
  have hw' := hw.later hw'
  cases hs
  obtain ⟨hc, hk⟩ := h w' hl hi
  have hstep := Stepped.commit hw'.at_ hi (show Allowed env t₀ w'.history (.commit p w'.clock B) from
    ⟨call, hw'.running, hc⟩)
  refine ⟨_, _, hstep, hk _ w'.clock (List.suffix_cons _ _) (hw'.of_at hstep.at_ rfl) ?_⟩
  show .commit p w'.clock B ∈ Event.commit p w'.clock (w'.store.buf p) :: w'.history
  rw [hw'.buf]
  exact List.mem_cons_self

theorem runs_rollback {k : Unit → Program α} (hw : Here p call B w)
    (h : ∀ w', Here p call [] w' → RunsOn env t₀ p Q (k ()) w') :
    RunsOn env t₀ p Q (rollback p >>= k) w := by
  refine runs_step hw.at_ fun w' hl hw' hi a r w'' hs => ?_
  have hw' := hw.later hw'
  cases hs
  have hat : At p [] (own p w'.history) { w' with store := w'.store.rollback p } :=
    ⟨Function.update_self .., rfl⟩
  have hstep : Stepped t₀ (Allowed env t₀) p [] (own p w'.history) w'
      { w' with store := w'.store.rollback p } :=
    ⟨⟨hi.tables, hi.legal, hi.clock⟩, fun q hq => ⟨Store.rollback_kept _ hq, rfl,
      List.suffix_refl _, Int.le_refl _⟩, hat⟩
  exact ⟨_, _, hstep, h _ (hw'.of_at hat rfl)⟩

/-- A row that `p` has inserted stays unseen until its commit. -/
theorem Here.unseen {u : UserId} {row : User} (hw : Here p call B w) (hm : .insertUser u row ∈ B)
    (hi : LegalInv env t₀ w) (hl : Later p w w') (hi' : LegalInv env t₀ w')
    (hnone : (replayed t₀ w.history).user u = none) : (replayed t₀ w'.history).user u = none := by
  have hlock := hw.at_.locked hm (k := Key.user u) List.mem_cons_self
  exact (hl.frozen hi hi' hlock).trans hnone

end CueApi.Accounts
