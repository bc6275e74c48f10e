import CueApi.Library.Expiring
import CueApi.Library.Machine
import CueApi.Library.PyJson
import CueApi.Messages.Sending

/-! `WebhookAuthorizationBackend` of `app/services/authorization_backend.py` and the authorization step
of `create_message`. Any number of questions are open at a time: a call first looks into the cache and
then takes the answer of the hook. -/

namespace CueApi.AuthorizationHook

open Scheduler (Time Pid UserId ApiError seconds)
open PyJson Expiring

/-- What a decision is cached under: `authz:{sender_user_id}:{recipient_user_id}:{message_kind}`. -/
structure Question where
  senderUser : UserId
  recipientUser : UserId
  messageKind : String
  deriving DecidableEq, Repr

/-- What becomes of the POST; a timeout and a request error are one. -/
inductive HookResult
  | unreachable
  | response (status : Nat) (content : List UInt8)
  deriving DecidableEq, Repr

def defaultCacheTtlSeconds : Int := 60

-- `resp.json()` and the Unicode tables of `int`
variable (json : List UInt8 → Except PyError Value) (unicode : Unicode)

/-- `decision not in ("allow", "deny")`, else whether it is `"allow"`. -/
def allowed : Option Value → Option Bool
  | some (.str s) =>
      if s = text "allow" then some true else if s = text "deny" then some false else none
  | _ => none

/-- `int(payload.get("cache_ttl", DEFAULT_CACHE_TTL_SECONDS))`. -/
def cacheTtl (payload : Value) : Except PyError Int := do
  match ← payload.get (text "cache_ttl") with
  | some ttl => ttl.toInt unicode
  | none => return defaultCacheTtlSeconds

/-- The decision of a response and for how long it is cached, unless it is a deny right away. -/
def readDecision (status : Nat) (content : List UInt8) : Except PyError (Option (Bool × Int)) :=
  if status ≠ 200 then .ok none
  else
    match json content with
    | .error e => if e.handled then .ok none else .error e
    | .ok payload => do
        match allowed (← payload.get (text "decision")) with
        | none => return none
        | some allow => return some (allow, ← cacheTtl unicode payload)

/-- The decisions, by their text `"1"` or `"0"`. -/
abbrev Redis := Store Question Bool Time

/-- The first half of `authorize_message`: a decision from the cache. An error of Redis is none. -/
def lookup (redis : Redis) (q : Question) (now : Time) (fails : Bool) : Option Bool :=
  if fails then none else get redis now q

/-- The second half: what the answer of the hook makes of the call and of the cache. -/
def takeAnswer (redis : Redis) (q : Question) (now : Time) (answer : HookResult) (stored : Bool) :
    Except PyError Bool × Redis :=
  match answer with
  | .unreachable => (.ok false, redis)
  | .response status content =>
      match readDecision json unicode status content with
      | .error e => (.error e, redis)
      | .ok none => (.ok false, redis)
      | .ok (some (allow, ttl)) =>
          (.ok allow,
            if 0 < ttl ∧ stored then put redis q allow (some (now + seconds ttl.toNat)) else redis)

/-- Step 4 of `create_message`, with the outcomes of `authorize_message` for the message and, where
there is a `reply_to_agent`, for the reply chain. -/
def authorizationStep (primary : Except PyError Bool) (reply : Option (Except PyError Bool)) :
    Except ApiError Unit :=
  match primary with
  | .error _ => .error Messages.internalServerError
  | .ok false => .error Messages.messageDenied
  | .ok true =>
      match reply with
      | none | some (.ok true) => .ok ()
      | some (.ok false) => .error Messages.replyChainDenied
      | some (.error _) => .error Messages.internalServerError

/-! ## Runs -/

inductive Event
  | lookup (p : Pid) (question : Question) (now : Time) (fails : Bool)
  | answer (p : Pid) (now : Time) (result : HookResult) (stored : Bool)

/-- An answer of the hook that was taken. -/
structure Taken where
  question : Question
  time : Time
  result : HookResult

/-- A call that is over, with the answer that it took itself, if any, and those that were taken
before it ended. -/
structure Done where
  question : Question
  time : Time
  own : Option HookResult
  earlier : List Taken
  outcome : Except PyError Bool

structure State where
  redis : Redis := fun _ => none
  clock : Time
  asking : Pid → Option Question := fun _ => none
  taken : List Taken := []
  done : List Done := []

/-- Times do not go back. -/
def step (s : State) : Event → Option State
  | .lookup p q now fails =>
      if now < s.clock ∨ (s.asking p).isSome then none
      else
        match lookup s.redis q now fails with
        | some cached => some { s with
            clock := now
            done := ⟨q, now, none, s.taken, .ok cached⟩ :: s.done }
        | none => some { s with clock := now, asking := Function.update s.asking p (some q) }
  | .answer p now result stored =>
      if now < s.clock then none
      else
        (s.asking p).map fun q =>
          let (outcome, redis) := takeAnswer json unicode s.redis q now result stored
          { redis
            clock := now
            asking := Function.update s.asking p none
            taken := ⟨q, now, result⟩ :: s.taken
            done := ⟨q, now, some result, s.taken, outcome⟩ :: s.done }

/-- 200 with an object whose decision is `"allow"`. -/
def Allow (result : HookResult) (entries : List (Text × Value)) : Prop :=
  ∃ content, result = .response 200 content ∧ json content = .ok (.dict entries) ∧
    entries.lookup (text "decision") = some (.str (text "allow"))

/-- What an allowed message rests on: the call's own answer, or an earlier one to the same question
within its `cache_ttl`. -/
def Justified (d : Done) : Prop :=
  (∃ result entries, d.own = some result ∧ Allow json result entries) ∨
    ∃ a ∈ d.earlier, ∃ entries ttl, a.question = d.question ∧ Allow json a.result entries ∧
      cacheTtl unicode (.dict entries) = .ok ttl ∧ a.time ≤ d.time ∧
      d.time < a.time + seconds ttl.toNat

/-- The call returned a Boolean, and `true` only where the hook allowed it. -/
def FailsClosed (d : Done) : Prop :=
  ∃ b, d.outcome = .ok b ∧ (b = true → Justified json unicode d)

/-! ## Answers that can be read -/

/-- What `int` takes. -/
def ttlReadable : Option Value → Bool
  | none | some (.bool _) | some (.int _) => true
  | some (.float x) => x.isFinite
  | some (.str s) => (readInt unicode s).isSome
  | some .null | some (.list _) | some (.dict _) => false

/-- An object, with a `cache_ttl` that `int` takes where its decision is `"allow"` or `"deny"`. -/
def payloadReadable : Value → Bool
  | .dict entries => (allowed (entries.lookup (text "decision"))).isNone ||
      ttlReadable unicode (entries.lookup (text "cache_ttl"))
  | _ => false

/-- Anything but a 200 whose body is JSON of another form, or makes the parser give up otherwise than
by a `ValueError` or a `TypeError`. -/
def readable : HookResult → Bool
  | .unreachable => true
  | .response status content => status ≠ 200 ||
      match json content with
      | .error e => e.handled
      | .ok payload => payloadReadable unicode payload

/-- The answers that a run takes are readable. -/
def answersReadable (_ : State) : Event → Bool
  | .answer _ _ result _ => readable json unicode result
  | .lookup .. => true

variable {json unicode} {status : Nat} {content : List UInt8} {entries : List (Text × Value)}
variable {result : HookResult} {redis : Redis} {q q' : Question} {now : Time} {stored allow : Bool}
variable {ttl : Int} {s s' : State} {event : Event}

theorem toInt_isOk (x : Value) : (x.toInt unicode).isOk = ttlReadable unicode (some x) := by
  cases x with
  | float x => cases x <;> rfl
  | str s =>
    simp only [Value.toInt, ttlReadable]
    cases readInt unicode s <;> rfl
  | _ => rfl

theorem cacheTtl_isOk : (cacheTtl unicode (.dict entries)).isOk =
    ttlReadable unicode (entries.lookup (text "cache_ttl")) := by
  simp only [cacheTtl, Value.get, bind, Except.bind]
  cases entries.lookup (text "cache_ttl") with
  | none => rfl
  | some ttl => exact toInt_isOk ttl

theorem allowed_eq_true {x : Option Value} (h : allowed x = some true) :
    x = some (.str (text "allow")) := by
  unfold allowed at h
  split at h
  · rename_i s
    split at h
    · rename_i hs
      rw [hs]
    · split at h <;> cases h
  · cases h

/-- What is read from an object. -/
theorem readDecision_dict (h : json content = .ok (.dict entries)) :
    readDecision json unicode 200 content =
      (allowed (entries.lookup (text "decision"))).elim (.ok none) fun allow =>
        (cacheTtl unicode (.dict entries)).map fun ttl => some (allow, ttl) := by
  simp only [readDecision, h, Value.get, bind, Except.bind, pure, Except.pure]
  cases allowed (entries.lookup (text "decision")) with
  | none => rfl
  | some allow =>
    simp only [Option.elim_some]
    cases cacheTtl unicode (.dict entries) <;> rfl

/-- A decision that is cached comes from an object. -/
theorem readDecision_some (h : readDecision json unicode status content = .ok (some (allow, ttl))) :
    status = 200 ∧ ∃ entries, json content = .ok (.dict entries) ∧
      allowed (entries.lookup (text "decision")) = some allow ∧
      cacheTtl unicode (.dict entries) = .ok ttl := by
  by_cases hstatus : status = 200
  · subst hstatus
    cases hjson : json content with
    | error e =>
      simp only [readDecision, hjson] at h
      split at h
      · cases h
      · split at h <;> cases h
    | ok payload =>
      cases payload with
      | dict entries =>
        rw [readDecision_dict hjson] at h
        cases hallowed : allowed (entries.lookup (text "decision")) with
        | none =>
          rw [hallowed] at h
          cases h
        | some allow' =>
          rw [hallowed, Option.elim_some] at h
          cases httl : cacheTtl unicode (.dict entries) with
          | error e =>
            rw [httl] at h
            cases h
          | ok ttl' =>
            rw [httl] at h
            cases h
            exact ⟨rfl, entries, rfl, hallowed, httl⟩
      | _ =>
        simp only [readDecision, hjson, Value.get, bind, Except.bind] at h
        split at h <;> cases h
  · rw [readDecision, if_pos hstatus] at h
    cases h

theorem readDecision_isOk : (readDecision json unicode status content).isOk =
    readable json unicode (.response status content) := by
  by_cases hstatus : status = 200
  · subst hstatus
    cases hjson : json content with
    | error e =>
      simp only [readDecision, readable, hjson]
      cases e.handled <;> rfl
    | ok payload =>
      cases payload with
      | dict entries =>
        rw [readDecision_dict hjson]
        simp only [readable, hjson, payloadReadable, ← cacheTtl_isOk]
        cases allowed (entries.lookup (text "decision")) with
        | none => rfl
        | some allow => cases cacheTtl unicode (.dict entries) <;> rfl
      | _ => simp [readDecision, readable, hjson, Value.get, bind, Except.bind, payloadReadable,
          Except.isOk, Except.toBool]
  · simp [readDecision, readable, hstatus, Except.isOk, Except.toBool]

/-! ## One answer -/

variable (json unicode) in
/-- The answer holds a decision to cache. -/
def Decides (result : HookResult) (allow : Bool) (ttl : Int) : Prop :=
  ∃ content entries, result = .response 200 content ∧ json content = .ok (.dict entries) ∧
    allowed (entries.lookup (text "decision")) = some allow ∧
    cacheTtl unicode (.dict entries) = .ok ttl

theorem Decides.allows (h : Decides json unicode result true ttl) :
    ∃ entries, Allow json result entries ∧ cacheTtl unicode (.dict entries) = .ok ttl := by
  obtain ⟨content, entries, hresult, hjson, hallowed, httl⟩ := h
  exact ⟨entries, ⟨content, hresult, hjson, allowed_eq_true hallowed⟩, httl⟩

variable (json unicode redis q now result stored) in
/-- What an answer can do. -/
theorem takeAnswer_cases :
    ((∃ e, (takeAnswer json unicode redis q now result stored).1 = .error e) ∧
        readable json unicode result = false ∧
        (takeAnswer json unicode redis q now result stored).2 = redis) ∨
      (takeAnswer json unicode redis q now result stored = (.ok false, redis) ∧
        readable json unicode result = true) ∨
      ∃ allow ttl, Decides json unicode result allow ttl ∧
        readable json unicode result = true ∧
        takeAnswer json unicode redis q now result stored = (.ok allow,
          if 0 < ttl ∧ stored then put redis q allow (some (now + seconds ttl.toNat)) else redis) := by
  cases result with
  | unreachable => exact .inr (.inl ⟨rfl, rfl⟩)
  | response status content =>
    rw [← readDecision_isOk]
    cases hread : readDecision json unicode status content with
    | error e =>
      refine .inl ⟨⟨e, ?_⟩, rfl, ?_⟩ <;> simp only [takeAnswer, hread]
    | ok decision =>
      cases decision with
      | none => exact .inr (.inl ⟨by simp only [takeAnswer, hread], rfl⟩)
      | some d =>
        obtain ⟨allow, ttl⟩ := d
        obtain ⟨rfl, entries, hjson, hallowed, httl⟩ := readDecision_some hread
        exact .inr (.inr ⟨allow, ttl, ⟨content, entries, rfl, hjson, hallowed, httl⟩, rfl,
          by simp only [takeAnswer, hread]⟩)

/-! ## One step -/

variable (json unicode) in
/-- What a step does. -/
inductive Stepped (s : State) : Event → State → Prop
  | hit {p : Pid} {q : Question} {now : Time} {fails cached : Bool} (hn : s.clock ≤ now)
      (h : get s.redis now q = some cached) :
      Stepped s (.lookup p q now fails)
        { s with clock := now, done := ⟨q, now, none, s.taken, .ok cached⟩ :: s.done }
  | ask {p : Pid} {q : Question} {now : Time} {fails : Bool} (hn : s.clock ≤ now) :
      Stepped s (.lookup p q now fails)
        { s with clock := now, asking := Function.update s.asking p (some q) }
  | answered {p : Pid} {q : Question} {now : Time} {result : HookResult} {stored : Bool}
      (hn : s.clock ≤ now) (hp : s.asking p = some q) :
      Stepped s (.answer p now result stored)
        ⟨(takeAnswer json unicode s.redis q now result stored).2, now,
          Function.update s.asking p none, ⟨q, now, result⟩ :: s.taken,
          ⟨q, now, some result, s.taken,
            (takeAnswer json unicode s.redis q now result stored).1⟩ :: s.done⟩

theorem step_cases (h : step json unicode s event = some s') : Stepped json unicode s event s' := by
  cases event with
  | lookup p q now fails =>
    simp only [step] at h
    split at h
    · cases h
    · rename_i hguard
      have hn : s.clock ≤ now := Int.not_lt.mp fun hlt => hguard (.inl hlt)
      split at h
      · rename_i cached hhit
        cases h
        unfold lookup at hhit
        split at hhit
        · cases hhit
        · exact .hit hn hhit
      · cases h
        exact .ask hn
  | answer p now result stored =>
    simp only [step] at h
    split at h
    · cases h
    · rename_i hguard
      obtain ⟨q, hp, rfl⟩ := Option.map_eq_some_iff.mp h
      exact .answered (Int.not_lt.mp hguard) hp

variable (json unicode) in
/-- Every decision in the cache is one that an answer gave, and stays for its `cache_ttl`. -/
structure Cached (s : State) : Prop where
  given : ∀ q en, s.redis q = some en → ∃ a ∈ s.taken, ∃ ttl, a.question = q ∧
    Decides json unicode a.result en.value ttl ∧ en.expires = some (a.time + seconds ttl.toNat)
  past : ∀ a ∈ s.taken, a.time ≤ s.clock

theorem cached_start (clock : Time) : Cached json unicode { clock } where
  given _ _ h := by cases h
  past _ h := by cases h

theorem Cached.step (h : Cached json unicode s)
    (hs : Stepped json unicode s event s') : Cached json unicode s' := by
  cases hs with
  | hit hn _ => exact ⟨h.given, fun a ha => Int.le_trans (h.past a ha) hn⟩
  | ask hn => exact ⟨h.given, fun a ha => Int.le_trans (h.past a ha) hn⟩
  | @answered p q now result stored hn hp =>
    have hold : ∀ q' en, s.redis q' = some en → ∃ a ∈ (⟨q, now, result⟩ :: s.taken : List Taken),
        ∃ ttl, a.question = q' ∧ Decides json unicode a.result en.value ttl ∧
          en.expires = some (a.time + seconds ttl.toNat) := by
      intro q' en hen
      obtain ⟨a, ha, rest⟩ := h.given q' en hen
      exact ⟨a, List.mem_cons_of_mem _ ha, rest⟩
    refine ⟨?_, List.forall_mem_cons.mpr ⟨Int.le_refl _, fun a ha => Int.le_trans (h.past a ha) hn⟩⟩
    rcases takeAnswer_cases json unicode result s.redis q now stored with
      ⟨-, -, hredis⟩ | ⟨htake, -⟩ | ⟨allow, ttl, hd, -, htake⟩
    · rw [hredis]
      exact hold
    · rw [htake]
      exact hold
    · rw [htake]
      dsimp only
      split
      · exact put_all hold ⟨⟨q, now, result⟩, List.mem_cons_self, ttl, rfl, hd, rfl⟩
      · exact hold

/-- A call that ends on the cache. -/
theorem failsClosed_hit {cached : Bool} (h : Cached json unicode s) (hn : s.clock ≤ now)
    (hhit : get s.redis now q = some cached) :
    FailsClosed json unicode ⟨q, now, none, s.taken, .ok cached⟩ := by
  refine ⟨cached, rfl, fun htrue => .inr ?_⟩
  obtain ⟨en, hen, hlive, rfl⟩ := get_eq_some.mp hhit
  obtain ⟨a, ha, ttl, hq, hdecides, hexpires⟩ := h.given q en hen
  obtain ⟨entries, hallow, httl⟩ := (htrue ▸ hdecides).allows
  simp only [Entry.live, hexpires, Option.all_some, decide_eq_true_eq] at hlive
  exact ⟨a, ha, entries, ttl, hq, hallow, httl, Int.le_trans (h.past a ha) hn, hlive⟩

/-- A call that ends on an answer. -/
theorem justified_answer {earlier : List Taken}
    (h : (takeAnswer json unicode redis q now result stored).1 = .ok true) :
    Justified json unicode ⟨q, now, some result, earlier,
      (takeAnswer json unicode redis q now result stored).1⟩ := by
  rcases takeAnswer_cases json unicode result redis q now stored with
    ⟨⟨e, herror⟩, -⟩ | ⟨htake, -⟩ | ⟨allow, ttl, hdecides, -, htake⟩
  · cases herror.symm.trans h
  · rw [htake] at h
    cases h
  · rw [htake] at h
    cases h
    obtain ⟨entries, hallow, -⟩ := hdecides.allows
    exact .inl ⟨result, entries, rfl, hallow⟩

/-- A call that ends on an answer fails closed exactly when the answer is readable. -/
theorem failsClosed_answer_iff {earlier : List Taken} :
    FailsClosed json unicode
        ⟨q, now, some result, earlier, (takeAnswer json unicode redis q now result stored).1⟩ ↔
      readable json unicode result = true := by
  have hends : ∀ b, (takeAnswer json unicode redis q now result stored).1 = .ok b →
      FailsClosed json unicode
        ⟨q, now, some result, earlier, (takeAnswer json unicode redis q now result stored).1⟩ :=
    fun b hb => ⟨b, hb, fun htrue => justified_answer (htrue ▸ hb)⟩
  rcases takeAnswer_cases json unicode result redis q now stored with
    ⟨⟨e, herror⟩, hunreadable, -⟩ | ⟨htake, hreadable⟩ | ⟨allow, ttl, -, hreadable, htake⟩
  · refine iff_of_false ?_ (by simp [hunreadable])
    rintro ⟨b, hb, -⟩
    cases herror.symm.trans hb
  · exact iff_of_true (hends _ (congrArg Prod.fst htake)) hreadable
  · exact iff_of_true (hends _ (congrArg Prod.fst htake)) hreadable

variable (json unicode) in
/-- All calls that are over have failed closed. -/
def AllFailClosed (s : State) : Prop := ∀ d ∈ s.done, FailsClosed json unicode d

theorem allFailClosed_step_iff (h : Cached json unicode s) (hall : AllFailClosed json unicode s)
    (hs : Stepped json unicode s event s') :
    AllFailClosed json unicode s' ↔ answersReadable json unicode s event = true := by
  cases hs with
  | hit hn hhit =>
    exact iff_of_true (List.forall_mem_cons.mpr ⟨failsClosed_hit h hn hhit, hall⟩) rfl
  | ask => exact iff_of_true hall rfl
  | answered =>
    unfold AllFailClosed
    rw [List.forall_mem_cons, failsClosed_answer_iff]
    exact and_iff_left hall

/-- A message is created only where every call has returned `true`. -/
theorem authorizationStep_ok_iff {primary : Except PyError Bool} {reply : Option (Except PyError Bool)} :
    authorizationStep primary reply = .ok () ↔
      primary = .ok true ∧ ∀ outcome ∈ reply, outcome = .ok true := by
  constructor
  · intro h
    unfold authorizationStep at h
    split at h
    · cases h
    · cases h
    · refine ⟨rfl, fun outcome hmem => ?_⟩
      split at h
      · cases hmem
      · exact (Option.mem_some.mp hmem).symm
      · cases h
      · cases h
  · rintro ⟨rfl, hreply⟩
    cases reply with
    | none => rfl
    | some outcome =>
      rw [hreply outcome rfl]
      rfl

/-! ## Runs of calls -/

/-- Whatever the hook answers, a message is allowed only where it said so. -/
theorem true_justified {clock : Time} {events : List Event}
    (hr : Machine.run (step json unicode) { clock } events = some s) {d : Done} (hd : d ∈ s.done)
    (htrue : d.outcome = .ok true) : Justified json unicode d := by
  have hinvariant := Machine.invariant
    (I := fun s => Cached json unicode s ∧
      ∀ d ∈ s.done, d.outcome = .ok true → Justified json unicode d)
    ⟨cached_start clock, List.forall_mem_nil _⟩ ?_ hr (Machine.along_true _ _)
  · exact hinvariant.2 d hd htrue
  · rintro s event s' ⟨hcached, hsound⟩ - hstep
    refine ⟨hcached.step (step_cases hstep), ?_⟩
    cases step_cases hstep with
    | hit hn hhit =>
      refine List.forall_mem_cons.mpr ⟨fun h => ?_, hsound⟩
      obtain ⟨b, hb, hjustified⟩ := failsClosed_hit hcached hn hhit
      exact hjustified (Except.ok.inj (hb.symm.trans h))
    | ask => exact hsound
    | answered =>
      refine List.forall_mem_cons.mpr ⟨fun h => ?_, hsound⟩
      exact justified_answer h

/-- From an empty cache, the calls of a run fail closed exactly when every answer that one of them
takes is readable. -/
theorem fails_closed_iff (json : List UInt8 → Except PyError Value) (unicode : Unicode)
    (clock : Time) (events : List Event) (s : State)
    (hr : Machine.run (step json unicode) { clock } events = some s) :
    (∀ pre s₁, pre <+: events → Machine.run (step json unicode) { clock } pre = some s₁ →
        AllFailClosed json unicode s₁) ↔
      Machine.along (step json unicode) (answersReadable json unicode) { clock } events = true := by
  have hstart : Cached json unicode { clock } := cached_start clock
  refine Machine.along_iff hstart ?_ ?_ ?_ hr
  · intro d hd
    cases hd
  · intro s event s' h hs
    exact h.step (step_cases hs)
  · intro s event s' h hall hs
    exact allFailClosed_step_iff h hall (step_cases hs)

/-- `{"decision": "allow"}`. -/
def allowBody : List UInt8 := "\x7b\"decision\": \"allow\"\x7d".toUTF8.toList

/-- A parser on `allowBody` and `[]`. -/
def twoBodies (content : List UInt8) : Except PyError Value :=
  if content = allowBody then .ok (.dict [(text "decision", .str (text "allow"))])
  else if content = "[]".toUTF8.toList then .ok (.list [])
  else .error .valueError

def ask : Question := ⟨1, 2, "message"⟩

/-- The second call finds the answer to the first. -/
def askTwice : List Event :=
  [.lookup 1 ask 0 false, .answer 1 1 (.response 200 allowBody) true,
    .lookup 2 ask (seconds 59) false]

theorem fails_closed_iff_cached : ∃ s,
    Machine.run (step twoBodies asciiTables) { clock := 0 } askTwice = some s ∧
      ∀ pre s₁, pre <+: askTwice →
        Machine.run (step twoBodies asciiTables) { clock := 0 } pre = some s₁ →
          AllFailClosed twoBodies asciiTables s₁ := by
  obtain ⟨s, hs⟩ : ∃ s, Machine.run (step twoBodies asciiTables) { clock := 0 } askTwice = some s :=
    Option.isSome_iff_exists.mp (by decide +kernel)
  exact ⟨s, hs, (fails_closed_iff twoBodies asciiTables 0 askTwice s hs).mpr (by decide +kernel)⟩

def arrayAnswered : List Event :=
  [.lookup 1 ask 0 false, .answer 1 1 (.response 200 "[]".toUTF8.toList) true]

/-- Two brackets from the hook raise an `AttributeError`. -/
theorem array_answer_raises : ¬ ∀ (json : List UInt8 → Except PyError Value) (unicode : Unicode)
    (clock : Time) (events : List Event) (s : State),
    Machine.run (step json unicode) { clock } events = some s → AllFailClosed json unicode s := by
  intro hall
  obtain ⟨s, hs, hraised⟩ : ∃ s, Machine.run (step twoBodies asciiTables) { clock := 0 } arrayAnswered =
      some s ∧ (s.done.any fun d => !d.outcome.isOk) = true :=
    (Option.any_eq_true _ _).mp (by decide +kernel)
  obtain ⟨d, hd, herror⟩ := List.any_eq_true.mp hraised
  obtain ⟨b, hb, -⟩ := hall twoBodies asciiTables 0 arrayAnswered s hs d hd
  rw [hb] at herror
  cases herror

end CueApi.AuthorizationHook
