import CueApi.Usage.MonthlyCount

/-! The monthly quota of messages: what `check_message_quota` lets pass, against the limit of the
user. The check reads a count that `create_message` raises only after it has stored the message. -/

namespace CueApi.Monthly

open Scheduler (Pid)

/-- `get_user_plan_and_msg_limit`, from the row of the user. -/
def getUserPlanAndMsgLimit (row : Option (String × Int)) : String × Int :=
  match row with
  | none => ("free", 300)
  | some (plan, monthlyMessageLimit) =>
      (if plan = "" then "free" else plan,
        if monthlyMessageLimit = 0 then 300 else monthlyMessageLimit)

/-- `create_message` for a user whose column `monthly_message_limit` is given. -/
def quotaStep (monthlyMessageLimit : Int) : Counter → Action → Option Counter :=
  step (getUserPlanAndMsgLimit (some ("free", monthlyMessageLimit))).2

/-- Let through by the check and not stored yet. -/
def Counter.passed (s : Counter) : Nat := s.calls.tally fun phase => phase = .insert

/-- The count that `check_message_quota` compares with the limit, if the statement gives it. -/
def Counter.checked (s : Counter) (ok : Bool) : Phase → Option Nat
  | .get .quota => if ok then s.cache else none
  | .select .quota => if ok then none else some 0
  | .warm value _ .quota => some value
  | _ => none

/-- A count that is compared with the limit covers the messages of the month, those on their way
included. -/
def covers (s : Counter) : Action → Bool
  | .next p ok =>
      (s.calls.find p).all fun phase =>
        (s.checked ok phase).all fun value => s.accepted + s.passed ≤ value
  | _ => true

variable {limit : Int} {s s' : Counter} {a : Action} {p : Pid}

/-- Only the check of `create_message` lets a message pass. -/
theorem got_insert {reader : Reader} {value : Nat} (h : reader.got limit value = some .insert) :
    reader = .quota ∧ (value : Int) < limit := by
  cases reader with
  | quota =>
    simp only [Reader.got] at h
    split at h
    · cases h
    · rename_i hlt
      exact ⟨rfl, by omega⟩
  | _ => cases h

/-- What a statement does to the messages: it lets one through, stores one, or neither. -/
theorem issue_cases (limit : Int) (s : Counter) (ok : Bool) (phase : Phase) :
    (∃ value, s.checked ok phase = some value ∧ (value : Int) < limit ∧
      (s.issue limit ok phase).1.accepted = s.accepted ∧
      (s.issue limit ok phase).2 = some .insert) ∨
    (phase = .insert ∧ (s.issue limit ok phase).1.accepted = s.accepted + 1 ∧
      (s.issue limit ok phase).2 ≠ some .insert) ∨
    ((s.issue limit ok phase).1.accepted = s.accepted ∧
      (s.issue limit ok phase).2 ≠ some .insert) := by
  -- what follows a read lets a message pass only at the quota check
  have hgot (reader : Reader) (value : Nat) :
      (reader = .quota ∧ (value : Int) < limit ∧ reader.got limit value = some .insert) ∨
        reader.got limit value ≠ some .insert := by
    by_cases h : reader.got limit value = some .insert
    · obtain ⟨hreader, hlt⟩ := got_insert h
      exact .inl ⟨hreader, hlt, h⟩
    · exact .inr h
  cases phase with
  | incr => exact .inr (.inr ⟨rfl, by simp [Counter.issue]⟩)
  | upsert =>
    cases ok with
    | true => exact .inr (.inr ⟨rfl, by simp [Counter.issue]⟩)
    | false => exact .inr (.inr ⟨rfl, by simp [Counter.issue]⟩)
  | set value behind =>
    have hstore : (s.store ok value behind).accepted = s.accepted := by
      rcases store_cases s ok value behind with heq | heq <;> rw [heq]
    exact .inr (.inr ⟨hstore, by simp [Counter.issue]⟩)
  | get reader =>
    cases hread : (if ok then s.cache else none) with
    | none =>
      right
      right
      simp [Counter.issue, hread]
    | some value =>
      rcases hgot reader value with ⟨rfl, hlt, hgot⟩ | hgot
      · exact .inl ⟨value, hread, hlt, by simp [Counter.issue, hread],
          by simp [Counter.issue, hread, hgot]⟩
      · right
        right
        exact ⟨by simp [Counter.issue, hread], by simp [Counter.issue, hread, hgot]⟩
  | select reader =>
    cases ok with
    | true => exact .inr (.inr ⟨rfl, by simp [Counter.issue]⟩)
    | false =>
      rcases hgot reader 0 with ⟨rfl, hlt, hgot⟩ | hgot
      · exact .inl ⟨0, rfl, hlt, by simp [Counter.issue], by simpa [Counter.issue] using hgot⟩
      · right
        right
        simp only [Counter.issue]
        split
        · contradiction
        · split
          · exact ⟨rfl, by simp⟩
          · exact ⟨rfl, hgot⟩
  | warm value behind reader =>
    have hstore : (s.store ok value behind).accepted = s.accepted := by
      rcases store_cases s ok value behind with heq | heq <;> rw [heq]
    rcases hgot reader value with ⟨rfl, hlt, hgot⟩ | hgot
    · exact .inl ⟨value, rfl, hlt, hstore, hgot⟩
    · exact .inr (.inr ⟨hstore, hgot⟩)
  | insert =>
    cases ok with
    | true => exact .inr (.inl ⟨rfl, rfl, by simp [Counter.issue]⟩)
    | false => exact .inr (.inr ⟨rfl, by simp [Counter.issue]⟩)

theorem overtake_insert (phase : Phase) : phase.overtake = .insert ↔ phase = .insert := by
  cases phase <;> simp [Phase.overtake]

/-- The messages let through, after a statement of `p`. -/
theorem passed_next (limit : Int) (ok : Bool) {phase : Phase}
    (hphase : s.calls.find p = some phase) (next : Option Phase) :
    (((s.issue limit ok phase).1.calls.proceed p next).tally fun phase => phase = .insert) +
        (decide (phase = .insert)).toNat =
      s.passed + next.elim 0 fun phase => (decide (phase = .insert)).toNat := by
  rcases issue_calls limit s ok phase with heq | heq
  · rw [heq]
    exact Pending.tally_proceed _ next hphase
  · have hfind : (s.calls.map Phase.overtake).find p = some phase.overtake := by
      rw [Pending.find_map, hphase, Option.map_some]
    have hown := Pending.tally_proceed (fun phase => phase = .insert) next hfind
    rw [heq]
    simpa only [Pending.tally_map, overtake_insert, Counter.passed] using hown

/-- The messages of the month and those on their way stay within the limit. -/
def within (limit : Int) (s : Counter) : Prop := ((s.accepted + s.passed : Nat) : Int) ≤ limit

theorem next_passed_zero {next : Option Phase} (h : next ≠ some .insert) :
    (next.elim 0 fun phase => (decide (phase = .insert)).toNat) = 0 := by
  cases next with
  | none => rfl
  | some phase =>
    have hne : phase ≠ .insert := fun heq => h (congrArg some heq)
    simp [hne]

theorem within_after (hs : within limit s) (hc : covers s a = true)
    (h : step limit s a = some s') : within limit s' := by
  unfold within at hs ⊢
  cases a with
  | start p call =>
    obtain ⟨calls, hcalls, rfl⟩ := step_start h
    have hfirst : call.first ≠ .insert := by cases call <;> exact Phase.noConfusion
    have htally := Pending.tally_enter (fun phase => phase = .insert) hcalls
    simp only [hfirst, decide_false, Bool.toNat_false] at htally
    show ((s.accepted + calls.tally fun phase => phase = .insert : Nat) : Int) ≤ limit
    rw [htally]
    exact hs
  | expire =>
    cases h
    exact hs
  | next p ok =>
    obtain ⟨phase, hphase, rfl⟩ := step_next h
    have hchecked (value : Nat) (hv : s.checked ok phase = some value) :
        s.accepted + s.passed ≤ value := by
      simpa [covers, hphase, hv] using hc
    have hpassed := passed_next limit ok hphase (s.issue limit ok phase).2
    show (((s.issue limit ok phase).1.accepted +
      ((s.issue limit ok phase).1.calls.proceed p (s.issue limit ok phase).2).tally
        fun phase => phase = .insert : Nat) : Int) ≤ limit
    rcases issue_cases limit s ok phase with
      ⟨value, hvalue, hlt, hsame, hnext⟩ | ⟨rfl, hmore, hnext⟩ | ⟨hsame, hnext⟩
    · have hcover := hchecked value hvalue
      rw [hnext] at hpassed ⊢
      simp only [Option.elim_some, decide_true, Bool.toNat_true] at hpassed
      omega
    · have hzero := next_passed_zero hnext
      have hone : (decide (Phase.insert = .insert)).toNat = 1 := rfl
      rw [hzero, hone] at hpassed
      omega
    · have hzero := next_passed_zero hnext
      rw [hzero] at hpassed
      omega

theorem accepted_le {as : List Action} (hpos : 1 ≤ limit)
    (hr : Machine.run (step limit) {} as = some s)
    (hc : Machine.along (step limit) covers {} as = true) : (s.accepted : Int) ≤ limit := by
  have hstart : within limit {} := by
    show ((0 : Nat) : Int) ≤ limit
    omega
  have hs := Machine.invariant hstart (fun _ _ _ hs hc h => within_after hs hc h) hr hc
  unfold within at hs
  omega

theorem limit_of_pos {monthlyMessageLimit : Int} (h : 1 ≤ monthlyMessageLimit) :
    (getUserPlanAndMsgLimit (some ("free", monthlyMessageLimit))).2 = monthlyMessageLimit := by
  have hne : monthlyMessageLimit ≠ 0 := by omega
  simp [getUserPlanAndMsgLimit, hne]

/-- The month's messages stay within the limit of the user in every run in which each count that the
check compares covers them, exactly when the limit is positive: `or 300` takes 0 for no value. -/
theorem quota_kept_iff (monthlyMessageLimit : Int) :
    (∀ as s, Machine.run (quotaStep monthlyMessageLimit) {} as = some s →
      Machine.along (quotaStep monthlyMessageLimit) covers {} as = true →
      (s.accepted : Int) ≤ monthlyMessageLimit) ↔ 1 ≤ monthlyMessageLimit := by
  constructor
  · intro h
    have hempty := h [] {} rfl rfl
    by_cases hzero : monthlyMessageLimit = 0
    · subst hzero
      have hone := h
        [.start 1 .createMessage, .next 1 true, .next 1 true, .next 1 true, .next 1 true]
        { cache := some 0, calls := ⟨[(1, .upsert)], by decide⟩, accepted := 1 }
        (by decide) (by decide)
      simp at hone
    · have hnat : ((0 : Nat) : Int) ≤ monthlyMessageLimit := hempty
      omega
  · intro hpos as s hr hc
    unfold quotaStep at hr hc
    rw [limit_of_pos hpos] at hr hc
    exact accepted_le hpos hr hc

/-- A limit of 0 lets a message through; two requests that overlap both pass a limit of 1; and so do
two in turn when the first cannot write its count to a key that is there. -/
theorem quota_exceeded :
    (∃ s, Machine.run (quotaStep 0) {}
        [.start 1 .createMessage, .next 1 true, .next 1 true, .next 1 true, .next 1 true] =
        some s ∧
      ¬ (s.accepted : Int) ≤ 0) ∧
    (∃ s, Machine.run (quotaStep 1) {}
        [.start 1 .createMessage, .start 2 .createMessage, .next 1 true, .next 1 true,
          .next 2 true, .next 2 true, .next 1 true, .next 2 true, .next 1 true, .next 2 true] =
        some s ∧
      ¬ (s.accepted : Int) ≤ 1) ∧
    ∃ s, Machine.run (quotaStep 1) {}
        [.start 1 .createMessage, .next 1 true, .next 1 true, .next 1 true, .next 1 true,
          .next 1 true, .next 1 false, .start 2 .createMessage, .next 2 true, .next 2 true] =
        some s ∧
      ¬ (s.accepted : Int) ≤ 1 := by
  refine ⟨?_, ?_, ?_⟩
  · exact ⟨{ cache := some 0, calls := ⟨[(1, .upsert)], by decide⟩, accepted := 1 },
      by decide, by decide⟩
  · exact ⟨{ cache := some 0, calls := ⟨[(2, .upsert), (1, .upsert)], by decide⟩, accepted := 2 },
      by decide, by decide⟩
  · exact ⟨{ count := 1, cache := some 0, calls := ⟨[(2, .upsert)], by decide⟩, accepted := 2 },
      by decide, by decide⟩

/-! ## One call at a time -/

/-- A statement that may fail without leaving the counts behind. -/
def Counter.harmless (s : Counter) : Phase → Bool
  | .upsert => false
  | .select _ => false
  | .set _ _ => s.cache.isNone
  | _ => true

/-- The calls of the message counter one after another; PostgreSQL answers, and a write-through that
fails finds no key. -/
def serial (s : Counter) : Action → Bool
  | .start _ call => s.calls = ∅ ∧ call ≠ .incrementUsage
  | .next p ok => ok || (s.calls.find p).all fun phase => s.harmless phase
  | .expire => true

/-- What a call still has to add to the row. -/
def Phase.due : Phase → Nat
  | .upsert => 1
  | _ => 0

/-- What a call still has to add to the value in Redis. -/
def Phase.lag : Phase → Nat
  | .upsert => 1
  | .set _ _ => 1
  | _ => 0

/-- The counts have the messages of the month, but for what the call still has to add. -/
structure Follows (s : Counter) (call : Option Phase) : Prop where
  count : s.accepted ≤ s.count + call.elim 0 Phase.due
  cache : ∀ v, s.cache = some v → s.accepted ≤ v + call.elim 0 Phase.lag
  held : ∀ phase v b, call = some phase → phase.held = some (v, b) → s.accepted ≤ v
  message : call ≠ some .incr

/-- A call that holds no value and owes nothing, or none. -/
theorem Follows.of_settled {call : Option Phase} (hcount : s.accepted ≤ s.count)
    (hcache : ∀ v, s.cache = some v → s.accepted ≤ v)
    (hheld : ∀ phase, call = some phase → phase.held = none ∧ phase ≠ .incr) :
    Follows s call := by
  constructor
  · omega
  · intro v hv
    have hle := hcache v hv
    omega
  · intro phase v b hphase heq
    rw [(hheld phase hphase).1] at heq
    cases heq
  · intro heq
    exact (hheld _ heq).2 rfl

theorem got_settled {reader : Reader} {value : Nat} (phase : Phase)
    (h : reader.got limit value = some phase) : phase.held = none ∧ phase ≠ .incr := by
  rw [got_held h]
  exact ⟨rfl, Phase.noConfusion⟩

theorem issue_follows {ok : Bool} {phase : Phase} (hs : Follows s (some phase))
    (hok : ok = true ∨ s.harmless phase = true) :
    Follows (s.issue limit ok phase).1 (s.issue limit ok phase).2 := by
  have hcount := hs.count
  have hcache := hs.cache
  cases phase with
  | incr => exact absurd rfl hs.message
  | upsert =>
    rcases hok with rfl | hno
    · constructor
      · exact hcount
      · exact hcache
      · intro phase v b hphase hheld
        cases hphase
        cases hheld
        exact hcount
      · intro heq
        cases heq
    · cases hno
  | set value behind =>
    have hheld := hs.held _ value behind rfl rfl
    have hnext (phase : Phase) (h : (none : Option Phase) = some phase) :
        phase.held = none ∧ phase ≠ .incr := by cases h
    cases ok with
    | true =>
      refine Follows.of_settled hcount (fun v hv => ?_) hnext
      cases hv
      exact hheld
    | false =>
      have hnone : s.cache = none := by simpa [Counter.harmless] using hok
      refine Follows.of_settled hcount (fun v hv => ?_) hnext
      rw [show s.cache = some v from hv] at hnone
      cases hnone
  | get reader =>
    simp only [Counter.issue]
    split
    · exact Follows.of_settled hcount hcache got_settled
    · refine Follows.of_settled hcount hcache fun phase h => ?_
      cases h
      exact ⟨rfl, Phase.noConfusion⟩
  | select reader =>
    rcases hok with rfl | hno
    · constructor
      · exact hcount
      · exact hcache
      · intro phase v b hphase hheld
        cases hphase
        cases hheld
        exact hcount
      · intro heq
        cases heq
    · cases hno
  | warm value behind reader =>
    have hheld := hs.held _ value behind rfl rfl
    simp only [Counter.issue]
    rcases store_cases s ok value behind with heq | heq
    · rw [heq]
      exact Follows.of_settled hcount hcache got_settled
    · rw [heq]
      refine Follows.of_settled hcount (fun v hv => ?_) got_settled
      cases hv
      exact hheld
  | insert =>
    cases ok with
    | true =>
      constructor
      · show s.accepted + 1 ≤ s.count + 1
        exact Nat.succ_le_succ hcount
      · intro v hv
        show s.accepted + 1 ≤ v + 1
        exact Nat.succ_le_succ (hcache v hv)
      · intro phase v b hphase hheld
        cases hphase
        cases hheld
      · intro heq
        cases heq
    | false =>
      refine Follows.of_settled hcount hcache fun phase h => ?_
      cases h

theorem Follows.of_eq {call : Option Phase} (hs : Follows s call) (hcount : s'.count = s.count)
    (hcache : s'.cache = s.cache) (haccepted : s'.accepted = s.accepted) : Follows s' call := by
  constructor
  · rw [haccepted, hcount]
    exact hs.count
  · intro v hv
    rw [hcache] at hv
    rw [haccepted]
    exact hs.cache v hv
  · intro phase v b hphase hheld
    rw [haccepted]
    exact hs.held phase v b hphase hheld
  · exact hs.message

theorem Follows.checked_le {ok : Bool} {phase : Phase} {value : Nat} (hs : Follows s (some phase))
    (hok : ok = true ∨ s.harmless phase = true) (h : s.checked ok phase = some value) :
    s.accepted ≤ value ∧ phase ≠ .insert := by
  cases phase with
  | get reader =>
    cases reader with
    | quota =>
      cases ok with
      | true => exact ⟨hs.cache value h, Phase.noConfusion⟩
      | false => cases h
    | _ => cases h
  | select reader =>
    cases reader with
    | quota =>
      rcases hok with rfl | hno
      · cases h
      · cases hno
    | _ => cases h
  | warm count behind reader =>
    cases reader with
    | quota =>
      cases h
      exact ⟨hs.held _ value behind rfl rfl, Phase.noConfusion⟩
    | _ => cases h
  | _ => cases h

/-- At most one call, and the counts follow the messages. -/
def Serial (s : Counter) : Prop :=
  ∃ call : Option (Pid × Phase), s.calls.entries = call.toList ∧ Follows s (call.map Prod.snd)

/-- The call that takes the next statement is the only one. -/
theorem Serial.found {phase : Phase} (hs : Serial s) (hphase : s.calls.find p = some phase) :
    s.calls.entries = [(p, phase)] ∧ Follows s (some phase) := by
  obtain ⟨call, hcalls, hfollows⟩ := hs
  have hmem := Pending.find_iff.mp hphase
  rw [hcalls] at hmem
  cases call with
  | none => cases hmem
  | some z =>
    cases List.mem_singleton.mp hmem
    exact ⟨hcalls, hfollows⟩

theorem Serial.after (hs : Serial s) (hc : serial s a = true) (h : step limit s a = some s') :
    Serial s' := by
  cases a with
  | start p call =>
    obtain ⟨hempty, hmessage⟩ : s.calls = ∅ ∧ call ≠ .incrementUsage := by simpa [serial] using hc
    obtain ⟨calls, hcalls, rfl⟩ := step_start h
    have hentries := Pending.enter_some hcalls
    rw [hempty] at hentries
    obtain ⟨rest, hrest, hfollows⟩ := hs
    refine ⟨some (p, call.first), hentries, ?_⟩
    rw [hempty] at hrest
    cases rest with
    | some y => cases hrest
    | none =>
      constructor
      · exact Nat.le_trans hfollows.count (Nat.le_add_right _ _)
      · intro v hv
        exact Nat.le_trans (hfollows.cache v hv) (Nat.le_add_right _ _)
      · intro phase v b hphase hheld
        cases hphase
        cases call <;> cases hheld
      · intro heq
        cases call <;> cases heq
        exact hmessage rfl
  | expire =>
    cases h
    obtain ⟨call, hcalls, hfollows⟩ := hs
    refine ⟨call, hcalls, hfollows.count, fun v hv => ?_, hfollows.held, hfollows.message⟩
    cases hv
  | next p ok =>
    obtain ⟨phase, hphase, rfl⟩ := step_next h
    obtain ⟨hcalls, hfollows⟩ := hs.found hphase
    have hok : ok = true ∨ s.harmless phase = true := by simpa [serial, hphase] using hc
    have hnone : (s.issue limit ok phase).1.calls.entries.filter (fun y => y.1 ≠ p) = [] := by
      rcases issue_calls limit s ok phase with heq | heq
      · rw [heq, hcalls]
        simp
      · rw [heq]
        simp [Pending.map, hcalls]
    refine ⟨(s.issue limit ok phase).2.map fun phase => (p, phase), ?_, ?_⟩
    · show _ ++ (s.issue limit ok phase).1.calls.entries.filter (fun y => y.1 ≠ p) = _
      rw [hnone, List.append_nil]
    · rw [Option.map_map]
      have hid : (Prod.snd ∘ fun phase => (p, phase)) = (id : Phase → Phase) := rfl
      rw [hid, Option.map_id]
      exact (issue_follows hfollows hok).of_eq rfl rfl rfl

/-- Then every count that the check compares covers the messages. -/
theorem Serial.covered (hs : Serial s) (hc : serial s a = true) : covers s a = true := by
  cases a with
  | start p call => rfl
  | expire => rfl
  | next p ok =>
    simp only [covers, Option.all_eq_true, decide_eq_true_eq]
    intro phase hphase value hvalue
    obtain ⟨hcalls, hfollows⟩ := hs.found hphase
    have hok : ok = true ∨ s.harmless phase = true := by simpa [serial, hphase] using hc
    obtain ⟨hle, hinsert⟩ := hfollows.checked_le hok hvalue
    have hpassed : s.passed = 0 := by simp [Counter.passed, Pending.tally, hcalls, hinsert]
    omega

/-- Requests that come one after another stay within a positive limit. -/
theorem serial_within {as : List Action} (hpos : 1 ≤ limit)
    (hr : Machine.run (step limit) {} as = some s)
    (hc : Machine.along (step limit) serial {} as = true) : (s.accepted : Int) ≤ limit := by
  have hstart : Serial {} :=
    ⟨none, rfl, Follows.of_settled (Nat.zero_le _) (fun v _ => Nat.zero_le _)
      fun phase h => by cases h⟩
  have hcovers : Machine.along (step limit) covers {} as = true :=
    Machine.along_of hstart (fun _ _ _ hs hc h => hs.after hc h) (fun _ _ hs hc => hs.covered hc) hc
  exact accepted_le hpos hr hcovers

end CueApi.Monthly
