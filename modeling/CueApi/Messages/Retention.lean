import CueApi.Library.Machine
import CueApi.Messages.Alone
import CueApi.Messages.Service

/-! `cleanup_expired_messages` of `worker/message_cleanup.py`: its loop over batches, and how long
messages stay under any schedule of it and of `expire_old_messages`. -/

namespace CueApi.Retention

open Scheduler (Pid Time Table keysWhere keysWhere_nodup mem_keysWhere Picks picks_exists seconds
  modify)
open Messages (Message MsgId MsgUpdate modifyAll lookup_modifyAll pastTtl)

abbrev MessageTable := Table MsgId Message

/-! ## The job -/

def batchSize : Nat := 1000

def days (n : Nat) : Time := seconds (86400 * n)

def messageHardDeleteDays : Nat := 7

/-- `where_clause`; a NULL is before no time. -/
def eligible (cutoff : Time) (r : Message) : Bool :=
  (r.deliveryState = .acked && r.ackedAt.any (· < cutoff)) ||
    (r.deliveryState = .expired && r.expiresAt < cutoff)

def eligibleIds (cutoff : Time) (t : MessageTable) : List MsgId :=
  keysWhere t fun _ r => eligible cutoff r

/-- What `ON DELETE SET NULL` makes of a row that stays. -/
def unlink (ids : List MsgId) (r : Message) : Message :=
  if r.replyTo.any (· ∈ ids) then { r with replyTo := none } else r

def eraseAll (ids : List MsgId) (t : MessageTable) : MessageTable := ids.foldl (fun t m => t.erase m) t

/-- `DELETE … WHERE id IN (…)`, with its row count. -/
def deleteMessages (ids : List MsgId) (t : MessageTable) : MessageTable × Nat :=
  (modifyAll (eraseAll ids t) (eraseAll ids t).keys (unlink ids),
    ids.countP fun m => (t.lookup m).isSome)

/-- Which rows the server returns for a LIMIT without an ORDER BY: for the k-th batch, and for the
sample. -/
structure Server where
  batch : Nat → Time → MessageTable → List MsgId
  sample : Time → MessageTable → List MsgId
  batch_picks : ∀ k cutoff t, Picks batchSize (fun _ => 0) (eligibleIds cutoff t) (batch k cutoff t)
  sample_picks : ∀ cutoff t, Picks 5 (fun _ => 0) (eligibleIds cutoff t) (sample cutoff t)

structure CleanupResult where
  dryRun : Bool
  eligibleCount : Nat
  deletedCount : Nat
  sampleIds : List MsgId
  deriving DecidableEq, Repr

variable (server : Server)

/-- The loop; `none` where the fuel does not reach to its end. -/
def deleteBatches (cutoff : Time) : Nat → Nat → MessageTable → Nat → Option (MessageTable × Nat)
  | 0, _, _, _ => none
  | fuel + 1, k, t, total =>
      let batchIds := server.batch k cutoff t
      if batchIds = [] then some (t, total)
      else
        let (t', rowcount) := deleteMessages batchIds t
        deleteBatches cutoff fuel (k + 1) t' (total + rowcount)

/-- `cleanup_expired_messages`. -/
def cleanupExpiredMessages (fuel : Nat) (now : Time) (dryRun : Bool) (t : MessageTable) :
    Option (CleanupResult × MessageTable) :=
  let cutoff := now - days messageHardDeleteDays
  let eligibleCount := (eligibleIds cutoff t).length
  let sampleIds := server.sample cutoff t
  if dryRun then some (⟨true, eligibleCount, 0, sampleIds⟩, t)
  else
    (deleteBatches server cutoff fuel 0 t 0).map fun x =>
      (⟨false, eligibleCount, x.2, sampleIds⟩, x.1)

/-! ## What a DELETE leaves -/

variable {server} {t t' : MessageTable} {ids : List MsgId} {m : MsgId} {r : Message}
variable {cutoff now : Time}

theorem mem_eligibleIds : m ∈ eligibleIds cutoff t ↔
    ∃ r, t.lookup m = some r ∧ eligible cutoff r = true := mem_keysWhere t _ m

theorem lookup_eraseAll (ids : List MsgId) (t : MessageTable) (m : MsgId) :
    (eraseAll ids t).lookup m = if m ∈ ids then none else t.lookup m := by
  induction ids generalizing t with
  | nil => rfl
  | cons i ids ih =>
    change (eraseAll ids (t.erase i)).lookup m = _
    rw [ih]
    by_cases hm : m ∈ ids
    · simp [hm]
    · by_cases hi : m = i
      · subst hi
        simp [AList.lookup_erase]
      · rw [if_neg hm, if_neg (by simp [hi, hm]), AList.lookup_erase_ne hi]

theorem lookup_deleteMessages (ids : List MsgId) (t : MessageTable) (m : MsgId) :
    (deleteMessages ids t).1.lookup m = if m ∈ ids then none else (t.lookup m).map (unlink ids) := by
  unfold deleteMessages
  rw [lookup_modifyAll, lookup_eraseAll]
  by_cases hm : m ∈ ids
  · simp [hm]
  · rw [if_neg hm, if_neg hm]
    cases hl : t.lookup m with
    | none => simp
    | some r =>
      have hkey : m ∈ (eraseAll ids t).keys := by
        rw [← AList.mem_keys, ← AList.lookup_isSome, lookup_eraseAll, if_neg hm, hl]
        rfl
      rw [if_pos hkey]

theorem eligible_unlink : eligible cutoff (unlink ids r) = eligible cutoff r := by
  unfold unlink
  split <;> rfl

/-- Two deletions are one. -/
theorem unlink_unlink {all rest : List MsgId} (h : ∀ m, m ∈ all ↔ m ∈ ids ∨ m ∈ rest) (r : Message) :
    unlink rest (unlink ids r) = unlink all r := by
  unfold unlink
  cases hreply : r.replyTo with
  | none => simp [hreply]
  | some m =>
    by_cases hids : m ∈ ids
    · simp [hids, h]
    · by_cases hrest : m ∈ rest <;> simp [hreply, hids, hrest, h]

/-- The eligible rows of a table and nothing else are gone, and no reply points to them. -/
def Cleaned (cutoff : Time) (t t' : MessageTable) : Prop :=
  ∀ m, t'.lookup m = if m ∈ eligibleIds cutoff t then none
    else (t.lookup m).map (unlink (eligibleIds cutoff t))

/-- What is eligible after a batch. -/
theorem mem_eligibleIds_delete : m ∈ eligibleIds cutoff (deleteMessages ids t).1 ↔
    m ∈ eligibleIds cutoff t ∧ m ∉ ids := by
  rw [mem_eligibleIds, mem_eligibleIds, lookup_deleteMessages]
  by_cases hm : m ∈ ids
  · simp [hm]
  · rw [if_neg hm]
    constructor
    · rintro ⟨r, hr, he⟩
      obtain ⟨r', hr', rfl⟩ := Option.map_eq_some_iff.mp hr
      exact ⟨⟨r', hr', eligible_unlink.symm.trans he⟩, hm⟩
    · rintro ⟨⟨r, hr, he⟩, -⟩
      exact ⟨unlink ids r, by rw [hr]; rfl, eligible_unlink.trans he⟩

/-- A batch of eligible rows and what is eligible after it. -/
theorem length_eligibleIds_delete (hn : ids.Nodup) (hsub : ∀ m ∈ ids, m ∈ eligibleIds cutoff t) :
    (eligibleIds cutoff t).length =
      ids.length + (eligibleIds cutoff (deleteMessages ids t).1).length := by
  rw [← List.length_append]
  refine List.Perm.length_eq ((List.perm_ext_iff_of_nodup (keysWhere_nodup t _) ?_).mpr fun m => ?_)
  · refine List.nodup_append'.mpr ⟨hn, keysWhere_nodup _ _, fun m hm hrest => ?_⟩
    exact (mem_eligibleIds_delete.mp hrest).2 hm
  · rw [List.mem_append, mem_eligibleIds_delete]
    by_cases hm : m ∈ ids
    · exact iff_of_true (hsub m hm) (.inl hm)
    · simp [hm, eligibleIds]

/-- With more fuel than eligible rows, the loop deletes them all and counts them. -/
theorem deleteBatches_cleans (server : Server) {fuel : Nat} (hfuel : (eligibleIds cutoff t).length < fuel) (k total : Nat) :
    ∃ t', deleteBatches server cutoff fuel k t total =
      some (t', total + (eligibleIds cutoff t).length) ∧ Cleaned cutoff t t' := by
  induction fuel generalizing t k total with
  | zero => exact absurd hfuel (Nat.not_lt_zero _)
  | succ fuel ih =>
    obtain ⟨hn, hsub, hlength, -⟩ := server.batch_picks k cutoff t
    rw [deleteBatches]
    by_cases hnil : server.batch k cutoff t = []
    · have hnone : eligibleIds cutoff t = [] := by
        rw [hnil, List.length_nil] at hlength
        exact List.length_eq_zero_iff.mp (by unfold batchSize at hlength; omega)
      refine ⟨t, ?_, fun m => ?_⟩
      · rw [if_pos hnil, hnone]
        rfl
      · have hsame : unlink [] = id := funext fun r => by simp [unlink]
        rw [hnone, hsame]
        simp
    · have hcount := length_eligibleIds_delete hn hsub
      have hpos := List.length_pos_of_ne_nil hnil
      obtain ⟨t', hrun, hcleaned⟩ := ih (t := (deleteMessages (server.batch k cutoff t) t).1)
        (by omega) (k + 1) (total + (server.batch k cutoff t).length)
      have hrows : (deleteMessages (server.batch k cutoff t) t).2 = (server.batch k cutoff t).length := by
        refine List.countP_eq_length.mpr fun m hm => ?_
        obtain ⟨r, hr, -⟩ := mem_eligibleIds.mp (hsub m hm)
        rw [hr]
        rfl
      refine ⟨t', ?_, fun m => ?_⟩
      · rw [if_neg hnil]
        simp only [hrows, hrun, hcount, Nat.add_assoc]
      · have hall : ∀ m, m ∈ eligibleIds cutoff t ↔ m ∈ server.batch k cutoff t ∨
            m ∈ eligibleIds cutoff (deleteMessages (server.batch k cutoff t) t).1 := by
          intro m
          rw [mem_eligibleIds_delete]
          by_cases hm : m ∈ server.batch k cutoff t
          · exact iff_of_true (hsub m hm) (.inl hm)
          · simp [hm]
        rw [hcleaned m, lookup_deleteMessages]
        by_cases hm : m ∈ server.batch k cutoff t
        · rw [if_pos hm, if_pos ((hall m).mpr (.inl hm))]
          simp
        · rw [if_neg hm]
          by_cases hrest : m ∈ eligibleIds cutoff (deleteMessages (server.batch k cutoff t) t).1
          · rw [if_pos hrest, if_pos ((hall m).mpr (.inr hrest))]
          · have hnot : m ∉ eligibleIds cutoff t := fun h => ((hall m).mp h).elim hm hrest
            rw [if_neg hrest, if_neg hnot, Option.map_map]
            exact congrArg (fun f => (t.lookup m).map f) (funext (unlink_unlink hall))

/-- The job ends, deletes what is eligible at its start, and reports how many rows that is. -/
def CleansUp (server : Server) (now : Time) (t : MessageTable) : Prop :=
  ∃ fuel₀, ∀ fuel, fuel₀ ≤ fuel → ∃ t',
    cleanupExpiredMessages server fuel now false t =
      some (⟨false, (eligibleIds (now - days messageHardDeleteDays) t).length,
        (eligibleIds (now - days messageHardDeleteDays) t).length,
        server.sample (now - days messageHardDeleteDays) t⟩, t') ∧
    Cleaned (now - days messageHardDeleteDays) t t'

theorem cleanup_of_fuel (server : Server) {fuel : Nat}
    (hfuel : (eligibleIds (now - days messageHardDeleteDays) t).length < fuel) : ∃ t',
    cleanupExpiredMessages server fuel now false t =
      some (⟨false, (eligibleIds (now - days messageHardDeleteDays) t).length,
        (eligibleIds (now - days messageHardDeleteDays) t).length,
        server.sample (now - days messageHardDeleteDays) t⟩, t') ∧
    Cleaned (now - days messageHardDeleteDays) t t' := by
  obtain ⟨t', hrun, hcleaned⟩ := deleteBatches_cleans server hfuel 0 0
  refine ⟨t', ?_, hcleaned⟩
  simp only [cleanupExpiredMessages, hrun, Nat.zero_add]
  rfl

theorem cleansUp (server : Server) (now : Time) (t : MessageTable) : CleansUp server now t :=
  ⟨(eligibleIds (now - days messageHardDeleteDays) t).length + 1, fun _ h => cleanup_of_fuel _ h⟩

/-! ## Schedules -/

/-- `expire_old_messages` on the messages: the eligible and the transitioned rows are counted. -/
def expireOldMessages (now : Time) (dryRun : Bool) (t : MessageTable) : (Nat × Nat) × MessageTable :=
  let ids := keysWhere t fun _ r => pastTtl now r
  if dryRun then ((ids.length, 0), t)
  else ((ids.length, ids.length), modifyAll t ids MsgUpdate.expire.set)

/-- The program of the job does this when it runs alone. -/
theorem expireOldMessages_alone {p : Pid} {tables : Messages.MsgTables} {w : Messages.MsgWorld}
    (hw : Messages.MsgAlone p [] tables now w) (dryRun : Bool) :
    (Messages.expireOldMessages p dryRun).Surely False (fun reply w' =>
      reply = .expiry dryRun (expireOldMessages now dryRun tables.messages).1.1
          (expireOldMessages now dryRun tables.messages).1.2 ∧
        w'.tables.messages = (expireOldMessages now dryRun tables.messages).2) w := by
  unfold Messages.expireOldMessages
  rw [Messages.surely_clock, Messages.surely_select hw, hw.clock]
  cases dryRun with
  | true => exact ⟨rfl, congrArg _ hw.tables⟩
  | false =>
    by_cases hnil : keysWhere tables.messages (fun _ r => pastTtl now r) = []
    · have hsame : modifyAll tables.messages [] MsgUpdate.expire.set = tables.messages := by
        refine AList.ext ((List.map_congr_left fun x _ => ?_).trans (List.map_id _))
        exact if_neg List.not_mem_nil
      refine Messages.surely_updateMessagesWhere_none hw hnil fun w₁ hw₁ => ?_
      refine Messages.surely_commit hw₁ fun w₂ hw₂ => ⟨?_, ?_⟩
      · simp [expireOldMessages, hnil]
      · rw [hw₂.tables]
        simp [expireOldMessages, hnil, hsame]
    · refine Messages.surely_updateMessagesWhere hw hnil fun w₁ hw₁ => ?_
      refine Messages.surely_commit hw₁ fun w₂ hw₂ => ⟨rfl, ?_⟩
      rw [hw₂.tables]
      rfl

/-- A run of one of the jobs, or an acknowledgement by the recipient. -/
inductive Job
  | expire
  | cleanup (server : Server)
  | ack (m : MsgId)

/-- A job some time after the one before it. -/
structure Action where
  wait : Nat
  job : Job

/-- The messages, and when each became `acked` or `expired`, as far as its row or the schedule tells. -/
structure State where
  clock : Time
  messages : MessageTable
  since : MsgId → Option Time

def start (now : Time) (t : MessageTable) : State where
  clock := now
  messages := t
  since m := (t.lookup m).bind fun r => if r.deliveryState = .acked then r.ackedAt else none

/-- The row can be acknowledged. -/
def ackable (t : MessageTable) (m : MsgId) : Bool :=
  (t.lookup m).any fun r => !r.deliveryState.terminal

def step (s : State) (a : Action) : Option State :=
  let now := s.clock + a.wait
  match a.job with
  | .expire => some
      { clock := now
        messages := (expireOldMessages now false s.messages).2
        since := fun m => if (s.messages.lookup m).any (pastTtl now) then some now else s.since m }
  | .cleanup server =>
      (cleanupExpiredMessages server (s.messages.keys.length + 1) now false s.messages).map fun x =>
        { clock := now, messages := x.2, since := s.since }
  | .ack m => some
      { clock := now
        messages := if ackable s.messages m then
          modify s.messages m (MsgUpdate.markAcked now).set else s.messages
        since := fun m' => if m' = m ∧ ackable s.messages m then some now else s.since m' }

/-- A message that the step deletes has been `acked` or `expired` for seven days. -/
def KeptLongEnough (s s' : State) : Prop :=
  ∀ m τ, (s.messages.lookup m).isSome → s'.messages.lookup m = none → s.since m = some τ →
    τ + days 7 ≤ s'.clock

/-- No step of the schedule deletes a message too early. -/
def Retained : State → List Action → Prop
  | _, [] => True
  | s, a :: as => ∀ s', step s a = some s' → KeptLongEnough s s' ∧ Retained s' as

def Job.isCleanup : Job → Bool
  | .cleanup _ => true
  | _ => false

/-- When the schedule cleans up. -/
def cleanups : Time → List Action → List Time
  | _, [] => []
  | clock, a :: as =>
      if a.job.isCleanup then (clock + a.wait) :: cleanups (clock + a.wait) as
      else cleanups (clock + a.wait) as

/-- What a run of the expiry job transitions is cleaned up no later than seven days after its
`expires_at` by the cleanups of the next seven days. -/
def ExpiresInTime (s : State) (a : Action) (as : List Action) : Prop :=
  match a.job with
  | .expire => ∀ m r, s.messages.lookup m = some r → pastTtl (s.clock + a.wait) r = true →
      ∀ c ∈ cleanups (s.clock + a.wait) as, c < s.clock + a.wait + days 7 → c ≤ r.expiresAt + days 7
  | _ => True

/-- Every run of the expiry job is in time. -/
def Timely : State → List Action → Prop
  | _, [] => True
  | s, a :: as => ExpiresInTime s a as ∧ ∀ s', step s a = some s' → Timely s' as

variable {s s' : State} {a : Action} {as : List Action}

theorem lookup_expire (now : Time) (t : MessageTable) (m : MsgId) :
    (expireOldMessages now false t).2.lookup m =
      (t.lookup m).map fun r => if pastTtl now r then { r with deliveryState := .expired } else r := by
  change (modifyAll t (keysWhere t fun _ r => pastTtl now r) MsgUpdate.expire.set).lookup m = _
  rw [lookup_modifyAll]
  cases hl : t.lookup m with
  | none => simp
  | some r =>
    have hmem : m ∈ keysWhere t (fun _ r => pastTtl now r) ↔ pastTtl now r = true := by
      rw [mem_keysWhere, hl]
      simp
    by_cases hp : pastTtl now r = true
    · rw [if_pos (hmem.mpr hp)]
      simp [hp, MsgUpdate.set]
    · rw [if_neg (mt hmem.mp hp)]
      simp [hp]

/-- A cleanup in a schedule. -/
theorem step_cleanup (server : Server) (wait : Nat) (s : State) : ∃ t',
    step s ⟨wait, .cleanup server⟩ = some ⟨s.clock + wait, t', s.since⟩ ∧
      Cleaned (s.clock + wait - days 7) s.messages t' := by
  have hfuel : (eligibleIds (s.clock + wait - days 7) s.messages).length < s.messages.keys.length + 1 := by
    refine Nat.lt_succ_of_le ?_
    have hsub : List.Sublist (eligibleIds (s.clock + wait - days 7) s.messages) s.messages.keys :=
      List.Sublist.map _ List.filter_sublist
    exact hsub.length_le
  obtain ⟨t', hrun, hcleaned⟩ := cleanup_of_fuel server hfuel
  refine ⟨t', ?_, hcleaned⟩
  simp only [step, hrun, Option.map_some]

/-- Every schedule can be run. -/
theorem step_total (s : State) (a : Action) : ∃ s', step s a = some s' := by
  obtain ⟨wait, job⟩ := a
  cases job with
  | expire => exact ⟨_, rfl⟩
  | cleanup server =>
    obtain ⟨t', hstep, -⟩ := step_cleanup server wait s
    exact ⟨_, hstep⟩
  | ack m => exact ⟨_, rfl⟩

/-- The record has the `acked_at` of what is acked. -/
def Recorded (s : State) : Prop :=
  ∀ m r, s.messages.lookup m = some r → r.deliveryState = .acked → s.since m = r.ackedAt

/-- What has expired is not cleaned up too early by the rest of the schedule. -/
def Settled (s : State) (as : List Action) : Prop :=
  ∀ m r τ, s.messages.lookup m = some r → r.deliveryState = .expired → s.since m = some τ →
    ∀ c ∈ cleanups s.clock as, c < τ + days 7 → c ≤ r.expiresAt + days 7

theorem recorded_start (now : Time) (t : MessageTable) : Recorded (start now t) := by
  intro m r hr hacked
  have hlookup : t.lookup m = some r := hr
  simp [start, hlookup, hacked]

theorem settled_start (now : Time) (t : MessageTable) (as : List Action) : Settled (start now t) as := by
  intro m r τ hr hexpired hsince
  have hlookup : t.lookup m = some r := hr
  simp [start, hlookup, hexpired] at hsince

theorem le_cleanups {clock c : Time} (h : c ∈ cleanups clock as) : clock ≤ c := by
  induction as generalizing clock with
  | nil => cases h
  | cons a as ih =>
    have hrest (hmem : c ∈ cleanups (clock + a.wait) as) : clock ≤ c := by
      have hle := ih hmem
      unfold Time at *
      omega
    unfold cleanups at h
    split at h
    · rcases List.mem_cons.mp h with rfl | hmem
      · unfold Time at *
        omega
      · exact hrest hmem
    · exact hrest h

theorem pastTtl_terminal (h : r.deliveryState.terminal = true) : pastTtl now r = false := by
  simp [pastTtl, h]

/-! ## The steps of a schedule -/

section Expire

variable {wait : Nat}

/-- The state that a run of the expiry job leaves. -/
def expired (s : State) (wait : Nat) : State where
  clock := s.clock + wait
  messages := (expireOldMessages (s.clock + wait) false s.messages).2
  since m := if (s.messages.lookup m).any (pastTtl (s.clock + wait)) then some (s.clock + wait)
    else s.since m

theorem lookup_expired (m : MsgId) : (expired s wait).messages.lookup m = (s.messages.lookup m).map
    fun r => if pastTtl (s.clock + wait) r then { r with deliveryState := .expired } else r :=
  lookup_expire _ _ m

theorem since_expired (hr : s.messages.lookup m = some r) : (expired s wait).since m =
    if pastTtl (s.clock + wait) r then some (s.clock + wait) else s.since m := by
  simp [expired, hr]

theorem kept_expired : KeptLongEnough s (expired s wait) := by
  intro m τ hsome hnone _
  rw [lookup_expired, Option.map_eq_none_iff] at hnone
  rw [hnone] at hsome
  cases hsome

theorem recorded_expired (h : Recorded s) : Recorded (expired s wait) := by
  intro m r' hr' hacked
  rw [lookup_expired] at hr'
  obtain ⟨r, hr, rfl⟩ := Option.map_eq_some_iff.mp hr'
  by_cases hp : pastTtl (s.clock + wait) r = true
  · rw [if_pos hp] at hacked
    cases hacked
  · rw [if_neg hp] at hacked ⊢
    rw [since_expired hr, if_neg hp]
    exact h m r hr hacked

theorem settled_expired : Settled (expired s wait) as ↔
    Settled s (⟨wait, .expire⟩ :: as) ∧ ExpiresInTime s ⟨wait, .expire⟩ as := by
  constructor
  · intro h
    constructor
    · intro m r τ hr hexpired hsince
      have hnot : pastTtl (s.clock + wait) r = false := pastTtl_terminal (by rw [hexpired]; rfl)
      refine h m r τ ?_ hexpired ?_
      · rw [lookup_expired, hr, Option.map_some, hnot]
        rfl
      · rw [since_expired hr, hnot]
        exact hsince
    · intro m r hr hp
      refine h m { r with deliveryState := .expired } (s.clock + wait) ?_ rfl ?_
      · rw [lookup_expired, hr, Option.map_some, hp]
        rfl
      · rw [since_expired hr, hp]
        rfl
  · rintro ⟨hold, hnew⟩ m r' τ hr' hexpired hsince
    rw [lookup_expired] at hr'
    obtain ⟨r, hr, rfl⟩ := Option.map_eq_some_iff.mp hr'
    rw [since_expired hr] at hsince
    by_cases hp : pastTtl (s.clock + wait) r = true
    · rw [if_pos hp] at hsince ⊢
      cases hsince
      exact hnew m r hr hp
    · rw [if_neg hp] at hsince hexpired ⊢
      exact hold m r τ hr hexpired hsince

end Expire

section Ack

variable {wait : Nat} {i : MsgId}

/-- The state that an acknowledgement leaves. -/
def acked (s : State) (wait : Nat) (i : MsgId) : State where
  clock := s.clock + wait
  messages := if ackable s.messages i then
    modify s.messages i (MsgUpdate.markAcked (s.clock + wait)).set else s.messages
  since m := if m = i ∧ ackable s.messages i then some (s.clock + wait) else s.since m

/-- Only a row that is not terminal is acknowledged. -/
theorem lookup_acked (m : MsgId) : (acked s wait i).messages.lookup m =
    if m = i ∧ ackable s.messages i then
      (s.messages.lookup m).map (MsgUpdate.markAcked (s.clock + wait)).set
    else s.messages.lookup m := by
  unfold acked
  by_cases hack : ackable s.messages i = true
  · simp only [hack, if_true, and_true]
    exact Scheduler.lookup_modify ..
  · simp [hack]

theorem kept_acked : KeptLongEnough s (acked s wait i) := by
  intro m τ hsome hnone _
  rw [lookup_acked] at hnone
  split at hnone
  · rw [Option.map_eq_none_iff.mp hnone] at hsome
    cases hsome
  · rw [hnone] at hsome
    cases hsome

theorem recorded_acked (h : Recorded s) : Recorded (acked s wait i) := by
  intro m r' hr' hacked
  rw [lookup_acked] at hr'
  simp only [acked]
  by_cases hm : m = i ∧ ackable s.messages i = true
  · rw [if_pos hm] at hr' ⊢
    obtain ⟨r, hr, rfl⟩ := Option.map_eq_some_iff.mp hr'
    rfl
  · rw [if_neg hm] at hr' ⊢
    exact h m r' hr' hacked

theorem settled_acked : Settled (acked s wait i) as ↔ Settled s (⟨wait, .ack i⟩ :: as) := by
  constructor
  · intro h m r τ hr hexpired hsince
    have hm : ¬ (m = i ∧ ackable s.messages i = true) := by
      rintro ⟨rfl, hack⟩
      simp [ackable, hr, hexpired, Messages.DeliveryState.terminal] at hack
    refine h m r τ ?_ hexpired ?_
    · rw [lookup_acked, if_neg hm, hr]
    · simp only [acked]
      rw [if_neg hm, hsince]
  · intro h m r τ hr hexpired hsince
    rw [lookup_acked] at hr
    simp only [acked] at hsince
    by_cases hm : m = i ∧ ackable s.messages i = true
    · rw [if_pos hm] at hr
      obtain ⟨r₀, -, rfl⟩ := Option.map_eq_some_iff.mp hr
      cases hexpired
    · rw [if_neg hm] at hr hsince
      exact h m r τ hr hexpired hsince

end Ack

section Cleanup

variable {wait : Nat}

theorem unlink_columns (ids : List MsgId) (r : Message) :
    (unlink ids r).deliveryState = r.deliveryState ∧ (unlink ids r).ackedAt = r.ackedAt ∧
      (unlink ids r).expiresAt = r.expiresAt := by
  unfold unlink
  split <;> exact ⟨rfl, rfl, rfl⟩

theorem recorded_cleaned (h : Recorded s) (hc : Cleaned cutoff s.messages t') :
    Recorded ⟨s.clock + wait, t', s.since⟩ := by
  intro m r' hr' hacked
  have hlookup : t'.lookup m = some r' := hr'
  rw [hc m] at hlookup
  split at hlookup
  · cases hlookup
  · obtain ⟨r, hr, rfl⟩ := Option.map_eq_some_iff.mp hlookup
    obtain ⟨hstate, hackedAt, -⟩ := unlink_columns (eligibleIds cutoff s.messages) r
    rw [hackedAt]
    exact h m r hr (hstate.symm.trans hacked)

theorem settled_cleaned (server : Server) (hrec : Recorded s)
    (hc : Cleaned (s.clock + wait - days 7) s.messages t') :
    KeptLongEnough s ⟨s.clock + wait, t', s.since⟩ ∧ Settled ⟨s.clock + wait, t', s.since⟩ as ↔
      Settled s (⟨wait, .cleanup server⟩ :: as) := by
  have htimes : cleanups s.clock (⟨wait, .cleanup server⟩ :: as) =
      (s.clock + wait) :: cleanups (s.clock + wait) as := rfl
  constructor
  · rintro ⟨hkept, hsettled⟩ m r τ hr hexpired hsince c hmem hlt
    rw [htimes] at hmem
    by_cases hdue : r.expiresAt < s.clock + wait - days 7
    · have hgone : t'.lookup m = none := by
        rw [hc m, if_pos (mem_eligibleIds.mpr ⟨r, hr, by simp [eligible, hexpired, hdue]⟩)]
      have hlong := hkept m τ (by rw [hr]; rfl) hgone hsince
      have hafter : s.clock + wait ≤ c :=
        (List.mem_cons.mp hmem).elim (fun heq => heq ▸ Int.le_refl _) le_cleanups
      simp only at hlong
      unfold Time at *
      omega
    · have hstays : t'.lookup m = some (unlink (eligibleIds (s.clock + wait - days 7) s.messages) r) := by
        rw [hc m, if_neg, hr]
        · rfl
        · intro hmem'
          obtain ⟨r', hr', he⟩ := mem_eligibleIds.mp hmem'
          rw [hr] at hr'
          cases hr'
          simp [eligible, hexpired, hdue] at he
      obtain ⟨hstate, -, hexpires⟩ := unlink_columns
        (eligibleIds (s.clock + wait - days 7) s.messages) r
      rcases List.mem_cons.mp hmem with rfl | hlater
      · unfold Time at *
        omega
      · rw [← hexpires]
        exact hsettled m _ τ hstays (hstate.trans hexpired) hsince c hlater hlt
  · intro h
    constructor
    · intro m τ hsome hgone hsince
      have hnone : t'.lookup m = none := hgone
      obtain ⟨r, hr⟩ := Option.isSome_iff_exists.mp hsome
      have hdue : m ∈ eligibleIds (s.clock + wait - days 7) s.messages := by
        by_contra hnot
        rw [hc m, if_neg hnot, hr] at hnone
        cases hnone
      obtain ⟨r', hr', he⟩ := mem_eligibleIds.mp hdue
      rw [hr] at hr'
      cases hr'
      simp only [eligible, Bool.or_eq_true, Bool.and_eq_true, decide_eq_true_eq] at he
      rcases he with ⟨hacked, hat⟩ | ⟨hexpired, hat⟩
      · rw [← hrec m r hr hacked, hsince] at hat
        simp only [Option.any_some, decide_eq_true_eq] at hat
        simp only
        unfold Time at *
        omega
      · by_contra hearly
        have hlt : s.clock + wait < τ + days 7 := Int.not_le.mp hearly
        have hin := h m r τ hr hexpired hsince (s.clock + wait) (htimes ▸ List.mem_cons_self) hlt
        unfold Time at *
        omega
    · intro m r' τ hr' hexpired hsince c hmem hlt
      have hlookup : t'.lookup m = some r' := hr'
      rw [hc m] at hlookup
      split at hlookup
      · cases hlookup
      · obtain ⟨r, hr, rfl⟩ := Option.map_eq_some_iff.mp hlookup
        obtain ⟨hstate, -, hexpires⟩ := unlink_columns
          (eligibleIds (s.clock + wait - days 7) s.messages) r
        rw [hexpires]
        exact h m r τ hr (hstate.symm.trans hexpired) hsince c
          (htimes ▸ List.mem_cons_of_mem _ hmem) hlt

end Cleanup

/-- One step: what is deleted and what is left to settle. -/
theorem settled_step (hrec : Recorded s) (hs : step s a = some s') (as : List Action) :
    Recorded s' ∧ (KeptLongEnough s s' ∧ Settled s' as ↔
      Settled s (a :: as) ∧ ExpiresInTime s a as) := by
  obtain ⟨wait, job⟩ := a
  cases job with
  | expire =>
    obtain rfl : expired s wait = s' := Option.some.inj hs
    exact ⟨recorded_expired hrec, (and_iff_right kept_expired).trans settled_expired⟩
  | cleanup server =>
    obtain ⟨t', hstep, hc⟩ := step_cleanup server wait s
    obtain rfl : ⟨s.clock + wait, t', s.since⟩ = s' := Option.some.inj (hstep.symm.trans hs)
    exact ⟨recorded_cleaned hrec hc, (settled_cleaned server hrec hc).trans (and_iff_left trivial).symm⟩
  | ack m =>
    obtain rfl : acked s wait m = s' := Option.some.inj hs
    exact ⟨recorded_acked hrec, (and_iff_right kept_acked).trans
      (settled_acked.trans (and_iff_left trivial).symm)⟩

theorem retained_iff (hrec : Recorded s) (as : List Action) :
    Retained s as ↔ Settled s as ∧ Timely s as := by
  induction as generalizing s with
  | nil =>
    refine iff_of_true trivial ⟨fun _ _ _ _ _ _ _ hmem => ?_, trivial⟩
    cases hmem
  | cons a as ih =>
    obtain ⟨s', hs⟩ := step_total s a
    obtain ⟨hrec', hiff⟩ := settled_step hrec hs as
    have hone {P : State → Prop} : (∀ s₁, step s a = some s₁ → P s₁) ↔ P s' :=
      ⟨fun h => h s' hs, fun h s₁ hs₁ => Option.some.inj (hs.symm.trans hs₁) ▸ h⟩
    simp only [Retained, Timely, hone]
    rw [ih hrec', ← and_assoc, hiff, and_assoc]

/-- A cleanup that runs alone ends and deletes exactly what is eligible; and in a schedule no message
goes early exactly when every run of the expiry job is in time. -/
theorem retention_iff (now : Time) (t : MessageTable) :
    (∀ server, CleansUp server now t) ∧
      ∀ as, Retained (start now t) as ↔ Timely (start now t) as := by
  constructor
  · exact fun server => cleansUp server now t
  · intro as
    rw [retained_iff (recorded_start now t)]
    exact and_iff_right (settled_start now t as)

/-! ## A late expiry -/

theorem picks_take (limit : Nat) {all : List Nat} (hn : all.Nodup) :
    Picks limit (fun _ => 0) all (all.take limit) :=
  ⟨hn.sublist (List.take_sublist _ _), fun _ => List.mem_of_mem_take, List.length_take,
    List.pairwise_of_forall fun _ _ => Int.le_refl _, fun _ _ _ _ _ => Int.le_refl _⟩

theorem batch_firstRows (_k : Nat) (cutoff : Time) (t : MessageTable) :
    Picks batchSize (fun _ => 0) (eligibleIds cutoff t) ((eligibleIds cutoff t).take batchSize) :=
  picks_take batchSize (keysWhere_nodup t _)

theorem sample_firstRows (cutoff : Time) (t : MessageTable) :
    Picks 5 (fun _ => 0) (eligibleIds cutoff t) ((eligibleIds cutoff t).take 5) :=
  picks_take 5 (keysWhere_nodup t _)

/-- A server that returns the first rows of the table. -/
def firstRows : Server where
  batch _ cutoff t := (eligibleIds cutoff t).take batchSize
  sample cutoff t := (eligibleIds cutoff t).take 5
  batch_picks := batch_firstRows
  sample_picks := sample_firstRows

/-- A delivered message whose time is up at 0. -/
def overdue : MessageTable :=
  Scheduler.insertNew ∅ 3
    { userId := 1, fromAgentId := 1, toAgentId := 2, threadId := 3, body := "hello", createdAt := -1,
      deliveryState := .delivered, expiresAt := 0 }

/-- The expiry job next runs eight days later, and the cleanup a minute after it. -/
def lateExpiry : List Action :=
  [⟨8 * 86400 * 1000000, .expire⟩, ⟨60 * 1000000, .cleanup firstRows⟩]

theorem not_retained_late : ¬ ((∀ server now t, CleansUp server now t) ∧
    ∀ now t as, Retained (start now t) as) := by
  rintro ⟨-, h⟩
  have hexpire := (h 0 overdue lateExpiry _ rfl).2
  obtain ⟨t', hstep, hc⟩ := step_cleanup firstRows (60 * 1000000)
    (expired (start 0 overdue) (8 * 86400 * 1000000))
  have hkept := (hexpire _ hstep).1
  have hgone : t'.lookup 3 = none := by
    rw [hc 3, if_pos]
    decide
  have hlong : 8 * 86400 * 1000000 + days 7 ≤ (8 * 86400 * 1000000 + 60 * 1000000 : Time) :=
    hkept 3 _ (by decide) hgone (by decide)
  exact absurd hlong (by decide)

end CueApi.Retention
