import CueApi.Messages.Effects
import CueApi.Scheduler.Statements

/-! The rule of each statement of messaging, as instances of the rules of recorded worlds. -/

namespace CueApi.Messages

open Scheduler (Pid Time UserId OutboxId keysWhere mem_keysWhere keysWhere_nodup rowsAt mem_rowsAt
  rowsAt_fst Picks)
open ReadCommitted Interleaving Trace Recorded

/-- The tables are the replay of a legal history. -/
abbrev MsgInv (env : MsgEnv) (t₀ : MsgTables) (w : MsgWorld) : Prop :=
  Recorded.Inv t₀ (MsgAllowed env t₀) w

abbrev MsgRuns {α : Type} (env : MsgEnv) (t₀ : MsgTables) (p : Pid) (Q : α → MsgWorld → Prop)
    (prog : MsgProgram α) (w : MsgWorld) : Prop := Runs t₀ (MsgAllowed env t₀) p Q prog w

theorem mem_eventsWhere {t : MsgTables} {wh : EventId → EventRow → Bool}
    {y : EventId × EventRow} :
    y ∈ eventsWhere t wh ↔ t.event y.1 = some y.2 ∧ wh y.1 y.2 = true := by
  unfold eventsWhere
  rw [List.mem_mergeSort]
  constructor
  · intro h
    obtain ⟨hmem, hl⟩ := mem_rowsAt h
    obtain ⟨r, hr, hw⟩ := (mem_keysWhere _ _ _).mp hmem
    rw [hl] at hr
    cases hr
    exact ⟨hl, hw⟩
  · rintro ⟨hl, hw⟩
    refine List.mem_filterMap.mpr ⟨y.1, (mem_keysWhere _ _ _).mpr ⟨y.2, hl, hw⟩, ?_⟩
    unfold MsgTables.event at hl
    rw [hl]
    rfl

theorem eq_singleton_of_nodup {α : Type} {xs : List α} {x : α} (hne : xs ≠ []) (hn : xs.Nodup)
    (h : ∀ y ∈ xs, y = x) : xs = [x] := by
  cases xs with
  | nil => exact absurd rfl hne
  | cons a xs =>
    obtain rfl := h a (by simp)
    cases xs with
    | nil => rfl
    | cons b xs =>
      obtain rfl := h b (by simp)
      simp at hn

section Rules

variable {env : MsgEnv} {t₀ : MsgTables} {p : Pid} {B : List MsgWrite} {E : MsgHistory}
variable {w w' : MsgWorld} {α : Type} {Q : α → MsgWorld → Prop}

theorem grows_of_later (hl : Later p w w') :
    (replayed t₀ w.history).Grows (replayed t₀ w'.history) := .replayed_suffix hl.history

/-- What `p` sees: the replay, and its open writes. -/
abbrev seen (t₀ : MsgTables) (B : List MsgWrite) (w : MsgWorld) : MsgTables :=
  msgSchema.applyAll B (replayed t₀ w.history)

/-! ### Reads -/

/-- A statement that asks the outside only. -/
theorem runs_ask {β : Type} {act : MsgWorld → MsgAnswer → Option (β × MsgWorld)}
    {k : β → MsgProgram α} (hw : At p B E w)
    (hact : ∀ w' a r w'', act w' a = some (r, w'') →
      w''.store = w'.store ∧ w''.history = w'.history ∧ w''.clock = w'.clock)
    (h : ∀ w' r, Later p w w' → At p B E w' → MsgInv env t₀ w' → MsgRuns env t₀ p Q (k r) w') :
    MsgRuns env t₀ p Q (Prog.step act >>= k) w :=
  runs_quiet hw hact fun _ w'' _ r hl hw'' hi _ _ _ => h w'' r hl hw'' hi

theorem runs_clock {k : Time → MsgProgram α} (hw : At p B E w)
    (h : ∀ w', Later p w w' → At p B E w' → MsgInv env t₀ w' →
      MsgRuns env t₀ p Q (k w'.clock) w') :
    MsgRuns env t₀ p Q (clock >>= k) w := by
  refine runs_quiet hw (fun w' a r w'' hs => by cases hs; exact ⟨rfl, rfl, rfl⟩) ?_
  intro w' w'' a r hl hw'' hi hs _ _
  cases hs
  exact h w' hl hw'' hi

theorem runs_select {β : Type} {q : MsgTables → β} {k : β → MsgProgram α} (hw : At p B E w)
    (h : ∀ w', Later p w w' → At p B E w' → MsgInv env t₀ w' →
      MsgRuns env t₀ p Q (k (q (seen t₀ B w'))) w') :
    MsgRuns env t₀ p Q (select p q >>= k) w := by
  refine runs_quiet hw (fun w' a r w'' hs => by cases hs; exact ⟨rfl, rfl, rfl⟩) ?_
  intro w' w'' a r hl hw'' hi hs _ _
  cases hs
  rw [hw''.view hi]
  exact h w' hl hw'' hi

/-- A statement that leaves the store and notes `mark`. -/
theorem runs_marked {β : Type} {act : MsgWorld → MsgAnswer → Option (β × MsgWorld)}
    {k : β → MsgProgram α} (hw : At p B E w)
    (h : ∀ w', Later p w w' → At p B E w' → MsgInv env t₀ w' → ∀ a r w'',
      act w' a = some (r, w'') →
      (w''.store = w'.store ∧ w''.history = w'.history ∧ w''.clock = w'.clock ∧
        (MsgInv env t₀ w'' → Later p w w'' → At p B E w'' → MsgRuns env t₀ p Q (k r) w'')) ∨
      ∃ mark, w'' = note w' p mark ∧ MsgAllowed env t₀ w'.history (.marked p mark) ∧
        (MsgInv env t₀ w'' → Later p w w'' → At p B (.marked p mark :: E) w'' →
          MsgRuns env t₀ p Q (k r) w'')) :
    MsgRuns env t₀ p Q (Prog.step act >>= k) w := by
  refine runs_step hw fun w' hl hw' hi a r w'' hs => ?_
  rcases h w' hl hw' hi a r w'' hs with ⟨hst, hh, hc, hk⟩ | ⟨mark, rfl, ha, hk⟩
  · have hstep := Stepped.quiet hw' hi hst hh hc
    exact ⟨B, E, hstep, hk hstep.inv (hl.trans (Rely.quiet p hst hh hc).later) hstep.at_⟩
  · have hstep := Stepped.mark hw' hi ha
    exact ⟨B, _, hstep, hk hstep.inv (hl.trans (Later.log p w' _)) hstep.at_⟩

theorem runs_lookup {β : Type} {q : MsgTables → Option β} {k : Option β → MsgProgram α}
    (hw : At p B E w)
    (hsome : ∀ w' x, Later p w w' → At p B E w' → MsgInv env t₀ w' →
      q (seen t₀ B w') = some x → MsgRuns env t₀ p Q (k (some x)) w')
    (hnone : ∀ w', Later p w w' → At p B E w' → MsgInv env t₀ w' →
      MsgAllowed env t₀ w'.history (.marked p .missing) ∧
      ∀ w'', At p B (.marked p .missing :: E) w'' → MsgInv env t₀ w'' →
        MsgRuns env t₀ p Q (k none) w'') :
    MsgRuns env t₀ p Q (lookup p q >>= k) w := by
  refine runs_marked hw fun w' hl hw' hi a r w'' hs => ?_
  simp only [hw'.view hi] at hs
  split at hs
  · rename_i x hx
    cases hs
    exact .inl ⟨rfl, rfl, rfl, fun hi hl hw => hsome _ x hl hw hi hx⟩
  · cases hs
    obtain ⟨ha, hk⟩ := hnone w' hl hw' hi
    exact .inr ⟨.missing, rfl, ha, fun hi _ hw => hk _ hw hi⟩

theorem runs_selectMessageForUser {user : UserId} {m : MsgId} {k : Option Message → MsgProgram α}
    (hw : At p B E w)
    (hsome : ∀ w' msg, At p B E w' → MsgInv env t₀ w' →
      messageForUser (seen t₀ B w') user m = some msg →
      MsgAllowed env t₀ w'.history (.marked p (.admitted m)) ∧
      ∀ w'', w''.history = .marked p (.admitted m) :: w'.history →
        At p B (.marked p (.admitted m) :: E) w'' → MsgInv env t₀ w'' →
        MsgRuns env t₀ p Q (k (some msg)) w'')
    (hnone : ∀ w', At p B E w' → MsgInv env t₀ w' → MsgRuns env t₀ p Q (k none) w') :
    MsgRuns env t₀ p Q (selectMessageForUser p user m >>= k) w := by
  refine runs_marked hw fun w' hl hw' hi a r w'' hs => ?_
  simp only [hw'.view hi] at hs
  split at hs
  · rename_i msg hmsg
    cases hs
    obtain ⟨ha, hk⟩ := hsome w' msg hw' hi hmsg
    exact .inr ⟨_, rfl, ha, fun hi _ hw => hk _ rfl hw hi⟩
  · cases hs
    exact .inl ⟨rfl, rfl, rfl, fun hi _ hw => hnone _ hw hi⟩

/-- A query that notes what it finds, and when. -/
theorem runs_noted {β : Type} (f : MsgTables → β) (mark : MsgTables → Time → MsgMark)
    {k : β → MsgProgram α} (hw : At p B E w)
    (h : ∀ w', Later p w w' → At p B E w' → MsgInv env t₀ w' →
      MsgAllowed env t₀ w'.history (.marked p (mark (seen t₀ B w') w'.clock)) ∧
      ∀ w'', w''.history = .marked p (mark (seen t₀ B w') w'.clock) :: w'.history →
        Later p w w'' → At p B (.marked p (mark (seen t₀ B w') w'.clock) :: E) w'' →
        MsgInv env t₀ w'' → MsgRuns env t₀ p Q (k (f (seen t₀ B w'))) w'') :
    MsgRuns env t₀ p Q
      (Prog.step (fun w _ => some (f (w.view p), note w p (mark (w.view p) w.clock))) >>= k) w := by
  refine runs_marked hw fun w' hl hw' hi a r w'' hs => ?_
  simp only [hw'.view hi] at hs
  cases hs
  obtain ⟨ha, hk⟩ := h w' hl hw' hi
  exact .inr ⟨_, rfl, ha, fun hi hl hw => hk _ rfl hl hw hi⟩

theorem runs_countAttempts {m : MsgId} {k : Nat → MsgProgram α} (hw : At p B E w)
    (h : ∀ w', Later p w w' → At p B E w' → MsgInv env t₀ w' →
      MsgAllowed env t₀ w'.history (.marked p (.counted m (priorAttempts (seen t₀ B w') m))) ∧
      ∀ w'', Later p w w'' →
        At p B (.marked p (.counted m (priorAttempts (seen t₀ B w') m)) :: E) w'' →
        MsgInv env t₀ w'' → MsgRuns env t₀ p Q (k (priorAttempts (seen t₀ B w') m)) w'') :
    MsgRuns env t₀ p Q (countAttempts p m >>= k) w :=
  runs_noted (fun t => priorAttempts t m) (fun t _ => .counted m (priorAttempts t m)) hw fun w' hl hw' hi =>
    ⟨(h w' hl hw' hi).1, fun w'' _ hl'' hw'' hi'' => (h w' hl hw' hi).2 w'' hl'' hw'' hi''⟩

theorem runs_lookupKey {user : UserId} {key : String} {cutoff : Time} {fields : Fingerprinted}
    {k : Option (MsgId × Message) → MsgProgram α} (hw : At p B E w)
    (h : ∀ w' found, Later p w w' → At p B E w' → MsgInv env t₀ w' →
      keyedSince (seen t₀ B w') user key cutoff = found →
      MsgAllowed env t₀ w'.history
        (.marked p (.looked cutoff w'.clock fields (found.map Prod.fst))) ∧
      ∀ w'', w''.history =
          .marked p (.looked cutoff w'.clock fields (found.map Prod.fst)) :: w'.history →
        Later p w w'' →
        At p B (.marked p (.looked cutoff w'.clock fields (found.map Prod.fst)) :: E) w'' →
        MsgInv env t₀ w'' → MsgRuns env t₀ p Q (k found) w'') :
    MsgRuns env t₀ p Q (lookupKey p user key cutoff fields >>= k) w :=
  runs_noted (fun t => keyedSince t user key cutoff) (fun t time =>
    .looked cutoff time fields ((keyedSince t user key cutoff).map Prod.fst)) hw fun w' hl hw' hi =>
    h w' _ hl hw' hi rfl

theorem runs_selectParent {m : MsgId} {k : Option Message → MsgProgram α} (hw : At p B E w)
    (h : ∀ w' parent, Later p w w' → At p B E w' → MsgInv env t₀ w' →
      (seen t₀ B w').message m = parent →
      MsgAllowed env t₀ w'.history (.marked p (.resolved m parent.isSome)) ∧
      ∀ w'', w''.history = .marked p (.resolved m parent.isSome) :: w'.history →
        Later p w w'' → At p B (.marked p (.resolved m parent.isSome) :: E) w'' →
        MsgInv env t₀ w'' → MsgRuns env t₀ p Q (k parent) w'') :
    MsgRuns env t₀ p Q (selectParent p m >>= k) w :=
  runs_noted (fun t => t.message m) (fun t _ => .resolved m (t.message m).isSome) hw fun w' hl hw' hi =>
    h w' _ hl hw' hi rfl

theorem runs_readEvents {q : MsgTables → List (EventId × EventRow)}
    {k : List (EventId × EventRow) → MsgProgram α} (hw : At p B E w)
    (h : ∀ w' events, Later p w w' → At p B E w' → MsgInv env t₀ w' → q (seen t₀ B w') = events →
      MsgAllowed env t₀ w'.history (.marked p (.read events)) ∧
      ∀ w'', Later p w w'' → At p B (.marked p (.read events) :: E) w'' → MsgInv env t₀ w'' →
        MsgRuns env t₀ p Q (k events) w'') :
    MsgRuns env t₀ p Q (readEvents p q >>= k) w :=
  runs_noted q (fun t _ => .read (q t)) hw fun w' hl hw' hi =>
    ⟨(h w' _ hl hw' hi rfl).1, fun w'' _ hl'' hw'' hi'' => (h w' _ hl hw' hi rfl).2 w'' hl'' hw'' hi''⟩

theorem runs_enqueueJob {n : OutboxId} {job : MsgJob} {k : Bool → MsgProgram α} (hw : At p B E w)
    (hsent : ∀ w', Later p w w' → At p B E w' → MsgInv env t₀ w' →
      MsgAllowed env t₀ w'.history (.marked p (.enqueued n job)) ∧
      ∀ w'', Later p w w'' → At p B (.marked p (.enqueued n job) :: E) w'' → MsgInv env t₀ w'' →
        MsgRuns env t₀ p Q (k true) w'')
    (hfail : ∀ w', Later p w w' → At p B E w' → MsgInv env t₀ w' →
      MsgRuns env t₀ p Q (k false) w') :
    MsgRuns env t₀ p Q (enqueueJob p n job >>= k) w := by
  refine runs_marked hw fun w' hl hw' hi a r w'' hs => ?_
  split at hs
  · cases hs
    obtain ⟨ha, hk⟩ := hsent w' hl hw' hi
    exact .inr ⟨_, rfl, ha, fun hi hl hw => hk _ hl hw hi⟩
  · cases hs
    exact .inl ⟨rfl, rfl, rfl, fun hi hl hw => hfail _ hl hw hi⟩
  · cases hs

/-! ### Locks and writes -/

theorem runs_selectMessagesForUpdate {wh : Message → Bool} {limit : Nat}
    {k : List (MsgId × Message) → MsgProgram α} (hw : At p B E w)
    (h : ∀ w' xs, Later p w w' → At p B E w' → MsgInv env t₀ w' → (xs.map Prod.fst).Nodup →
      (∀ x ∈ xs, (seen t₀ B w').message x.1 = some x.2 ∧ wh x.2 = true ∧
        w'.store.locks (.message x.1) = some p) →
      MsgAllowed env t₀ w'.history (.marked p (.selected (xs.map Prod.fst))) ∧
      ∀ w'', Later p w' w'' → At p B (.marked p (.selected (xs.map Prod.fst)) :: E) w'' →
        MsgInv env t₀ w'' → MsgRuns env t₀ p Q (k xs) w'') :
    MsgRuns env t₀ p Q (selectMessagesForUpdate p wh limit >>= k) w := by
  refine runs_step hw fun w' hl hw' hi a r w'' hs => ?_
  dsimp only at hs
  split at hs
  · rename_i ids
    split at hs
    · rename_i hpick
      obtain ⟨s, hlock, heq⟩ := Option.map_eq_some_iff.mp hs
      cases heq
      have hlocked := Stepped.lock hw' hi hlock
      have hl' := hl.trans (Later.lock hlock)
      have hrows : ∀ m ∈ ids, ∃ r, (w'.view p).messages.lookup m = some r ∧ wh r = true := by
        intro m hm
        obtain ⟨r, hr, hp⟩ := (mem_keysWhere _ _ _).mp (hpick.2.1 m hm)
        exact ⟨r, hr, (Bool.and_eq_true _ _ ▸ hp).1⟩
      have hfst : (rowsAt (w'.view p).messages ids).map Prod.fst = ids :=
        rowsAt_fst fun m hm => by
          obtain ⟨r, hr, -⟩ := hrows m hm
          exact ⟨r, hr⟩
      obtain ⟨ha, hk⟩ := h _ (rowsAt (w'.view p).messages ids) hl' hlocked.at_ hlocked.inv
        (by rw [hfst]; exact hpick.1) fun x hx => by
          obtain ⟨hid, hx⟩ := mem_rowsAt hx
          obtain ⟨r, hr, hp⟩ := hrows x.1 hid
          rw [hx] at hr
          cases hr
          rw [hw'.view hi] at hx
          refine ⟨hx, hp, ?_⟩
          rw [show _ = _ from (Store.lock_eq hlock).2.2.1 (.message x.1),
            if_pos (List.mem_map.mpr ⟨x.1, hid, rfl⟩)]
      rw [hfst] at ha hk
      have hmark := Stepped.mark hlocked.at_ hlocked.inv ha
      exact ⟨B, _, hlocked.trans hmark, hk _ (Later.log p _ _) hmark.at_ hmark.inv⟩
    · cases hs
  · cases hs

theorem runs_write {wr : MsgWrite} {k : Unit → MsgProgram α} (hw : At p B E w)
    (h : ∀ w', Later p w w' → At p (wr :: B) E w' → MsgInv env t₀ w' →
      MsgRuns env t₀ p Q (k ()) w') :
    MsgRuns env t₀ p Q (write p wr >>= k) w := by
  refine runs_step hw fun w' hl hw' hi a r w'' hs => ?_
  obtain ⟨s, hwr, heq⟩ := Option.map_eq_some_iff.mp hs
  cases heq
  have hstep := Stepped.write hw' hi hwr
  exact ⟨_, E, hstep, h _ (hl.trans (Later.write hwr)) hstep.at_ hstep.inv⟩

theorem runs_updateMessagesWhere {wh : MsgId → Message → Bool} {u : MsgUpdate}
    {k : List MsgId → MsgProgram α} (hw : At p B E w)
    (hhit : ∀ w' ms, Later p w w' → At p (.updateMessages ms u :: B) E w' → MsgInv env t₀ w' →
      ms ≠ [] → ms.Nodup → (∀ m, m ∈ ms ↔ ∃ r, (seen t₀ B w').message m = some r ∧ wh m r = true) →
      MsgRuns env t₀ p Q (k ms) w')
    (hmiss : ∀ w', Later p w w' → At p B E w' → MsgInv env t₀ w' →
      (∀ m r, (seen t₀ B w').message m = some r → wh m r = false) →
      MsgAllowed env t₀ w'.history (.marked p (.unmatched u)) ∧
      ∀ w'', Later p w w'' → At p B (.marked p (.unmatched u) :: E) w'' → MsgInv env t₀ w'' →
        MsgRuns env t₀ p Q (k []) w'') :
    MsgRuns env t₀ p Q (updateMessagesWhere p wh u >>= k) w := by
  refine runs_step hw fun w' hl hw' hi a r w'' hs => ?_
  simp only [hw'.view hi] at hs
  have hmem : ∀ m, m ∈ keysWhere (seen t₀ B w').messages wh ↔
      ∃ r, (seen t₀ B w').message m = some r ∧ wh m r = true := fun m => mem_keysWhere _ _ _
  split at hs
  · rename_i hempty
    cases hs
    obtain ⟨ha, hk⟩ := hmiss w' hl hw' hi fun m r hr => by
      by_contra hwh
      have hin := (hmem m).mpr ⟨r, hr, by simpa using hwh⟩
      rw [List.isEmpty_iff.mp hempty] at hin
      cases hin
    have hmark := Stepped.mark hw' hi ha
    exact ⟨B, _, hmark, hk _ (hl.trans (Later.log p _ _)) hmark.at_ hmark.inv⟩
  · rename_i hne
    obtain ⟨s, hwr, heq⟩ := Option.map_eq_some_iff.mp hs
    cases heq
    have hstep := Stepped.write hw' hi hwr
    refine ⟨_, E, hstep, hhit _ _ (hl.trans (Later.write hwr)) hstep.at_ hstep.inv ?_
      (keysWhere_nodup _ _) hmem⟩
    exact fun h => hne (List.isEmpty_iff.mpr h)

/-- An UPDATE by id of a row that exists. -/
theorem runs_updateMessageById {m : MsgId} {u : MsgUpdate} {k : List MsgId → MsgProgram α}
    (hw : At p B E w) (hm : ∃ r, (replayed t₀ w.history).message m = some r)
    (h : ∀ w' r, Later p w w' → At p (.updateMessages [m] u :: B) E w' → MsgInv env t₀ w' →
      (replayed t₀ w'.history).message m = some r → MsgRuns env t₀ p Q (k [m]) w') :
    MsgRuns env t₀ p Q (updateMessageById p m u >>= k) w := by
  refine runs_updateMessagesWhere hw ?_ ?_
  · intro w' ms hl hw' hi hne hnd hms
    obtain ⟨r, hr⟩ := hm
    obtain ⟨r', hr', -⟩ := (grows_of_later hl).message hr
    have hall : ∀ m' ∈ ms, m' = m := by
      intro m' hm'
      obtain ⟨r, -, heq⟩ := (hms m').mp hm'
      simpa using heq
    obtain rfl := eq_singleton_of_nodup hne hnd hall
    exact h w' r' hl hw' hi hr'
  · intro w' hl hw' hi hno
    obtain ⟨r, hr⟩ := hm
    obtain ⟨r', hr', -⟩ := ((grows_of_later hl).trans (.applyAll B _)).message hr
    exact absurd (hno m r' hr') (by simp)

theorem runs_insertMessage {row : MsgId → Message} {k : Option MsgId → MsgProgram α}
    (hw : At p B E w)
    (hnew : ∀ w' m, Later p w w' → At p (.insertMessage m (row m) :: B) E w' → MsgInv env t₀ w' →
      (seen t₀ B w').message m = none →
      (∀ user key, (row m).keyed = some (user, key) → ¬ (seen t₀ B w').KeyTaken user key) →
      MsgRuns env t₀ p Q (k (some m)) w')
    (hconflict : ∀ w' m user key, Later p w w' → At p B E w' → MsgInv env t₀ w' →
      (row m).keyed = some (user, key) → (seen t₀ B w').KeyTaken user key →
      MsgAllowed env t₀ w'.history (.marked p .conflict) ∧
      ∀ w'', At p B (.marked p .conflict :: E) w'' → MsgInv env t₀ w'' →
        MsgRuns env t₀ p Q (k none) w'') :
    MsgRuns env t₀ p Q (insertMessage p row >>= k) w := by
  refine runs_step hw fun w' hl hw' hi a r w'' hs => ?_
  split at hs
  · rename_i m
    simp only [hw'.view hi] at hs
    split at hs
    · rename_i hfree
      split at hs
      · rename_i htaken
        cases hs
        obtain ⟨⟨user, key⟩, hentry⟩ := Option.isSome_iff_exists.mp htaken.1
        obtain ⟨m', hm'⟩ := List.exists_mem_of_ne_nil _ htaken.2
        obtain ⟨r', hr', hkey⟩ := (mem_keysWhere _ _ _).mp hm'
        have hkeyed : r'.keyed = some (user, key) := by
          simpa [hentry] using hkey
        obtain ⟨ha, hk⟩ := hconflict w' m user key hl hw' hi hentry ⟨m', r', hr', hkeyed⟩
        have hmark := Stepped.mark hw' hi ha
        exact ⟨B, _, hmark, hk _ hmark.at_ hmark.inv⟩
      · rename_i htaken
        obtain ⟨s, hwr, heq⟩ := Option.map_eq_some_iff.mp hs
        cases heq
        have hstep := Stepped.write hw' hi hwr
        refine ⟨_, E, hstep, hnew _ m (hl.trans (Later.write hwr)) hstep.at_ hstep.inv hfree.1 ?_⟩
        rintro user key hkeyed ⟨m', r', hr', hk'⟩
        refine htaken ⟨by simp [hkeyed], List.ne_nil_of_mem (a := m') ?_⟩
        exact (mem_keysWhere _ _ _).mpr ⟨r', hr', by simp [hkeyed, hk']⟩
    · cases hs
  · cases hs

theorem runs_insertOutbox {row : MsgOutboxRow} {k : Unit → MsgProgram α} (hw : At p B E w)
    (h : ∀ w' n, Later p w w' → At p (.insertOutbox n row :: B) E w' → MsgInv env t₀ w' →
      (seen t₀ B w').outboxRow n = none → MsgRuns env t₀ p Q (k ()) w') :
    MsgRuns env t₀ p Q (insertOutbox p row >>= k) w := by
  refine runs_step hw fun w' hl hw' hi a r w'' hs => ?_
  split at hs
  · rename_i n
    simp only [hw'.view hi] at hs
    split at hs
    · rename_i hn
      obtain ⟨s, hwr, heq⟩ := Option.map_eq_some_iff.mp hs
      cases heq
      have hstep := Stepped.write hw' hi hwr
      exact ⟨_, E, hstep, h _ n (hl.trans (Later.write hwr)) hstep.at_ hstep.inv hn⟩
    · cases hs
  · cases hs

theorem runs_insertEvent {row : EventRow} {k : Unit → MsgProgram α} (hw : At p B E w)
    (hnew : ∀ w' x, Later p w w' → At p (.insertEvent x row :: B) E w' → MsgInv env t₀ w' →
      (seen t₀ B w').event x = none → MsgRuns env t₀ p Q (k ()) w')
    (htaken : ∀ w', Later p w w' → At p B E w' → MsgInv env t₀ w' →
      (seen t₀ B w').EventKeyTaken row.idempotencyKey → MsgRuns env t₀ p Q (k ()) w') :
    MsgRuns env t₀ p Q (insertEvent p row >>= k) w := by
  refine runs_step hw fun w' hl hw' hi a r w'' hs => ?_
  dsimp only at hs
  simp only [hw'.view hi] at hs
  split at hs
  · split at hs
    · rename_i hne
      cases hs
      obtain ⟨x, hx⟩ := List.exists_mem_of_ne_nil _ hne
      obtain ⟨e, he, hkey⟩ := (mem_keysWhere _ _ _).mp hx
      have hstep : Stepped t₀ (MsgAllowed env t₀) p B E w'
          { w' with outside := { w'.outside with nextEvent := w'.outside.nextEvent + 1 } } :=
        Stepped.quiet hw' hi rfl rfl rfl
      exact ⟨B, E, hstep, htaken _ (hl.trans (.outside p w' _)) hstep.at_ hstep.inv
        ⟨x, e, he, by simpa using hkey⟩⟩
    · split at hs
      · rename_i hnone
        obtain ⟨s, hwr, heq⟩ := Option.map_eq_some_iff.mp hs
        cases heq
        have hstep := (Stepped.write hw' hi hwr).outside
          { w'.outside with nextEvent := w'.outside.nextEvent + 1 }
        exact ⟨_, E, hstep, hnew _ _ (hl.trans ((Later.write hwr).trans (.outside p _ _)))
          hstep.at_ hstep.inv hnone⟩
      · cases hs
  · cases hs

theorem runs_commit {k : Unit → MsgProgram α} (hw : At p B E w)
    (h : ∀ w', Later p w w' → At p B E w' → MsgInv env t₀ w' →
      (∃ call, callOf p w'.history = some call ∧
        MsgCommits env t₀ w'.history p w'.clock call B) ∧
      ∀ w'', w''.history = .commit p w'.clock B :: w'.history →
        At p [] (.commit p w'.clock B :: E) w'' → MsgInv env t₀ w'' →
        MsgRuns env t₀ p Q (k ()) w'') :
    MsgRuns env t₀ p Q (commit p >>= k) w := by
  refine runs_step hw fun w' hl hw' hi a r w'' hs => ?_
  cases hs
  obtain ⟨hcall, hk⟩ := h w' hl hw' hi
  have hstep := Stepped.commit hw' hi ⟨hcall, hi.clock⟩
  have hhist : (w'.commit p).history = .commit p w'.clock B :: w'.history := by
    rw [← hw'.buf]
    rfl
  exact ⟨_, _, hstep, hk _ hhist hstep.at_ hstep.inv⟩

/-! ### The outside -/

theorem runs_incrBy {user : UserId} {d : Int} {k : Option Int → MsgProgram α} (hw : At p B E w)
    (h : ∀ w' n, Later p w w' → At p B E w' → MsgInv env t₀ w' →
      MsgRuns env t₀ p Q (k n) w') :
    MsgRuns env t₀ p Q (incrBy user d >>= k) w :=
  runs_ask hw (fun w' a r w'' hs => by
    split at hs <;> cases hs <;> exact ⟨rfl, rfl, rfl⟩) h

theorem runs_expireCounter {k : Bool → MsgProgram α} (hw : At p B E w)
    (h : ∀ w' b, Later p w w' → At p B E w' → MsgInv env t₀ w' →
      MsgRuns env t₀ p Q (k b) w') :
    MsgRuns env t₀ p Q (expireCounter >>= k) w :=
  runs_ask hw (fun w' a r w'' hs => by
    split at hs <;> cases hs <;> exact ⟨rfl, rfl, rfl⟩) h

theorem runs_askCount {k : Option Nat → MsgProgram α} (hw : At p B E w)
    (h : ∀ w' n, Later p w w' → At p B E w' → MsgInv env t₀ w' →
      MsgRuns env t₀ p Q (k n) w') :
    MsgRuns env t₀ p Q (askCount >>= k) w :=
  runs_ask hw (fun w' a r w'' hs => by
    split at hs <;> cases hs <;> exact ⟨rfl, rfl, rfl⟩) h

theorem runs_askBool {k : Bool → MsgProgram α} (hw : At p B E w)
    (h : ∀ w' b, Later p w w' → At p B E w' → MsgInv env t₀ w' →
      MsgRuns env t₀ p Q (k b) w') :
    MsgRuns env t₀ p Q (askBool >>= k) w :=
  runs_ask hw (fun w' a r w'' hs => by
    split at hs <;> cases hs; exact ⟨rfl, rfl, rfl⟩) h

theorem runs_generateSecret {k : String → MsgProgram α} (hw : At p B E w)
    (h : ∀ w' s, Later p w w' → At p B E w' → MsgInv env t₀ w' →
      MsgRuns env t₀ p Q (k s) w') :
    MsgRuns env t₀ p Q (generateSecret >>= k) w :=
  runs_ask hw (fun w' a r w'' hs => by
    split at hs <;> cases hs; exact ⟨rfl, rfl, rfl⟩) h

end Rules

end CueApi.Messages
