import CueApi.Events.Dispatch

/-! Clients that walk the stream: each request passes the last `next_cursor` as `since`. In order, a
walk has got all that stands at or below its cursor, and the ack watermark of a pull subscription
follows the cursor of a walk. Out of order, a cursor passes ids that are not yet visible. -/

namespace CueApi.Events

open Scheduler (Pid Time)
open Messages Paging

variable {s s' : Stream} {a : Action} {p : Pid} {x : EventId} {sub : SubscriptionId}
variable {q q' : Pull} {agent : AgentId} {eventType : Option String} {row row' : Subscription}

/-! ## Pulls from step to step -/

theorem step_returned (p : Pid) (h : step s a = some s') :
    s'.returned p = s.returned p ∨ ∃ q, a = .respond p ∧ s.pulls p = some q ∧
      s'.returned p = s.returned p ++ q.page.map Prod.fst := by
  cases step_cases h with
  | respond p' q hq =>
    by_cases hp : p = p'
    · subst hp
      exact .inr ⟨q, rfl, hq, if_pos rfl⟩
    · exact .inl (if_neg hp)
  | _ => exact .inl rfl

/-- A SELECT of the client. -/
def Reads (p : Pid) (a : Action) : Prop :=
  a = .requery p ∨ ∃ agent since limit eventType, a = .pull p agent since limit eventType

/-- A pull after the step was there before, with its ack to come or done, or has just been read. -/
theorem step_pull (h : step s a = some s') (hq' : s'.pulls p = some q') :
    (∃ acked, s.pulls p = some { q' with acked := acked } ∧ s'.returned p = s.returned p ∧
      ¬ Reads p a) ∨
    (s'.tables = s.tables ∧ s'.visible = s.visible ∧ s'.returned = s.returned ∧
      ∃ q : Pull, q' = q.read s.tables ∧
      (a = .pull p q.agent q.since q.limit q.eventType ∨
        a = .requery p ∧ s.pulls p = some q)) := by
  cases step_cases h with
  | pull p' q hnone =>
    change (if p = p' then some (q.read s.tables) else s.pulls p) = some q' at hq'
    split at hq'
    · rename_i hp
      cases hq'
      exact .inr ⟨rfl, rfl, rfl, q, rfl, .inl (by rw [hp])⟩
    · rename_i hp
      refine .inl ⟨_, hq', rfl, ?_⟩
      rintro (hr | ⟨_, _, _, _, hr⟩) <;> cases hr
      exact hp rfl
  | requery p' q hq hopen =>
    change (if p = p' then some (q.read s.tables) else s.pulls p) = some q' at hq'
    split at hq'
    · rename_i hp
      cases hq'
      exact .inr ⟨rfl, rfl, rfl, q, rfl, .inr ⟨by rw [hp], by rw [hp, hq]⟩⟩
    · rename_i hp
      refine .inl ⟨_, hq', rfl, ?_⟩
      rintro (hr | ⟨_, _, _, _, hr⟩) <;> cases hr
      exact hp rfl
  | advance p' stored q hq hopen =>
    change (if p = p' then some { q with acked := _ } else s.pulls p) = some q' at hq'
    split at hq'
    · rename_i hp
      cases hq'
      refine .inl ⟨q.acked, hp ▸ hq, rfl, ?_⟩
      rintro (hr | ⟨_, _, _, _, hr⟩) <;> cases hr
    · refine .inl ⟨_, hq', rfl, ?_⟩
      rintro (hr | ⟨_, _, _, _, hr⟩) <;> cases hr
  | respond p' q hq =>
    change (if p = p' then none else s.pulls p) = some q' at hq'
    split at hq'
    · cases hq'
    · rename_i hp
      refine .inl ⟨_, hq', if_neg hp, ?_⟩
      rintro (hr | ⟨_, _, _, _, hr⟩) <;> cases hr
  | cancel p' =>
    change (if p = p' then none else s.pulls p) = some q' at hq'
    split at hq'
    · cases hq'
    · refine .inl ⟨_, hq', rfl, ?_⟩
      rintro (hr | ⟨_, _, _, _, hr⟩) <;> cases hr
  | _ =>
    refine .inl ⟨_, hq', rfl, ?_⟩
    rintro (hr | ⟨_, _, _, _, hr⟩) <;> cases hr

/-! ## Walks -/

/-- Every request of the client asks for the agent's events of the type since its cursor. -/
def walks (client : Pid) (agent : AgentId) (eventType : Option String) (s : Stream) :
    Action → Bool
  | .pull p agent' since _ eventType' =>
      p ≠ client || (agent' = agent && since = s.cursor client && eventType' = eventType)
  | _ => true

structure Walked (p : Pid) (agent : AgentId) (eventType : Option String) (s : Stream) : Prop where
  mark : Mark (Stands s.tables agent eventType) (Shown s agent) (· ∈ s.returned p) (s.cursor p)
  ordered : (s.returned p).Pairwise (· < ·)
  pulling : ∀ q, s.pulls p = some q → q.agent = agent ∧ q.eventType = eventType ∧
    q.since = s.cursor p ∧
    PageOf (Stands s.tables agent eventType) (Shown s agent) (s.cursor p) (q.page.map Prod.fst)

theorem Walked.start (p : Pid) (agent : AgentId) (eventType : Option String) :
    Walked p agent eventType start where
  mark := Mark.zero fun _ hx => Known.start.stands_pos hx
  ordered := List.Pairwise.nil
  pulling q h := by cases h

theorem cursor_of_last {z : EventId} (h : (s.returned p).getLast? = some z) :
    s.cursor p = z := by
  unfold Stream.cursor
  rw [h]
  rfl

/-- All that a walk has got lies at or below its cursor. -/
theorem Walked.le_cursor (hw : Walked p agent eventType s) (hx : x ∈ s.returned p) :
    x ≤ s.cursor p := by
  obtain ⟨z, hz⟩ := Option.isSome_iff_exists.mp
    (List.getLast?_isSome.mpr (List.ne_nil_of_mem hx))
  rw [cursor_of_last hz]
  have ho : Ordered (fun y : Nat => y) (s.returned p) := hw.ordered
  exact ho.le_getLast hx hz

theorem cursor_append {ids : List EventId} {z : EventId}
    (hr : s'.returned p = s.returned p ++ ids) (hz : ids.getLast? = some z) : s'.cursor p = z :=
  cursor_of_last (by rw [hr, List.getLast?_append, hz, Option.some_or])

/-- A response moves the cursor to the end of its page. -/
theorem Walked.responded (hw : Walked p agent eventType s) (hk : Known s)
    (hc : inOrder s a = true) (h : step s a = some s') (hq : s.pulls p = some q)
    (hr : s'.returned p = s.returned p ++ q.page.map Prod.fst) :
    Mark (Stands s'.tables agent eventType) (Shown s' agent) (· ∈ s'.returned p) (s'.cursor p) ∧
      (s'.returned p).Pairwise (· < ·) := by
  obtain ⟨-, -, -, hpage⟩ := hw.pulling q hq
  constructor
  · refine Mark.grow ?_ (hk.inOrder_step hc h _ _) (fun _ hx => hx.after h) fun _ hx => hx
    cases hz : (q.page.map Prod.fst).getLast? with
    | none =>
      have hnil := List.getLast?_eq_none_iff.mp hz
      rw [hnil, List.append_nil] at hr
      unfold Stream.cursor
      rw [hr]
      exact hw.mark
    | some z =>
      rw [cursor_append hr hz, hr]
      exact hw.mark.advance hpage (List.mem_of_getLast? hz)
        (fun x hx => List.mem_append_left _ hx) fun x hx _ => List.mem_append_right _ hx
  · rw [hr]
    refine List.pairwise_append.mpr ⟨hw.ordered, hpage.ordered, fun x hx y hy => ?_⟩
    exact Nat.lt_of_le_of_lt (hw.le_cursor hx) (hpage.above y hy)

/-- What a walk reads next. -/
theorem Walked.reads (hw : Walked p agent eventType s) (ha : walks p agent eventType s a = true)
    (hread : a = .pull p q.agent q.since q.limit q.eventType ∨
      a = .requery p ∧ s.pulls p = some q) :
    q.agent = agent ∧ q.eventType = eventType ∧ q.since = s.cursor p := by
  rcases hread with rfl | ⟨rfl, hq⟩
  · simp only [walks, ne_eq, not_true_eq_false, decide_false, Bool.false_or, Bool.and_eq_true,
      decide_eq_true_eq] at ha
    exact ⟨ha.1.1, ha.2, ha.1.2⟩
  · obtain ⟨hag, hty, hsince, -⟩ := hw.pulling q hq
    exact ⟨hag, hty, hsince⟩

theorem Walked.after (hw : Walked p agent eventType s) (hk : Known s)
    (hc : inOrder s a = true) (ha : walks p agent eventType s a = true)
    (h : step s a = some s') : Walked p agent eventType s' := by
  have hgrow := hk.inOrder_step hc h agent eventType
  have hshown : ∀ x, Shown s agent x → Shown s' agent x := fun _ hx => hx.after h
  have hsame (hr : s'.returned p = s.returned p) : s'.cursor p = s.cursor p := by
    unfold Stream.cursor
    rw [hr]
  have hmark : Mark (Stands s'.tables agent eventType) (Shown s' agent) (· ∈ s'.returned p)
      (s'.cursor p) ∧ (s'.returned p).Pairwise (· < ·) := by
    rcases step_returned p h with hr | ⟨q, -, hq, hr⟩
    · rw [hsame hr, hr]
      exact ⟨hw.mark.grow hgrow hshown fun _ hx => hx, hw.ordered⟩
    · exact hw.responded hk hc h hq hr
  refine ⟨hmark.1, hmark.2, fun q' hq' => ?_⟩
  rcases step_pull h hq' with ⟨acked, hq, hr, -⟩ | ⟨ht, hv, hret, q, rfl, hread⟩
  · obtain ⟨hag, hty, hsince, hpage⟩ := hw.pulling _ hq
    rw [hsame hr]
    exact ⟨hag, hty, hsince, hpage.grow hgrow hshown⟩
  · have hq : q.agent = agent ∧ q.eventType = eventType ∧ q.since = s.cursor p := by
      rcases hread with rfl | ⟨rfl, hq⟩
      · simpa [walks, and_assoc, and_comm, and_left_comm] using ha
      · obtain ⟨hag, hty, hsince, -⟩ := hw.pulling q hq
        exact ⟨hag, hty, hsince⟩
    obtain ⟨rfl, rfl, hsince⟩ := hq
    rw [hsame (congrFun hret p)]
    refine ⟨rfl, rfl, hsince, ?_⟩
    have hpage := hk.pulled q
    rw [hsince] at hpage
    unfold Shown
    rw [ht, hv]
    exact hpage

theorem walked_of_run {as : List Action} {s : Stream} (hr : Machine.run step start as = some s)
    (ho : Machine.along step inOrder start as = true)
    (hw : Machine.along step (walks p agent eventType) start as = true) :
    Walked p agent eventType s := by
  have hboth : Machine.along step (fun s a => inOrder s a && walks p agent eventType s a) start as =
      true := by
    rw [Machine.along_and, ho, hw, Bool.and_self]
  have hinv := Machine.invariant (I := fun s => Known s ∧ Walked p agent eventType s)
    ⟨.start, .start p agent eventType⟩ ?_ hr hboth
  · exact hinv.2
  · intro s a s' hs hc h
    simp only [Bool.and_eq_true] at hc
    exact ⟨hs.1.after h, hs.2.after hs.1 hc.1 hc.2 h⟩

/-! ## No event is passed over -/

/-- What is not yet visible when a watermark is taken lies above it, when it commits in order. -/
theorem above_of_inOrder {bs : List Action} {s₁ : Stream} {w : EventId} {seen : EventId → Prop}
    (hs : Known s) (hw : Mark (Stands s.tables agent eventType) (Shown s agent) seen w)
    (hr : Machine.run step s bs = some s₁) (ho : inOrder s₁ (.commit p) = true)
    {y : EventId × EventRow} (hy : y ∈ s₁.pending p) (hm : matching agent eventType y.2 = true) :
    w < y.1 := by
  have hafter := Machine.invariant (C := fun _ _ => true)
    (I := fun s₁ => Known s₁ ∧ ∀ x, Shown s agent x → Shown s₁ agent x)
    ⟨hs, fun _ hx => hx⟩ (fun _ _ _ hi _ h => ⟨hi.1.after h, fun x hx => (hi.2 x hx).after h⟩) hr
    (Machine.along_true _ _)
  rcases hw.origin with rfl | hshown
  · exact hafter.1.emitted _ (mem_pending.mp hy)
  · obtain ⟨r, hr, ha⟩ := hafter.2 w hshown
    simp only [inOrder, List.all_eq_true, Bool.or_eq_true, decide_eq_true_eq] at ho
    rcases ho y hy (w, r) hr with hne | hlt
    · exact absurd (ha.trans (matching_recipient hm).symm) hne
    · exact hlt

/-- Along a run in order, the cursor of a walk and the watermark of a webhook subscription lie below
every event of theirs that commits later, and no event at or below them is passed over. -/
theorem cursor_no_loss {as bs : List Action} {s s₁ : Stream} {client p : Pid} {agent : AgentId}
    {eventType : Option String}
    (hr : Machine.run step start as = some s) (hr₁ : Machine.run step s bs = some s₁)
    (ho : Machine.along step inOrder start (as ++ (bs ++ [.commit p])) = true)
    (hw : Machine.along step (walks client agent eventType) start as = true) :
    (∀ y ∈ s₁.pending p, matching agent eventType y.2 = true → s.cursor client < y.1) ∧
    (∀ sub row, s.tables.subscription sub = some row → ∀ y ∈ s₁.pending p,
      matching row.subscriberAgentId (some row.eventType.text) y.2 = true →
        dispatchedUpTo row < y.1) ∧
    (∀ x, Stands s.tables agent eventType x → x ≤ s.cursor client → x ∈ s.returned client) ∧
    ∀ sub row, s.tables.subscription sub = some row →
      ∀ x, Stands s.tables row.subscriberAgentId (some row.eventType.text) x →
        x ≤ dispatchedUpTo row → Sent s sub x := by
  obtain ⟨hoa, hob⟩ := (Machine.along_append hr).mp ho
  have hcommit := (Machine.along_append hr₁).mp hob
  have hnow : inOrder s₁ (.commit p) = true := by
    have h := hcommit.2
    simp only [Machine.along, Bool.and_eq_true] at h
    exact h.1
  have hs := Settled.start.run hr hoa
  have hwalk := walked_of_run hr hoa hw
  refine ⟨?_, ?_, hwalk.mark.covered, fun sub row hrow => (hs.served.row sub row hrow).covered⟩
  · exact fun y hy hm => above_of_inOrder hs.known hwalk.mark hr₁ hnow hy hm
  · intro sub row hrow y hy hm
    exact above_of_inOrder hs.known (hs.served.row sub row hrow) hr₁ hnow hy hm

/-- Two transactions: the second takes id 2 and commits first, and a client reads it. -/
def overtaken : List Action :=
  [.emit 1 (deliveredTo 7 1 3), .emit 2 (deliveredTo 7 2 3), .commit 2, .pull 3 7 0 100 none,
    .advance 3 true, .respond 3]

theorem cursor_passes_event : ¬ ∀ (as bs : List Action) (s s₁ : Stream) (client p : Pid)
    (agent : AgentId) (eventType : Option String),
    Machine.run step start as = some s → Machine.run step s bs = some s₁ →
      Machine.along step (walks client agent eventType) start as = true →
        ∀ y ∈ s₁.pending p, matching agent eventType y.2 = true → s.cursor client < y.1 := by
  intro hall
  have hrun : ((Machine.run step start overtaken).map fun s => (s.pending 1, s.cursor 3)) =
      some ([(1, deliveredTo 7 1 3)], 2) := by
    decide +kernel
  obtain ⟨s, hs, heq⟩ := Option.map_eq_some_iff.mp hrun
  rw [Prod.mk.injEq] at heq
  have hlt := hall _ [] s s 3 1 7 none hs rfl (by decide +kernel) (1, deliveredTo 7 1 3)
    (by rw [heq.1]; exact List.mem_cons_self) (by decide)
  rw [heq.2] at hlt
  exact absurd hlt (by decide)

/-- In the order of their ids, the second event is above the cursor that has passed the first. -/
def inTurn : List Action :=
  [.emit 1 (deliveredTo 7 1 3), .commit 1, .pull 3 7 0 100 none, .advance 3 true, .respond 3,
    .emit 2 (deliveredTo 7 2 3)]

theorem cursor_no_loss_two : ∃ s, Machine.run step start inTurn = some s ∧ s.cursor 3 = 1 ∧
    ∀ y ∈ s.pending 2, matching 7 none y.2 = true → 1 < y.1 := by
  have hrun : ((Machine.run step start inTurn).map fun s => s.cursor 3) = some 1 := by
    decide +kernel
  obtain ⟨s, hs, heq⟩ := Option.map_eq_some_iff.mp hrun
  have hloss := (@cursor_no_loss inTurn [] s s 3 2 7 none hs rfl (by decide +kernel)
    (by decide +kernel)).1
  rw [heq] at hloss
  exact ⟨s, hs, heq, hloss⟩

/-! ## Acks by pulling -/

/-- Nobody acknowledges by itself, and every client walks its own path: an agent and a type. -/
def onlyWalks (paths : Pid → AgentId × Option String) (s : Stream) : Action → Bool
  | .ack _ _ _ => false
  | .pull p agent since _ eventType =>
      agent = (paths p).1 && since = s.cursor p && eventType = (paths p).2
  | _ => true

theorem walks_of_onlyWalks {paths : Pid → AgentId × Option String}
    (h : onlyWalks paths s a = true) (p : Pid) :
    walks p (paths p).1 (paths p).2 s a = true := by
  cases a with
  | pull p' agent since limit eventType =>
    simp only [onlyWalks, Bool.and_eq_true, decide_eq_true_eq] at h
    obtain ⟨⟨rfl, rfl⟩, rfl⟩ := h
    by_cases hp : p' = p
    · subst hp
      simp [walks]
    · simp [walks, hp]
  | _ => rfl

/-- The path finds the events of the subscription. -/
def Serves (path : AgentId × Option String) (row : Subscription) : Prop :=
  path.1 = row.subscriberAgentId ∧ ∀ name, path.2 = some name → name = row.eventType.text

theorem Serves.stands {path : AgentId × Option String} {t : MsgTables} (h : Serves path row)
    (hx : Stands t row.subscriberAgentId (some row.eventType.text) x) :
    Stands t path.1 path.2 x := by
  obtain ⟨r, hr, hm⟩ := hx
  obtain ⟨hagent, htype⟩ := matching_type.mp hm
  refine ⟨r, hr, ?_⟩
  obtain ⟨hpath, hname⟩ := h
  unfold matching
  rw [hpath, hagent]
  cases hp : path.2 with
  | none => simp
  | some name => simp [hname name hp, htype]

/-- No request ends without its response once its ack has changed a row. -/
def answers (s : Stream) : Action → Bool
  | .cancel p => (s.pulls p).all fun q => q.acked ≠ some true
  | _ => true

/-- The client has come as far as `w`, or will with the response that is on its way. -/
def CaughtUp (s : Stream) (p : Pid) (w : EventId) : Prop :=
  w ≤ s.cursor p ∨
    ∃ q, s.pulls p = some q ∧ q.acked = some true ∧ q.nextCursor = some w

/-- A pull subscription is acknowledged as far as a walk that finds its events has come. -/
structure PullAcked (paths : Pid → AgentId × Option String) (s : Stream) : Prop where
  known : Known s
  held : Held s
  walked : ∀ p, Walked p (paths p).1 (paths p).2 s
  acked : ∀ sub row, s.tables.subscription sub = some row → row.deliveryTarget = .pull →
    ackedUpTo row = 0 ∨ ∃ p, Serves (paths p) row ∧ CaughtUp s p (ackedUpTo row)

theorem Walked.cursor_mono (hw' : Walked p agent eventType s') (h : step s a = some s') :
    s.cursor p ≤ s'.cursor p := by
  unfold Stream.cursor
  cases hz : (s.returned p).getLast? with
  | none => exact Nat.zero_le _
  | some z =>
    refine hw'.le_cursor ?_
    have hmem := List.mem_of_getLast? hz
    rcases step_returned p h with hr | ⟨_, -, -, hr⟩
    · exact hr ▸ hmem
    · rw [hr]
      exact List.mem_append_left _ hmem

theorem advance_acked (h : step s (.advance p true) = some s') (hq : s.pulls p = some q)
    (hacks : (q.acks s.tables).isEmpty = false) :
    s'.pulls p = some { q with acked := some true } := by
  cases step_cases h with
  | advance _ _ q' hq' hopen =>
    rw [hq] at hq'
    cases hq'
    refine (if_pos rfl).trans ?_
    rw [hacks]
    rfl

/-- A request that has acknowledged something waits for its response. -/
theorem acked_stays (h : step s a = some s') (hans : answers s a = true)
    (hq : s.pulls p = some q) (hacked : q.acked = some true) :
    s'.pulls p = some q ∨ s'.returned p = s.returned p ++ q.page.map Prod.fst := by
  have hother {p' : Pid} {new : Option Pull} (hp : p ≠ p') :
      (if p = p' then new else s.pulls p) = some q := by
    rw [if_neg hp, hq]
  -- who reads, acknowledges or ends is another client, or this one with its response
  cases step_cases h with
  | pull p' q' hnone =>
    refine .inl (hother fun hp => ?_)
    rw [← hp, hq] at hnone
    cases hnone
  | requery p' q' hq' hopen =>
    refine .inl (hother fun hp => ?_)
    rw [← hp, hq] at hq'
    cases hq'
    rw [hacked] at hopen
    cases hopen
  | advance p' stored q' hq' hopen =>
    refine .inl (hother fun hp => ?_)
    rw [← hp, hq] at hq'
    cases hq'
    rw [hacked] at hopen
    cases hopen
  | respond p' q' hq' =>
    by_cases hp : p = p'
    · subst hp
      rw [hq] at hq'
      cases hq'
      exact .inr (if_pos rfl)
    · exact .inl (hother hp)
  | cancel p' =>
    refine .inl (hother fun hp => ?_)
    rw [answers, ← hp, hq, Option.all_some, hacked] at hans
    cases hans
  | _ => exact .inl hq

theorem CaughtUp.after {w : EventId} (hr : CaughtUp s p w) (hw' : Walked p agent eventType s')
    (hans : answers s a = true) (h : step s a = some s') : CaughtUp s' p w := by
  rcases hr with hle | ⟨q, hq, hacked, hcur⟩
  · exact .inl (Nat.le_trans hle (hw'.cursor_mono h))
  · rcases acked_stays h hans hq hacked with hq | hret
    · exact .inr ⟨q, hq, hacked, hcur⟩
    · have hlast : (q.page.map Prod.fst).getLast? = some w := by
        rw [List.getLast?_map]
        exact hcur
      exact .inl (Nat.le_of_eq (cursor_append hret hlast).symm)

/-- What a client has come past, it has got or is about to get. -/
theorem CaughtUp.got {w : EventId} (hr : CaughtUp s p w) (hw : Walked p agent eventType s)
    (hx : Stands s.tables agent eventType x) (hle : x ≤ w) :
    x ∈ s.returned p ∨ x ∈ s.underway p := by
  rcases Nat.lt_or_ge (s.cursor p) x with hlt | hge
  · rcases hr with hcur | ⟨q, hq, hacked, hcur⟩
    · exact absurd (Nat.le_trans hle hcur) (Nat.not_le.mpr hlt)
    · obtain ⟨-, -, -, hpage⟩ := hw.pulling q hq
      have hlast : (q.page.map Prod.fst).getLast? = some w := by
        rw [List.getLast?_map]
        exact hcur
      have hmem := hpage.complete w (List.mem_of_getLast? hlast) x hx hlt hle
      refine .inr ?_
      unfold Stream.underway
      rw [hq, Option.filter_some, if_pos (decide_eq_true hacked)]
      exact hmem
  · exact .inl (hw.mark.covered x hx hge)

theorem PullAcked.after {paths : Pid → AgentId × Option String} (hs : PullAcked paths s)
    (hc : inOrder s a = true) (ha : onlyWalks paths s a = true) (hans : answers s a = true)
    (h : step s a = some s') : PullAcked paths s' := by
  have hwalked : ∀ p, Walked p (paths p).1 (paths p).2 s' := fun p =>
    (hs.walked p).after hs.known hc (walks_of_onlyWalks ha p) h
  refine ⟨hs.known.after h, hs.held.after h, hwalked, fun sub row' hr' htarget => ?_⟩
  rcases step_row sub h hs.held.updates_nodup with ⟨_, row₁, -, -, hr₁, -, hnone⟩ | ⟨f, hf, hrw⟩
  · rw [hr'] at hr₁
    cases hr₁
    exact .inl (by rw [ackedUpTo, hnone]; rfl)
  · rw [hr'] at hf
    obtain ⟨row, hr, heq⟩ := Option.map_eq_some_iff.mp hf.symm
    have hrw := heq ▸ hrw row
    obtain ⟨hagent, htype, htgt⟩ := hrw.fixed
    have hkept (hsame : row'.lastAckedEventId = row.lastAckedEventId) :
        ackedUpTo row' = 0 ∨ ∃ p, Serves (paths p) row' ∧ CaughtUp s' p (ackedUpTo row') := by
      unfold ackedUpTo Serves
      rw [hsame, hagent, htype]
      rcases hs.acked sub row hr (htgt ▸ htarget) with hzero | ⟨p, hserves, hcaught⟩
      · exact .inl hzero
      · exact .inr ⟨p, hserves, hcaught.after (hwalked p) hans h⟩
    cases hrw with
    | same => exact hkept rfl
    | detached now hfree => exact hkept rfl
    | acked agent acked hack hfree hlt =>
      rw [hack] at ha
      cases ha
    | pulled p q cursor hadv hq hcur hw =>
      have hne := acks_ne_nil hr hcur hw
      obtain ⟨hagent, htype, -, -⟩ := (hs.walked p).pulling q hq
      simp only [ackedBy, Bool.and_eq_true, decide_eq_true_eq] at hw
      refine .inr ⟨p, ⟨?_, fun name hname => ?_⟩, ?_⟩
      · exact hagent.symm.trans hw.1.1.1.1.symm
      · have hall := hw.2
        rw [htype, hname, Option.all_some, decide_eq_true_eq] at hall
        exact hall.symm
      · refine .inr ⟨{ q with acked := some true }, ?_, rfl, hcur⟩
        exact advance_acked (hadv ▸ h) hq hne
    | dispatched p updates u hfin hcyc hu =>
      obtain ⟨row₁, hr₁, hwebhook⟩ := hs.held.webhook p sub (hs.held.update_locked hcyc hu)
      rw [hr] at hr₁
      cases hr₁
      rw [htarget, hwebhook] at htgt
      cases htgt

theorem PullAcked.start (paths : Pid → AgentId × Option String) : PullAcked paths start where
  known := .start
  held := .start
  walked p := .start p _ _
  acked sub row h := by cases h

theorem PullAcked.run {paths : Pid → AgentId × Option String} {as : List Action} {s : Stream}
    (hr : Machine.run step Events.start as = some s)
    (ho : Machine.along step inOrder Events.start as = true)
    (hw : Machine.along step (onlyWalks paths) Events.start as = true)
    (hans : Machine.along step answers Events.start as = true) : PullAcked paths s := by
  have hall : Machine.along step
      (fun s a => inOrder s a && (onlyWalks paths s a && answers s a)) Events.start as = true := by
    rw [Machine.along_and, Machine.along_and, ho, hw, hans, Bool.and_self, Bool.and_self]
  refine Machine.invariant (.start paths) (fun s a s' hs hc h => ?_) hr hall
  simp only [Bool.and_eq_true] at hc
  exact hs.after hc.1 hc.2.1 hc.2.2 h

/-- A pull subscription, and a client whose request has acknowledged the first event. -/
def acknowledging : List Action :=
  [.subscribe 1 { webhookOf 7 with deliveryTarget := .pull, webhookUrl := none },
    .emit 1 (deliveredTo 7 1 3), .commit 1, .pull 3 7 0 100 none, .advance 3 true]

/-- The client gets its response, asks again and has a second event on its way. -/
def answered : List Action :=
  acknowledging ++ [.respond 3, .emit 1 (deliveredTo 7 2 3), .commit 1, .pull 3 7 1 100 none,
    .advance 3 true]

end CueApi.Events
