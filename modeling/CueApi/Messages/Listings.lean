import Mathlib.Data.Prod.Lex
import CueApi.Messages.Polling
import CueApi.Scheduler.Listings
import CueApi.Scheduler.ScheduleChecks

/-! The pages of `list_inbox` and `list_sent`. Both order by `created_at` and then by the id, which no
two messages share: there is one order, and the pages are complete. -/

namespace CueApi.Messages

open Scheduler (Time UserId ApiError Cue Execution keysWhere mem_keysWhere keysWhere_nodup rowsAt
  mem_rowsAt rowsAt_fst orderBy insertNew Listing listing newestFirst Paginates paginates_iff
  ExecutionQuery ExecutionPage CueDetail matching cuesOf executionsOf listExecutions listCues getCue
  PageEndsInTie listExecutions_paginates_iff listCues_paginates_iff getCue_paginates_iff)
open Pages

/-- `ORDER BY created_at DESC, id DESC`. -/
def newestThenId (t : Scheduler.Table MsgId Message) (m : MsgId) : (Time ×ₗ MsgId)ᵒᵈ :=
  OrderDual.toDual (toLex (orderBy t Message.createdAt m, m))

theorem newestThenId_injective {t : Scheduler.Table MsgId Message} {m n : MsgId}
    (h : newestThenId t m = newestThenId t n) : m = n :=
  congrArg (fun x => (ofLex (OrderDual.ofDual x)).2) h

/-! ## list_sent -/

/-- `ALL_STATES`. -/
def allStates : List DeliveryState := defaultStates ++ [.acked, .expired]

/-- `_parse_state_filter` with the default of `list_sent`. -/
def parseSentFilter (states : Option (List (Except String DeliveryState))) :
    Except ApiError (List DeliveryState) :=
  match states with
  | none => .ok allStates
  | some parts => parseStateFilter (some parts)

/-- `base_filters` of `list_sent`. -/
def inSent (q : InboxQuery) (user : UserId) (a : AgentId) (states : List DeliveryState)
    (counterpart : Option AgentId) (r : Message) : Bool :=
  r.userId = user && r.fromAgentId = a && r.deliveryState ∈ states &&
    (q.since.all fun since => decide (since < r.createdAt)) &&
    (q.threadId.all fun thread => r.threadId = thread) &&
    counterpart.all fun c => r.toAgentId = c

def checkSent (env : MsgEnv) (t : MsgTables) (user : UserId) (q : InboxQuery) :
    Except ApiError Poll := do
  let a ← getAgentOwned env user t q.agent
  let states ← parseSentFilter q.states
  let counterpart ← counterpartOf env t q.counterpart
  return ⟨a, states, counterpart⟩

def sentBy (user : UserId) (q : InboxQuery) (poll : Poll) (t : MsgTables) : List MsgId :=
  keysWhere t.messages fun _ r => inSent q user poll.agent poll.states poll.counterpart r

/-- `list_sent`, whose query for the rows settles on `order`. -/
def listSent (env : MsgEnv) (t : MsgTables) (user : UserId) (q : InboxQuery) (order : List MsgId) :
    MsgReply :=
  match checkSent env t user q with
  | .error e => .error e
  | .ok poll =>
      let all := sentBy user q poll t
      if q.countOnly then .count all.length
      else
        let page := listing t.messages all q.limit q.offset order
        .inbox page.rows page.total page.limit page.offset

/-! ## Replies -/

def listingOf : MsgReply → Option (Listing Message)
  | .inbox rows total limit offset => some ⟨rows, total, limit, offset⟩
  | _ => none

/-- The query of page `k`. -/
def InboxQuery.onPage (q : InboxQuery) (limit k : Nat) : InboxQuery :=
  { q with limit := limit, offset := k * limit }

variable {env : MsgEnv} {t : MsgTables} {user : UserId} {q : InboxQuery} {poll : Poll}
variable {limit : Nat}

theorem newestThenId_complete {pred : MsgId → Message → Bool} :
    Complete (newestThenId t.messages) (keysWhere t.messages pred) limit :=
  complete_of_injective (keysWhere_nodup _ _) fun _ _ _ _ h => newestThenId_injective h

theorem listSent_paginates (hcheck : checkSent env t user q = .ok poll) (hcount : q.countOnly = false) :
    Paginates (newestThenId t.messages) t.messages (sentBy user q poll t) limit
      (fun k order => listingOf (listSent env t user (q.onPage limit k) order)) := by
  refine (paginates_iff fun k order _ => ?_).mpr newestThenId_complete
  have hk : checkSent env t user (q.onPage limit k) = .ok poll := hcheck
  unfold listSent
  rw [hk]
  simp only [InboxQuery.onPage, hcount, Bool.false_eq_true, if_false, listingOf]
  rfl

/-! ## list_inbox -/

/-- What `pageOf` sorts by. -/
def newer (x y : MsgId × Message) : Bool :=
  y.2.createdAt < x.2.createdAt || (x.2.createdAt = y.2.createdAt && y.1 ≤ x.1)

theorem newer_iff {x y : MsgId × Message} :
    newer x y = true ↔ toLex (y.2.createdAt, y.1) ≤ toLex (x.2.createdAt, x.1) := by
  simp only [newer, Prod.Lex.toLex_le_toLex, Bool.or_eq_true, Bool.and_eq_true, decide_eq_true_eq]
  rw [eq_comm]

theorem newestThenId_le_iff {x y : MsgId × Message} (hx : t.messages.lookup x.1 = some x.2)
    (hy : t.messages.lookup y.1 = some y.2) :
    newestThenId t.messages x.1 ≤ newestThenId t.messages y.1 ↔ newer x y = true := by
  rw [newer_iff, newestThenId, newestThenId, OrderDual.toDual_le_toDual]
  simp only [orderBy, hx, hy, Option.map_some, Option.getD_some]

theorem newer_trans (x y z : MsgId × Message) (hxy : newer x y = true) (hyz : newer y z = true) :
    newer x z = true :=
  newer_iff.mpr ((newer_iff.mp hyz).trans (newer_iff.mp hxy))

theorem newer_total (x y : MsgId × Message) : (newer x y || newer y x) = true := by
  rw [Bool.or_eq_true, newer_iff, newer_iff]
  exact le_total _ _

/-- The ids of rows of the table pick these rows. -/
theorem rowsAt_map_fst {l : List (MsgId × Message)}
    (hl : ∀ x ∈ l, t.messages.lookup x.1 = some x.2) : rowsAt t.messages (l.map Prod.fst) = l := by
  induction l with
  | nil => rfl
  | cons x l ih =>
    obtain ⟨hx, hl⟩ := List.forall_mem_cons.mp hl
    unfold rowsAt at ih ⊢
    rw [List.map_cons, List.filterMap_cons, hx, ih hl]
    rfl

/-- `pageOf` sorts by the key, and any permitted order is that one. -/
theorem pageOf_eq {pred : Message → Bool} {offset : Nat} {order : List MsgId}
    (h : Permitted (newestThenId t.messages) (keysWhere t.messages fun _ r => pred r) order) :
    pageOf t.messages pred limit offset = rowsAt t.messages (page limit offset order) := by
  have hthere : ∀ i ∈ keysWhere t.messages fun _ r => pred r, ∃ v, t.messages.lookup i = some v :=
    fun i hi =>
      let ⟨v, hv, _⟩ := (mem_keysWhere _ _ _).mp hi
      ⟨v, hv⟩
  let sorted := (rowsAt t.messages (keysWhere t.messages fun _ r => pred r)).mergeSort newer
  have hsorted : ∀ x ∈ sorted, t.messages.lookup x.1 = some x.2 := fun x hx =>
    (mem_rowsAt (List.mem_mergeSort.mp hx)).2
  have hpermitted : Permitted (newestThenId t.messages) (keysWhere t.messages fun _ r => pred r)
      (sorted.map Prod.fst) := by
    constructor
    · exact ((List.mergeSort_perm _ newer).map Prod.fst).trans (.of_eq (rowsAt_fst hthere))
    · refine List.pairwise_map.mpr ((List.pairwise_mergeSort newer_trans newer_total _).imp_of_mem
        fun hx hy hxy => ?_)
      exact (newestThenId_le_iff (hsorted _ hx) (hsorted _ hy)).mpr hxy
  have horder := hpermitted.unique h fun _ _ _ _ h => newestThenId_injective h
  have hpage : ∀ x ∈ page limit offset sorted, t.messages.lookup x.1 = some x.2 := fun x hx =>
    hsorted x (List.mem_of_mem_drop (List.mem_of_mem_take hx))
  calc pageOf t.messages pred limit offset
      = page limit offset sorted := rfl
    _ = rowsAt t.messages ((page limit offset sorted).map Prod.fst) := (rowsAt_map_fst hpage).symm
    _ = rowsAt t.messages (page limit offset (sorted.map Prod.fst)) := by
        rw [page, page, List.map_take, List.map_drop]
    _ = rowsAt t.messages (page limit offset order) := by rw [horder]

/-- Polls that each find the messages of `t` after their own transition, while the same of them are
counted at each reading of the clock. -/
structure Steady (env : MsgEnv) (t : MsgTables) (user : UserId) (q : InboxQuery) (poll : Poll)
    (limit : Nat) (found : Nat → MsgTables) (gates updates : Nat → Time) : Prop where
  check : ∀ k, checkPoll env (found k) user q = .ok poll
  messages : ∀ k,
    (inboxPoll env (found k) user (q.onPage limit k) (gates k) (updates k)).2.messages = t.messages
  gate : ∀ k, poll.counted q (gates k) t = poll.counted q (gates 0) t

variable {found : Nat → MsgTables} {gates updates : Nat → Time}

theorem listInbox_paginates (hsteady : Steady env t user q poll limit found gates updates)
    (hcount : q.countOnly = false) :
    Paginates (newestThenId t.messages) t.messages (poll.counted q (gates 0) t) limit
      (fun k _ => listingOf
        (inboxPoll env (found k) user (q.onPage limit k) (gates k) (updates k)).1) := by
  refine (paginates_iff fun k order horder => ?_).mpr newestThenId_complete
  have hmessages := hsteady.messages k
  have hk : checkPoll env (found k) user (q.onPage limit k) = .ok poll := hsteady.check k
  have hcount : (q.onPage limit k).countOnly = false := hcount
  simp only [inboxPoll, hk, Poll.answer, hcount, Bool.false_eq_true, if_false] at hmessages ⊢
  have hgate : poll.counted (q.onPage limit k) (gates k) t = poll.counted q (gates 0) t :=
    hsteady.gate k
  have horder : Permitted (newestThenId t.messages)
      (poll.counted (q.onPage limit k) (gates k) t) order := by
    rw [hgate]
    exact horder
  rw [Poll.counted, hmessages, pageOf_eq horder, ← Poll.counted, hgate]
  rfl

/-! ## All listings -/

/-- The pages of `list_inbox` and `list_sent` are complete; those of the others are when none ends
between two rows that were created at the same time. -/
theorem pages_complete_iff (env : MsgEnv) (limit : Nat) (hl : 0 < limit) :
    (∀ (t : Scheduler.Tables) (user : UserId) (q : ExecutionQuery)
        (statusList : Option (List String)), q.statusList = .ok statusList →
      (Paginates (newestFirst t.executions Execution.createdAt) t.executions
          (matching t user q statusList) limit
          (fun k order => (listExecutions t user q limit (k * limit) order).toOption.map
            ExecutionPage.toListing) ↔
        ¬ PageEndsInTie t.executions Execution.createdAt (matching t user q statusList) limit)) ∧
    (∀ (t : Scheduler.Tables) (user : UserId) (status : Option String),
      Paginates (newestFirst t.cues Cue.createdAt) t.cues (cuesOf t user status) limit
          (fun k order => some (listCues t user status limit (k * limit) order)) ↔
        ¬ PageEndsInTie t.cues Cue.createdAt (cuesOf t user status) limit) ∧
    (∀ (t : Scheduler.Tables) (user : UserId) (c : Scheduler.CueId) (cue : Cue),
      t.cue c = some cue → cue.userId = user →
      (Paginates (newestFirst t.executions Execution.createdAt) t.executions (executionsOf t c) limit
          (fun k order => (getCue t user c limit (k * limit) order).map CueDetail.executions) ↔
        ¬ PageEndsInTie t.executions Execution.createdAt (executionsOf t c) limit)) ∧
    (∀ (t : MsgTables) (user : UserId) (q : InboxQuery) (poll : Poll) (found : Nat → MsgTables)
        (gates updates : Nat → Time), Steady env t user q poll limit found gates updates →
      q.countOnly = false →
      Paginates (newestThenId t.messages) t.messages (poll.counted q (gates 0) t) limit
        (fun k _ => listingOf
          (inboxPoll env (found k) user (q.onPage limit k) (gates k) (updates k)).1)) ∧
    ∀ (t : MsgTables) (user : UserId) (q : InboxQuery) (poll : Poll),
      checkSent env t user q = .ok poll → q.countOnly = false →
      Paginates (newestThenId t.messages) t.messages (sentBy user q poll t) limit
        (fun k order => listingOf (listSent env t user (q.onPage limit k) order)) :=
  ⟨fun _ _ _ _ hq => listExecutions_paginates_iff hl hq,
    fun _ _ _ => listCues_paginates_iff hl,
    fun _ _ _ _ hc hu => getCue_paginates_iff hl hc hu,
    fun _ _ _ _ _ _ _ hsteady hcount => listInbox_paginates hsteady hcount,
    fun _ _ _ _ hcheck hcount => listSent_paginates hcheck hcount⟩

/-- Two executions of one cue, created together. -/
def createdTogether : Scheduler.Tables where
  executions := insertNew (insertNew ∅ 1 { cueId := 1, scheduledFor := 0, createdAt := 7, updatedAt := 7 })
    2 { cueId := 1, scheduledFor := 60000000, createdAt := 7, updatedAt := 7 }
  cues := insertNew ∅ 1 Scheduler.storedCue

theorem createdTogether_tie :
    PageEndsInTie createdTogether.executions Execution.createdAt
      (matching createdTogether 1 {} none) 1 :=
  ⟨1, by decide⟩

theorem pages_complete_iff_small :
    ¬ Paginates (newestFirst createdTogether.executions Execution.createdAt)
        createdTogether.executions (matching createdTogether 1 {} none) 1
        (fun k order => (listExecutions createdTogether 1 {} 1 (k * 1) order).toOption.map
          ExecutionPage.toListing) ∧
      Paginates (newestThenId twoThreads.messages) twoThreads.messages
        (sentBy 1 { agent := .id 1 "agt_1" } ⟨1, allStates, none⟩ twoThreads) 1
        (fun k order => listingOf
          (listSent oneUser twoThreads 1 (InboxQuery.onPage { agent := .id 1 "agt_1" } 1 k) order)) := by
  obtain ⟨hexecutions, -, -, -, hsent⟩ := pages_complete_iff oneUser 1 Nat.one_pos
  refine ⟨?_, hsent twoThreads 1 { agent := .id 1 "agt_1" } ⟨1, allStates, none⟩ (by decide) rfl⟩
  rw [hexecutions createdTogether 1 {} none rfl]
  exact not_not_intro createdTogether_tie

/-- One execution a page: the second query may show the first execution again. -/
theorem tied_executions_repeat : ¬ ∀ (t : Scheduler.Tables) (user : UserId) (q : ExecutionQuery)
    (statusList : Option (List String)) (limit : Nat), q.statusList = .ok statusList → 0 < limit →
      Paginates (newestFirst t.executions Execution.createdAt) t.executions
        (matching t user q statusList) limit
        (fun k order => (listExecutions t user q limit (k * limit) order).toOption.map
          ExecutionPage.toListing) := fun hall =>
  (listExecutions_paginates_iff Nat.one_pos rfl).mp
    (hall createdTogether 1 {} none 1 rfl Nat.one_pos) createdTogether_tie

end CueApi.Messages
