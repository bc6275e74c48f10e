import CueApi.Library.Bulk
import CueApi.Messages.Tables
import CueApi.Scheduler.World

/-! `post_reconcile_attachments` of `app/routers/ipc_attachments.py` and `reconcile_attachments` of
`app/services/ipc_attachment_service.py`: the bulk UPDATEs by which a daemon reports its attachments,
and the users whose agents they reach. -/

namespace CueApi.Reconcile

open Scheduler (Time UserId ApiError)
open Messages (AgentId)

abbrev Uuid := BitVec 128

inductive Transport
  | ipc | poll
  deriving DecidableEq, Repr

/-- The columns of `agent_live_sessions` that the UPDATEs read or write. -/
structure AgentLiveSession where
  id : Uuid
  agentId : AgentId
  label : String
  taskName : String
  ipcSessionToken : Option String
  transport : Transport
  daemonId : Option Uuid
  lastReconciledAt : Option Time
  detachedAt : Option Time
  deriving DecidableEq, Repr

structure AttachmentReconcileEntry where
  label : String
  taskName : String
  ipcSessionToken : String
  attachedAt : Time
  deriving DecidableEq, Repr

structure AttachmentReconcileRequest where
  daemonId : Uuid
  reconciledAt : Time
  attachments : List AttachmentReconcileEntry := []
  deriving DecidableEq, Repr

structure AttachmentReconcileResponse where
  daemonId : Uuid
  reconciledAt : Time
  upsertedCount : Nat
  downgradedCount : Nat
  deriving DecidableEq, Repr

/-- The tables: the user of each agent, and the attachments. -/
structure Database where
  userId : AgentId → UserId
  sessions : List AgentLiveSession

open Bulk (Update runAll)

/-- `UPDATE … SET transport = 'ipc', last_reconciled_at = now, task_name`. -/
def upsert (daemonId : Uuid) (now : Time) (entry : AttachmentReconcileEntry) :
    Update AgentLiveSession where
  hits r :=
    r.daemonId = some daemonId ∧ r.label = entry.label ∧
      r.ipcSessionToken = some entry.ipcSessionToken ∧ r.detachedAt = none
  set r :=
    { r with transport := .ipc, lastReconciledAt := some now, taskName := entry.taskName }

/-- `UPDATE … SET transport = 'poll'` of what is not reported. A NULL token is in no list and out of
none. -/
def downgrade (daemonId : Uuid) (reportedTokens : List String) : Update AgentLiveSession where
  hits r :=
    r.daemonId = some daemonId ∧ r.transport = .ipc ∧ r.detachedAt = none ∧
      (reportedTokens = [] ∨ r.ipcSessionToken.any (· ∉ reportedTokens))
  set r := { r with transport := .poll }

/-- `reconcile_attachments`: the rows, `upserted_count` and `downgraded_count`. -/
def reconcileAttachments (daemonId : Uuid) (now : Time)
    (attachments : List AttachmentReconcileEntry) (sessions : List AgentLiveSession) :
    List AgentLiveSession × Nat × Nat :=
  let (rows, upserted) := runAll (attachments.map (upsert daemonId now)) sessions
  let (rows, downgraded) :=
    (downgrade daemonId (attachments.map AttachmentReconcileEntry.ipcSessionToken)).run rows
  (rows, upserted, downgraded)

def missingDaemonId : ApiError where
  code := "missing_daemon_id"
  message := "X-CueAPI-Daemon-Id header is required on this endpoint. Generate a UUID at daemon " ++
    "install time and send it on every attach/reconcile/delete."
  status := 400

def invalidDaemonId : ApiError :=
  ⟨"invalid_daemon_id", "X-CueAPI-Daemon-Id must be a valid UUID.", 400⟩

def daemonIdMismatch : ApiError where
  code := "daemon_id_mismatch"
  message := "X-CueAPI-Daemon-Id header and body.daemon_id must match. Both identify the same " ++
    "calling daemon."
  status := 400

section

-- Python's `UUID(raw.strip())`, `none` where it raises
variable (uuid : String → Option Uuid)

def parseDaemonId (raw : Option String) : Except ApiError Uuid :=
  match raw.filter (· ≠ "") with
  | none => .error missingDaemonId
  | some raw =>
      match uuid raw with
      | none => .error invalidDaemonId
      | some daemonId => .ok daemonId

/-- `post_reconcile_attachments` of an authenticated user, who is not asked for again. -/
def postReconcileAttachments (_user : UserId) (header : Option String)
    (body : AttachmentReconcileRequest) (now : Time) (db : Database) :
    Except ApiError AttachmentReconcileResponse × Database :=
  match parseDaemonId uuid header with
  | .error e => (.error e, db)
  | .ok daemonId =>
      if daemonId ≠ body.daemonId then (.error daemonIdMismatch, db)
      else
        let (sessions, upserted, downgraded) :=
          reconcileAttachments daemonId now body.attachments db.sessions
        (.ok ⟨daemonId, body.reconciledAt, upserted, downgraded⟩, { db with sessions })

/-- The attachment of an agent of the user. -/
def Database.owns (db : Database) (user : UserId) (r : AgentLiveSession) : Bool :=
  db.userId r.agentId = user

/-- The attachments of the user's agents, and those of others. -/
def Database.own (db : Database) (user : UserId) : Database :=
  { db with sessions := db.sessions.filter (db.owns user) }

def Database.foreign (db : Database) (user : UserId) : Database :=
  { db with sessions := db.sessions.filter fun r => !db.owns user r }

/-- The request changes no attachment of another user's agent, and its response is the one without
those. -/
structure Isolated (user : UserId) (header : Option String) (body : AttachmentReconcileRequest)
    (now : Time) (db : Database) : Prop where
  kept : (postReconcileAttachments uuid user header body now db).2.foreign user = db.foreign user
  blind : (postReconcileAttachments uuid user header body now db).1 =
    (postReconcileAttachments uuid user header body now (db.own user)).1

/-- Any two states that differ only in such attachments get one response. -/
theorem Isolated.same {user : UserId} {header : Option String} {body : AttachmentReconcileRequest}
    {now : Time} {db db' : Database} (h : Isolated uuid user header body now db)
    (h' : Isolated uuid user header body now db') (heq : db.own user = db'.own user) :
    (postReconcileAttachments uuid user header body now db).1 =
      (postReconcileAttachments uuid user header body now db').1 := by
  rw [h.blind, h'.blind, heq]

end

/-- The UPDATEs of the request. -/
def updates (daemonId : Uuid) (now : Time) (attachments : List AttachmentReconcileEntry) :
    List (Update AgentLiveSession) :=
  attachments.map (upsert daemonId now) ++
    [downgrade daemonId (attachments.map AttachmentReconcileEntry.ipcSessionToken)]

/-- No attachment of another user's agent has what an UPDATE of the request looks for, unless the
request is refused. -/
def OutOfReach (uuid : String → Option Uuid) (user : UserId) (header : Option String)
    (body : AttachmentReconcileRequest) (now : Time) (db : Database) : Prop :=
  parseDaemonId uuid header = .ok body.daemonId →
    ∀ r ∈ db.sessions, db.userId r.agentId ≠ user →
      ∀ u ∈ updates body.daemonId now body.attachments, u.hits r = false

section

variable (daemonId : Uuid) (now : Time) (attachments : List AttachmentReconcileEntry)
  (db : Database) (user : UserId)

/-- No UPDATE moves an attachment to another agent. -/
theorem updates_keep : Bulk.Keeps (db.owns user) (updates daemonId now attachments) := by
  intro u hu r
  rcases List.mem_append.mp hu with hu | hu
  · obtain ⟨entry, -, rfl⟩ := List.mem_map.mp hu
    rfl
  · obtain rfl := List.mem_singleton.mp hu
    rfl

theorem reconcile_runAll (sessions : List AgentLiveSession) :
    runAll (updates daemonId now attachments) sessions =
      ((reconcileAttachments daemonId now attachments sessions).1,
        (reconcileAttachments daemonId now attachments sessions).2.1 +
          (reconcileAttachments daemonId now attachments sessions).2.2) := by
  simp [updates, Bulk.runAll_append, reconcileAttachments, runAll]

/-- Each row count is that of the user's attachments and that of the others. -/
theorem reconcile_counts :
    let r := (reconcileAttachments daemonId now attachments db.sessions).2
    let own := (reconcileAttachments daemonId now attachments (db.own user).sessions).2
    let foreign := (reconcileAttachments daemonId now attachments (db.foreign user).sessions).2
    r.1 = own.1 + foreign.1 ∧ r.2 = own.2 + foreign.2 := by
  have hkeep : Bulk.Keeps (db.owns user) (attachments.map (upsert daemonId now)) :=
    fun u hu => updates_keep daemonId now attachments db user u (List.mem_append_left _ hu)
  refine ⟨Bulk.runAll_count hkeep, ?_⟩
  simp only [reconcileAttachments, Database.own, Database.foreign]
  rw [Bulk.run_count (db.owns user), Bulk.runAll_filter hkeep, Bulk.runAll_filter hkeep.compl]

theorem foreign_reached :
    (reconcileAttachments daemonId now attachments (db.foreign user).sessions).2.1 = 0 ∧
      (reconcileAttachments daemonId now attachments (db.foreign user).sessions).2.2 = 0 ↔
    ∀ r ∈ db.sessions, db.userId r.agentId ≠ user →
      ∀ u ∈ updates daemonId now attachments, u.hits r = false := by
  have hsum : _ = _ + _ := congrArg Prod.snd
    (reconcile_runAll daemonId now attachments (db.foreign user).sessions)
  rw [← Nat.add_eq_zero_iff, ← hsum, Bulk.runAll_zero]
  simp only [Database.foreign, Database.owns, List.mem_filter, Bool.not_eq_true',
    decide_eq_false_iff_not, and_imp]

/-- The rows of the others stay when no UPDATE counts one. -/
theorem foreign_stays
    (h : (reconcileAttachments daemonId now attachments (db.foreign user).sessions).2.1 = 0 ∧
      (reconcileAttachments daemonId now attachments (db.foreign user).sessions).2.2 = 0) :
    (reconcileAttachments daemonId now attachments db.sessions).1.filter
      (fun r => !db.owns user r) = (db.foreign user).sessions := by
  have hrun (sessions : List AgentLiveSession) :=
    congrArg Prod.fst (reconcile_runAll daemonId now attachments sessions)
  have hidle : (runAll (updates daemonId now attachments) (db.foreign user).sessions).2 = 0 := by
    rw [reconcile_runAll, h.1, h.2]
  rw [← hrun, Bulk.runAll_filter (updates_keep daemonId now attachments db user).compl]
  exact Bulk.runAll_idle hidle

end

variable {uuid : String → Option Uuid} {user : UserId} {header : Option String}
  {body : AttachmentReconcileRequest} {now : Time} {db : Database}

/-- A request that is refused. -/
theorem post_refused (h : parseDaemonId uuid header ≠ .ok body.daemonId) : ∃ e, ∀ db,
    postReconcileAttachments uuid user header body now db = (.error e, db) := by
  cases hparse : parseDaemonId uuid header with
  | error e => exact ⟨e, fun db => by simp [postReconcileAttachments, hparse]⟩
  | ok daemonId =>
    have hne : daemonId ≠ body.daemonId := fun heq => h (by rw [hparse, heq])
    exact ⟨daemonIdMismatch, fun db => by simp [postReconcileAttachments, hparse, hne]⟩

/-- Reconciling is confined to the user's agents exactly when no attachment of another user's agent
has the daemon id together with a reported label and token, or with the transport and a token that is
not reported. -/
theorem reconcile_isolated_iff : Isolated uuid user header body now db ↔
    OutOfReach uuid user header body now db := by
  by_cases hparse : parseDaemonId uuid header = .ok body.daemonId
  · have hpost (db : Database) : postReconcileAttachments uuid user header body now db =
        (.ok ⟨body.daemonId, body.reconciledAt,
            (reconcileAttachments body.daemonId now body.attachments db.sessions).2.1,
            (reconcileAttachments body.daemonId now body.attachments db.sessions).2.2⟩,
          { db with sessions :=
            (reconcileAttachments body.daemonId now body.attachments db.sessions).1 }) := by
      simp [postReconcileAttachments, hparse]
    have hcounts := reconcile_counts body.daemonId now body.attachments db user
    rw [OutOfReach, imp_iff_right hparse, ← foreign_reached]
    constructor
    · rintro ⟨-, hblind⟩
      rw [hpost, hpost] at hblind
      simp only [Except.ok.injEq, AttachmentReconcileResponse.mk.injEq, true_and] at hblind
      omega
    · intro hzero
      refine ⟨?_, ?_⟩
      · rw [hpost]
        exact congrArg (Database.mk db.userId)
          (foreign_stays body.daemonId now body.attachments db user hzero)
      · rw [hpost, hpost]
        simp only [Except.ok.injEq, AttachmentReconcileResponse.mk.injEq, true_and]
        omega
  · obtain ⟨e, he⟩ := @post_refused uuid user header body now hparse
    have hrefused : Isolated uuid user header body now db := by
      constructor
      · rw [he]
      · rw [he, he]
    exact iff_of_true hrefused fun h => absurd h hparse

/-- User 2 sends the daemon id of user 1 and no attachments: the attachment of user 1 is downgraded,
and counted in the response. -/
theorem foreign_attachment_downgraded :
    let row : AgentLiveSession := ⟨1, 10, "main", "task", some "01HX0000000000000000000000", .ipc,
      some 7, some 0, none⟩
    let db : Database := ⟨fun _ => 1, [row]⟩
    let header := some "00000000-0000-0000-0000-000000000007"
    let post := postReconcileAttachments (fun _ => some 7) 2 header ⟨7, 5, []⟩ 6
    (post db).2.foreign 2 = ⟨db.userId, [{ row with transport := .poll }]⟩ ∧
      db.own 2 = (⟨db.userId, []⟩ : Database).own 2 ∧
      (post db).1 = .ok ⟨7, 5, 0, 1⟩ ∧ (post ⟨db.userId, []⟩).1 = .ok ⟨7, 5, 0, 0⟩ ∧
      ¬ Isolated (fun _ => some 7) 2 header ⟨7, 5, []⟩ 6 db := by
  refine ⟨rfl, rfl, rfl, rfl, fun h => ?_⟩
  have hblind := h.blind
  revert hblind
  decide

end CueApi.Reconcile
