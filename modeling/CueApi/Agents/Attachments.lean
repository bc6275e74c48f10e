import CueApi.Agents.LiveSessions
import CueApi.Library.TextColumns

/-! The attachments of `app/services/ipc_attachment_service.py` and the sessions of
`app/routers/agent_live_sessions.py`, which share a table: what a creation meets after any history of
calls of both. -/

namespace CueApi.Attachments

open Scheduler (Time UserId)
open Messages (AgentId MsgTables)
open Reconcile (AttachmentReconcileEntry Transport Uuid upsert downgrade)
open LiveSessions (LiveSessionUpdateRequest Surroundings UniqueIndexes active labelled patchLiveSession)
open TextColumns (HasNul)

/-! ## The table -/

/-- A row with the columns of the attachments. -/
structure AgentLiveSession extends LiveSessions.AgentLiveSession where
  ipcSessionToken : Option String := none
  transport : Transport := .poll
  daemonId : Option Uuid := none
  lastReconciledAt : Option Time := none
  deriving DecidableEq, Repr

abbrev columns (rows : List AgentLiveSession) : List LiveSessions.AgentLiveSession :=
  rows.map AgentLiveSession.toAgentLiveSession

def Indexed (rows : List AgentLiveSession) : Prop := UniqueIndexes (columns rows)

instance : DecidablePred Indexed := fun rows =>
  inferInstanceAs (Decidable (UniqueIndexes (columns rows)))

abbrev Sessions : Type := IndexedRows.Table Indexed

theorem indexed_nil : Indexed [] := by decide

/-- The indexes, on the rows themselves. -/
theorem indexed_iff (rows : List AgentLiveSession) : Indexed rows ↔
    (rows.map fun r => r.id).Nodup ∧ (rows.map fun r => r.cueId).Nodup ∧
    ((rows.filter fun r => r.isDefault && active r.toAgentLiveSession).map fun r => r.agentId).Nodup ∧
    ((rows.filter fun r => active r.toAgentLiveSession).map fun r => (r.agentId, r.label)).Nodup := by
  constructor
  · rintro ⟨hid, hcue, hdefault, hlabel⟩
    simp only [columns, List.filter_map, List.map_map] at hid hcue hdefault hlabel
    exact ⟨hid, hcue, hdefault, hlabel⟩
  · rintro ⟨hid, hcue, hdefault, hlabel⟩
    refine ⟨?_, ?_, ?_, ?_⟩ <;> simp only [columns, List.filter_map, List.map_map] <;> assumption

def noSessions : Sessions := ⟨[], indexed_nil⟩

/-! ## Statements -/

inductive Failure
  | uniqueViolation | dataError | multipleResultsFound
  deriving DecidableEq, Repr

/-- The texts of a statement; no parameter can hold a NUL. -/
def bindTexts (texts : List String) : Except Failure Unit :=
  if texts.any (HasNul ·) then .error .dataError else .ok ()

def scalarOneOrNone : List AgentLiveSession → Except Failure (Option AgentLiveSession)
  | [] => .ok none
  | [r] => .ok (some r)
  | _ => .error .multipleResultsFound

def texts (r : AgentLiveSession) : List String :=
  [r.label, r.cueId, r.taskName] ++ r.monitorVersion.toList ++ r.sessionToken.toList ++
    r.ipcSessionToken.toList

def insertRow (r : AgentLiveSession) (t : Sessions) : Except Failure Sessions := do
  bindTexts (texts r)
  match IndexedRows.insert r t with
  | none => .error .uniqueViolation
  | some t => .ok t

def rowId (r : AgentLiveSession) : Uuid := r.id

def detachAt (now : Time) (r : AgentLiveSession) : AgentLiveSession :=
  { r with detachedAt := some now }

/-- The flush of `row.detached_at = now`. -/
def detachRow (i : Uuid) (now : Time) (t : Sessions) : Except Failure Sessions :=
  match IndexedRows.setRows rowId (detachAt now) [i] t with
  | none => .error .uniqueViolation
  | some t => .ok t

/-! ## `ipc_attachment_service` -/

structure AttachmentCreate where
  label : String
  taskName : String
  ipcSessionToken : String
  attachedAt : Option Time := none
  monitorVersion : Option String := none
  deriving DecidableEq, Repr

inductive Status
  | created | conflictCrossDaemon
  deriving DecidableEq, Repr

structure AttachmentCreateResult where
  status : Status
  row : Option AgentLiveSession := none
  existing : Option AgentLiveSession := none
  supersedesToken : Option String := none
  deriving DecidableEq, Repr

/-- The row of an attachment; its token stands in for the id of a cue. -/
def attachmentRow (i : Uuid) (agent : AgentId) (body : AttachmentCreate) (daemonId : Uuid)
    (now : Time) (isDefault : Bool) : AgentLiveSession where
  id := i
  agentId := agent
  label := body.label
  taskName := body.taskName
  cueId := body.ipcSessionToken
  isDefault := isDefault
  attachedAt := some now
  ipcSessionToken := some body.ipcSessionToken
  transport := .ipc
  daemonId := some daemonId
  lastReconciledAt := some now
  monitorVersion := body.monitorVersion

/-- `create_attachment` and the commit of its route; the new row has the id `i`, and a flush writes the
UPDATE before the INSERT. -/
def createAttachment (i : Uuid) (agent : AgentId) (body : AttachmentCreate) (daemonId : Uuid)
    (utcNow : Time) (t : Sessions) : Except Failure (AttachmentCreateResult × Sessions) := do
  let now := body.attachedAt.getD utcNow
  bindTexts [body.label]
  let existing ← scalarOneOrNone (t.1.filter fun r => labelled agent body.label r.toAgentLiveSession)
  match existing with
  | some existing =>
      if existing.daemonId = some daemonId then do
        let newRow := attachmentRow i agent body daemonId now existing.isDefault
        let t ← detachRow existing.id now t
        let t ← insertRow newRow t
        return ({ status := .created, row := some newRow,
                  supersedesToken := existing.ipcSessionToken }, t)
      else return ({ status := .conflictCrossDaemon, existing := some existing }, t)
  | none => do
      let newRow := attachmentRow i agent body daemonId now (body.label = "main")
      let t ← insertRow newRow t
      return ({ status := .created, row := some newRow }, t)

/-- `delete_attachment` and the commit of its route. -/
def deleteAttachment (agent : AgentId) (ipcSessionToken : String) (daemonId : Uuid) (now : Time)
    (t : Sessions) : Except Failure (Bool × Sessions) := do
  bindTexts [ipcSessionToken]
  let row ← scalarOneOrNone (t.1.filter fun r => r.agentId = agent &&
    r.ipcSessionToken = some ipcSessionToken && r.daemonId = some daemonId &&
    active r.toAgentLiveSession)
  match row with
  | none => return (false, t)
  | some row => do
      let t ← detachRow row.id now t
      return (true, t)

/-- The columns that a reconciliation reads or writes. -/
def reported (r : AgentLiveSession) : Reconcile.AgentLiveSession where
  id := r.id
  agentId := r.agentId
  label := r.label
  taskName := r.taskName
  ipcSessionToken := r.ipcSessionToken
  transport := r.transport
  daemonId := r.daemonId
  lastReconciledAt := r.lastReconciledAt
  detachedAt := r.detachedAt

def withReported (r : AgentLiveSession) (x : Reconcile.AgentLiveSession) : AgentLiveSession :=
  { r with
    id := x.id
    agentId := x.agentId
    label := x.label
    taskName := x.taskName
    detachedAt := x.detachedAt
    ipcSessionToken := x.ipcSessionToken
    transport := x.transport
    daemonId := x.daemonId
    lastReconciledAt := x.lastReconciledAt }

/-- The UPDATEs of `reconcile_attachments`. -/
def reconcileUpdates (daemonId : Uuid) (now : Time) (attachments : List AttachmentReconcileEntry) :
    List (Bulk.Update AgentLiveSession) :=
  (attachments.map (upsert daemonId now) ++
    [downgrade daemonId (attachments.map AttachmentReconcileEntry.ipcSessionToken)]).map
      fun u => u.on reported withReported

theorem reported_withReported (r : AgentLiveSession) (x : Reconcile.AgentLiveSession) :
    reported (withReported r x) = x := rfl

/-- On these columns they are those of the model of reconciliations. -/
theorem reconcileUpdates_reported (daemonId : Uuid) (now : Time)
    (attachments : List AttachmentReconcileEntry) (rows : List AgentLiveSession) :
    (Bulk.runAll (reconcileUpdates daemonId now attachments) rows).1.map reported =
      (Reconcile.reconcileAttachments daemonId now attachments (rows.map reported)).1 := by
  have hon := congrArg Prod.fst (Bulk.runAll_on reported_withReported
    (attachments.map (upsert daemonId now) ++
      [downgrade daemonId (attachments.map AttachmentReconcileEntry.ipcSessionToken)]) rows)
  refine hon.trans ?_
  rw [Bulk.runAll_append]
  rfl

theorem map_reconcileUpdates {β : Type} {f : AgentLiveSession → β} {daemonId : Uuid} {now : Time}
    {attachments : List AttachmentReconcileEntry} (rows : List AgentLiveSession)
    (hf : ∀ u ∈ reconcileUpdates daemonId now attachments, ∀ r, f (u.set r) = f r) :
    (Bulk.runAll (reconcileUpdates daemonId now attachments) rows).1.map f = rows.map f := by
  rw [Bulk.runAll_follow, List.map_map]
  exact List.map_congr_left fun r _ => Bulk.follow_keeps hf

/-- The columns of a row that the indexes are on. -/
def indexColumns (r : AgentLiveSession) : Uuid × AgentId × String × String × Bool × Option Time :=
  (r.id, r.agentId, r.label, r.cueId, r.isDefault, r.detachedAt)

/-- The indexes hold of rows with the same columns. -/
theorem indexed_of_columns {rows rows' : List AgentLiveSession}
    (h : rows'.map indexColumns = rows.map indexColumns) (hi : Indexed rows) : Indexed rows' := by
  have hmap {β : Type} (f : Uuid × AgentId × String × String × Bool × Option Time → β) :
      rows'.map (f ∘ indexColumns) = rows.map (f ∘ indexColumns) := by
    rw [← List.map_map, h, List.map_map]
  have hfilter {β : Type} (p : Uuid × AgentId × String × String × Bool × Option Time → Bool)
      (f : Uuid × AgentId × String × String × Bool × Option Time → β) :
      (rows'.filter (p ∘ indexColumns)).map (f ∘ indexColumns) =
        (rows.filter (p ∘ indexColumns)).map (f ∘ indexColumns) := by
    rw [← List.map_map, ← List.filter_map, h, List.filter_map, List.map_map]
  obtain ⟨hid, hcue, hdefault, hlabel⟩ := (indexed_iff rows).mp hi
  refine (indexed_iff rows').mpr ⟨?_, ?_, ?_, ?_⟩
  · exact (hmap (·.1)).symm ▸ hid
  · exact (hmap (·.2.2.2.1)).symm ▸ hcue
  · exact (hfilter (fun c => c.2.2.2.2.1 && c.2.2.2.2.2.isNone) (·.2.1)).symm ▸ hdefault
  · exact (hfilter (fun c => c.2.2.2.2.2.isNone) (fun c => (c.2.1, c.2.2.1))).symm ▸ hlabel

theorem reconcileUpdates_keeps {β : Type} {f : AgentLiveSession → β}
    (hf : ∀ (r : AgentLiveSession) task transport at_,
      f { r with taskName := task, transport := transport, lastReconciledAt := at_ } = f r)
    {daemonId : Uuid} {now : Time} {attachments : List AttachmentReconcileEntry} :
    ∀ u ∈ reconcileUpdates daemonId now attachments, ∀ r, f (u.set r) = f r := by
  intro u hu r
  obtain ⟨v, hv, rfl⟩ := List.mem_map.mp hu
  rcases List.mem_append.mp hv with hv | hv
  · obtain ⟨entry, -, rfl⟩ := List.mem_map.mp hv
    exact hf r entry.taskName .ipc (some now)
  · obtain rfl := List.mem_singleton.mp hv
    exact hf r r.taskName .poll r.lastReconciledAt

theorem indexed_reconciled (daemonId : Uuid) (now : Time)
    (attachments : List AttachmentReconcileEntry) (t : Sessions) :
    Indexed (Bulk.runAll (reconcileUpdates daemonId now attachments) t.1).1 :=
  indexed_of_columns (map_reconcileUpdates t.1 (reconcileUpdates_keeps fun _ _ _ _ => rfl)) t.2

/-- `reconcile_attachments` and the commit of its route. -/
def reconcileAttachments (daemonId : Uuid) (now : Time)
    (attachments : List AttachmentReconcileEntry) (t : Sessions) : Sessions :=
  ⟨_, indexed_reconciled daemonId now attachments t⟩

/-! ## `agent_live_sessions` -/

structure LiveSessionRegisterRequest where
  label : String
  cueId : String
  taskName : String
  isDefault : Bool := false
  monitorVersion : Option String := none
  sessionToken : Option String := none
  deriving DecidableEq, Repr

/-- `register_live_session` for an agent that the user owns; an `IntegrityError` is a 409. -/
def registerLiveSession (i : Uuid) (agent : AgentId) (body : LiveSessionRegisterRequest) (now : Time)
    (t : Sessions) : Except Failure Sessions :=
  insertRow
    { id := i
      agentId := agent
      label := body.label
      cueId := body.cueId
      taskName := body.taskName
      isDefault := body.isDefault
      attachedAt := some now
      lastHeartbeat := some now
      monitorVersion := body.monitorVersion
      sessionToken := body.sessionToken } t

def detachment (agent : AgentId) (label : String) (now : Time) : Bulk.Update AgentLiveSession where
  hits r := labelled agent label r.toAgentLiveSession
  set r := { r with detachedAt := some now, isDefault := false }

/-- `detach_live_session` for an agent that the user owns; without a row it is a 404. -/
def detachLiveSession (scan : IndexedRows.Scan Uuid) (agent : AgentId) (label : String) (now : Time)
    (t : Sessions) : Except Failure Sessions := do
  bindTexts [label]
  match IndexedRows.update rowId scan (detachment agent label now) t with
  | none => .error .uniqueViolation
  | some (rows, t') => do
      let row ← scalarOneOrNone rows
      return if row.isSome then t' else t

/-- The rows with new values in the columns of sessions. -/
def rejoin (rows : List AgentLiveSession) (live : List LiveSessions.AgentLiveSession) :
    List AgentLiveSession :=
  rows.zipWith (fun r l => { r with toAgentLiveSession := l }) live

/-- Such values as an UPDATE leaves; it comes to as many rows as there are. -/
def withColumns (t : Sessions) (live : LiveSessions.Sessions) : Sessions :=
  if h : Indexed (rejoin t.1 live.1) then ⟨_, h⟩ else t

/-- `patch_live_session` on the columns of sessions. -/
def patched (around : Surroundings) (messaging : MsgTables) (user : UserId) (ref label : String)
    (body : LiveSessionUpdateRequest) (now : Time) (t : Sessions) : LiveSessions.Sessions :=
  (UnitOfWork.request (patchLiveSession around user ref label body now)
    ⟨messaging, ⟨columns t.1, t.2⟩⟩).2.stored.sessions

/-! ## Histories -/

inductive Call
  | register (i : Uuid) (agent : AgentId) (body : LiveSessionRegisterRequest) (now : Time)
  | detach (scan : IndexedRows.Scan Uuid) (agent : AgentId) (label : String) (now : Time)
  | patch (around : Surroundings) (messaging : MsgTables) (user : UserId) (ref label : String)
      (body : LiveSessionUpdateRequest) (now : Time)
  | create (i : Uuid) (agent : AgentId) (body : AttachmentCreate) (daemonId : Uuid) (now : Time)
  | delete (agent : AgentId) (token : String) (daemonId : Uuid) (now : Time)
  | reconcile (daemonId : Uuid) (now : Time) (attachments : List AttachmentReconcileEntry)

/-- The table after a call; one that fails is rolled back. -/
def Call.run (t : Sessions) : Call → Sessions
  | .register i agent body now => (registerLiveSession i agent body now t).toOption.getD t
  | .detach scan agent label now => (detachLiveSession scan agent label now t).toOption.getD t
  | .patch around messaging user ref label body now =>
      withColumns t (patched around messaging user ref label body now t)
  | .create i agent body daemonId now =>
      ((createAttachment i agent body daemonId now t).toOption.map Prod.snd).getD t
  | .delete agent token daemonId now =>
      ((deleteAttachment agent token daemonId now t).toOption.map Prod.snd).getD t
  | .reconcile daemonId now attachments => reconcileAttachments daemonId now attachments t

def history (calls : List Call) : Sessions := calls.foldl Call.run noSessions

/-! ## What a creation should do -/

/-- An active row of the agent under the label. -/
def holds (agent : AgentId) (label : String) (r : AgentLiveSession) : Bool :=
  labelled agent label r.toAgentLiveSession

/-- At most one active row per label and one default per agent. -/
structure OneEach (t : Sessions) : Prop where
  label : ∀ r ∈ t.1, ∀ r' ∈ t.1, active r.toAgentLiveSession → active r'.toAgentLiveSession →
    r.agentId = r'.agentId → r.label = r'.label → r = r'
  default : ∀ r ∈ t.1, ∀ r' ∈ t.1, active r.toAgentLiveSession → active r'.toAgentLiveSession →
    r.agentId = r'.agentId → r.isDefault → r'.isDefault → r = r'

variable {rows rows' : List AgentLiveSession} {r : AgentLiveSession} {t t' : Sessions}
variable {i : Uuid} {agent : AgentId} {label token : String} {body : AttachmentCreate}
variable {daemonId : Uuid} {now utcNow : Time}

/-! ## Statements that succeed -/

/-- The token of an attachment is the id of its cue. -/
def TokensAreCues (rows : List AgentLiveSession) : Prop :=
  ∀ r ∈ rows, ∀ token, r.ipcSessionToken = some token → r.cueId = token

theorem TokensAreCues.append (ht : TokensAreCues rows)
    (hr : ∀ token, r.ipcSessionToken = some token → r.cueId = token) : TokensAreCues (rows ++ [r]) := by
  intro x hx
  rcases List.mem_append.mp hx with hx | hx
  · exact ht x hx
  · obtain rfl := List.mem_singleton.mp hx
    exact hr

/-- The columns of a session that a PATCH does not write. -/
def unpatched (r : LiveSessions.AgentLiveSession) : LiveSessions.AgentLiveSession :=
  { r with isDefault := false, sessionToken := none }

section Patch

open UnitOfWork

variable {around : Surroundings} {db : LiveSessions.Database} {ref : String}
variable {s : Session LiveSessions.Database Unit} {base : List LiveSessions.AgentLiveSession}

/-- What a transaction sees, but for what a PATCH writes. -/
def Sees (base : List LiveSessions.AgentLiveSession) (s : Session LiveSessions.Database Unit) : Prop :=
  s.working.sessions.1.map unpatched = base

theorem updateSessions_sees {statement : LiveSessions.Statement}
    {u : Bulk.Update LiveSessions.AgentLiveSession}
    {Q : List LiveSessions.AgentLiveSession → Session LiveSessions.Database Unit → Prop}
    (hu : ∀ r, unpatched (u.set r) = unpatched r) (hs : s.stored = db) (hw : Sees base s)
    (hQ : ∀ returned s', s'.stored = db → Sees base s' → Q returned s') :
    Ends (Kept db) Q (LiveSessions.updateSessions around statement u) s := by
  refine LiveSessions.updateSessions_ends hs fun returned t' hupdate => hQ _ _ hs ?_
  exact (IndexedRows.map_update hu hupdate).trans hw

theorem rotateToken_sees (sessionToken : Option String) (hs : s.stored = db) (hw : Sees base s) :
    Ends (Kept db) (fun _ s' => s'.stored = db ∧ Sees base s')
      (LiveSessions.rotateToken around agent ref label sessionToken) s := by
  cases sessionToken with
  | none => exact ends_pure.mpr ⟨hs, hw⟩
  | some token =>
    refine ends_bind.mpr (updateSessions_sees (fun _ => rfl) hs hw fun returned s' hs' hw' => ?_)
    refine ends_bind.mpr (LiveSessions.scalarOneOrNone_ends hs' (ends_throw.mpr hs') fun r hr => ?_)
    exact ends_pure.mpr ⟨hs', hw'⟩

theorem flipDefault_sees (isDefault : Option Bool) (hs : s.stored = db) (hw : Sees base s) :
    Ends (Kept db) (fun _ s' => s'.stored = db ∧ Sees base s')
      (LiveSessions.flipDefault around agent ref label isDefault) s := by
  unfold LiveSessions.flipDefault
  split
  · refine ends_bind.mpr (updateSessions_sees (fun _ => rfl) hs hw fun returned s' hs' hw' => ?_)
    split
    · exact ends_bind.mpr (ends_rollback.mpr (ends_throw.mpr hs'))
    · exact ends_pure.mpr ⟨hs', hw'⟩
  · exact ends_pure.mpr ⟨hs, hw⟩

/-- A PATCH that ends well stores what it saw. -/
theorem patchLiveSession_sees (db : LiveSessions.Database) (user : UserId) (body : LiveSessionUpdateRequest) (now : Time) :
    Ends (fun _ _ => True) (fun _ s' => s'.stored.sessions.1.map unpatched =
      db.sessions.1.map unpatched) (patchLiveSession around user ref label body now) (start db) := by
  refine ends_bind.mpr ((LiveSessions.getOwnedAgent_ends user rfl).mono (fun _ _ _ => trivial) ?_)
  rintro agent s rfl
  split
  · exact ends_throw.mpr trivial
  · split
    · exact ends_throw.mpr trivial
    · refine ends_bind.mpr ((rotateToken_sees body.sessionToken rfl rfl).mono (fun _ _ _ => trivial) ?_)
      rintro - s ⟨hs, hw⟩
      refine ends_bind.mpr ((flipDefault_sees body.isDefault hs hw).mono (fun _ _ _ => trivial) ?_)
      rintro - s ⟨hs, hw⟩
      have hflush : (s.object.elim (.ok s.working) fun _ => .ok s.working :
          Except FailedEdits.Failure LiveSessions.Database) = .ok s.working := by
        cases s.object <;> rfl
      refine ends_bind.mpr ((ends_commit_ok hflush).mpr (ends_bind.mpr (ends_select.mpr ?_)))
      refine ends_bind.mpr ((LiveSessions.scalarOneOrNone_ends
        (Q := fun _ s' => s'.stored = s.working) (rfl : _ = s.working) rfl fun _ _ => rfl).mono (fun _ _ _ => trivial) ?_)
      rintro row s' hstored
      split
      · exact ends_throw.mpr trivial
      · refine ends_pure.mpr ?_
        rw [hstored]
        exact hw

theorem patched_unpatched (around : Surroundings) (messaging : MsgTables) (user : UserId)
    (ref label : String) (body : LiveSessionUpdateRequest) (now : Time) (t : Sessions) :
    (patched around messaging user ref label body now t).1.map unpatched =
      (columns t.1).map unpatched := by
  let db : LiveSessions.Database := ⟨messaging, ⟨columns t.1, t.2⟩⟩
  cases hend : (request (patchLiveSession around user ref label body now) db).1 with
  | error e =>
    have hkept := request_unchanged (LiveSessions.patchLiveSession_ends user body now) hend
    exact congrArg (fun s => s.stored.sessions.1.map unpatched) hkept
  | ok entry => exact (patchLiveSession_sees db user body now).2 entry hend

end Patch

/-- The columns that come back are those that were set. -/
theorem columns_rejoin {live : List LiveSessions.AgentLiveSession} (h : live.length = rows.length) :
    columns (rejoin rows live) = live := by
  induction rows generalizing live with
  | nil =>
    rw [List.length_eq_zero_iff.mp h]
    rfl
  | cons r rows ih =>
    cases live with
    | nil => cases h
    | cons l live => exact congrArg (List.cons l) (ih (Nat.succ.inj h))

section Patched

variable (around : Surroundings) (messaging : MsgTables) (user : UserId) (ref label : String)
variable (patch : LiveSessionUpdateRequest) (now : Time) (t : Sessions)

theorem columns_rejoin_patched :
    columns (rejoin t.1 (patched around messaging user ref label patch now t).1) =
      (patched around messaging user ref label patch now t).1 := by
  have hlength := congrArg List.length (patched_unpatched around messaging user ref label patch now t)
  rw [List.length_map, List.length_map, List.length_map] at hlength
  exact columns_rejoin hlength

theorem withColumns_rows : (withColumns t (patched around messaging user ref label patch now t)).1 =
    rejoin t.1 (patched around messaging user ref label patch now t).1 := by
  have hindexed : Indexed (rejoin t.1 (patched around messaging user ref label patch now t).1) := by
    rw [Indexed, columns_rejoin_patched]
    exact (patched around messaging user ref label patch now t).2
  unfold withColumns
  rw [dif_pos hindexed]

/-- A PATCH leaves the columns that its request stores. -/
theorem withColumns_patched :
    columns (withColumns t (patched around messaging user ref label patch now t)).1 =
      (patched around messaging user ref label patch now t).1 := by
  rw [withColumns_rows, columns_rejoin_patched]

end Patched

theorem oneEach (t : Sessions) : OneEach t := by
  obtain ⟨hid, -, hdefault, hlabel⟩ := (indexed_iff t.1).mp t.2
  have hrows : t.1.Nodup := hid.of_map
  constructor
  · intro r hr r' hr' ha ha' hagent hsame
    exact List.inj_on_of_nodup_map hlabel (List.mem_filter.mpr ⟨hr, ha⟩)
      (List.mem_filter.mpr ⟨hr', ha'⟩) (Prod.ext hagent hsame)
  · intro r hr r' hr' ha ha' hagent hd hd'
    exact List.inj_on_of_nodup_map hdefault (List.mem_filter.mpr ⟨hr, by simp [ha, hd]⟩)
      (List.mem_filter.mpr ⟨hr', by simp [ha', hd']⟩) hagent

theorem holds_iff : holds agent label r = true ↔
    r.agentId = agent ∧ r.label = label ∧ active r.toAgentLiveSession = true := by
  simp [holds, labelled, and_assoc]

/-- The label is free, or one row has it. -/
theorem holders (agent : AgentId) (label : String) (t : Sessions) :
    (t.1.filter (holds agent label) = [] ∧ ∀ r ∈ t.1, holds agent label r = false) ∨
      ∃ existing ∈ t.1, holds agent label existing = true ∧
        t.1.filter (holds agent label) = [existing] ∧
        ∀ r ∈ t.1, holds agent label r = true → r = existing := by
  have hone := (oneEach t).label
  have hrows : t.1.Nodup := ((indexed_iff t.1).mp t.2).1.of_map
  cases hfilter : t.1.filter (holds agent label) with
  | nil =>
    refine .inl ⟨rfl, fun r hr => ?_⟩
    exact Bool.eq_false_iff.mpr (List.filter_eq_nil_iff.mp hfilter r hr)
  | cons existing rest =>
    have hmem : existing ∈ t.1.filter (holds agent label) := hfilter ▸ List.mem_cons_self
    obtain ⟨he, hholds⟩ := List.mem_filter.mp hmem
    have hsame (r : AgentLiveSession) (hr : r ∈ t.1) (h : holds agent label r = true) : r = existing := by
      obtain ⟨hagent, hlabel, hactive⟩ := holds_iff.mp h
      obtain ⟨hagent', hlabel', hactive'⟩ := holds_iff.mp hholds
      exact hone r hr existing he hactive hactive' (hagent.trans hagent'.symm)
        (hlabel.trans hlabel'.symm)
    refine .inr ⟨existing, he, hholds, ?_, hsame⟩
    cases rest with
    | nil => rfl
    | cons second rest =>
      have hn : (existing :: second :: rest).Nodup := hfilter ▸ hrows.filter _
      have hsecond : second ∈ t.1.filter (holds agent label) :=
        hfilter ▸ List.mem_cons_of_mem _ List.mem_cons_self
      obtain ⟨hs, hsholds⟩ := List.mem_filter.mp hsecond
      exact absurd (hsame second hs hsholds ▸ List.mem_cons_self) (List.nodup_cons.mp hn).1

/-! ## A creation -/

variable {result : AttachmentCreateResult} {existing : AgentLiveSession}

end CueApi.Attachments
