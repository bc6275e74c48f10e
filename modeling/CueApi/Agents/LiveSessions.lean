import CueApi.Agents.Reconcile
import CueApi.Library.IndexedRows
import CueApi.Messages.PushAddresses
import CueApi.Scheduler.FailedEdits
import CueApi.Scheduler.ScheduleChecks

/-! `patch_live_session` of `app/routers/agent_live_sessions.py`: the rotation of the token and the
flip of the default in one transaction. -/

namespace CueApi.LiveSessions

open Scheduler (Time UserId ApiError seconds)
open Messages (MsgEnv MsgTables AgentId resolveAgent parseAddress)
open Reconcile (Uuid)
open FailedEdits (Failure updateCue updateCue_ends)
open UnitOfWork

/-! ## The table -/

/-- The columns of `agent_live_sessions` that the request or a unique index reads. -/
structure AgentLiveSession where
  id : Uuid
  agentId : AgentId
  label : String
  cueId : String
  taskName : String
  isDefault : Bool := false
  attachedAt : Option Time := none
  detachedAt : Option Time := none
  lastHeartbeat : Option Time := none
  lastClaimAt : Option Time := none
  monitorVersion : Option String := none
  sessionToken : Option String := none
  deriving DecidableEq, Repr

def active (r : AgentLiveSession) : Bool := r.detachedAt.isNone

/-- The primary key and the unique indexes of the table. -/
structure UniqueIndexes (rows : List AgentLiveSession) : Prop where
  primaryKey : (rows.map AgentLiveSession.id).Nodup
  cueId : (rows.map AgentLiveSession.cueId).Nodup
  oneDefaultPerAgent :
    ((rows.filter fun r => r.isDefault && active r).map AgentLiveSession.agentId).Nodup
  labelPerAgent : ((rows.filter active).map fun r => (r.agentId, r.label)).Nodup

instance : DecidablePred UniqueIndexes := fun rows =>
  decidable_of_iff ((rows.map AgentLiveSession.id).Nodup ∧ (rows.map AgentLiveSession.cueId).Nodup ∧
    ((rows.filter fun r => r.isDefault && active r).map AgentLiveSession.agentId).Nodup ∧
    ((rows.filter active).map fun r => (r.agentId, r.label)).Nodup)
    ⟨fun h => ⟨h.1, h.2.1, h.2.2.1, h.2.2.2⟩, fun h => ⟨h.1, h.2, h.3, h.4⟩⟩

abbrev Sessions : Type := IndexedRows.Table UniqueIndexes

structure Database where
  messaging : MsgTables
  sessions : Sessions

/-! ## The request -/

structure LiveSessionUpdateRequest where
  isDefault : Option Bool := none
  sessionToken : Option String := none
  deriving DecidableEq, Repr

structure LiveSessionEntry where
  label : String
  cueId : String
  taskName : String
  isDefault : Bool
  attached : Bool
  heartbeatAgeSec : Option Nat
  lastClaimAt : Option Time
  lastClaimAgeSec : Option Nat
  monitorVersion : Option String
  attachedAt : Option Time
  sessionToken : Option String
  deriving DecidableEq, Repr

/-- `max(0, int((now - t).total_seconds()))`. -/
def ageSec (now t : Time) : Nat := ((now - t) / seconds 1).toNat

/-- `_to_entry`. -/
def toEntry (r : AgentLiveSession) (now : Time) : LiveSessionEntry where
  label := r.label
  cueId := r.cueId
  taskName := r.taskName
  isDefault := r.isDefault
  attached := active r
  heartbeatAgeSec := r.lastHeartbeat.map (ageSec now)
  lastClaimAt := r.lastClaimAt
  lastClaimAgeSec := r.lastClaimAt.map (ageSec now)
  monitorVersion := r.monitorVersion
  attachedAt := r.attachedAt
  sessionToken := r.sessionToken

abbrev PatchWork := Work Database Unit Failure

def refused {α : Type} (e : ApiError) : PatchWork α := throw (.refused e)

def noMutableFields : ApiError where
  code := "no_mutable_fields"
  message := "PATCH requires at least one mutable field set: ``is_default=true`` (atomic flip) or " ++
    "``session_token=<ulid>`` (rotation)."
  status := 400

def invalidDefaultFlip : ApiError where
  code := "invalid_default_flip"
  message := "is_default=false on its own is a no-op; flip another session to is_default=true (the " ++
    "swap is atomic), or DELETE this session to detach it."
  status := 400

/-- The three places where the server may refuse a statement before the commit. -/
inductive Statement
  | resolve | rotate | flip
  deriving DecidableEq, Repr

/-- What the request meets: the parts of the messaging service that read an address, Python's `repr`,
the order of the scans, and where the server refuses a statement. -/
structure Surroundings where
  env : MsgEnv
  letter : Char → Bool
  opaqueId : String → AgentId
  repr : String → String
  scan : IndexedRows.Scan Uuid
  refuses : Statement → Database → Bool

variable (around : Surroundings)

def agentNotFound (ref : String) : ApiError :=
  ⟨"agent_not_found", "Agent " ++ around.repr ref ++ " not found", 404⟩

def liveSessionNotFound (ref label : String) : ApiError where
  code := "live_session_not_found"
  message := "No active session with label " ++ around.repr label ++ " for agent " ++ around.repr ref
  status := 404

/-- `_get_owned_agent`. -/
def getOwnedAgent (user : UserId) (ref : String) : PatchWork AgentId := do
  let agent ← execute fun db =>
    if around.refuses .resolve db then .error .raised
    else match resolveAgent around.env db.messaging
        (parseAddress around.letter around.opaqueId ref) with
      | .error e => .error (.refused e)
      | .ok agent => .ok (agent, db)
  if agent.2.userId ≠ user then refused (agentNotFound around ref)
  else return agent.1

/-- `UPDATE agent_live_sessions … RETURNING`. -/
def updateSessions (statement : Statement) (u : Bulk.Update AgentLiveSession) :
    PatchWork (List AgentLiveSession) :=
  execute fun db =>
    if around.refuses statement db then .error .raised
    else match IndexedRows.update AgentLiveSession.id around.scan u db.sessions with
      | none => .error .raised
      | some (rows, sessions) => .ok (rows, { db with sessions })

/-- Under which label the agent has an active session. -/
def labelled (agent : AgentId) (label : String) (r : AgentLiveSession) : Bool :=
  r.agentId = agent && r.label = label && active r

def rotation (agent : AgentId) (label token : String) : Bulk.Update AgentLiveSession where
  hits := labelled agent label
  set r := { r with sessionToken := some token }

def flip (agent : AgentId) (label : String) : Bulk.Update AgentLiveSession where
  hits r := r.agentId = agent && active r
  set r := { r with isDefault := r.label = label }

/-- `scalar_one_or_none`. -/
def scalarOneOrNone : List AgentLiveSession → PatchWork (Option AgentLiveSession)
  | [] => return none
  | [r] => return some r
  | _ => throw .raised

def rotateToken (agent : AgentId) (ref label : String) (sessionToken : Option String) :
    PatchWork Unit :=
  match sessionToken with
  | none => return ()
  | some token => do
      let rows ← updateSessions around .rotate (rotation agent label token)
      let row? ← scalarOneOrNone rows
      match row? with
      | none => refused (liveSessionNotFound around ref label)
      | some _ => return ()

def flipDefault (agent : AgentId) (ref label : String) (isDefault : Option Bool) : PatchWork Unit :=
  if isDefault = some true then do
    let rows ← updateSessions around .flip (flip agent label)
    match rows.find? fun r => r.label = label with
    | none => do
        rollback
        refused (liveSessionNotFound around ref label)
    | some _ => return ()
  else return ()

/-- `patch_live_session`; nothing is flushed, as the request changes no object. -/
def patchLiveSession (user : UserId) (ref label : String) (body : LiveSessionUpdateRequest)
    (now : Time) : PatchWork LiveSessionEntry := do
  let agent ← getOwnedAgent around user ref
  if body.isDefault = none ∧ body.sessionToken = none then refused noMutableFields
  else if body.isDefault = some false then refused invalidDefaultFlip
  else do
    rotateToken around agent ref label body.sessionToken
    flipDefault around agent ref label body.isDefault
    commit fun _ db => .ok db
    let rows ← select fun db => db.sessions.1.filter (labelled agent label)
    let row? ← scalarOneOrNone rows
    match row? with
    | none => refused (liveSessionNotFound around ref label)
    | some row => return toEntry row now

variable {around} {t t' : Sessions} {agent : AgentId} {ref label token : String}
variable {returned rows : List AgentLiveSession} {r : AgentLiveSession}

/-! ## What the UPDATEs leave -/

/-- The columns that neither UPDATE writes and that say under which label a session is active. -/
def attachment (r : AgentLiveSession) : Uuid × AgentId × String × Option Time :=
  (r.id, r.agentId, r.label, r.detachedAt)

/-- The agent has an active session under the label. -/
def Attached (agent : AgentId) (label : String) (rows : List AgentLiveSession) : Prop :=
  ∃ r ∈ rows, labelled agent label r

theorem labelled_of_attachment {r r' : AgentLiveSession} (h : attachment r = attachment r') :
    labelled agent label r = labelled agent label r' := by
  simp only [attachment, Prod.mk.injEq] at h
  simp only [labelled, active, h]

/-- What the two tables agree on. -/
def SameAttachments (t t' : Sessions) : Prop := t'.1.map attachment = t.1.map attachment

theorem SameAttachments.attached (h : SameAttachments t t') (ha : Attached agent label t.1) :
    Attached agent label t'.1 := by
  obtain ⟨r, hr, hlabelled⟩ := ha
  have hmem : attachment r ∈ t'.1.map attachment := h ▸ List.mem_map_of_mem hr
  obtain ⟨r', hr', heq⟩ := List.mem_map.mp hmem
  exact ⟨r', hr', (labelled_of_attachment heq).trans hlabelled⟩

/-- A row and the old row with its id. -/
theorem SameAttachments.old (h : SameAttachments t t') {old : AgentLiveSession} (hr : r ∈ t'.1)
    (hold : old ∈ t.1) (hid : old.id = r.id) : attachment old = attachment r := by
  have hmem : attachment r ∈ t.1.map attachment := h ▸ List.mem_map_of_mem hr
  obtain ⟨r', hr', heq⟩ := List.mem_map.mp hmem
  have hid' : r'.id = old.id := (congrArg Prod.fst heq).trans hid.symm
  rwa [List.inj_on_of_nodup_map t.2.primaryKey hr' hold hid'] at heq

theorem rotation_attached
    (h : IndexedRows.update AgentLiveSession.id around.scan (rotation agent label token) t =
      some (returned, t')) (hr : r ∈ returned) : Attached agent label t'.1 := by
  have hsame : SameAttachments t t' := IndexedRows.map_update (fun _ => rfl) h
  obtain ⟨-, old, hold, hhits, -⟩ := IndexedRows.mem_returned h hr
  exact hsame.attached ⟨old, hold, hhits⟩

theorem flip_attached
    (h : IndexedRows.update AgentLiveSession.id around.scan (flip agent label) t =
      some (returned, t')) (hr : r ∈ returned) (hlabel : r.label = label) :
    Attached agent label t'.1 := by
  have hsame : SameAttachments t t' := IndexedRows.map_update (fun _ => rfl) h
  obtain ⟨hmem, old, hold, hhits, hid⟩ := IndexedRows.mem_returned h hr
  have hold' : attachment old = attachment r := hsame.old hmem hold hid
  have hkept : old.label = r.label := congrArg (fun k => k.2.2.1) hold'
  refine ⟨r, hmem, (labelled_of_attachment hold').symm.trans ?_⟩
  simp only [flip, Bool.and_eq_true, decide_eq_true_eq] at hhits
  obtain ⟨hagent, hactive⟩ := hhits
  simp [labelled, hagent, hactive, hkept, hlabel]

/-- `ux_agent_live_sessions_label_per_agent`: there is one such session. -/
theorem UniqueIndexes.one_labelled (h : UniqueIndexes rows) (ha : Attached agent label rows) :
    ∃ r, rows.filter (labelled agent label) = [r] := by
  have hnodup : ((rows.filter (labelled agent label)).map fun r => (r.agentId, r.label)).Nodup := by
    refine List.Nodup.sublist (List.Sublist.map _ ?_) h.labelPerAgent
    refine List.monotone_filter_right rows fun r hr => ?_
    exact (Bool.and_eq_true _ _ ▸ hr).2
  have hall : ∀ r ∈ rows.filter (labelled agent label), (r.agentId, r.label) = (agent, label) := by
    intro r hr
    have hlabelled := (List.mem_filter.mp hr).2
    simp only [labelled, Bool.and_eq_true, decide_eq_true_eq] at hlabelled
    rw [hlabelled.1.1, hlabelled.1.2]
  obtain ⟨r, hr, hlabelled⟩ := ha
  have hmem : r ∈ rows.filter (labelled agent label) := List.mem_filter.mpr ⟨hr, hlabelled⟩
  cases hrows : rows.filter (labelled agent label) with
  | nil =>
    rw [hrows] at hmem
    cases hmem
  | cons x xs =>
    cases xs with
    | nil => exact ⟨x, rfl⟩
    | cons y ys =>
      rw [hrows] at hnodup hall
      have hx := hall x List.mem_cons_self
      have hy := hall y (List.mem_cons_of_mem _ List.mem_cons_self)
      exact absurd (List.mem_map.mpr ⟨y, List.mem_cons_self, hy.trans hx.symm⟩)
        (List.nodup_cons.mp hnodup).1

/-! ## The request -/

variable {db : Database} {s : Session Database Unit}

theorem getOwnedAgent_ends (user : UserId) (hs : s.stored = db) :
    Ends (Kept db) (fun _ s' => s' = s) (getOwnedAgent around user ref) s := by
  refine ends_bind.mpr (ends_execute.mpr ⟨fun _ _ => hs, fun found t h => ?_⟩)
  split at h
  · cases h
  · split at h
    · cases h
    · cases h
      split
      · exact ends_throw.mpr hs
      · exact ends_pure.mpr rfl

theorem updateSessions_ends {statement : Statement} {u : Bulk.Update AgentLiveSession}
    {Q : List AgentLiveSession → Session Database Unit → Prop} (hs : s.stored = db)
    (hQ : ∀ returned t', IndexedRows.update AgentLiveSession.id around.scan u s.working.sessions =
      some (returned, t') → Q returned { s with working := { s.working with sessions := t' } }) :
    Ends (Kept db) Q (updateSessions around statement u) s := by
  refine ends_execute.mpr ⟨fun _ _ => hs, fun returned t h => ?_⟩
  split at h
  · cases h
  · split at h
    · cases h
    · rename_i hupdate
      cases h
      exact hQ _ _ hupdate

theorem scalarOneOrNone_ends {Q : Option AgentLiveSession → Session Database Unit → Prop}
    (hs : s.stored = db) (hnone : Q none s) (hsome : ∀ r ∈ rows, Q (some r) s) :
    Ends (Kept db) Q (scalarOneOrNone rows) s := by
  unfold scalarOneOrNone
  split
  · exact ends_pure.mpr hnone
  · exact ends_pure.mpr (hsome _ (List.mem_singleton_self _))
  · exact ends_throw.mpr hs

theorem rotateToken_ends (sessionToken : Option String) (hs : s.stored = db) :
    Ends (Kept db)
      (fun _ s' => s'.stored = db ∧
        (sessionToken ≠ none → Attached agent label s'.working.sessions.1))
      (rotateToken around agent ref label sessionToken) s := by
  cases sessionToken with
  | none => exact ends_pure.mpr ⟨hs, fun h => absurd rfl h⟩
  | some token =>
    refine ends_bind.mpr (updateSessions_ends hs fun returned t' hupdate => ?_)
    refine ends_bind.mpr (scalarOneOrNone_ends hs (ends_throw.mpr hs) fun r hr => ?_)
    exact ends_pure.mpr ⟨hs, fun _ => rotation_attached hupdate hr⟩

theorem flipDefault_ends (isDefault : Option Bool) (hs : s.stored = db)
    (ha : isDefault ≠ some true → Attached agent label s.working.sessions.1) :
    Ends (Kept db) (fun _ s' => s'.stored = db ∧ Attached agent label s'.working.sessions.1)
      (flipDefault around agent ref label isDefault) s := by
  unfold flipDefault
  split
  · refine ends_bind.mpr (updateSessions_ends hs fun returned t' hupdate => ?_)
    split
    · exact ends_bind.mpr (ends_rollback.mpr (ends_throw.mpr hs))
    · rename_i r hfind
      have hlabel : r.label = label := by simpa using List.find?_some hfind
      exact ends_pure.mpr ⟨hs, flip_attached hupdate (List.mem_of_find?_eq_some hfind) hlabel⟩
  · rename_i hdefault
    exact ends_pure.mpr ⟨hs, ha hdefault⟩

/-- Every error comes before the commit: the session that is read after it is there. -/
theorem patchLiveSession_ends (user : UserId) (body : LiveSessionUpdateRequest) (now : Time) :
    Ends (Kept db) (fun _ _ => True) (patchLiveSession around user ref label body now)
      (start db) := by
  refine ends_bind.mpr ((getOwnedAgent_ends user rfl).mono (fun _ _ => id) ?_)
  rintro agent s rfl
  split
  · exact ends_throw.mpr rfl
  · rename_i hgiven
    split
    · exact ends_throw.mpr rfl
    · rename_i hfalse
      refine ends_bind.mpr ((rotateToken_ends body.sessionToken rfl).mono (fun _ _ => id) ?_)
      rintro - s ⟨hs, hrotated⟩
      have hbefore : body.isDefault ≠ some true → Attached agent label s.working.sessions.1 := by
        intro htrue
        refine hrotated fun hnone => hgiven ⟨?_, hnone⟩
        rcases hdefault : body.isDefault with _ | _ | _
        · rfl
        · exact absurd hdefault hfalse
        · exact absurd hdefault htrue
      refine ends_bind.mpr ((flipDefault_ends body.isDefault hs hbefore).mono (fun _ _ => id) ?_)
      rintro - s ⟨hs, hattached⟩
      refine ends_bind.mpr (ends_commit hs fun db' hflush => ?_)
      have hdb' : s.working = db' := by
        cases hobject : s.object with
        | none =>
          rw [hobject] at hflush
          exact Except.ok.inj hflush
        | some x =>
          rw [hobject] at hflush
          exact Except.ok.inj hflush
      subst hdb'
      obtain ⟨r, hone⟩ := s.working.sessions.2.one_labelled hattached
      refine ends_bind.mpr (ends_select.mpr ?_)
      simp only [start, hone]
      exact ends_bind.mpr (ends_pure.mpr (ends_pure.mpr trivial))

/-! ## Failed edits -/

/-- An edit of a cue or of a live session that ends with an error leaves every row as it was. -/
theorem failed_edit_unchanged (env : Scheduler.Env) (text : FailedEdits.PayloadText)
    (refuses : FailedEdits.CueRow → FailedEdits.Database → Bool) (user : UserId)
    (c : Scheduler.CueId) (data : FailedEdits.CueUpdateBody) (now now' updatedAt : Time)
    (cues : FailedEdits.Database) (around : Surroundings) (ref label : String)
    (body : LiveSessionUpdateRequest) (live : Database) :
    (∀ e, (request (updateCue env text refuses user c data now now' updatedAt) cues).1 = .error e →
      (request (updateCue env text refuses user c data now now' updatedAt) cues).2 = start cues) ∧
    (∀ e, (request (patchLiveSession around user ref label body now) live).1 = .error e →
      (request (patchLiveSession around user ref label body now) live).2 = start live) :=
  ⟨fun _ he => request_unchanged (updateCue_ends user c data cues) he,
    fun _ he => request_unchanged (patchLiveSession_ends user body now) he⟩

/-- The default is the session `main` of agent 1. -/
def twoSessions : Sessions :=
  ⟨[{ id := 1, agentId := 1, label := "main", cueId := "cue_a", taskName := "a", isDefault := true },
    { id := 2, agentId := 1, label := "other", cueId := "cue_b", taskName := "b" }], by decide⟩

def lastFirst : Surroundings where
  env := Messages.slugged
  letter _ := false
  opaqueId _ := 1
  repr text := "'" ++ text ++ "'"
  scan := ⟨List.reverse, List.reverse_perm⟩
  refuses _ _ := false

/-- The name is assigned before a NUL is found in the payload; and the token is rotated before the
flip comes to the new default while the old one stands. -/
theorem failed_edit_unchanged_late :
    let cues : FailedEdits.Database :=
      ⟨{ cues := Scheduler.insertNew ∅ 7 Scheduler.storedCue }, fun _ => none⟩
    let data : FailedEdits.CueUpdateBody := { name := some "new", payload := some ⟨"...", true⟩ }
    let live : Database := ⟨Messages.twoAgents 1 2, twoSessions⟩
    let edit := updateCue Scheduler.plainEnv ⟨fun _ => none, fun _ => true⟩
      (fun _ _ => false) 1 7 data 0 0 0
    let patch := patchLiveSession lastFirst 1 "agt_0123456789ab" "other" ⟨some true, some "01J"⟩ 0
    (request edit cues).1 = .error (.refused ⟨"invalid_payload",
        "Payload contains null bytes which are not supported", 400⟩) ∧
      (request edit cues).2 = start cues ∧
      (request patch live).1 = .error .raised ∧ (request patch live).2 = start live := by
  intro cues data live edit patch
  have hedit : (request edit cues).1 = .error (.refused ⟨"invalid_payload",
      "Payload contains null bytes which are not supported", 400⟩) := by rfl
  have hpatch : (request patch live).1 = .error .raised := by rfl
  have hboth := failed_edit_unchanged Scheduler.plainEnv ⟨fun _ => none, fun _ => true⟩
    (fun _ _ => false) 1 7 data 0 0 0 cues lastFirst "agt_0123456789ab" "other"
    ⟨some true, some "01J"⟩ live
  exact ⟨hedit, hboth.1 _ hedit, hpatch, hboth.2 _ hpatch⟩

end CueApi.LiveSessions
