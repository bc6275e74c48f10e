import CueApi.Agents.LiveSessions

/-! The flip of the default in `patch_live_session`, over the orders in which the UPDATE can come to
the rows: the partial unique index is checked after each of them. -/

namespace CueApi.DefaultFlip

open Scheduler (Time UserId)
open Messages (AgentId resolveAgent parseAddress)
open Reconcile (Uuid)
open LiveSessions
open UnitOfWork

/-! ## What the flip should do -/

def isDefaultOf (agent : AgentId) (r : AgentLiveSession) : Bool :=
  r.agentId = agent && active r && r.isDefault

/-- The default sessions of the agent. -/
def defaults (agent : AgentId) (rows : List AgentLiveSession) : List AgentLiveSession :=
  rows.filter (isDefaultOf agent)

/-- The order in which the UPDATE of the flip comes to the rows. -/
def flipScan (scan : IndexedRows.Scan Uuid) (agent : AgentId) (rows : List AgentLiveSession) :
    List Uuid :=
  scan.order ((rows.filter fun r => r.agentId = agent && active r).map AgentLiveSession.id)

/-- One of two comes no later than the other. -/
def NoLater (ids : List Uuid) (i j : Uuid) : Prop := ∀ done, done <+: ids → j ∈ done → i ∈ done

/-- The UPDATE comes to the default session before it comes to another under the label. -/
def OldFirst (scan : IndexedRows.Scan Uuid) (agent : AgentId) (label : String)
    (rows : List AgentLiveSession) : Prop :=
  ∀ old ∈ defaults agent rows, ∀ new ∈ rows, labelled agent label new = true →
    NoLater (flipScan scan agent rows) old.id new.id

variable {scan : IndexedRows.Scan Uuid} {agent : AgentId} {label : String} {t t' : Sessions}
variable {rows : List AgentLiveSession} {done : List Uuid} {x y : AgentLiveSession}

theorem mem_defaults : x ∈ defaults agent rows ↔
    x ∈ rows ∧ x.agentId = agent ∧ active x = true ∧ x.isDefault = true := by
  simp [defaults, isDefaultOf, List.mem_filter, and_assoc]

theorem labelled_iff : labelled agent label x = true ↔
    x.agentId = agent ∧ x.label = label ∧ active x = true := by
  simp [labelled, and_assoc]

/-! ## The index along the scan -/

theorem eq_of_id (t : Sessions) (hx : x ∈ t.1) (hy : y ∈ t.1) (h : x.id = y.id) : x = y :=
  List.inj_on_of_nodup_map t.2.primaryKey hx hy h

theorem nodup_rows (t : Sessions) : t.1.Nodup := List.Nodup.of_map _ t.2.primaryKey

/-- `ux_agent_live_sessions_one_default_per_agent`, by pairs. -/
theorem one_default_iff (hn : rows.Nodup) :
    ((rows.filter fun r => r.isDefault && active r).map AgentLiveSession.agentId).Nodup ↔
      ∀ x ∈ rows, ∀ y ∈ rows, (x.isDefault && active x) = true → (y.isDefault && active y) = true →
        x.agentId = y.agentId → x = y := by
  rw [List.nodup_map_iff_inj_on (hn.filter _)]
  simp only [List.mem_filter, and_imp]
  exact ⟨fun h x hx y hy hdx hdy => h x hx hdx y hy hdy, fun h x hx hdx y hy hdy => h x hx y hy hdx hdy⟩

/-- A row after the UPDATE has come to those in `done`. -/
def flipped (agent : AgentId) (label : String) (done : List Uuid) (r : AgentLiveSession) :
    AgentLiveSession :=
  if r.id ∈ done then (flip agent label).set r else r

theorem flipped_isDefault : (flipped agent label done x).isDefault =
    if x.id ∈ done then decide (x.label = label) else x.isDefault := by
  unfold flipped
  split <;> rfl

theorem flipped_same {β : Type} {f : AgentLiveSession → β}
    (hf : ∀ r, f ((flip agent label).set r) = f r) : f (flipped agent label done x) = f x := by
  unfold flipped
  split
  · exact hf x
  · rfl

theorem active_flipped : active (flipped agent label done x) = active x := flipped_same fun _ => rfl

theorem map_flipped {β : Type} {f : AgentLiveSession → β}
    (hf : ∀ r, f ((flip agent label).set r) = f r) :
    (rows.map (flipped agent label done)).map f = rows.map f :=
  IndexedRows.map_setAll hf rows

/-- Only the index of the default can fail on the way. -/
theorem uniqueIndexes_flipped_iff (t : Sessions) :
    UniqueIndexes (t.1.map (flipped agent label done)) ↔
      ∀ x ∈ t.1, ∀ y ∈ t.1, ((flipped agent label done x).isDefault && active x) = true →
        ((flipped agent label done y).isDefault && active y) = true →
          x.agentId = y.agentId → x = y := by
  have hid : ∀ x, (flipped agent label done x).id = x.id := fun _ =>
    flipped_same fun _ => rfl
  have hagent : ∀ x, (flipped agent label done x).agentId = x.agentId := fun _ =>
    flipped_same fun _ => rfl
  have hkey : ((t.1.map (flipped agent label done)).map AgentLiveSession.id).Nodup := by
    rw [map_flipped fun _ => rfl]
    exact t.2.primaryKey
  constructor
  · intro h x hx y hy hdx hdy heq
    have hone := (one_default_iff (List.Nodup.of_map _ hkey)).mp h.oneDefaultPerAgent
    refine eq_of_id t hx hy ?_
    rw [← hid x, ← hid y]
    refine congrArg AgentLiveSession.id
      (hone _ (List.mem_map_of_mem hx) _ (List.mem_map_of_mem hy) ?_ ?_ ?_)
    · rwa [active_flipped]
    · rwa [active_flipped]
    · rwa [hagent, hagent]
  · intro h
    refine ⟨hkey, ?_, (one_default_iff (List.Nodup.of_map _ hkey)).mpr ?_, ?_⟩
    · rw [map_flipped fun _ => rfl]
      exact t.2.cueId
    · intro x' hx' y' hy' hdx hdy heq
      obtain ⟨x, hx, rfl⟩ := List.mem_map.mp hx'
      obtain ⟨y, hy, rfl⟩ := List.mem_map.mp hy'
      rw [active_flipped] at hdx hdy
      rw [hagent, hagent] at heq
      rw [h x hx y hy hdx hdy heq]
    · have hactive : (active ∘ flipped agent label done) = active := funext fun _ => active_flipped
      rw [List.filter_map, hactive, map_flipped fun _ => rfl]
      exact t.2.labelPerAgent

/-- What the scan has come to is an active session of the agent. -/
theorem hit_of_done (t : Sessions) (hdone : done <+: flipScan scan agent t.1) (hx : x ∈ t.1)
    (hmem : x.id ∈ done) : x.agentId = agent ∧ active x = true := by
  obtain ⟨y, hy, hid⟩ := List.mem_map.mp ((scan.perm _).mem_iff.mp (hdone.subset hmem))
  obtain ⟨hy, hhits⟩ := List.mem_filter.mp hy
  rw [← eq_of_id t hy hx hid]
  simpa using hhits

/-- Where the scan has been, the default is the session under the label. -/
theorem labelled_of_done (t : Sessions) (hdone : done <+: flipScan scan agent t.1) (hx : x ∈ t.1)
    (hmem : x.id ∈ done) (hdefault : ((flipped agent label done x).isDefault && active x) = true) :
    labelled agent label x = true := by
  obtain ⟨hagent, hactive⟩ := hit_of_done t hdone hx hmem
  rw [flipped_isDefault, if_pos hmem, hactive, Bool.and_true] at hdefault
  exact labelled_iff.mpr ⟨hagent, of_decide_eq_true hdefault, hactive⟩

/-- Elsewhere it is the old one. -/
theorem default_of_not_done (hx : x ∈ rows) (hagent : x.agentId = agent) (hmem : x.id ∉ done)
    (hdefault : ((flipped agent label done x).isDefault && active x) = true) :
    x ∈ defaults agent rows := by
  rw [flipped_isDefault, if_neg hmem, Bool.and_eq_true] at hdefault
  exact mem_defaults.mpr ⟨hx, hagent, hdefault.2, hdefault.1⟩

theorem eq_of_labelled (t : Sessions) (hx : x ∈ t.1) (hy : y ∈ t.1)
    (hlx : labelled agent label x = true) (hly : labelled agent label y = true) : x = y := by
  obtain ⟨r, hr⟩ := t.2.one_labelled ⟨x, hx, hlx⟩
  have hone : ∀ z ∈ t.1, labelled agent label z = true → z = r := fun z hz hlz =>
    List.mem_singleton.mp (hr ▸ List.mem_filter.mpr ⟨hz, hlz⟩)
  rw [hone x hx hlx, hone y hy hly]

/-- The indexes hold all along the scan exactly when it comes to the old default first. -/
theorem holds_along_iff (t : Sessions) :
    (∀ done, done <+: flipScan scan agent t.1 →
      UniqueIndexes (t.1.map (flipped agent label done))) ↔ OldFirst scan agent label t.1 := by
  constructor
  · intro h old hold new hnew hlabelled done hdone hmem
    obtain ⟨hold, hagent, hactive, hdefault⟩ := mem_defaults.mp hold
    obtain ⟨hagent', hlabel, hactive'⟩ := labelled_iff.mp hlabelled
    by_contra hnot
    have heq : old = new := by
      refine (uniqueIndexes_flipped_iff t).mp (h done hdone) old hold new hnew ?_ ?_ ?_
      · rw [flipped_isDefault, if_neg hnot, hdefault, hactive]
        rfl
      · rw [flipped_isDefault, if_pos hmem, hactive']
        simp [hlabel]
      · rw [hagent, hagent']
    exact hnot (heq ▸ hmem)
  · intro h done hdone
    -- one of the two the scan has come to, and not the other, against the order
    have mixed : ∀ x ∈ t.1, ∀ y ∈ t.1, x.agentId = y.agentId → x.id ∈ done → y.id ∉ done →
        ((flipped agent label done x).isDefault && active x) = true →
        ((flipped agent label done y).isDefault && active y) = true → False := by
      intro x hx y hy hagent hmem hnot hdx hdy
      have hlabelled := labelled_of_done t hdone hx hmem hdx
      have hold := default_of_not_done hy (hagent.symm.trans (labelled_iff.mp hlabelled).1) hnot hdy
      exact hnot (h y hold x hx hlabelled done hdone hmem)
    refine (uniqueIndexes_flipped_iff t).mpr fun x hx y hy hdx hdy hagent => ?_
    by_cases hmx : x.id ∈ done
    · by_cases hmy : y.id ∈ done
      · exact eq_of_labelled t hx hy (labelled_of_done t hdone hx hmx hdx)
          (labelled_of_done t hdone hy hmy hdy)
      · exact (mixed x hx y hy hagent hmx hmy hdx hdy).elim
    · by_cases hmy : y.id ∈ done
      · exact (mixed y hy x hx hagent.symm hmy hmx hdy hdx).elim
      · rw [flipped_isDefault, if_neg hmx] at hdx
        rw [flipped_isDefault, if_neg hmy] at hdy
        exact (one_default_iff (nodup_rows t)).mp t.2.oneDefaultPerAgent x hx y hy hdx hdy hagent

/-! ## The UPDATE of the flip -/

theorem update_flip_iff (t : Sessions) :
    (∃ returned t', IndexedRows.update AgentLiveSession.id scan (flip agent label) t =
      some (returned, t')) ↔ OldFirst scan agent label t.1 := by
  rw [← holds_along_iff]
  constructor
  · rintro ⟨returned, t', h⟩
    exact ((IndexedRows.update_iff (fun _ => rfl) t.2.primaryKey).mp ⟨returned, h⟩).1
  · intro h
    have hall := h _ (List.prefix_refl _)
    have hend : ∃ returned, IndexedRows.update AgentLiveSession.id scan (flip agent label) t =
        some (returned, ⟨t.1.map (flipped agent label (flipScan scan agent t.1)), hall⟩) :=
      (IndexedRows.update_iff (fun _ => rfl) t.2.primaryKey).mpr ⟨h, rfl⟩
    exact hend.imp fun returned hupdate => ⟨_, hupdate⟩

/-- The whole scan comes to every active session of the agent. -/
theorem isDefaultOf_flipped (t : Sessions) (hx : x ∈ t.1) :
    isDefaultOf agent (flipped agent label (flipScan scan agent t.1) x) = labelled agent label x := by
  have hagent : (flipped agent label (flipScan scan agent t.1) x).agentId = x.agentId :=
    flipped_same fun _ => rfl
  unfold isDefaultOf
  rw [hagent, active_flipped, flipped_isDefault]
  by_cases hhits : x.agentId = agent ∧ active x = true
  · have hmem : x.id ∈ flipScan scan agent t.1 := by
      refine (scan.perm _).mem_iff.mpr (List.mem_map_of_mem (List.mem_filter.mpr ⟨hx, ?_⟩))
      simp [hhits]
    rw [if_pos hmem]
    simp [labelled, hhits]
  · have hnot : (decide (x.agentId = agent) && active x) = false := by
      simpa using hhits
    rw [hnot, Bool.false_and, labelled]
    exact (Bool.eq_false_iff.mpr fun h => hhits (by simp at h; exact ⟨h.1.1, h.2⟩)).symm

/-- The label of the default is the one asked for. -/
theorem defaults_flipped (h : ∃ returned,
      IndexedRows.update AgentLiveSession.id scan (flip agent label) t = some (returned, t'))
    (ha : Attached agent label t.1) : (defaults agent t'.1).map AgentLiveSession.label = [label] := by
  have hrows : t'.1 = t.1.map (flipped agent label (flipScan scan agent t.1)) :=
    ((IndexedRows.update_iff (fun _ => rfl) t.2.primaryKey).mp h).2
  obtain ⟨r, hr⟩ := t.2.one_labelled ha
  have hlabel : r.label = label := by
    have hmem : r ∈ t.1.filter (labelled agent label) := hr ▸ List.mem_singleton_self r
    exact (labelled_iff.mp (List.mem_filter.mp hmem).2).2.1
  have hfilter : t.1.filter (isDefaultOf agent ∘ flipped agent label (flipScan scan agent t.1)) =
      [r] := hr ▸ List.filter_congr fun x hx => isDefaultOf_flipped t hx
  rw [hrows, defaults, List.filter_map, hfilter, map_flipped fun _ => rfl, List.map_singleton, hlabel]

/-! ## The rotation before it -/

/-- All columns but the token. -/
def withoutToken (r : AgentLiveSession) : AgentLiveSession := { r with sessionToken := none }

theorem uniqueIndexes_withoutToken (rows : List AgentLiveSession) :
    UniqueIndexes (rows.map withoutToken) ↔ UniqueIndexes rows := by
  have hid : AgentLiveSession.id ∘ withoutToken = AgentLiveSession.id := rfl
  have hcue : AgentLiveSession.cueId ∘ withoutToken = AgentLiveSession.cueId := rfl
  have hagent : AgentLiveSession.agentId ∘ withoutToken = AgentLiveSession.agentId := rfl
  have hactive : active ∘ withoutToken = active := rfl
  have hdefault : (fun r => r.isDefault && active r) ∘ withoutToken =
      fun r => r.isDefault && active r := rfl
  have hlabel : (fun r : AgentLiveSession => (r.agentId, r.label)) ∘ withoutToken =
      fun r => (r.agentId, r.label) := rfl
  constructor
  · intro h
    obtain ⟨h₁, h₂, h₃, h₄⟩ := h
    simp only [List.map_map, List.filter_map, hid, hcue, hagent, hactive, hdefault, hlabel] at h₁ h₂ h₃ h₄
    exact ⟨h₁, h₂, h₃, h₄⟩
  · intro h
    refine ⟨?_, ?_, ?_, ?_⟩
    · simpa only [List.map_map, hid] using h.primaryKey
    · simpa only [List.map_map, hcue] using h.cueId
    · simpa only [List.map_map, List.filter_map, hagent, hdefault] using h.oneDefaultPerAgent
    · simpa only [List.map_map, List.filter_map, hactive, hlabel] using h.labelPerAgent

/-- The two tables differ in tokens at most. -/
def SameButTokens (t t' : Sessions) : Prop := t'.1.map withoutToken = t.1.map withoutToken

theorem oldFirst_withoutToken (rows : List AgentLiveSession) :
    OldFirst scan agent label (rows.map withoutToken) ↔ OldFirst scan agent label rows := by
  have hscan : flipScan scan agent (rows.map withoutToken) = flipScan scan agent rows := by
    simp only [flipScan, List.filter_map, List.map_map]
    rfl
  have hdefaults : defaults agent (rows.map withoutToken) = (defaults agent rows).map withoutToken := by
    simp only [defaults, List.filter_map]
    rfl
  unfold OldFirst
  rw [hscan, hdefaults]
  simp only [List.mem_map, forall_exists_index, and_imp, forall_apply_eq_imp_iff₂]
  rfl

theorem SameButTokens.oldFirst (h : SameButTokens t t') :
    OldFirst scan agent label t'.1 ↔ OldFirst scan agent label t.1 := by
  rw [← oldFirst_withoutToken t'.1, h, oldFirst_withoutToken]

theorem SameButTokens.attached (h : SameButTokens t t') (ha : Attached agent label t.1) :
    Attached agent label t'.1 := by
  obtain ⟨r, hr, hlabelled⟩ := ha
  have hmem : withoutToken r ∈ t'.1.map withoutToken := h ▸ List.mem_map_of_mem hr
  obtain ⟨r', hr', heq⟩ := List.mem_map.mp hmem
  refine ⟨r', hr', ?_⟩
  have hsame : labelled agent label (withoutToken r') = labelled agent label (withoutToken r) := by
    rw [heq]
  exact hsame.trans hlabelled

/-- The rotation meets no index, and returns the one session. -/
theorem update_rotation (scan : IndexedRows.Scan Uuid) (t : Sessions) (token : String) (ha : Attached agent label t.1) :
    ∃ r t', IndexedRows.update AgentLiveSession.id scan (rotation agent label token) t =
      some ([r], t') ∧ SameButTokens t t' := by
  obtain ⟨old, hold⟩ := t.2.one_labelled ha
  have hvalid : ∀ done, UniqueIndexes
      (IndexedRows.setAll AgentLiveSession.id (rotation agent label token).set done t.1) := by
    intro done
    have hsame : (IndexedRows.setAll AgentLiveSession.id (rotation agent label token).set done t.1).map
        withoutToken = t.1.map withoutToken := by
      refine IndexedRows.map_setAll ?_ t.1
      exact fun _ => rfl
    rw [← uniqueIndexes_withoutToken, hsame]
    exact (uniqueIndexes_withoutToken t.1).mpr t.2
  have hscan : scan.order ((t.1.filter (rotation agent label token).hits).map AgentLiveSession.id) =
      [old.id] := by
    change scan.order ((t.1.filter (labelled agent label)).map AgentLiveSession.id) = _
    rw [hold]
    exact List.perm_singleton.mp (scan.perm [old.id])
  obtain ⟨returned, h⟩ : ∃ returned, IndexedRows.update AgentLiveSession.id scan
      (rotation agent label token) t = some (returned, ⟨_, hvalid _⟩) :=
    (IndexedRows.update_iff (fun _ => rfl) t.2.primaryKey).mpr ⟨fun done _ => hvalid done, rfl⟩
  have hmem : old ∈ t.1.filter (labelled agent label) := hold ▸ List.mem_singleton_self old
  obtain ⟨hmem, hhits⟩ := List.mem_filter.mp hmem
  obtain ⟨new, hnew, -⟩ := IndexedRows.exists_returned (fun _ => rfl) h hmem hhits
  have hone : returned = [new] := by
    obtain ⟨t', -, heq⟩ := Option.map_eq_some_iff.mp h
    have hreturned := congrArg Prod.fst heq
    rw [hscan] at hreturned
    simp only [List.filterMap_cons, List.filterMap_nil] at hreturned
    split at hreturned
    · rw [← hreturned] at hnew
      cases hnew
    · rw [← hreturned] at hnew ⊢
      rw [List.mem_singleton.mp hnew]
  subst hone
  exact ⟨new, _, h, IndexedRows.map_update (fun _ => rfl) h⟩

/-! ## The request -/

variable {around : Surroundings} {E : FailedEdits.Failure → Session Database Unit → Prop}
variable {s : Session Database Unit} {user : UserId} {ref : String}

/-- The user's agent is found. -/
def Owned (around : Surroundings) (user : UserId) (ref : String) (agent : AgentId) (db : Database) :
    Prop :=
  ∃ row, resolveAgent around.env db.messaging (parseAddress around.letter around.opaqueId ref) =
    .ok (agent, row) ∧ row.userId = user

/-- The server refuses nothing by itself. -/
def Serving (around : Surroundings) : Prop := ∀ statement db, around.refuses statement db = false

theorem ends_getOwnedAgent {Q : AgentId → Session Database Unit → Prop} (hserving : Serving around)
    (howned : Owned around user ref agent s.working) :
    Ends E Q (getOwnedAgent around user ref) s ↔ Q agent s := by
  obtain ⟨row, hresolve, huser⟩ := howned
  unfold getOwnedAgent
  rw [ends_bind]
  refine (ends_execute_ok (?_ : _ = Except.ok ((agent, row), s.working))).trans ?_
  · rw [hserving, hresolve]
    rfl
  · rw [if_neg (not_not.mpr huser)]
    exact ends_pure

theorem ends_updateSessions {statement : Statement} {u : Bulk.Update AgentLiveSession}
    {Q : List AgentLiveSession → Session Database Unit → Prop} {returned : List AgentLiveSession}
    (hserving : Serving around)
    (h : IndexedRows.update AgentLiveSession.id around.scan u s.working.sessions = some (returned, t')) :
    Ends E Q (updateSessions around statement u) s ↔
      Q returned { s with working := { s.working with sessions := t' } } := by
  refine ends_execute_ok ?_
  rw [hserving, h]
  rfl

theorem ends_updateSessions_violation {statement : Statement} {u : Bulk.Update AgentLiveSession}
    {Q : List AgentLiveSession → Session Database Unit → Prop} (hserving : Serving around)
    (h : IndexedRows.update AgentLiveSession.id around.scan u s.working.sessions = none) :
    Ends E Q (updateSessions around statement u) s ↔ E .raised s := by
  refine ends_execute_error ?_
  rw [hserving, h]
  rfl

/-- The rotation succeeds where there is such a session. -/
theorem ends_rotateToken (agent : AgentId) (ref : String) (hserving : Serving around) (sessionToken : Option String)
    (ha : Attached agent label s.working.sessions.1) :
    Ends (fun _ _ => False)
      (fun _ s' => s'.working.messaging = s.working.messaging ∧
        SameButTokens s.working.sessions s'.working.sessions)
      (rotateToken around agent ref label sessionToken) s := by
  cases sessionToken with
  | none => exact ends_pure.mpr ⟨rfl, rfl⟩
  | some token =>
    obtain ⟨r, t', hupdate, hsame⟩ := update_rotation around.scan s.working.sessions token ha
    refine ends_bind.mpr ((ends_updateSessions hserving hupdate).mpr ?_)
    refine ends_bind.mpr ?_
    exact ends_pure.mpr (ends_pure.mpr ⟨rfl, hsame⟩)

/-- The flip succeeds when the scan comes to the old default first. -/
theorem ends_flipDefault (ref : String) (hserving : Serving around)
    (ha : Attached agent label s.working.sessions.1)
    (hfirst : OldFirst around.scan agent label s.working.sessions.1) :
    Ends (fun _ _ => False)
      (fun _ s' => (defaults agent s'.working.sessions.1).map AgentLiveSession.label = [label] ∧
        Attached agent label s'.working.sessions.1)
      (flipDefault around agent ref label (some true)) s := by
  obtain ⟨returned, t', hupdate⟩ := (update_flip_iff s.working.sessions).mpr hfirst
  have hdefaults := defaults_flipped ⟨returned, hupdate⟩ ha
  obtain ⟨r, hr, hlabelled⟩ := ha
  obtain ⟨hagent, hlabel, hactive⟩ := labelled_iff.mp hlabelled
  have hhits : (flip agent label).hits r = true := by simp [LiveSessions.flip, hagent, hactive]
  obtain ⟨new, hnew, hid⟩ := IndexedRows.exists_returned (fun _ => rfl) hupdate hr hhits
  have hsame : SameAttachments s.working.sessions t' := IndexedRows.map_update (fun _ => rfl) hupdate
  have hkept : attachment r = attachment new :=
    hsame.old (IndexedRows.mem_returned hupdate hnew).1 hr hid.symm
  have hfind : (returned.find? fun r => r.label = label).isSome := by
    refine List.find?_isSome.mpr ⟨new, hnew, ?_⟩
    have hlabel' : new.label = r.label := congrArg (fun k => k.2.2.1) hkept.symm
    simp [hlabel', hlabel]
  obtain ⟨target, htarget⟩ := Option.isSome_iff_exists.mp hfind
  unfold flipDefault
  rw [if_pos rfl]
  refine ends_bind.mpr ((ends_updateSessions hserving hupdate).mpr ?_)
  simp only [htarget]
  exact ends_pure.mpr ⟨hdefaults, hsame.attached ⟨r, hr, hlabelled⟩⟩

/-- Another order of the scan ends in a unique violation. -/
theorem ends_flipDefault_violation (ref : String) (hserving : Serving around)
    (hnot : ¬ OldFirst around.scan agent label s.working.sessions.1) :
    Ends (fun _ _ => True) (fun _ _ => False) (flipDefault around agent ref label (some true)) s := by
  have hnone : IndexedRows.update AgentLiveSession.id around.scan (flip agent label)
      s.working.sessions = none := by
    cases hupdate : IndexedRows.update AgentLiveSession.id around.scan (flip agent label)
        s.working.sessions with
    | none => rfl
    | some p => exact absurd ((update_flip_iff _).mp ⟨p.1, p.2, hupdate⟩) hnot
  unfold flipDefault
  rw [if_pos rfl]
  exact ends_bind.mpr ((ends_updateSessions_violation hserving hnone).mpr trivial)

/-- Nothing is flushed at the commit. -/
theorem ends_commit_working {Q : Unit → Session Database Unit → Prop} :
    Ends E Q (commit fun _ db => .ok db) s ↔ Q () (start s.working) := by
  refine ends_commit_ok ?_
  cases s.object <;> rfl

/-- The order of the scan decides how the request ends. -/
theorem ends_patchLiveSession (token : Option String) (now : Time) (hserving : Serving around)
    (howned : Owned around user ref agent s.working)
    (ha : Attached agent label s.working.sessions.1) :
    (OldFirst around.scan agent label s.working.sessions.1 →
      Ends (fun _ _ => False)
        (fun _ s' => (defaults agent s'.stored.sessions.1).map AgentLiveSession.label = [label])
        (patchLiveSession around user ref label ⟨some true, token⟩ now) s) ∧
    (¬ OldFirst around.scan agent label s.working.sessions.1 →
      Ends (fun _ _ => True) (fun _ _ => False)
        (patchLiveSession around user ref label ⟨some true, token⟩ now) s) := by
  have hbody : ¬ (some true = none ∧ token = none) := fun h => nomatch h.1
  have htrue : ¬ (some true = some false) := nofun
  have hrotate := ends_rotateToken agent ref hserving token ha
  constructor
  · intro hfirst
    refine ends_bind.mpr ((ends_getOwnedAgent hserving howned).mpr ?_)
    rw [if_neg hbody, if_neg htrue]
    refine ends_bind.mpr (hrotate.mono (fun _ _ => id) fun _ s₁ hs₁ => ?_)
    have hflip := ends_flipDefault ref hserving (hs₁.2.attached ha)
      (hs₁.2.oldFirst.mpr hfirst)
    refine ends_bind.mpr (hflip.mono (fun _ _ => id) fun _ s₂ hs₂ => ?_)
    obtain ⟨hdefaults, hattached⟩ := hs₂
    obtain ⟨r, hone⟩ := s₂.working.sessions.2.one_labelled hattached
    refine ends_bind.mpr (ends_commit_working.mpr ?_)
    refine ends_bind.mpr (ends_select.mpr ?_)
    simp only [start, hone]
    exact ends_bind.mpr (ends_pure.mpr (ends_pure.mpr hdefaults))
  · intro hnot
    refine ends_bind.mpr ((ends_getOwnedAgent hserving howned).mpr ?_)
    rw [if_neg hbody, if_neg htrue]
    refine ends_bind.mpr (hrotate.mono (fun _ _ => False.elim) fun _ s₁ hs₁ => ?_)
    refine ends_bind.mpr ?_
    have hviolated := ends_flipDefault_violation ref hserving
      (fun h => hnot (hs₁.2.oldFirst.mp h))
    exact hviolated.mono (fun _ _ => id) fun _ _ => False.elim

/-! ## The swap -/

/-- `patch_live_session` with `is_default=true` answers, and leaves the one default asked for. -/
def Swaps (around : Surroundings) (user : UserId) (ref : String) (agent : AgentId) (label : String)
    (token : Option String) (now : Time) (db : Database) : Prop :=
  let swap := request (patchLiveSession around user ref label ⟨some true, token⟩ now) db
  (∃ entry, swap.1 = .ok entry) ∧
    (defaults agent swap.2.stored.sessions.1).map AgentLiveSession.label = [label]

/-- The swap is made when the UPDATE comes to the old default first, and only then. -/
theorem swaps_iff_old_first (around : Surroundings) (user : UserId) (ref : String) (agent : AgentId)
    (label : String) (token : Option String) (now : Time) (db : Database) (hserving : Serving around)
    (howned : Owned around user ref agent db) (ha : Attached agent label db.sessions.1) :
    Swaps around user ref agent label token now db ↔
      OldFirst around.scan agent label db.sessions.1 := by
  have hends := ends_patchLiveSession (s := start db) token now hserving howned ha
  constructor
  · rintro ⟨⟨entry, hentry⟩, -⟩
    by_contra hnot
    obtain ⟨e, he⟩ := (hends.2 hnot).fails
    exact nomatch hentry.symm.trans he
  · intro hfirst
    obtain ⟨entry, hentry, hdefaults⟩ := (hends.1 hfirst).succeeds
    exact ⟨⟨entry, hentry⟩, hdefaults⟩

theorem noLater_head (i j : Uuid) (rest : List Uuid) : NoLater (i :: rest) i j := by
  intro done hp hj
  cases done with
  | nil => cases hj
  | cons k done =>
    obtain ⟨rfl, -⟩ := List.cons_prefix_cons.mp hp
    exact List.mem_cons_self

/-- The order of the table. -/
def oldestFirst : Surroundings := { lastFirst with scan := ⟨id, fun rows => .refl rows⟩ }

theorem swaps_iff_old_first_oldest :
    Swaps oldestFirst 1 "agt_0123456789ab" 1 "other" none 0
      ⟨Messages.twoAgents 1 2, twoSessions⟩ := by
  refine (swaps_iff_old_first oldestFirst 1 "agt_0123456789ab" 1 "other" none 0
    ⟨Messages.twoAgents 1 2, twoSessions⟩ (fun _ _ => rfl) ⟨_, rfl, rfl⟩
    ⟨_, List.mem_cons_of_mem _ List.mem_cons_self, rfl⟩).mpr ?_
  have hids : flipScan oldestFirst.scan 1 twoSessions.1 = [1, 2] := by decide
  have hdefault : ∀ old ∈ defaults 1 twoSessions.1, old.id = 1 := by decide
  intro old hold new _ _
  change NoLater (flipScan oldestFirst.scan 1 twoSessions.1) old.id new.id
  rw [hids, hdefault old hold]
  exact noLater_head _ _ _

/-- Not every order of the scan makes the swap. -/
theorem not_swaps_in_every_order : ¬ ∀ (around : Surroundings) (user : UserId) (ref : String)
    (agent : AgentId) (label : String) (token : Option String) (now : Time) (db : Database),
    Serving around → Owned around user ref agent db → Attached agent label db.sessions.1 →
      Swaps around user ref agent label token now db := by
  intro h
  have hswaps := h lastFirst 1 "agt_0123456789ab" 1 "other" none 0
    ⟨Messages.twoAgents 1 2, twoSessions⟩ (fun _ _ => rfl) ⟨_, rfl, rfl⟩
    ⟨_, List.mem_cons_of_mem _ List.mem_cons_self, rfl⟩
  have hraised : (request (patchLiveSession lastFirst 1 "agt_0123456789ab" "other"
      ⟨some true, none⟩ 0) ⟨Messages.twoAgents 1 2, twoSessions⟩).1 = .error .raised := by rfl
  obtain ⟨entry, hentry⟩ := hswaps.1
  exact nomatch hentry.symm.trans hraised

end CueApi.DefaultFlip
