import CueApi.Agents.Reconcile

/-! What `reconcile_attachments` leaves: the rows of the daemon as they were reported, the counts, and
a second call. -/

namespace CueApi.Reported

open Scheduler (Time)
open Reconcile
open Bulk (Update follow runAll)

/-! ## What the reconciliation should leave -/

/-- An active row of the daemon. -/
def own (daemonId : Uuid) (r : AgentLiveSession) : Bool :=
  r.daemonId = some daemonId && r.detachedAt.isNone

/-- The entry has the label and the token of the row. -/
def names (entry : AttachmentReconcileEntry) (r : AgentLiveSession) : Bool :=
  r.label = entry.label && r.ipcSessionToken = some entry.ipcSessionToken

def reported (attachments : List AttachmentReconcileEntry) (r : AgentLiveSession) : Bool :=
  attachments.any fun entry => names entry r

def withoutReconciledAt (r : AgentLiveSession) : AgentLiveSession := { r with lastReconciledAt := none }

/-- The reconciliation does what it is for. -/
structure Reconciled (daemonId : Uuid) (now : Time) (attachments : List AttachmentReconcileEntry)
    (rows : List AgentLiveSession) : Prop where
  ipc_iff : ∀ r ∈ (reconcileAttachments daemonId now attachments rows).1, own daemonId r = true →
    (r.transport = .ipc ↔ reported attachments r = true)
  others_kept : List.Forall₂ (fun r r' => own daemonId r = false → r' = r) rows
    (reconcileAttachments daemonId now attachments rows).1
  upserted : (reconcileAttachments daemonId now attachments rows).2.1 =
    rows.countP fun r => own daemonId r && reported attachments r
  downgraded : (reconcileAttachments daemonId now attachments rows).2.2 =
    (rows.zip (reconcileAttachments daemonId now attachments rows).1).countP fun p =>
      p.1.transport = .ipc && p.2.transport = .poll
  again : ∀ now', (reconcileAttachments daemonId now' attachments
      (reconcileAttachments daemonId now attachments rows).1).1.map withoutReconciledAt =
    (reconcileAttachments daemonId now attachments rows).1.map withoutReconciledAt

/-- What the report has to be for the rows. -/
structure Consistent (daemonId : Uuid) (attachments : List AttachmentReconcileEntry)
    (rows : List AgentLiveSession) : Prop where
  /-- A row that is not reported has a token that is not reported under another label. -/
  token_unreported : ∀ r ∈ rows, own daemonId r = true → r.transport = .ipc →
    reported attachments r = false →
      attachments = [] ∨ ∃ token, r.ipcSessionToken = some token ∧
        token ∉ attachments.map AttachmentReconcileEntry.ipcSessionToken
  /-- No row is reported twice. -/
  once : ∀ r ∈ rows, own daemonId r = true → attachments.countP (names · r) ≤ 1

variable {daemonId : Uuid} {now now' : Time} {attachments : List AttachmentReconcileEntry}
variable {rows : List AgentLiveSession} {entry : AttachmentReconcileEntry} {r : AgentLiveSession}

/-! ## One row -/

/-- The last entry that reports the row. -/
def lastReport (daemonId : Uuid) (attachments : List AttachmentReconcileEntry)
    (r : AgentLiveSession) : Option AttachmentReconcileEntry :=
  (attachments.filter fun entry => own daemonId r && names entry r).getLast?

/-- The row after the loop. -/
def upserted (daemonId : Uuid) (now : Time) (attachments : List AttachmentReconcileEntry)
    (r : AgentLiveSession) : AgentLiveSession :=
  (lastReport daemonId attachments r).elim r fun entry => (upsert daemonId now entry).set r

/-- The downgrade comes to the row. -/
def absent (daemonId : Uuid) (attachments : List AttachmentReconcileEntry) (r : AgentLiveSession) :
    Bool :=
  (downgrade daemonId (attachments.map AttachmentReconcileEntry.ipcSessionToken)).hits r

/-- The row after the downgrade. -/
def outcome (daemonId : Uuid) (now : Time) (attachments : List AttachmentReconcileEntry)
    (r : AgentLiveSession) : AgentLiveSession :=
  if absent daemonId attachments (upserted daemonId now attachments r) then
    { upserted daemonId now attachments r with transport := .poll }
  else upserted daemonId now attachments r

theorem upsert_hits : (upsert daemonId now entry).hits r = (own daemonId r && names entry r) := by
  rw [Bool.eq_iff_iff]
  simp only [upsert, own, names, decide_eq_true_eq, Bool.and_eq_true, Option.isNone_iff_eq_none]
  constructor
  · rintro ⟨hdaemon, hlabel, htoken, hactive⟩
    exact ⟨⟨hdaemon, hactive⟩, hlabel, htoken⟩
  · rintro ⟨⟨hdaemon, hactive⟩, hlabel, htoken⟩
    exact ⟨hdaemon, hlabel, htoken, hactive⟩

theorem absent_iff : absent daemonId attachments r = true ↔ own daemonId r = true ∧
    r.transport = .ipc ∧ (attachments = [] ∨ ∃ token, r.ipcSessionToken = some token ∧
      token ∉ attachments.map AttachmentReconcileEntry.ipcSessionToken) := by
  simp only [absent, downgrade, own, decide_eq_true_eq, Bool.and_eq_true, Option.isNone_iff_eq_none,
    Option.any_eq_true, List.map_eq_nil_iff]
  constructor
  · rintro ⟨hdaemon, hipc, hactive, hrest⟩
    exact ⟨⟨hdaemon, hactive⟩, hipc, hrest⟩
  · rintro ⟨⟨hdaemon, hactive⟩, hipc, hrest⟩
    exact ⟨hdaemon, hipc, hactive, hrest⟩

/-- No entry looks for what one sets. -/
theorem upserts_stable : Bulk.Stable (attachments.map (upsert daemonId now)) := by
  intro u hu v hv r
  obtain ⟨e, -, rfl⟩ := List.mem_map.mp hu
  obtain ⟨e', -, rfl⟩ := List.mem_map.mp hv
  rfl

theorem upserts_overwriting : Bulk.Overwriting (attachments.map (upsert daemonId now)) := by
  intro u hu v hv r
  obtain ⟨e, -, rfl⟩ := List.mem_map.mp hu
  obtain ⟨e', -, rfl⟩ := List.mem_map.mp hv
  rfl

theorem follow_upserts : follow (attachments.map (upsert daemonId now)) r =
    (upserted daemonId now attachments r,
      attachments.countP fun entry => own daemonId r && names entry r) := by
  have hits : (fun u : Update AgentLiveSession => u.hits r) ∘ upsert daemonId now =
      fun entry => own daemonId r && names entry r := funext fun _ => upsert_hits
  refine Prod.ext ?_ ?_
  · rw [Bulk.follow_last upserts_stable upserts_overwriting, List.filter_map, hits,
      List.getLast?_map]
    unfold upserted lastReport
    cases (attachments.filter fun entry => own daemonId r && names entry r).getLast? <;> rfl
  · rw [Bulk.follow_count upserts_stable, List.countP_map, hits]

/-- The rows and the counts, row by row. -/
theorem reconcile_outcome : reconcileAttachments daemonId now attachments rows =
    (rows.map (outcome daemonId now attachments),
      (rows.map fun r => attachments.countP fun entry => own daemonId r && names entry r).sum,
      rows.countP fun r => absent daemonId attachments (upserted daemonId now attachments r)) := by
  simp only [reconcileAttachments, Bulk.runAll_follow, follow_upserts, Bulk.run_eq, List.map_map,
    List.countP_map]
  rfl

/-! ## The cases of a row -/

theorem lastReport_none : lastReport daemonId attachments r = none ↔
    (own daemonId r && reported attachments r) = false := by
  simp only [lastReport, List.getLast?_eq_none_iff, List.filter_eq_nil_iff, reported,
    Bool.and_eq_true, not_and, Bool.not_eq_true, Bool.and_eq_false_imp, List.any_eq_false]
  exact ⟨fun h hown entry he => h entry he hown, fun h entry he hown => h hown entry he⟩

/-- A row of another daemon, a detached one, or one that is not reported. -/
theorem upserted_unreported (h : (own daemonId r && reported attachments r) = false) :
    upserted daemonId now attachments r = r := by
  rw [upserted, lastReport_none.mpr h]
  rfl

theorem upserted_reported (now : Time) (h : (own daemonId r && reported attachments r) = true) :
    ∃ entry, lastReport daemonId attachments r = some entry ∧
      upserted daemonId now attachments r = (upsert daemonId now entry).set r := by
  cases hlast : lastReport daemonId attachments r with
  | none => exact absurd h (by simp [lastReport_none.mp hlast])
  | some entry =>
    refine ⟨entry, rfl, ?_⟩
    rw [upserted, hlast]
    rfl

/-- A row that is reported has its token among those reported. -/
theorem absent_reported (h : reported attachments r = true) :
    absent daemonId attachments r = false := by
  obtain ⟨entry, hentry, hnames⟩ := List.any_eq_true.mp h
  simp only [names, Bool.and_eq_true, decide_eq_true_eq] at hnames
  rw [Bool.eq_false_iff]
  intro habsent
  obtain ⟨-, -, rfl | ⟨token, htoken, hnot⟩⟩ := absent_iff.mp habsent
  · cases hentry
  · rw [hnames.2] at htoken
    cases htoken
    exact hnot (List.mem_map_of_mem hentry)

theorem outcome_reported (now : Time) (h : (own daemonId r && reported attachments r) = true) :
    ∃ entry, lastReport daemonId attachments r = some entry ∧
      outcome daemonId now attachments r = (upsert daemonId now entry).set r := by
  obtain ⟨entry, hlast, hset⟩ := upserted_reported now h
  refine ⟨entry, hlast, ?_⟩
  have hreported : reported attachments ((upsert daemonId now entry).set r) = true :=
    (Bool.and_eq_true _ _ ▸ h).2
  rw [outcome, hset, absent_reported hreported, if_neg Bool.false_ne_true]

theorem outcome_unreported (h : (own daemonId r && reported attachments r) = false) :
    outcome daemonId now attachments r =
      if absent daemonId attachments r then { r with transport := .poll } else r := by
  rw [outcome, upserted_unreported h]

/-- The columns that say whose the row is and what it is reported as. -/
theorem outcome_scope (daemonId : Uuid) (now : Time)
    (attachments : List AttachmentReconcileEntry) (r : AgentLiveSession) :
    own daemonId (outcome daemonId now attachments r) = own daemonId r ∧
    reported attachments (outcome daemonId now attachments r) = reported attachments r ∧
    lastReport daemonId attachments (outcome daemonId now attachments r) =
      lastReport daemonId attachments r := by
  cases h : own daemonId r && reported attachments r with
  | false =>
    rw [outcome_unreported h]
    split <;> exact ⟨rfl, rfl, rfl⟩
  | true =>
    obtain ⟨entry, -, hset⟩ := outcome_reported now h
    rw [hset]
    exact ⟨rfl, rfl, rfl⟩

/-- A row is downgraded when its transport was `ipc` and is `poll`. -/
theorem absent_iff_downgraded : absent daemonId attachments (upserted daemonId now attachments r) =
    (decide (r.transport = .ipc) &&
      decide ((outcome daemonId now attachments r).transport = .poll)) := by
  cases h : own daemonId r && reported attachments r with
  | false =>
    rw [outcome_unreported h, upserted_unreported h]
    by_cases habsent : absent daemonId attachments r = true
    · obtain ⟨-, hipc, -⟩ := absent_iff.mp habsent
      rw [habsent, if_pos rfl, hipc]
      rfl
    · rw [if_neg habsent, Bool.eq_false_iff.mpr habsent]
      cases r.transport <;> rfl
  | true =>
    obtain ⟨entry, -, hset⟩ := outcome_reported now h
    obtain ⟨entry', hlast', hset'⟩ := upserted_reported now h
    have hreported : reported attachments ((upsert daemonId now entry').set r) = true :=
      (Bool.and_eq_true _ _ ▸ h).2
    rw [hset, hset', absent_reported hreported]
    cases r.transport <;> rfl

/-- A second call writes `last_reconciled_at` at most. -/
theorem outcome_again : withoutReconciledAt
      (outcome daemonId now' attachments (outcome daemonId now attachments r)) =
    withoutReconciledAt (outcome daemonId now attachments r) := by
  obtain ⟨hown, hreported, hlast⟩ := outcome_scope daemonId now attachments r
  cases h : own daemonId r && reported attachments r with
  | false =>
    have hagain : (own daemonId (outcome daemonId now attachments r) &&
        reported attachments (outcome daemonId now attachments r)) = false := by
      rw [hown, hreported, h]
    rw [outcome_unreported hagain]
    have hpresent : absent daemonId attachments (outcome daemonId now attachments r) = false := by
      rw [outcome_unreported h, Bool.eq_false_iff]
      intro habsent
      split at habsent
      · exact nomatch (absent_iff.mp habsent).2.1
      · rename_i hnot
        exact hnot habsent
    rw [hpresent, if_neg Bool.false_ne_true]
  | true =>
    have hagain : (own daemonId (outcome daemonId now attachments r) &&
        reported attachments (outcome daemonId now attachments r)) = true := by
      rw [hown, hreported, h]
    obtain ⟨entry, hfirst, hset⟩ := outcome_reported now h
    obtain ⟨entry', hsecond, hset'⟩ := outcome_reported now' hagain
    have hentry : entry' = entry := Option.some.inj (hsecond.symm.trans (hlast.trans hfirst))
    rw [hset', hset, hentry]
    rfl

/-! ## The rows -/

theorem ipc_iff_iff : (∀ r ∈ (reconcileAttachments daemonId now attachments rows).1,
      own daemonId r = true → (r.transport = .ipc ↔ reported attachments r = true)) ↔
    ∀ r ∈ rows, own daemonId r = true → r.transport = .ipc → reported attachments r = false →
      attachments = [] ∨ ∃ token, r.ipcSessionToken = some token ∧
        token ∉ attachments.map AttachmentReconcileEntry.ipcSessionToken := by
  rw [reconcile_outcome, List.forall_mem_map]
  refine forall₂_congr fun r _ => ?_
  obtain ⟨hown, hreported, -⟩ := outcome_scope daemonId now attachments r
  rw [hown, hreported]
  refine forall_congr' fun hown => ?_
  cases hreported : reported attachments r with
  | true =>
    obtain ⟨entry, -, hset⟩ := outcome_reported now (by rw [hown, hreported]; rfl :
      (own daemonId r && reported attachments r) = true)
    rw [hset]
    exact ⟨fun _ _ => nofun, fun _ => iff_of_true rfl rfl⟩
  | false =>
    rw [outcome_unreported (by rw [hreported, Bool.and_false] :
      (own daemonId r && reported attachments r) = false)]
    by_cases habsent : absent daemonId attachments r = true
    · rw [if_pos habsent]
      exact iff_of_true (iff_of_false nofun nofun) fun _ _ => (absent_iff.mp habsent).2.2
    · rw [if_neg habsent]
      constructor
      · intro h hipc
        exact nomatch h.mp hipc
      · intro h
        refine iff_of_false (fun hipc => ?_) nofun
        exact habsent (absent_iff.mpr ⟨hown, hipc, h hipc rfl⟩)

theorem others_kept : List.Forall₂ (fun r r' => own daemonId r = false → r' = r) rows
    (reconcileAttachments daemonId now attachments rows).1 := by
  rw [reconcile_outcome]
  refine List.forall₂_map_right_iff.mpr (List.forall₂_same.mpr fun r _ hown => ?_)
  have h : (own daemonId r && reported attachments r) = false := by rw [hown, Bool.false_and]
  rw [outcome_unreported h, if_neg]
  intro habsent
  rw [(absent_iff.mp habsent).1] at hown
  cases hown

/-- A row that is listed twice is counted twice. -/
theorem upserted_iff : (reconcileAttachments daemonId now attachments rows).2.1 =
      rows.countP (fun r => own daemonId r && reported attachments r) ↔
    ∀ r ∈ rows, own daemonId r = true → attachments.countP (names · r) ≤ 1 := by
  have hpos : ∀ r, (own daemonId r && reported attachments r) = true →
      1 ≤ attachments.countP fun entry => own daemonId r && names entry r := by
    intro r h
    obtain ⟨hown, hreported⟩ := Bool.and_eq_true _ _ ▸ h
    obtain ⟨entry, hentry, hnames⟩ := List.any_eq_true.mp hreported
    exact List.countP_pos_iff.mpr ⟨entry, hentry, by rw [hown, hnames]; rfl⟩
  rw [reconcile_outcome]
  refine (Bulk.sum_eq_countP_iff hpos).trans (forall₂_congr fun r _ => ?_)
  cases hown : own daemonId r with
  | false => simp
  | true =>
    simp only [Bool.true_and, forall_const]
    cases hreported : reported attachments r with
    | true =>
      have hone := hpos r (by rw [hown, hreported]; rfl)
      simp only [hown, Bool.true_and] at hone
      simp only [if_true]
      omega
    | false =>
      have hzero : attachments.countP (names · r) = 0 :=
        List.countP_eq_zero.mpr fun entry he => by simpa using List.any_eq_false.mp hreported entry he
      simp [hzero]

theorem downgraded_count : (reconcileAttachments daemonId now attachments rows).2.2 =
    (rows.zip (reconcileAttachments daemonId now attachments rows).1).countP fun p =>
      p.1.transport = .ipc && p.2.transport = .poll := by
  have hzip : rows.zip (rows.map (outcome daemonId now attachments)) =
      rows.map fun r => (r, outcome daemonId now attachments r) := by
    simpa using List.zip_map' (f := id) (g := outcome daemonId now attachments) (l := rows)
  rw [reconcile_outcome]
  simp only [hzip, List.countP_map]
  exact List.countP_congr fun r _ => by rw [absent_iff_downgraded]; rfl

theorem reconciled_again : (reconcileAttachments daemonId now' attachments
      (reconcileAttachments daemonId now attachments rows).1).1.map withoutReconciledAt =
    (reconcileAttachments daemonId now attachments rows).1.map withoutReconciledAt := by
  simp only [reconcile_outcome, List.map_map]
  exact List.map_congr_left fun r _ => outcome_again

/-- The reconciliation leaves the rows as they were reported, and counts them, exactly when the report
is consistent with the rows. -/
theorem reconciled_iff_consistent (daemonId : Uuid) (now : Time)
    (attachments : List AttachmentReconcileEntry) (rows : List AgentLiveSession) :
    Reconciled daemonId now attachments rows ↔ Consistent daemonId attachments rows := by
  constructor
  · intro h
    exact ⟨ipc_iff_iff.mp h.ipc_iff, upserted_iff.mp h.upserted⟩
  · intro h
    exact ⟨ipc_iff_iff.mpr h.token_unreported, others_kept, upserted_iff.mpr h.once,
      downgraded_count, fun _ => reconciled_again⟩

/-- The token is reported under another label: the row stays `ipc`. -/
theorem not_reconciled_other_label : ¬ ∀ (daemonId : Uuid) (now : Time)
    (attachments : List AttachmentReconcileEntry) (rows : List AgentLiveSession),
    Reconciled daemonId now attachments rows := by
  intro h
  have hipc := (h 7 6 [⟨"other", "task", "01HX0000000000000000000000", 5⟩]
    [⟨1, 10, "main", "task", some "01HX0000000000000000000000", .ipc, some 7, some 0, none⟩]).ipc_iff
  revert hipc
  decide

end CueApi.Reported
