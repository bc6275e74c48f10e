import CueApi.Library.TextColumns
import CueApi.Messages.System

/-! What the schemas of `MessageCreate` and `OutcomeRequest` let through, against the text columns
that `create_message` and `record_outcome` store it in. -/

namespace CueApi.Messages

open Scheduler (OutcomeRequest Execution Evidence ExecUpdate VerificationMode Time truthy orKeep
  evidenceOf)
open TextColumns TextColumns.TextColumn

/-! ## The schemas -/

/-- The bounds of `MessageCreate` on what is stored. `max_length` counts characters. -/
structure MessageCreate.Valid (data : MessageCreate) : Prop where
  body_min : 1 ≤ data.body.length
  body_max : data.body.length ≤ 32768
  subject : ∀ s ∈ data.subject, s.length ≤ 255
  priority : 1 ≤ data.priority ∧ data.priority ≤ 5
  correlationId : ∀ s ∈ data.correlationId, s.length ≤ 255

/-- The bounds of `OutcomeRequest`. -/
structure OutcomeValid (body : OutcomeRequest) : Prop where
  result : ∀ s ∈ body.result, s.length ≤ 2000
  error : ∀ s ∈ body.error, s.length ≤ 2000
  externalId : ∀ s ∈ body.externalId, s.length ≤ 500
  resultRef : ∀ s ∈ body.resultRef, s.length ≤ 500
  resultType : ∀ s ∈ body.resultType, s.length ≤ 100
  summary : ∀ s ∈ body.summary, s.length ≤ 500

/-! ## The columns -/

/-- `body`, under `body_size_limit`. -/
def bodyColumn : TextColumn := { octets := some bodySizeLimit }

/-- The columns of `messages` take these values as they are. -/
structure Message.Fits (r : Message) : Prop where
  body : bodyColumn.Takes (some r.body)
  subject : (varchar 255).Takes r.subject
  preview : (varchar 256).Takes (some r.preview)
  correlationId : (varchar 255).Takes r.correlationId

/-- The evidence columns of `executions` take these values as they are. -/
structure EvidenceFits (e : Evidence) : Prop where
  externalId : (varchar 255).Takes e.externalId
  resultRef : (varchar 255).Takes e.resultRef
  resultType : (varchar 50).Takes e.resultType
  summary : text.Takes e.summary

/-- The columns of `executions` take these values as they are. -/
structure ExecutionFits (r : Execution) : Prop where
  result : text.Takes r.outcomeResult
  error : text.Takes r.outcomeError
  errorMessage : text.Takes r.errorMessage
  evidence : EvidenceFits r.evidence

/-- Whatever passed its schema is stored without complaint. -/
def ValidatedFits (env : MsgEnv) : Prop :=
  (∀ (d : Draft) (m : MsgId), d.data.Valid → (d.row env m).Fits) ∧
    ∀ (transport : Scheduler.Transport) (mode : VerificationMode) (body : OutcomeRequest)
      (now : Time) (r : Execution), OutcomeValid body → ExecutionFits r →
        ExecutionFits ((ExecUpdate.outcome transport mode body now).set r)

/-! ## Messages -/

variable {env : MsgEnv} {d : Draft} {m : MsgId}

theorem bodyColumn_takes_iff {s : String} :
    bodyColumn.Takes (some s) ↔ ¬ HasNul s ∧ s.utf8ByteSize ≤ bodySizeLimit := by
  simp [takes_some_iff, bodyColumn]

theorem row_fits_iff (h : d.data.Valid) : (d.row env m).Fits ↔ d.data.Storable := by
  have hsubject := varchar_takes_of_le h.subject (Nat.le_refl 255)
  have hcorrelation := varchar_takes_of_le h.correlationId (Nat.le_refl 255)
  constructor
  · rintro ⟨hbody, hs, -, hc⟩
    obtain ⟨hnul, hoctets⟩ := bodyColumn_takes_iff.mp hbody
    exact ⟨hoctets, hnul, hsubject.mp hs, hcorrelation.mp hc⟩
  · rintro ⟨hoctets, hnul, hs, hc⟩
    exact ⟨bodyColumn_takes_iff.mpr ⟨hnul, hoctets⟩, hsubject.mpr hs,
      varchar_takes_prefix hnul (by decide), hcorrelation.mpr hc⟩

/-! ## Outcomes -/

/-- What the columns of `executions` ask for beyond the schema: shorter references, and no NUL. -/
structure OutcomeStorable (body : OutcomeRequest) : Prop where
  result : ∀ s ∈ body.result, ¬ HasNul s
  error : ∀ s ∈ body.error, ¬ HasNul s
  externalId : ∀ s ∈ body.externalId, ¬ HasNul s ∧ s.length ≤ 255
  resultRef : ∀ s ∈ body.resultRef, ¬ HasNul s ∧ s.length ≤ 255
  resultType : ∀ s ∈ body.resultType, ¬ HasNul s ∧ s.length ≤ 50
  summary : ∀ s ∈ body.summary, ¬ HasNul s

theorem not_hasNul_empty : ¬ HasNul "" := by decide

/-- A kept value fits already, so that only a new one is asked about. The empty text, which is not
stored, would fit. -/
theorem orKeep_takes_iff {n : Nat} {new old : Option String} (hold : (varchar n).Takes old) :
    (varchar n).Takes (orKeep new old) ↔ ∀ s ∈ new, ¬ HasNul s ∧ s.length ≤ n := by
  unfold orKeep
  cases new with
  | none => simpa [truthy] using hold
  | some s =>
    by_cases hs : s = ""
    · subst hs
      have hfits : ¬ HasNul "" ∧ "".length ≤ n := ⟨not_hasNul_empty, Nat.zero_le n⟩
      simpa [truthy, hfits] using hold
    · simp [truthy, hs, varchar_takes_iff]

/-- `summary[:500]` is the whole of a summary that passed the schema. -/
theorem summary_whole {s : String} (h : s.length ≤ 500) :
    String.ofList (s.toList.take 500) = s := by
  rw [List.take_of_length_le (by rwa [String.length_toList]), String.ofList_toList]

variable {mode : VerificationMode} {body : OutcomeRequest} {now : Time} {old : Evidence}

theorem summary_takes_iff (h : ∀ s ∈ body.summary, s.length ≤ 500) (hold : text.Takes old.summary) :
    text.Takes (evidenceOf mode body now old).summary ↔ ∀ s ∈ body.summary, ¬ HasNul s := by
  unfold evidenceOf
  cases hsummary : body.summary with
  | none => simpa [truthy] using hold
  | some s =>
    have hwhole := summary_whole (h s hsummary)
    by_cases hs : s = ""
    · subst hs
      simpa [truthy, not_hasNul_empty] using hold
    · simp [truthy, hs, hwhole, text_takes_iff]

theorem evidence_fits_iff (h : OutcomeValid body) (hold : EvidenceFits old) :
    EvidenceFits (evidenceOf mode body now old) ↔
      (∀ s ∈ body.externalId, ¬ HasNul s ∧ s.length ≤ 255) ∧
        (∀ s ∈ body.resultRef, ¬ HasNul s ∧ s.length ≤ 255) ∧
        (∀ s ∈ body.resultType, ¬ HasNul s ∧ s.length ≤ 50) ∧
        ∀ s ∈ body.summary, ¬ HasNul s := by
  have hsummary : text.Takes (evidenceOf mode body now old).summary ↔ ∀ s ∈ body.summary, ¬ HasNul s :=
    summary_takes_iff h.summary hold.summary
  constructor
  · rintro ⟨he, hr, ht, hs⟩
    exact ⟨(orKeep_takes_iff hold.externalId).mp he, (orKeep_takes_iff hold.resultRef).mp hr,
      (orKeep_takes_iff hold.resultType).mp ht, hsummary.mp hs⟩
  · rintro ⟨he, hr, ht, hs⟩
    exact ⟨(orKeep_takes_iff hold.externalId).mpr he, (orKeep_takes_iff hold.resultRef).mpr hr,
      (orKeep_takes_iff hold.resultType).mpr ht, hsummary.mpr hs⟩

/-- The columns of the row after an outcome, for either transport: the error is also the error
message of a worker's failed execution. -/
theorem outcome_fits_iff {transport : Scheduler.Transport} {r : Execution} (h : OutcomeValid body)
    (hold : ExecutionFits r) :
    ExecutionFits ((ExecUpdate.outcome transport mode body now).set r) ↔ OutcomeStorable body := by
  have hevidence := @evidence_fits_iff mode body now _ h hold.evidence
  constructor
  · intro hfits
    have hcolumns : text.Takes body.result ∧ text.Takes body.error ∧
        EvidenceFits (evidenceOf mode body now r.evidence) := by
      obtain ⟨hr, he, -, hev⟩ := hfits
      cases transport with
      | webhook => exact ⟨hr, he, hev⟩
      | worker =>
        cases hsuccess : body.success <;> simp only [ExecUpdate.set, hsuccess] at hr he hev <;>
          exact ⟨hr, he, hev⟩
    obtain ⟨hresult, herror, hev⟩ := hcolumns
    obtain ⟨he, hr, ht, hs⟩ := hevidence.mp hev
    exact ⟨text_takes_iff.mp hresult, text_takes_iff.mp herror, he, hr, ht, hs⟩
  · rintro ⟨hresult, herror, he, hr, ht, hs⟩
    have hresult := text_takes_iff.mpr hresult
    have herror := text_takes_iff.mpr herror
    have hev := hevidence.mpr ⟨he, hr, ht, hs⟩
    cases transport with
    | webhook => exact ⟨hresult, herror, hold.errorMessage, hev⟩
    | worker =>
      cases hsuccess : body.success <;> simp only [ExecUpdate.set, hsuccess]
      · exact ⟨hresult, herror, herror, hev⟩
      · exact ⟨hresult, herror, hold.errorMessage, hev⟩

/-! ## Both -/

/-- What passed its schema fits its columns when the body is short in octets too, the references
keep to the narrower columns, and nothing has a NUL. -/
theorem validated_fits_iff (env : MsgEnv) :
    (∀ (d : Draft) (m : MsgId), d.data.Valid → ((d.row env m).Fits ↔ d.data.Storable)) ∧
      ∀ (transport : Scheduler.Transport) (mode : VerificationMode) (body : OutcomeRequest)
        (now : Time) (r : Execution), OutcomeValid body → ExecutionFits r →
          (ExecutionFits ((ExecUpdate.outcome transport mode body now).set r) ↔
            OutcomeStorable body) :=
  ⟨fun _ _ h => row_fits_iff h, fun _ _ _ _ _ h hold => outcome_fits_iff h hold⟩

/-- A message with this body, and an outcome with this reference. -/
def draftOf (body : String) : Draft :=
  ⟨1, 1, 2, none, none, none, 3, "", none, none, 0, 0, { toAgent := .id 2 "agt_2", body }⟩

def plainExecution : Execution :=
  { cueId := 1, scheduledFor := 0, createdAt := 0, updatedAt := 0 }

theorem plainExecution_fits : ExecutionFits plainExecution :=
  ⟨takes_none, takes_none, takes_none, takes_none, takes_none, takes_none, takes_none⟩

theorem draftOf_valid {body : String} (hmin : 1 ≤ body.length) (hmax : body.length ≤ 32768) :
    (draftOf body).data.Valid where
  body_min := hmin
  body_max := hmax
  subject := nofun
  priority := ⟨(by decide : 1 ≤ 3), (by decide : 3 ≤ 5)⟩
  correlationId := nofun

theorem referred_valid {s : String} (h : s.length ≤ 100) :
    OutcomeValid { success := true, resultType := some s } where
  result := nofun
  error := nofun
  externalId := nofun
  resultRef := nofun
  resultType _ ht := Option.mem_some.mp ht ▸ h
  summary := nofun

theorem validated_fits_iff_short :
    ((draftOf "hello").row oneUser 1).Fits ∧
      ¬ ExecutionFits ((ExecUpdate.outcome .worker .none
        { success := true, resultType := some "a\x00b" } 5).set plainExecution) := by
  obtain ⟨hmessages, houtcomes⟩ := validated_fits_iff oneUser
  constructor
  · have hvalid : (draftOf "hello").data.Valid := draftOf_valid (by decide) (by decide)
    exact (hmessages (draftOf "hello") 1 hvalid).mpr ⟨by decide, by decide, nofun, nofun⟩
  · intro hfits
    have hvalid := referred_valid (s := "a\x00b") (by decide)
    have h := (houtcomes .worker .none _ 5 _ hvalid plainExecution_fits).mp hfits
    exact absurd (h.resultType "a\x00b" rfl).1 (by decide)

/-- A body of letters of two octets each. -/
def accentedBody (n : Nat) : String := String.ofList (List.replicate n 'é')

theorem accentedBody_valid {n : Nat} (hmin : 1 ≤ n) (hmax : n ≤ 32768) :
    (draftOf (accentedBody n)).data.Valid := by
  have hlength : (accentedBody n).length = n := by
    rw [accentedBody, String.length_ofList, List.length_replicate]
  exact draftOf_valid (by omega) (by omega)

theorem accentedBody_fits {n : Nat} {m : MsgId}
    (hfits : ((draftOf (accentedBody n)).row oneUser m).Fits) : n * 2 ≤ 32768 := by
  have hlimit : (accentedBody n).utf8ByteSize ≤ bodySizeLimit :=
    (bodyColumn_takes_iff.mp hfits.body).2
  rwa [accentedBody, utf8ByteSize_replicate] at hlimit

/-- An accented body passes its schema and is refused by `body_size_limit`. -/
theorem accented_body_refused : ¬ ∀ env, ValidatedFits env := by
  intro hall
  have hvalid := accentedBody_valid (n := 16385) (by decide) (by decide)
  have hfits := (hall oneUser).1 (draftOf (accentedBody 16385)) 1 hvalid
  exact absurd (accentedBody_fits hfits) (by decide)

end CueApi.Messages
