import CueApi.Events.Steps

/-! The runs of `emit_digests` of `worker/digest_emitter.py` beside the transactions that emit
`message.delivered` events. A run reads the undigested events once, without locks; then, for each
recipient, its UPSERT inserts a digest and its UPDATE marks the events of the bundle. -/

namespace CueApi.Events

open Scheduler (Pid Time)
open Messages

/-- A recipient with its undigested events. -/
abbrev Group := AgentId × List (EventId × EventRow)

/-- The row that a sending transaction emits. -/
def deliveredRow (recipient : AgentId) (payload : DeliveredPayload) (now : Time) : EventRow where
  recipientAgentId := recipient
  payload := .delivered payload
  emittedAt := now
  idempotencyKey := .messageDelivered payload.messageId

/-- `message.digest:{recipient_agent_id}:{highest_event_id}`. -/
def digestKey (g : Group) : EventKey := .messageDigest g.1 ((g.2.getLast?.map Prod.fst).getD 0)

/-- The digest event of a group; `now` is the end of its period. -/
def digestOf (now began : Time) (g : Group) : EventRow where
  recipientAgentId := g.1
  payload := .digest g.1 ((g.2.head?.map fun x => x.2.emittedAt).getD now) now
    (g.2.filterMap bundle)
  emittedAt := began
  idempotencyKey := digestKey g

/-- The body of the loop in the model of the service does the same. -/
theorem emitDigest_eq (env : MsgEnv) (p : Pid) (now began : Time) (g : Group) :
    emitDigest env p now began g =
      if g.2.length < env.digestMinBatchSize then return false
      else do
        insertEvent p (digestOf now began g)
        write p (.markDigested (g.2.map Prod.fst) began)
        return true := rfl

/-- The transaction of a run after its SELECT: the groups that it has still to bundle, the one
whose digest is inserted and whose events are not marked yet, and those that are done. -/
structure DigestRun where
  now : Time
  began : Time
  todo : List Group
  posted : Option Group := none
  done : List Group := []
  deriving DecidableEq, Repr

/-- `locks` are the rows that an open UPDATE of `digested_at` holds. -/
structure Digests where
  stream : Stream := {}
  runs : Pid → Option DigestRun := fun _ => none
  locks : EventId → Option Pid := fun _ => none

abbrev Digests.tables (s : Digests) : MsgTables := s.stream.tables

def Digests.setRun (s : Digests) (p : Pid) (run : Option DigestRun) : Digests :=
  { s with runs := fun q => if q = p then run else s.runs q }

def Digests.unlock (s : Digests) (p : Pid) : Digests :=
  { s with locks := fun x => if s.locks x = some p then none else s.locks x }

/-- The groups that are not below `DIGEST_MIN_BATCH_SIZE`. -/
def groupsToBundle (minBatch : Nat) (t : MsgTables) : List Group :=
  (groupedByRecipient (undigested t)).filter fun g => !decide (g.2.length < minBatch)

/-- The rows that a run has marked. -/
def markedIds (gs : List Group) : List EventId := gs.flatMap fun g => g.2.map Prod.fst

inductive DigestAction
  | send (p : Pid) (recipient : AgentId) (payload : DeliveredPayload) (now : Time)
  | commit (p : Pid)
  | rollback (p : Pid)
  | read (p : Pid) (now began : Time)
  | insert (p : Pid)
  | mark (p : Pid)
  | finish (p : Pid)
  | crash (p : Pid)
  deriving DecidableEq, Repr

/-- One step of a sending transaction or of a run. -/
def digestStep (minBatch : Nat) (s : Digests) : DigestAction → Option Digests
  | .send p recipient payload now =>
      if (s.runs p).isSome then none
      else (s.stream.emit p (deliveredRow recipient payload now)).map fun stream =>
        { s with stream := stream }
  | .commit p => if (s.runs p).isSome then none else some { s with stream := s.stream.commit p }
  | .rollback p =>
      if (s.runs p).isSome then none else some { s with stream := s.stream.rollback p }
  | .read p now began =>
      if (s.runs p).isNone && (s.stream.pending p).isEmpty then
        some (s.setRun p (some { now, began, todo := groupsToBundle minBatch s.tables }))
      else none
  | .insert p =>
      match s.runs p with
      | some ⟨now, began, g :: todo, none, done⟩ =>
          (s.stream.emit p (digestOf now began g)).map fun stream =>
            { s.setRun p (some ⟨now, began, todo, some g, done⟩) with stream := stream }
      | _ => none
  | .mark p =>
      match s.runs p with
      | some ⟨now, began, todo, some g, done⟩ =>
          -- The UPDATE waits for the rows that another run has marked.
          if g.2.all fun y => (s.locks y.1).all fun q => q = p then
            some { s.setRun p (some ⟨now, began, todo, none, done ++ [g]⟩) with
              locks := fun x => if x ∈ g.2.map Prod.fst then some p else s.locks x }
          else none
      | _ => none
  | .finish p =>
      match s.runs p with
      | some ⟨_, began, [], none, done⟩ =>
          let stream := s.stream.commit p
          some { (s.setRun p none).unlock p with
            stream := { stream with
              tables := stream.tables.apply (.markDigested (markedIds done) began) } }
      | _ => none
  | .crash p =>
      match s.runs p with
      | some _ => some { (s.setRun p none).unlock p with stream := s.stream.rollback p }
      | none => none

/-! ## Steps -/

variable {minBatch : Nat} {s s' : Digests} {a : DigestAction}

/-- The steps, with what lets them through. -/
inductive DigestStepped (minBatch : Nat) (s : Digests) : DigestAction → Digests → Prop
  | send (p : Pid) (recipient : AgentId) (payload : DeliveredPayload) (now : Time)
      (stream : Stream) (hnone : s.runs p = none)
      (he : s.stream.emit p (deliveredRow recipient payload now) = some stream) :
      DigestStepped minBatch s (.send p recipient payload now) { s with stream := stream }
  | commit (p : Pid) (hnone : s.runs p = none) :
      DigestStepped minBatch s (.commit p) { s with stream := s.stream.commit p }
  | rollback (p : Pid) (hnone : s.runs p = none) :
      DigestStepped minBatch s (.rollback p) { s with stream := s.stream.rollback p }
  | read (p : Pid) (now began : Time) (hnone : s.runs p = none)
      (hpending : s.stream.pending p = []) :
      DigestStepped minBatch s (.read p now began)
        (s.setRun p (some { now, began, todo := groupsToBundle minBatch s.tables }))
  | insert (p : Pid) (now began : Time) (g : Group) (todo done : List Group) (stream : Stream)
      (hr : s.runs p = some ⟨now, began, g :: todo, none, done⟩)
      (he : s.stream.emit p (digestOf now began g) = some stream) :
      DigestStepped minBatch s (.insert p)
        { s.setRun p (some ⟨now, began, todo, some g, done⟩) with stream := stream }
  | mark (p : Pid) (now began : Time) (g : Group) (todo done : List Group)
      (hr : s.runs p = some ⟨now, began, todo, some g, done⟩) :
      DigestStepped minBatch s (.mark p)
        { s.setRun p (some ⟨now, began, todo, none, done ++ [g]⟩) with
          locks := fun x => if x ∈ g.2.map Prod.fst then some p else s.locks x }
  | finish (p : Pid) (now began : Time) (done : List Group)
      (hr : s.runs p = some ⟨now, began, [], none, done⟩) :
      DigestStepped minBatch s (.finish p)
        { (s.setRun p none).unlock p with
          stream := { s.stream.commit p with
            tables := (s.stream.commit p).tables.apply
              (.markDigested (markedIds done) began) } }
  | crash (p : Pid) (run : DigestRun) (hr : s.runs p = some run) :
      DigestStepped minBatch s (.crash p)
        { (s.setRun p none).unlock p with stream := s.stream.rollback p }

theorem digestStep_cases (h : digestStep minBatch s a = some s') :
    DigestStepped minBatch s a s' := by
  cases a with
  | send p recipient payload now =>
    simp only [digestStep] at h
    split at h
    · cases h
    · rename_i hnone
      obtain ⟨stream, he, rfl⟩ := Option.map_eq_some_iff.mp h
      exact .send p recipient payload now stream (by simpa using hnone) he
  | commit p =>
    simp only [digestStep] at h
    split at h
    · cases h
    · rename_i hnone
      cases h
      exact .commit p (by simpa using hnone)
  | rollback p =>
    simp only [digestStep] at h
    split at h
    · cases h
    · rename_i hnone
      cases h
      exact .rollback p (by simpa using hnone)
  | read p now began =>
    simp only [digestStep] at h
    split at h
    · rename_i hg
      cases h
      simp only [Bool.and_eq_true, Option.isNone_iff_eq_none, List.isEmpty_iff] at hg
      exact .read p now began hg.1 hg.2
    · cases h
  | insert p =>
    simp only [digestStep] at h
    split at h
    · rename_i now began g todo done hr
      obtain ⟨stream, he, rfl⟩ := Option.map_eq_some_iff.mp h
      exact .insert p now began g todo done stream hr he
    · cases h
  | mark p =>
    simp only [digestStep] at h
    split at h
    · rename_i now began todo g done hr
      split at h
      · cases h
        exact .mark p now began g todo done hr
      · cases h
    · cases h
  | finish p =>
    simp only [digestStep] at h
    split at h
    · rename_i now began done hr
      cases h
      exact .finish p now began done hr
    · cases h
  | crash p =>
    simp only [digestStep] at h
    split at h
    · rename_i run hr
      cases h
      exact .crash p run hr
    · cases h

/-- Every step is made of steps of the stream. -/
theorem digestStep_stream (h : digestStep minBatch s a = some s') :
    ∃ as, Machine.run step s.stream as = some s'.stream := by
  cases digestStep_cases h with
  | send p recipient payload now stream hnone he =>
    exact ⟨[.emit p (deliveredRow recipient payload now)], Machine.run_of_step he⟩
  | commit p hnone => exact ⟨[.commit p], rfl⟩
  | rollback p hnone => exact ⟨[.rollback p], rfl⟩
  | insert p now began g todo done stream hr he =>
    exact ⟨[.emit p (digestOf now began g)], Machine.run_of_step he⟩
  | finish p now began done hr =>
    exact ⟨[.commit p, .digest (markedIds done) began], rfl⟩
  | crash p run hr => exact ⟨[.rollback p], rfl⟩
  | _ => exact ⟨[], rfl⟩

end CueApi.Events
