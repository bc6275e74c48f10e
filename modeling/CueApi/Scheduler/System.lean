import CueApi.Scheduler.Requests

/-! Any number of API processes, pollers and delivery workers on one database.
A step starts a request, a poller function or a job, lets a process take its
next statement, or ends one; processes may crash or raise between any two
statements, and then their open transaction is rolled back. -/

namespace CueApi.Scheduler

open ReadCommitted Interleaving

abbrev Sys := Config Pid World Answer Reply

variable (env : Env)

def programOf (p : Pid) : Call → Program Reply
  | .createCue user data => createCue env p user data
  | .fireCue user c sendAt => fireCue env p user c sendAt
  | .replayExecution user e => replayExecution env p user e
  | .claimNextExecution user worker => claimNextExecution env p user worker
  | .claimExecution user e worker => claimExecution env p user e worker
  | .executionHeartbeat user e xWorkerId => executionHeartbeat env p user e xWorkerId
  | .recordOutcome user e body => recordOutcome p user e body
  | .heartbeat user worker handlers => heartbeat p user worker handlers
  | .deleteWorker user worker => deleteWorker p user worker
  | .processCueBatch => processCueBatch env p
  | .pollRetries => pollRetries env p
  | .dispatchOutbox => dispatchOutbox env p
  | .recoverStaleExecutions => recoverStaleExecutions env p
  | .recoverStaleWorkerClaims => recoverStaleWorkerClaims env p
  | .failUnclaimedWorkerExecutions => failUnclaimedWorkerExecutions env p
  | .job j => runJob p j

inductive Action
  | start (p : Pid) (call : Call)
  | advance (p : Pid) (a : Answer)
  | finish (p : Pid)
  | crash (p : Pid)
  | raise (p : Pid)
  | duplicate (j : Job)
  | tick (d : Nat)

/-- A job starts only when arq has it queued. -/
def startable (h : History) : Call → Bool
  | .job j => j ∈ queued h
  | _ => true

/-- Some outbox row of the job was enqueued. -/
def everEnqueued (h : History) (j : Job) : Bool :=
  h.any fun ev => match ev with
    | .enqueued _ _ j' => j' = j
    | _ => false

/-- End `p`: its session closes, which rolls back what it did not commit. -/
def leave (s : Sys) (p : Pid) (how : Ending) : Sys :=
  s.put { s.shared with
    store := s.shared.store.rollback p
    history := .ended p how :: s.shared.history } p none

def step (s : Sys) : Action → Option Sys
  | .start p call =>
      if own p s.shared.history = [] ∧ s.shared.store.buf p = [] ∧
          startable s.shared.history call then
        some (s.put (s.shared.log (.began p call)) p (some (programOf env p call)))
      else none
  | .advance p a => s.advance p a
  | .finish p =>
      match s.procs p with
      | some (.ret reply) => some (leave s p (.returned reply))
      | _ => none
  | .crash p => (s.procs p).map fun _ => leave s p .crashed
  | .raise p => (s.procs p).map fun _ => leave s p .raised
  | .duplicate j =>
      if everEnqueued s.shared.history j then
        some { s with shared := s.shared.log (.duplicated j) }
      else none
  | .tick d => some { s with shared := { s.shared with clock := s.shared.clock + d } }

/-- An empty database at time `t`. -/
def init (t : Time) : Sys := ⟨⟨Store.start schema Pid {}, t, []⟩, fun _ => none⟩

def run (s : Sys) : List Action → Option Sys
  | [] => some s
  | a :: as => (step env s a).bind fun s' => run s' as

theorem run_append (s : Sys) (as bs : List Action) :
    run env s (as ++ bs) = (run env s as).bind fun s' => run env s' bs := by
  induction as generalizing s with
  | nil => rfl
  | cons a as ih =>
    simp only [List.cons_append, run]
    cases step env s a with
    | none => rfl
    | some s' => exact ih s'

/-- The states of the scheduler. -/
def Reachable (s : Sys) : Prop := ∃ t as, run env (init t) as = some s

end CueApi.Scheduler
