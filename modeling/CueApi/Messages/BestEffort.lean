import CueApi.Library.Session
import CueApi.Messages.History
import CueApi.Messages.System

/-! The side effects of `create_message` in the transaction of the message: `emit_event` with
`_maybe_embed_body`, and `touch_last_seen`, each with the failure that it may meet. A cancellation
ends the request itself and is no failure of theirs. -/

namespace CueApi.BestEffort

open Scheduler (Time)
open Messages Session

/-- The calls of `emit_event`: the SELECT of `_maybe_embed_body` and the UPSERT. -/
inductive EmitCall
  | select | upsert
  deriving DecidableEq, Repr

/-- What fails, and where: in one call of `emit_event`, and in `touch_last_seen`. -/
structure Failures where
  emit : Option (EmitCall × Fault) := none
  touch : Option Fault := none
  deriving DecidableEq, Repr

def Failures.at (f : Failures) (call : EmitCall) : Option Fault :=
  (f.emit.filter fun y => y.1 = call).map Prod.snd

/-- `_maybe_embed_body`, up to its answer. -/
def maybeEmbedBody (f : Failures) (s : Session MsgWrite) : Session MsgWrite × Bool :=
  s.execute (f.at .select) none

/-- `emit_event`; the second value is false when it raises. -/
def emitEvent (f : Failures) (s : Session MsgWrite) (event : MsgWrite) : Session MsgWrite × Bool :=
  let (s, ok) := maybeEmbedBody f s
  if !ok then (s, false) else s.execute (f.at .upsert) (some event)

/-- `touch_last_seen`, which swallows what its UPDATE raises. -/
def touchLastSeen (f : Failures) (s : Session MsgWrite) (update : MsgWrite) : Session MsgWrite :=
  (s.execute f.touch (some update)).1

section

variable (env : MsgEnv) (d : Draft) (m : MsgId) (x : EventId) (n : Scheduler.OutboxId)
  (inlineSub : Bool) (seen : Time)

/-- The transaction of `create_message` from `db.add(msg)` to its commit: the writes that become
durable, unless the commit raises. -/
def createMessage (f : Failures) : Option (List MsgWrite) :=
  let s := ({} : Session MsgWrite).add (.insertMessage m (d.row env m))
  let body := Messages.maybeEmbedBody inlineSub d.data.body
  -- what `emit_event` raises is logged
  let s := (emitEvent f s (.insertEvent x (d.event m body))).1
  let s := if d.webhookUrl.isSome then s.add (.insertOutbox n (d.outbox m)) else s
  (touchLastSeen f s (.bumpLastSeen d.fromAgent seen)).commit

/-- The row of a message or of a push. -/
def isSent : MsgWrite → Bool
  | .insertMessage _ _ => true
  | .insertOutbox _ _ => true
  | _ => false

/-- The rows of the message and of its push that the request stores. -/
def stored (f : Failures) : List MsgWrite :=
  ((createMessage env d m x n inlineSub seen f).getD []).filter isSent

end

variable {f : Failures} {s : Session MsgWrite} {event : MsgWrite}

section

variable {env : MsgEnv} {d : Draft} {m : MsgId} {x : EventId} {n : Scheduler.OutboxId}
  {inlineSub : Bool} {seen : Time}

/-- Without a failure the transaction is the one that a new message takes in every history. -/
theorem createMessage_quiet : createMessage env d m x n inlineSub seen {} =
    some (d.writes env m x n inlineSub seen).reverse := by
  unfold createMessage Draft.writes
  cases d.webhookUrl.isSome <;> rfl

end

end CueApi.BestEffort
