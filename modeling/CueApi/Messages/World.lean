import CueApi.Library.Recorded
import CueApi.Messages.Calls

/-! The shared state of messaging and its statements: the database, the Redis counters
`concurrent:{user_id}` (their safety TTL is left out) and the sequence of `events.id`. -/

namespace CueApi.Messages

open Scheduler ReadCommitted Interleaving

/-- What the processes share besides the tables. -/
structure MsgOutside where
  concurrent : UserId → Int
  nextEvent : EventId

abbrev MsgWorld := Recorded.World msgSchema Pid MsgCall MsgMark MsgReply MsgOutside

abbrev MsgEvent := Recorded.Event Pid MsgCall MsgWrite MsgMark MsgReply

abbrev MsgHistory := Recorded.History Pid MsgCall MsgWrite MsgMark MsgReply

/-- `p` notes `mark`. -/
def note (w : MsgWorld) (p : Pid) (mark : MsgMark) : MsgWorld := w.log (.marked p mark)

/-- What the outside decides in a step. -/
inductive MsgAnswer
  | go
  | rows (ids : List Nat)
  | fresh (id : Nat)
  | push (a : PushAnswer)
  | redisError
  | bool (b : Bool)
  | number (n : Nat)
  | text (s : String)

abbrev MsgProgram := Prog MsgWorld MsgAnswer

def clock : MsgProgram Time := .step fun w _ => some (w.clock, w)

def select {β : Type} (p : Pid) (q : MsgTables → β) : MsgProgram β :=
  .step fun w _ => some (q (w.view p), w)

/-- `session.get`: `missing` when there is nothing. -/
def lookup {β : Type} (p : Pid) (q : MsgTables → Option β) : MsgProgram (Option β) :=
  .step fun w _ =>
    match q (w.view p) with
    | some x => some (some x, w)
    | none => some (none, note w p .missing)

/-- `SELECT … FOR UPDATE SKIP LOCKED LIMIT` over the messages. -/
def selectMessagesForUpdate (p : Pid) (wh : Message → Bool) (limit : Nat) :
    MsgProgram (List (MsgId × Message)) :=
  .step fun w a =>
    match a with
    | .rows ids =>
        let t := (w.view p).messages
        let all := keysWhere t fun m r => wh r && decide (w.store.Free p (.message m))
        if Picks limit (fun _ => 0) all ids then
          (w.store.lock p (ids.map .message)).map fun s =>
            (rowsAt t ids, note { w with store := s } p (.selected ids))
        else none
    | _ => none

def write (p : Pid) (wr : MsgWrite) : MsgProgram Unit :=
  .step fun w _ => (w.store.write p wr).map fun s => ((), { w with store := s })

/-- `UPDATE messages SET … WHERE wh RETURNING id`. -/
def updateMessagesWhere (p : Pid) (wh : MsgId → Message → Bool) (u : MsgUpdate) :
    MsgProgram (List MsgId) :=
  .step fun w _ =>
    let ms := keysWhere (w.view p).messages wh
    if ms.isEmpty then some ([], note w p (.unmatched u))
    else (w.store.write p (.updateMessages ms u)).map fun s => (ms, { w with store := s })

/-- `UPDATE messages SET … WHERE id = m`. -/
def updateMessageById (p : Pid) (m : MsgId) (u : MsgUpdate) : MsgProgram (List MsgId) :=
  updateMessagesWhere p (fun m' _ => m' = m) u

/-- INSERT into `messages` under a generated id; `none` is a conflict on
`unique_user_idempotency_key`. A pending insert of the same key by another transaction makes it
wait. -/
def insertMessage (p : Pid) (row : MsgId → Message) : MsgProgram (Option MsgId) :=
  .step fun w a =>
    match a with
    | .fresh m =>
        let t := w.view p
        let entry := (row m).keyed
        if t.message m = none ∧ entry.all fun e => w.store.Free p (MsgKey.ofEntry e) then
          if entry.isSome ∧ keysWhere t.messages (fun _ r => r.keyed = entry) ≠ [] then
            some (none, note w p .conflict)
          else
            (w.store.write p (.insertMessage m (row m))).map fun s => (some m, { w with store := s })
        else none
    | _ => none

def insertOutbox (p : Pid) (row : MsgOutboxRow) : MsgProgram Unit :=
  .step fun w a =>
    match a with
    | .fresh n =>
        if (w.view p).outboxRow n = none then
          (w.store.write p (.insertOutbox n row)).map fun s => ((), { w with store := s })
        else none
    | _ => none

/-- INSERT into `events`, which keeps the row that already has the key. The sequence is past the
rows there are, and it moves on whatever becomes of the transaction. -/
def insertEvent (p : Pid) (row : EventRow) : MsgProgram Unit :=
  .step fun w _ =>
    let x := w.outside.nextEvent
    let next : MsgOutside := { w.outside with nextEvent := x + 1 }
    let taken := keysWhere (w.view p).events fun _ r => r.idempotencyKey = row.idempotencyKey
    if w.store.Free p (.eventKey row.idempotencyKey) then
      if taken ≠ [] then some ((), { w with outside := next })
      else if (w.view p).event x = none then
        (w.store.write p (.insertEvent x row)).map fun s =>
          ((), { w with store := s, outside := next })
      else none
    else none

def commit (p : Pid) : MsgProgram Unit := .step fun w _ => some ((), w.commit p)

/-- `INCRBY concurrent:{user_id} by`; `none` is a Redis error. -/
def incrBy (user : UserId) (by' : Int) : MsgProgram (Option Int) :=
  .step fun w a =>
    match a with
    | .go =>
        let n := w.outside.concurrent user + by'
        some (some n, { w with
          outside := { w.outside with concurrent := Function.update w.outside.concurrent user n } })
    | .redisError => some (none, w)
    | _ => none

/-- `EXPIRE concurrent:{user_id} 600`. -/
def expireCounter : MsgProgram Bool :=
  .step fun w a =>
    match a with
    | .go => some (true, w)
    | .redisError => some (false, w)
    | _ => none

/-- A counter kept elsewhere; `none` is a Redis error. -/
def askCount : MsgProgram (Option Nat) :=
  .step fun w a =>
    match a with
    | .number n => some (some n, w)
    | .redisError => some (none, w)
    | _ => none

/-- A verdict from elsewhere. -/
def askBool : MsgProgram Bool :=
  .step fun w a =>
    match a with
    | .bool b => some (b, w)
    | _ => none

/-- `generate_webhook_secret`. -/
def generateSecret : MsgProgram String :=
  .step fun w a =>
    match a with
    | .text s => some (s, w)
    | _ => none

/-- `enqueue_job`; false is an error of Redis. -/
def enqueueJob (p : Pid) (n : OutboxId) (job : MsgJob) : MsgProgram Bool :=
  .step fun w a =>
    match a with
    | .go => some (true, note w p (.enqueued n job))
    | .redisError => some (false, w)
    | _ => none

end CueApi.Messages
