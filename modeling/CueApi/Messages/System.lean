import CueApi.Messages.Events

/-! Any number of push jobs, senders, recipients and periodic functions on one database. A job may
start at any time with any payload, so every duplication of arq is a run. -/

namespace CueApi.Messages

open Scheduler ReadCommitted Interleaving

variable (env : MsgEnv)

def msgProgramOf (p : Pid) : MsgCall → MsgProgram MsgReply
  | .deliverMessage payload => deliverMessageTask env p payload >>= fun _ => .ret .done
  | .retryMessage payload => retryMessageTask env p payload >>= fun _ => .ret .done
  | .recoverStaleMessageDeliveries staleSeconds => recoverStaleMessageDeliveries p staleSeconds
  | .listInbox user q => listInbox env p user q
  | .markRead user m text => markRead p user m text
  | .markAcked user m text => markAcked p user m text
  | .expireOldMessages dryRun => expireOldMessages p dryRun
  | .sendMessage user req => sendMessage env p user req
  | .getMessage user m text => getMessage p user m text
  | .updateAgent user addr webhookUrl => updateAgent env p user addr webhookUrl
  | .softDeleteAgent user addr => softDeleteAgent env p user addr
  | .pullEvents user addr since limit eventType => pullEvents env p user addr since limit eventType
  | .dispatchOutbox => dispatchOutbox p
  | .freeOldIdempotencyKeys dryRun => freeOldIdempotencyKeys p dryRun
  | .dispatchSubscriptionEvents => dispatchSubscriptionEvents env p
  | .emitDigests => emitDigests env p

abbrev MsgSys := Recorded.System msgSchema Pid MsgCall MsgMark MsgReply MsgOutside MsgAnswer

abbrev MsgAction := Recorded.Action Pid MsgCall MsgAnswer

/-- A process that returns, raises or dies leaves, and its open transaction is rolled back. -/
def msgStep (s : MsgSys) (a : MsgAction) : Option MsgSys := Recorded.step (msgProgramOf env) s a

/-- The sequence of `events.id` is past the rows there are. -/
def firstEvent (t : MsgTables) : EventId := (t.events.entries.map Sigma.fst).foldr max 0 + 1

def msgInit (t : MsgTables) (concurrent : UserId → Int) (now : Time) : MsgSys :=
  Recorded.init t ⟨concurrent, firstEvent t⟩ now

def msgRun (s : MsgSys) (as : List MsgAction) : Option MsgSys :=
  Recorded.run (msgProgramOf env) s as

/-- Every statement of a process meets `C`. -/
def alongMsgs (C : Pid → MsgWorld → MsgWorld → Bool) (s : MsgSys) : List MsgAction → Bool
  | [] => true
  | a :: as => (msgStep env s a).all fun s' =>
      (match a with
        | .advance p _ => C p s.shared s'.shared
        | _ => true) && alongMsgs C s' as

/-! ## Concrete runs -/

def oneUser : MsgEnv := { userSlug := fun _ => some "u", fingerprint := Fingerprinted.body }

def playMsg (p : Pid) (call : MsgCall) (answers : List MsgAnswer) : List MsgAction :=
  .start p call :: answers.map (.advance p)

/-- The same to the end. -/
def playMsgAll (p : Pid) (call : MsgCall) (answers : List MsgAnswer) : List MsgAction :=
  playMsg p call answers ++ [.leave p]

/-- Agent 1 of user 1, and agent 2 of user 2 with a push endpoint. -/
def twoUsers : MsgTables where
  agents := insertNew (insertNew ∅ 1 { userId := 1, slug := "a" }) 2
    { userId := 2, slug := "b", webhookUrl := some "https://b.example", webhookSecret := some "s" }

/-- User 1 writes to agent 2. -/
def hello : SendRequest where
  fromAgent := some (.id 1 "agt_1")
  data := { toAgent := .id 2 "agt_2", body := "hi" }

/-- The push of that message, when it is message 5. -/
def pushOfHello : MsgPayload where
  messageId := 5
  toAgentId := 2
  webhookUrl := some "https://b.example"

/-- The answers to a request that stores message `m` and its push `n`. -/
def stores (m : MsgId) (n : OutboxId) : List MsgAnswer :=
  [.go, .go, .go, .bool true, .number 0, .number 0, .go, .fresh m, .go, .go, .fresh n] ++
    List.replicate 4 .go

/-- The poller enqueues the task `n`. -/
def enqueues (n : OutboxId) : List MsgAnswer := [.go, .rows [n], .go, .go, .go]

end CueApi.Messages
