import CueApi.Messages.Idempotency
import CueApi.Messages.Retries

/-! Identical requests under one fresh key. The lookup and the INSERT are two statements, and a
request that another one overtakes between them ends with an error; where no two requests are
between them at once, there is one message and every request gets it. -/

namespace CueApi.Messages

open Scheduler (Pid Time UserId OutboxId ApiError truthy)
open ReadCommitted Interleaving Trace Recorded

variable {env : MsgEnv} {t₀ : MsgTables} {h h' h₁ h₂ : MsgHistory} {ev : MsgEvent} {p : Pid}
variable {m : MsgId} {s : MsgSys} {time : Time} {ws : List MsgWrite} {user : UserId}
variable {key : String} {req : SendRequest} {d : Draft}

/-! ## What is stored under a key -/

/-- A request of the user under the key. -/
def MsgCall.sendsUnder (user : UserId) (key : String) : MsgCall → Bool
  | .sendMessage user' req => user' = user && req.idempotencyKey = some key
  | _ => false

/-- The message that the write stores under the key. -/
def MsgWrite.storesUnder (user : UserId) (key : String) : MsgWrite → Option MsgId
  | .insertMessage m row => if row.keyed = some (user, key) then some m else none
  | _ => none

/-- The messages that one event stores under the key. -/
def storedBy (user : UserId) (key : String) (ev : MsgEvent) : List MsgId :=
  ev.writes.filterMap (MsgWrite.storesUnder user key)

def messagesStored (user : UserId) (key : String) (h : MsgHistory) : List MsgId :=
  h.flatMap (storedBy user key)

/-- The requests under the key whose lookup has found nothing. -/
def unfoundBy (user : UserId) (key : String) (h : MsgHistory) : List Pid :=
  h.filterMap fun ev => match ev with
    | .marked p (.looked _ _ _ none) =>
        if (callOf p h).any (MsgCall.sendsUnder user key) then some p else none
    | _ => none

/-- A request under the key compares these fields, and it finds nothing only when no message is
stored under the key and no earlier request that found nothing is under way. -/
def apart (user : UserId) (key : String) (fields : Fingerprinted) (h : MsgHistory) :
    MsgEvent → Bool
  | .marked p (.looked _ _ fields' found) =>
      !(callOf p h).any (MsgCall.sendsUnder user key) || fields' = fields &&
        (found.isSome || (messagesStored user key h).isEmpty &&
          (unfoundBy user key h).all fun q => gone q h)
  | _ => true

section Apart

variable {fields : Fingerprinted} {cutoff looked : Time}

variable {common : Fingerprinted}

end Apart

section Replies

variable {fields common : Fingerprinted} {cutoff : Time} {found : Option MsgId} {reply : MsgReply}

/-- The call of a process, wherever in the history it is asked for. -/
theorem MsgLegal.callOf_eq (hl : MsgLegal env t₀ h) {call call' : MsgCall} (hs₁ : h₁ <:+ h)
    (hs₂ : h₂ <:+ h) (hc₁ : callOf p h₁ = some call) (hc₂ : callOf p h₂ = some call') :
    call = call' :=
  Option.some.inj ((hl.callOf_suffix hs₁ hc₁).symm.trans (hl.callOf_suffix hs₂ hc₂))

end Replies

end CueApi.Messages
