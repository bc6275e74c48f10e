import CueApi.Library.JsonText

/-! `sign_payload` of `app/utils/signing.py`, and what the paths that use it put on the wire:
`deliver_webhook`, `deliver_message_to_webhook` and the `_deliver_webhook` of subscriptions. -/

namespace CueApi.Signing

open JsonText

-- the hexadecimal HMAC-SHA256 of a message under a key
variable (hmac : ByteArray → ByteArray → String)

/-- The timestamp and the signature; `now` is the clock in whole seconds. -/
def signPayload (now : Nat) (payload : Value) (secret : String) : String × String :=
  let timestamp := toString now
  let payloadBytes := (dumps true payload).toUTF8
  let signedContent := (timestamp ++ ".").toUTF8 ++ payloadBytes
  (timestamp, "v1=" ++ hmac secret.toUTF8 signedContent)

/-- What the receiver gets: the method, two of the headers, and the body. -/
structure Sent where
  method : String
  timestamp : String
  signature : String
  content : Option ByteArray

/-- `deliver_webhook`. httpx encodes a string in UTF-8; GET takes no body. -/
def deliverWebhook (now : Nat) (callbackMethod : String) (webhookBody : Value)
    (webhookSecret : String) : Sent :=
  let (timestamp, signature) := signPayload hmac now webhookBody webhookSecret
  let content := some (dumps true webhookBody).toUTF8
  if callbackMethod.toUpper = "GET" then ⟨"GET", timestamp, signature, none⟩
  else if callbackMethod.toUpper = "PUT" then ⟨"PUT", timestamp, signature, content⟩
  else if callbackMethod.toUpper = "PATCH" then ⟨"PATCH", timestamp, signature, content⟩
  else ⟨"POST", timestamp, signature, content⟩

def deliverMessageToWebhook (now : Nat) (body : Value) (webhookSecret : String) : Sent :=
  let (timestamp, signature) := signPayload hmac now body webhookSecret
  ⟨"POST", timestamp, signature, some (dumps true body).toUTF8⟩

/-- The `_deliver_webhook` of `worker/subscription_dispatcher.py`. -/
def deliverSubscription (now : Nat) (body : Value) (secret : String) : Sent :=
  let (timestamp, signature) := signPayload hmac now body secret
  ⟨"POST", timestamp, signature, some (dumps false body).toUTF8⟩

inductive Path
  | webhook (callbackMethod : String)
  | message
  | subscription
  deriving DecidableEq, Repr

def Path.send (now : Nat) (body : Value) (secret : String) : Path → Sent
  | .webhook callbackMethod => deliverWebhook hmac now callbackMethod body secret
  | .message => deliverMessageToWebhook hmac now body secret
  | .subscription => deliverSubscription hmac now body secret

/-- Whatever HMAC-SHA256 is, the signature is that of the timestamp, a dot and the bytes sent. -/
def Covers (path : Path) (now : Nat) (body : Value) (secret : String) : Prop :=
  ∀ hmac bytes, (path.send hmac now body secret).content = some bytes →
    (path.send hmac now body secret).signature = "v1=" ++ hmac secret.toUTF8
      (((path.send hmac now body secret).timestamp ++ ".").toUTF8 ++ bytes)

variable {path : Path} {now : Nat} {body : Value} {secret : String}

theorem webhook_covers (callbackMethod : String) :
    Covers (.webhook callbackMethod) now body secret := by
  intro hmac bytes h
  simp only [Path.send, deliverWebhook] at h ⊢
  split_ifs at h ⊢ <;> cases h <;> rfl

theorem message_covers : Covers .message now body secret := by
  intro hmac bytes h
  cases h
  rfl

/-- On this path the signed bytes and the bytes sent are two texts of one body. -/
theorem subscription_covers_iff :
    Covers .subscription now body secret ↔ body.plain = true := by
  rw [← dumps_same_iff]
  constructor
  · intro h
    -- an HMAC that tells the signed message from all others
    let signed := (toString now ++ ".").toUTF8 ++ (dumps true body).toUTF8
    have hsig := h (fun _ m => if m = signed then "1" else "0") _ rfl
    simp only [Path.send, deliverSubscription, signPayload, signed, if_true,
      String.append_right_inj] at hsig
    by_cases heq : (toString now ++ ".").toUTF8 ++ (dumps false body).toUTF8 = signed
    · exact (String.toByteArray_inj.mp (ByteArray.append_right_inj _ |>.mp heq)).symm
    · rw [if_neg heq] at hsig
      exact absurd hsig (by decide)
  · intro h hmac bytes hbytes
    cases hbytes
    simp only [Path.send, deliverSubscription, signPayload, h]

/-- Signatures cover the bytes sent on every path but that of subscriptions, and there exactly when
every character of every string and key of the body comes before U+007F. -/
theorem signature_covers_iff : Covers path now body secret ↔
    path ≠ .subscription ∨ body.plain = true := by
  cases path with
  | webhook callbackMethod => exact iff_of_true (webhook_covers callbackMethod) (.inl (by simp))
  | message => exact iff_of_true message_covers (.inl (by simp))
  | subscription => simp [subscription_covers_iff]

/-- The webhook body of one event, whose message says "é". -/
def accented : Value := .object [
  ("delivery_id", .string "dlv_sub_1_1_1"),
  ("subscription_id", .string "sub_1"),
  ("events", .array [.object [
    ("id", .number ⟨"1", by decide⟩),
    ("event_type", .string "message.delivered"),
    ("payload", .object [("body", .string "é")]),
    ("emitted_at", .null)]])]

theorem accented_not_covered : ¬ Covers .subscription 1714935600 accented "whsec_1" := by
  rw [subscription_covers_iff]
  decide

end CueApi.Signing
