import CueApi.Library.Dictionary
import CueApi.Outbound.Addresses
import CueApi.Outbound.Signing

/-! The headers of `deliver_webhook`: its own, updated by those of the cue. A dictionary tells names
apart by their letters, the receiver of a request does not tell upper case from lower case. -/

namespace CueApi.Headers

open Dictionary JsonText
open Signing (Sent signPayload)
open Addresses (ParsedUrl validateUrlAtDelivery)

abbrev Header := String × String

/-- The arguments of `deliver_webhook`; `scheduledFor` is what `isoformat` makes of it. -/
structure Delivery where
  callbackUrl : String
  callbackMethod : String
  callbackHeaders : Dict String String
  payload : Value
  cueId : String
  cueName : String
  executionId : String
  scheduledFor : String
  attempt : Nat
  webhookSecret : String := ""

def numeral (n : Nat) : Numeral where
  text := n.repr
  ascii := by
    rw [List.all_eq_true]
    intro c hc
    rw [Nat.repr, String.toList_ofList] at hc
    have hdigit := Nat.isDigit_of_mem_toDigits (by decide) (by decide) hc
    simp only [Char.isDigit, Bool.and_eq_true, decide_eq_true_eq] at hdigit
    have hle : c.toNat ≤ 57 := hdigit.2
    exact decide_eq_true (by omega)

def Delivery.webhookBody (d : Delivery) : Value := .object [
  ("execution_id", .string d.executionId),
  ("cue_id", .string d.cueId),
  ("name", .string d.cueName),
  ("scheduled_for", .string d.scheduledFor),
  ("attempt", .number (numeral d.attempt)),
  ("payload", d.payload)]

/-- The names of the headers that a delivery has by itself. -/
def defaultNames : List String :=
  ["Content-Type", "X-CueAPI-Signature", "X-CueAPI-Timestamp", "X-CueAPI-Cue-Id",
    "X-CueAPI-Execution-Id", "X-CueAPI-Scheduled-For", "X-CueAPI-Attempt", "User-Agent"]

/-- `headers` before the merge; `signed` is what `sign_payload` returns. -/
def Delivery.defaults (d : Delivery) (signed : String × String) : Dict String String where
  entries := [
    ("Content-Type", "application/json"),
    ("X-CueAPI-Signature", signed.2),
    ("X-CueAPI-Timestamp", signed.1),
    ("X-CueAPI-Cue-Id", d.cueId),
    ("X-CueAPI-Execution-Id", d.executionId),
    ("X-CueAPI-Scheduled-For", d.scheduledFor),
    ("X-CueAPI-Attempt", d.attempt.repr),
    ("User-Agent", "CueAPI/1.0")]
  nodup := (by decide : defaultNames.Nodup)

def Delivery.headers (d : Delivery) (signed : String × String) : Dict String String :=
  let headers := d.defaults signed
  if d.callbackHeaders.entries.isEmpty then headers else headers.update d.callbackHeaders

structure Request where
  method : String
  url : String
  headers : Dict String String
  content : Option ByteArray

/-- How a request of httpx ends. -/
inductive Answer
  | response (statusCode : Nat) (text : String)
  | timeout
  | connectError
  | failed (error : String)

def meaningfulError (statusCode : Nat) : String :=
  if statusCode = 404 then "Webhook endpoint not found (404)"
  else if statusCode = 408 then "Webhook endpoint timed out"
  else if statusCode = 500 then "Webhook endpoint returned server error (500)"
  else if 400 ≤ statusCode ∧ statusCode < 500 then
    "Webhook endpoint rejected request (" ++ statusCode.repr ++ ")"
  else if 500 ≤ statusCode ∧ statusCode < 600 then
    "Webhook endpoint server error (" ++ statusCode.repr ++ ")"
  else "Webhook delivery failed (" ++ statusCode.repr ++ ")"

/-- `text[:n]`. -/
def upTo (n : Nat) (text : String) : String := .ofList (text.toList.take n)

def Answer.result : Answer → Bool × Option Nat × Option String
  | .response statusCode text =>
      if 200 ≤ statusCode ∧ statusCode < 300 then (true, some statusCode, some (upTo 2000 text))
      else (false, some statusCode, some (meaningfulError statusCode))
  | .timeout => (false, none, some "Webhook endpoint timed out")
  | .connectError => (false, none, some "Could not connect to webhook endpoint")
  | .failed error => (false, none, some (upTo 500 error))

/-- httpx: how a request ends, and the header lines that it puts on the wire, if any. -/
structure Client where
  answer : Request → Answer
  lines : Request → Option (List Header)

section

-- HMAC-SHA256, the clock in seconds, `urlparse`, `settings.ENV` and what `getaddrinfo` finds
variable (hmac : ByteArray → ByteArray → String) (now : Nat)
  (urlparse : String → Option ParsedUrl) (env : String) (found : Addresses.Answer)

def Delivery.signed (d : Delivery) : String × String :=
  signPayload hmac now d.webhookBody d.webhookSecret

/-- The request by its method and content, as they are with any headers. -/
def Delivery.request (d : Delivery) : Request :=
  let sent := Signing.deliverWebhook hmac now d.callbackMethod d.webhookBody d.webhookSecret
  ⟨sent.method, d.callbackUrl, d.headers (sent.timestamp, sent.signature), sent.content⟩

/-- `deliver_webhook`: the header lines that are sent, and what it returns. -/
def deliverWebhook (client : Client) (d : Delivery) :
    Option (List Header) × Bool × Option Nat × Option String :=
  match validateUrlAtDelivery urlparse env d.callbackUrl found with
  | .error ssrfError => (none, false, none, some ssrfError)
  | .ok () => (client.lines (d.request hmac now), (client.answer (d.request hmac now)).result)

end

/-! ## What the receiver reads -/

/-- Names in lower case. -/
def fold (name : String) : List Char := name.toList.map Char.toLower

/-- The two headers of the signature, in any letters. -/
def signatureName (name : String) : Bool :=
  fold name = fold "X-CueAPI-Signature" || fold name = fold "X-CueAPI-Timestamp"

/-- httpx puts every entry of the dictionary on a line, and lines of its own under names that the
dictionary does not have. -/
def Client.Keeps (client : Client) : Prop :=
  ∀ r lines, client.lines r = some lines → ∃ own : List Header,
    lines.Perm (own ++ r.headers.entries) ∧ ∀ h ∈ own, under fold h.1 r.headers.entries = []

/-- One signature and one timestamp, as they were made, and all other headers of the cue, each in the
place of any default. -/
structure Intact (signed : String × String) (custom : Dict String String) (lines : List Header) :
    Prop where
  signature : ∃ name, under fold "X-CueAPI-Signature" lines = [(name, signed.2)]
  timestamp : ∃ name, under fold "X-CueAPI-Timestamp" lines = [(name, signed.1)]
  effective : ∀ h ∈ custom.entries, signatureName h.1 = false →
    h ∈ lines ∧ ∀ l ∈ under fold h.1 lines, l ∈ custom.entries

/-- No header of the cue goes by the name of the signature or of the timestamp, unless it is just that
header, and none by the name of another default in other letters, unless the cue has that name too. -/
structure Spares (signed : String × String) (custom : Dict String String) : Prop where
  signature : ∀ h ∈ custom.entries, fold h.1 = fold "X-CueAPI-Signature" →
    h = ("X-CueAPI-Signature", signed.2)
  timestamp : ∀ h ∈ custom.entries, fold h.1 = fold "X-CueAPI-Timestamp" →
    h = ("X-CueAPI-Timestamp", signed.1)
  spelled : ∀ h ∈ custom.entries, signatureName h.1 = false →
    ∀ name ∈ defaultNames, fold name = fold h.1 → name ∈ custom.keys

variable {client : Client} {d : Delivery} {signed : String × String} {lines : List Header}
variable {hmac : ByteArray → ByteArray → String} {now : Nat}

theorem headers_entries : (d.headers signed).entries =
    ((d.defaults signed).update d.callbackHeaders).entries := by
  unfold Delivery.headers
  split
  · next hempty => exact (Dict.update_empty (List.isEmpty_iff.mp hempty)).symm
  · rfl

theorem request_entries : (d.request hmac now).headers.entries =
    ((d.defaults (d.signed hmac now)).update d.callbackHeaders).entries := by
  rw [← headers_entries]
  unfold Delivery.request Delivery.signed Signing.deliverWebhook
  dsimp only
  split_ifs <;> rfl

/-- Under a name of the dictionary the lines are its entries. -/
theorem Client.Keeps.under_lines (hk : client.Keeps) {r : Request} (hl : client.lines r = some lines)
    {name value : String} (hm : (name, value) ∈ r.headers.entries) :
    (under fold name lines).Perm (under fold name r.headers.entries) := by
  obtain ⟨own, hperm, hown⟩ := hk r lines hl
  have hnone : under fold name own = [] := by
    refine List.filter_eq_nil_iff.mpr fun h hh hfold => ?_
    have hin : (name, value) ∈ under fold h.1 r.headers.entries :=
      List.mem_filter.mpr ⟨hm, decide_eq_true (of_decide_eq_true hfold).symm⟩
    rw [hown h hh] at hin
    cases hin
  have hfilter := hperm.filter fun e => decide (fold e.1 = fold name)
  rw [List.filter_append] at hfilter
  unfold under at hnone ⊢
  rwa [hnone, List.nil_append] at hfilter

/-- A default that no other is taken for is alone and unchanged exactly when the cue does not touch
it. -/
theorem alone_iff (hk : client.Keeps) (hl : client.lines (d.request hmac now) = some lines)
    (name value : String) (hd : (name, value) ∈ (d.defaults (d.signed hmac now)).entries)
    (honly : ∀ name' ∈ defaultNames, fold name' = fold name → name' = name) :
    (∃ name', under fold name lines = [(name', value)]) ↔
      ∀ h ∈ d.callbackHeaders.entries, fold h.1 = fold name → h = (name, value) := by
  rw [← under_update_iff hd honly, ← request_entries]
  have hkey : ∃ w, (name, w) ∈ (d.request hmac now).headers.entries := by
    rw [request_entries]
    exact Dict.mem_keys.mp (Dict.keys_update (Dict.mem_keys.mpr ⟨value, hd⟩))
  obtain ⟨w, hw⟩ := hkey
  have hperm := hk.under_lines hl hw
  constructor
  · rintro ⟨name', heq⟩
    exact ⟨name', List.perm_singleton.mp (heq ▸ hperm.symm)⟩
  · rintro ⟨name', heq⟩
    exact ⟨name', List.perm_singleton.mp (heq ▸ hperm)⟩

/-- A header of the cue is sent, and in the place of the defaults exactly when it names them as they
are spelled. -/
theorem effective_iff (hk : client.Keeps) (hl : client.lines (d.request hmac now) = some lines)
    {h : Header} (hh : h ∈ d.callbackHeaders.entries) :
    (h ∈ lines ∧ ∀ l ∈ under fold h.1 lines, l ∈ d.callbackHeaders.entries) ↔
      ∀ name ∈ defaultNames, fold name = fold h.1 → name ∈ d.callbackHeaders.keys := by
  have hm : (h.1, h.2) ∈ (d.request hmac now).headers.entries := by
    rw [request_entries]
    exact Dict.mem_update.mpr (.inl hh)
  have hperm := hk.under_lines hl hm
  have hin : h ∈ lines :=
    (List.mem_filter.mp (hperm.mem_iff.mpr (List.mem_filter.mpr ⟨hm, decide_eq_true rfl⟩))).1
  have hreplaced := replaced_iff fold (d.defaults (d.signed hmac now)) d.callbackHeaders h.1
  rw [← request_entries] at hreplaced
  simp only [hin, true_and, hperm.mem_iff]
  exact hreplaced

/-- In a request that is sent, the signature and the timestamp are those of `sign_payload` and alone,
and all other headers of the cue take effect, exactly when the cue spares the names. -/
theorem signature_headers_iff {urlparse : String → Option ParsedUrl} {env : String}
    {found : Addresses.Answer} (hk : client.Keeps)
    (hsent : (deliverWebhook hmac now urlparse env found client d).1 = some lines) :
    Intact (d.signed hmac now) d.callbackHeaders lines ↔
      Spares (d.signed hmac now) d.callbackHeaders := by
  have hl : client.lines (d.request hmac now) = some lines := by
    unfold deliverWebhook at hsent
    split at hsent
    · cases hsent
    · exact hsent
  have hsignature := alone_iff hk hl "X-CueAPI-Signature" (d.signed hmac now).2
    (by simp [Delivery.defaults]) (by decide +kernel)
  have htimestamp := alone_iff hk hl "X-CueAPI-Timestamp" (d.signed hmac now).1
    (by simp [Delivery.defaults]) (by decide +kernel)
  constructor
  · intro h
    exact ⟨hsignature.mp h.signature, htimestamp.mp h.timestamp,
      fun e he hno => (effective_iff hk hl he).mp (h.effective e he hno)⟩
  · intro h
    exact ⟨hsignature.mpr h.signature, htimestamp.mpr h.timestamp,
      fun e he hno => (effective_iff hk hl he).mpr (h.spelled e he hno)⟩

/-- The own lines of httpx for a POST to the host of the example. -/
def httpx : Client where
  answer _ := .response 200 "ok"
  lines r :=
    let own : List Header := [
      ("Host", "hook.example.com"),
      ("Content-Length", (r.content.elim 0 ByteArray.size).repr),
      ("Accept", "*/*"),
      ("Accept-Encoding", "gzip, deflate"),
      ("Connection", "keep-alive")]
    some (own.filter (fun h => (under fold h.1 r.headers.entries).isEmpty) ++ r.headers.entries)

theorem httpx_keeps : httpx.Keeps := by
  intro r lines hl
  cases hl
  refine ⟨_, List.Perm.refl _, fun h hh => ?_⟩
  exact List.isEmpty_iff.mp (List.mem_filter.mp hh).2

def hookDelivery (custom : Dict String String) : Delivery where
  callbackUrl := "https://hook.example.com/in"
  callbackMethod := "POST"
  callbackHeaders := custom
  payload := .object []
  cueId := "cue_1"
  cueName := "nightly"
  executionId := "1"
  scheduledFor := "2026-01-01T00:00:00+00:00"
  attempt := 1

def team : Dict String String := ⟨[("X-Team", "ops")], by decide⟩

theorem signature_headers_team : ∃ lines,
    (deliverWebhook (fun _ _ => "0") 0 Addresses.parseHook "production" (some [Addresses.hookHost])
      httpx (hookDelivery team)).1 = some lines ∧
    Intact ((hookDelivery team).signed (fun _ _ => "0") 0) team lines := by
  have hsent : (deliverWebhook (fun _ _ => "0") 0 Addresses.parseHook "production"
      (some [Addresses.hookHost]) httpx (hookDelivery team)).1 = some _ := rfl
  refine ⟨_, hsent, (signature_headers_iff httpx_keeps hsent).mpr ⟨?_, ?_, ?_⟩⟩ <;>
    · intro h hh
      obtain rfl := List.mem_singleton.mp hh
      decide +kernel

/-- The cue's own signature takes the place of the one that was made. -/
def forged : Dict String String := ⟨[("X-CueAPI-Signature", "v1=00")], by decide⟩

theorem forged_signature_sent : ¬ ∀ (hmac : ByteArray → ByteArray → String) (now : Nat)
    (urlparse : String → Option ParsedUrl) (env : String) (found : Addresses.Answer)
    (client : Client) (d : Delivery) (lines : List Header), client.Keeps →
    (deliverWebhook hmac now urlparse env found client d).1 = some lines →
      Intact (d.signed hmac now) d.callbackHeaders lines := by
  intro hall
  have hsent : (deliverWebhook (fun _ _ => "0") 0 Addresses.parseHook "production"
      (some [Addresses.hookHost]) httpx (hookDelivery forged)).1 = some _ := rfl
  have hintact := hall _ _ _ _ _ _ _ _ httpx_keeps hsent
  have hsame := (alone_iff httpx_keeps hsent "X-CueAPI-Signature" "v1=0" (.tail _ (.head _))
    (by decide +kernel)).mp hintact.signature
  exact absurd (hsame _ List.mem_cons_self rfl) (by decide)

end CueApi.Headers
