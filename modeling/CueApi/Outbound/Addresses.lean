import Mathlib.Data.List.Basic

/-! The SSRF checks of `app/utils/url_validation.py`, and the addresses that `deliver_webhook`,
`deliver_message_to_webhook`, the `_deliver_webhook` of subscriptions and `_send_failure_webhook`
connect to, when every lookup of the host may be answered differently. -/

namespace CueApi.Addresses

/-- `ipaddress.ip_address`. -/
inductive Ip
  | v4 (ip : BitVec 32)
  | v6 (ip : BitVec 128)
  deriving DecidableEq, Repr

def dotted (a b c d : BitVec 8) : BitVec 32 := a ++ b ++ c ++ d

/-- `ipaddress.ip_network`, by its address and the bits that count. -/
inductive Network
  | v4 (base : BitVec 32) (bits : Nat)
  | v6 (base : BitVec 128) (bits : Nat)
  deriving DecidableEq, Repr

/-- `ip in network`; it is not when the versions differ. -/
def Network.contains : Network → Ip → Bool
  | .v4 base bits, .v4 ip => ip >>> (32 - bits) = base >>> (32 - bits)
  | .v6 base bits, .v6 ip => ip >>> (128 - bits) = base >>> (128 - bits)
  | _, _ => false

def blockedRanges : List Network := [
  .v4 (dotted 127 0 0 0) 8,      -- Loopback
  .v4 (dotted 10 0 0 0) 8,       -- Private
  .v4 (dotted 172 16 0 0) 12,    -- Private
  .v4 (dotted 192 168 0 0) 16,   -- Private
  .v4 (dotted 169 254 0 0) 16,   -- Link-local / cloud metadata
  .v4 (dotted 0 0 0 0) 8,        -- Unspecified
  .v4 (dotted 100 64 0 0) 10,    -- Shared address space (CGN)
  .v4 (dotted 198 18 0 0) 15,    -- Benchmarking
  .v6 1 128,                     -- IPv6 loopback
  .v6 (0xfc00 <<< 112) 7,        -- IPv6 private
  .v6 (0xfe80 <<< 112) 10,       -- IPv6 link-local
  .v6 (0xffff <<< 32) 96]        -- IPv6-mapped IPv4

def blockedHostnames : List String :=
  ["localhost", "metadata.google.internal", "metadata.internal"]

/-- `hostname.lower()`. -/
def lower (hostname : String) : String := .ofList (hostname.toList.map Char.toLower)

/-- The embedded IPv4 address, where there is one (`ipv4_mapped`). -/
def Ip.unmapped : Ip → Ip
  | .v4 ip => .v4 ip
  | .v6 ip => if ip >>> 32 = 0xffff then .v4 (ip.truncate 32) else .v6 ip

/-- `is_blocked_ip`, of a text that is an address. -/
def isBlockedIp (ip : Ip) : Bool := blockedRanges.any fun blocked => blocked.contains ip.unmapped

/-- What `urlparse` makes of a URL. -/
structure ParsedUrl where
  scheme : String
  username : Option String := none
  password : Option String := none
  hostname : Option String
  deriving DecidableEq, Repr

/-- What `getaddrinfo` gives; `none` is `gaierror`. -/
abbrev Answer := Option (List Ip)

-- `urllib.parse.urlparse`, `none` where it raises
variable (urlparse : String → Option ParsedUrl)

/-- `validate_callback_url`; the answer is that to its lookup. -/
def validateCallbackUrl (env url : String) (answer : Answer) : Except String Unit :=
  match urlparse url with
  | none => .error "Invalid URL format"
  | some parsed =>
      if env = "development" ∧ parsed.scheme ∉ ["http", "https"] then
        .error "URL must use http:// or https://"
      else if env ≠ "development" ∧ parsed.scheme ≠ "https" then
        .error "URL must use https:// in production"
      else if parsed.username.any (· ≠ "") ∨ parsed.password.any (· ≠ "") then
        .error "Credentials in callback URLs are not allowed"
      else
        match parsed.hostname.filter (· ≠ "") with
        | none => .error "URL must have a hostname"
        | some hostname =>
            if lower hostname ∈ blockedHostnames then
              .error ("Blocked hostname: " ++ hostname)
            else
              match answer with
              | none => .error ("Cannot resolve hostname: " ++ hostname)
              | some ips =>
                  if ips.any isBlockedIp then
                    .error "Callback URL resolves to blocked address range"
                  else .ok ()

/-- `validate_url_at_delivery`, which lets loopback through in development. -/
def validateUrlAtDelivery (env url : String) (answer : Answer) : Except String Unit :=
  match urlparse url with
  | none => .error "Invalid URL format"
  | some parsed =>
      match parsed.hostname.filter (· ≠ "") with
      | none => .error "URL must have a hostname"
      | some hostname =>
          let isDev := env ∈ ["development", "test"]
          let blocked (ip : Ip) : Bool :=
            if isDev then
              (Network.v4 (dotted 169 254 0 0) 16).contains ip ||
                (Network.v6 (0xfe80 <<< 112) 10).contains ip
            else isBlockedIp ip
          if ¬ isDev ∧ lower hostname ∈ blockedHostnames then
            .error "Callback URL resolved to blocked IP"
          else
            match answer with
            | none => .error "Callback URL resolved to blocked IP"
            | some ips =>
                if ips.any blocked then .error "Callback URL resolved to blocked IP" else .ok ()

/-- The lookups of one delivery: that of the check, on the paths that make one, and that of httpx,
which tries the addresses of the answer. -/
structure Lookups where
  check : Answer
  connect : Answer
  deriving DecidableEq, Repr

inductive Path
  | cueCallback | agentWebhook | subscription | onFailure
  deriving DecidableEq, Repr

/-- What httpx connects to. -/
def connect (answer : Answer) : List Ip := answer.getD []

/-- The same after `validate_url_at_delivery`. -/
def revalidated (env url : String) (d : Lookups) : List Ip :=
  match validateUrlAtDelivery urlparse env url d.check with
  | .ok () => connect d.connect
  | .error _ => []

def deliverWebhook (env callbackUrl : String) (d : Lookups) : List Ip :=
  revalidated urlparse env callbackUrl d

def deliverMessageToWebhook (env webhookUrl : String) (d : Lookups) : List Ip :=
  revalidated urlparse env webhookUrl d

/-- The `_deliver_webhook` of `worker/subscription_dispatcher.py`. -/
def deliverSubscription (d : Lookups) : List Ip := connect d.connect

def sendFailureWebhook (d : Lookups) : List Ip := connect d.connect

/-- The addresses that a delivery connects to. -/
def Path.connections (env url : String) (d : Lookups) : Path → List Ip
  | .cueCallback => deliverWebhook urlparse env url d
  | .agentWebhook => deliverMessageToWebhook urlparse env url d
  | .subscription => deliverSubscription d
  | .onFailure => sendFailureWebhook d

/-- No delivery of the history connects to a blocked address. -/
def NoneBlocked (path : Path) (url : String) (history : List Lookups) : Prop :=
  ∀ d ∈ history, ∀ ip ∈ path.connections urlparse "production" url d, isBlockedIp ip = false

/-- The answer that the last check before the connection has seen, `accepted` being that of the
check by which the API took the URL. -/
def Path.checked (accepted : Answer) (d : Lookups) : Path → Answer
  | .cueCallback | .agentWebhook => d.check
  | .subscription | .onFailure => accepted

/-- The delivery is not stopped by a check. -/
def Path.passes (url : String) (d : Lookups) : Path → Prop
  | .cueCallback | .agentWebhook => validateUrlAtDelivery urlparse "production" url d.check = .ok ()
  | .subscription | .onFailure => True

/-- What httpx's own lookup adds to the addresses that the last check has seen is not blocked. -/
def NothingAdded (path : Path) (url : String) (accepted : Answer) (history : List Lookups) : Prop :=
  ∀ d ∈ history, path.passes urlparse url d → ∀ ip ∈ d.connect.getD [],
    ip ∉ (path.checked accepted d).getD [] → isBlockedIp ip = false

variable {urlparse} {path : Path} {url : String} {accepted : Answer} {history : List Lookups}
  {d : Lookups}

theorem accepted_unblocked
    (h : validateCallbackUrl urlparse "production" url accepted = .ok ()) :
    ∀ ip ∈ accepted.getD [], isBlockedIp ip = false := by
  unfold validateCallbackUrl at h
  split at h
  · cases h
  · split_ifs at h
    split at h
    · cases h
    · split_ifs at h
      split at h
      · cases h
      · next ips =>
        split_ifs at h with hany
        simpa using hany

theorem checked_unblocked
    (h : validateUrlAtDelivery urlparse "production" url d.check = .ok ()) :
    ∀ ip ∈ d.check.getD [], isBlockedIp ip = false := by
  unfold validateUrlAtDelivery at h
  split at h
  · cases h
  · split at h
    · cases h
    · have hdev : ¬ ("production" : String) ∈ ["development", "test"] := by decide
      simp only [hdev, if_false] at h
      split_ifs at h
      split at h
      · cases h
      · next ips heq =>
        split_ifs at h with hany
        rw [heq]
        simpa using hany

/-- A delivery connects to what httpx finds, unless a check stops it. -/
theorem mem_connections {ip : Ip} : ip ∈ path.connections urlparse "production" url d ↔
    path.passes urlparse url d ∧ ip ∈ d.connect.getD [] := by
  have hrevalidated : ip ∈ revalidated urlparse "production" url d ↔
      validateUrlAtDelivery urlparse "production" url d.check = .ok () ∧
        ip ∈ d.connect.getD [] := by
    unfold revalidated
    split
    · next hok => simp [hok, connect]
    · next herr => simp [herr]
  cases path with
  | cueCallback => exact hrevalidated
  | agentWebhook => exact hrevalidated
  | subscription => simp [Path.connections, Path.passes, deliverSubscription, connect]
  | onFailure => simp [Path.connections, Path.passes, sendFailureWebhook, connect]

/-- What the last check has seen is not blocked. -/
theorem last_check (hacc : validateCallbackUrl urlparse "production" url accepted = .ok ())
    (hpass : path.passes urlparse url d) :
    ∀ ip ∈ (path.checked accepted d).getD [], isBlockedIp ip = false := by
  cases path with
  | cueCallback => exact checked_unblocked hpass
  | agentWebhook => exact checked_unblocked hpass
  | subscription => exact accepted_unblocked hacc
  | onFailure => exact accepted_unblocked hacc

/-- No delivery to an accepted URL connects to a blocked address exactly when no address that httpx's
own lookup finds, and the last check did not, is blocked. -/
theorem connections_unblocked_iff
    (hacc : validateCallbackUrl urlparse "production" url accepted = .ok ()) :
    NoneBlocked urlparse path url history ↔ NothingAdded urlparse path url accepted history := by
  constructor
  · intro h d hd hpass ip hip _
    exact h d hd ip (mem_connections.mpr ⟨hpass, hip⟩)
  · intro h d hd ip hip
    obtain ⟨hpass, hip⟩ := mem_connections.mp hip
    by_cases hseen : ip ∈ (path.checked accepted d).getD []
    · exact last_check hacc hpass ip hseen
    · exact h d hd hpass ip hip hseen

/-- A host of the world, and the metadata service of the cloud. -/
def hookHost : Ip := .v4 (dotted 93 184 216 34)

def metadataService : Ip := .v4 (dotted 169 254 169 254)

def parseHook (url : String) : Option ParsedUrl :=
  if url = "https://hook.example.com/in" then
    some { scheme := "https", hostname := some "hook.example.com" }
  else none

/-- The host's name is pointed elsewhere between the check and the connection. -/
theorem rebound_host_reached :
    validateCallbackUrl parseHook "production" "https://hook.example.com/in" (some [hookHost]) =
        .ok () ∧
      isBlockedIp metadataService = true ∧
      ∀ path : Path, ¬ NoneBlocked parseHook path "https://hook.example.com/in"
        [⟨some [hookHost], some [metadataService]⟩] := by
  refine ⟨by decide, by decide, fun path h => ?_⟩
  have hno := h _ List.mem_cons_self metadataService (by cases path <;> decide)
  revert hno
  decide

theorem connections_unblocked_steady :
    NoneBlocked parseHook .subscription "https://hook.example.com/in"
        [⟨none, some [hookHost]⟩, ⟨none, none⟩] ↔
      NothingAdded parseHook .subscription "https://hook.example.com/in" (some [hookHost])
        [⟨none, some [hookHost]⟩, ⟨none, none⟩] :=
  connections_unblocked_iff (by decide)

end CueApi.Addresses
