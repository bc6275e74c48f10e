import CueApi.Library.PyJsonLoaded
import Mathlib.Data.List.Infix

/-! `VerifyEchoMiddleware`: the messages of a request and of its response pass through it, and where the
request asks for it, the body of the response is extended by what the server has received. -/

namespace CueApi.VerifyEcho

open PyJson

abbrev Header := Octets × Octets

/-- A message of `receive`: `http.request`, or another by its type. -/
inductive Received
  | request (body : Option Octets) (moreBody : Option Bool)
  | other (type : String)
  deriving DecidableEq, Repr

/-- A message of `send`: `http.response.start`, `http.response.body`, or another by its type. -/
inductive Sent
  | start (status : Option Int) (headers : Option (List Header))
  | body (body : Option Octets) (moreBody : Option Bool)
  | other (type : String)
  deriving DecidableEq, Repr

structure Scope where
  type : String
  method : Option String
  headers : Option (List Header)
  deriving DecidableEq, Repr

inductive Raised
  | loads (e : LoadError)
  | dumps (e : PyError)
  deriving DecidableEq, Repr

/-- The levels that the recursion limit leaves to `json.loads` and to the two `json.dumps`. -/
structure Limits where
  loads : Nat
  canonical : Nat
  dumps : Nat

/-- A literal of ASCII bytes. -/
def octets (s : String) : Octets := asciiOctets (text s)

def lower (bs : Octets) : Octets := bs.map fun b => if 0x41 ≤ b ∧ b ≤ 0x5a then b + 0x20 else b

def space (b : UInt8) : Bool := b = 0x20 || (0x09 ≤ b && b ≤ 0x0d)

def strip (bs : Octets) : Octets := ((bs.dropWhile space).reverse.dropWhile space).reverse

def verifyEchoHeader : Octets := octets "x-cueapi-verify-echo"

def bodyMethods : List String := ["POST", "PATCH", "PUT"]

-- a method is ASCII
def upper (method : String) : String := String.ofList (method.toList.map Char.toUpper)

/-- The value of the first header of that name, which is in lower case. -/
def firstHeader (name : Octets) (headers : List Header) : Option Octets :=
  (headers.find? fun header => lower header.1 = name).map Prod.snd

def verifyEchoRequested (headers : List Header) : Bool :=
  (firstHeader verifyEchoHeader headers).any fun v => lower (strip v) = octets "true"

/-- The request is one that the middleware acts on. -/
def Scope.active (scope : Scope) : Bool :=
  scope.type = "http" && upper (scope.method.getD "") ∈ bodyMethods &&
    verifyEchoRequested (scope.headers.getD [])

/-! ## The body of the request -/

/-- The loop on `receive`, with the messages it leaves; none while it waits. -/
def capture : List Received → Option (Octets × List Received)
  | [] => none
  | .other _ :: messages => some ([], messages)
  | .request body moreBody :: messages =>
      if moreBody.getD false then
        (capture messages).map fun (bytes, rest) => (body.getD [] ++ bytes, rest)
      else some (body.getD [], messages)

/-- What `receive_replay` yields. -/
def replay (requestBody : Octets) (rest : List Received) : List Received :=
  .request (some requestBody) (some false) :: rest

/-! ## `_maybe_inject` -/

-- `float` and `hashlib.sha256(...).digest()`
variable (floats : Floats) (limits : Limits) (sha256 : Octets → Octets)

def canonicalJsonBytes (value : Value) : Except Raised Octets :=
  ((canonical.dumps limits.canonical value).bind encode).mapError .dumps

def hexdigest (bytes : Octets) : Text :=
  (sha256 bytes).flatMap fun b => [hexDigit (b.toNat / 16), hexDigit b.toNat]

/-- `body_view` and `sha_input`. -/
def requestView (requestBody : Octets) : Except Raised (Value × Octets) :=
  if requestBody = [] then .ok (.null, [])
  else
    match loads floats limits.loads requestBody with
    | .error .jsonDecodeError => .ok (.str (decodeReplace requestBody), requestBody)
    | .error e => .error (.loads e)
    | .ok value => do return (value, ← canonicalJsonBytes limits value)

def isContentLength (header : Header) : Bool := lower header.1 = octets "content-length"

/-- `str(len(new_body)).encode("ascii")` behind the other headers. -/
def updateContentLength (headers : List Header) (newBody : Octets) : List Header :=
  headers.filter (fun header => !isContentLength header) ++
    [(octets "content-length", octets (toString newBody.length))]

/-- The dictionary with `body_received` and `body_received_sha256`, as bytes. -/
def inject (entries : List (Text × Value)) (requestBody : Octets) : Except Raised Octets := do
  let (bodyView, shaInput) ← requestView floats limits requestBody
  let entries := setItem (text "body_received") bodyView entries
  let entries := setItem (text "body_received_sha256") (.str (hexdigest sha256 shaInput)) entries
  ((plain.dumps limits.dumps (.dict entries)).bind encode).mapError .dumps

/-- Only a response of success that says it is JSON may be extended. -/
def candidate (status : Int) (headers : List Header) : Bool :=
  200 ≤ status && status < 300 &&
    octets "application/json" <:+: lower ((firstHeader (octets "content-type") headers).getD [])

def maybeInject (status : Int) (headers : List Header) (requestBody responseBody : Octets) :
    Except Raised (List Header × Octets) :=
  if candidate status headers then
    match loads floats limits.loads responseBody with
    | .error .jsonDecodeError => .ok (headers, responseBody)
    | .error e => .error (.loads e)
    | .ok (.dict entries) =>
        if text "body_received" ∈ entries.map Prod.fst then .ok (headers, responseBody)
        else do
          let newBody ← inject floats limits sha256 entries requestBody
          return (updateContentLength headers newBody, newBody)
    | .ok _ => .ok (headers, responseBody)
  else .ok (headers, responseBody)

/-! ## The response -/

/-- `response_status`, `response_headers` and `response_chunks`. -/
structure Captured where
  status : Int := 200
  headers : List Header := []
  chunks : List Octets := []

/-- `send_capture`, with the messages it sends. -/
def sendCapture (requestBody : Octets) (s : Captured) : Sent → Except Raised (Captured × List Sent)
  | .start status headers => .ok ({ s with status := status.getD 200, headers := headers.getD [] }, [])
  | .body body moreBody => do
      let s := { s with chunks := s.chunks ++ [body.getD []] }
      if moreBody.getD false then return (s, [])
      else
        let (headers, body) ← maybeInject floats limits sha256 s.status s.headers requestBody s.chunks.flatten
        return (s, [.start (some s.status) (some headers), .body (some body) (some false)])
  | .other type => .ok (s, [.other type])

def sendAll (requestBody : Octets) : Captured → List Sent → Except Raised (List Sent)
  | _, [] => .ok []
  | s, message :: messages => do
      let (s, now) ← sendCapture floats limits sha256 requestBody s message
      let later ← sendAll requestBody s messages
      return now ++ later

/-- What the handler was offered by `receive`, and what was sent in the end. -/
structure Exchange where
  received : List Received
  sent : List Sent

/-- `__call__`; the app makes messages of those it can receive. None while the request is not complete. -/
def call (app : List Received → List Sent) (scope : Scope) (messages : List Received) :
    Except Raised (Option Exchange) :=
  if scope.active then
    match capture messages with
    | none => .ok none
    | some (requestBody, rest) => do
        let received := replay requestBody rest
        return some ⟨received, ← sendAll floats limits sha256 requestBody {} (app received)⟩
  else .ok (some ⟨messages, app messages⟩)

end CueApi.VerifyEcho
