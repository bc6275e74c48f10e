import CueApi.Middleware.VerifyEcho

/-! When verify-echo is transparent: nothing is raised, the handler gets the bytes of the request, and the
response passes as it is or is extended by the two members. -/

namespace CueApi.VerifyEcho

open PyJson

/-! ## Requests and responses -/

/-- The messages begin with a request of these bytes, in any chunks. -/
inductive IsRequest : List Received → Octets → List Received → Prop
  | last {body moreBody rest} (h : moreBody.getD false = false) :
      IsRequest (.request body moreBody :: rest) (body.getD []) rest
  | more {body messages bytes rest} (h : IsRequest messages bytes rest) :
      IsRequest (.request body (some true) :: messages) (body.getD [] ++ bytes) rest

inductive IsBody : List Sent → Octets → Prop
  | last {body moreBody} (h : moreBody.getD false = false) : IsBody [.body body moreBody] (body.getD [])
  | more {body messages bytes} (h : IsBody messages bytes) :
      IsBody (.body body (some true) :: messages) (body.getD [] ++ bytes)

/-- The messages are a response, its body in any chunks. -/
inductive IsResponse : List Sent → Int → List Header → Octets → Prop
  | mk {status headers messages bytes} (h : IsBody messages bytes) :
      IsResponse (.start status headers :: messages) (status.getD 200) (headers.getD []) bytes

theorem capture_request {messages rest : List Received} {bytes : Octets} (h : IsRequest messages bytes rest) :
    capture messages = some (bytes, rest) := by
  induction h with
  | last h => rw [capture, h, if_neg Bool.false_ne_true]
  | more _ ih => rw [capture, Option.getD_some, if_pos rfl, ih, Option.map_some]

/-- What is sent in place of a response. -/
def response (status : Int) (made : List Header × Octets) : List Sent :=
  [.start (some status) (some made.1), .body (some made.2) (some false)]

theorem isResponse_unique {status status' : Int} {made : List Header × Octets} {headers : List Header}
    {bytes : Octets} (h : IsResponse (response status made) status' headers bytes) :
    headers = made.1 ∧ bytes = made.2 := by
  cases h with
  | mk h =>
    cases h with
    | last => exact ⟨rfl, rfl⟩

theorem isResponse_response (status : Int) (made : List Header × Octets) :
    IsResponse (response status made) status made.1 made.2 :=
  .mk (.last rfl)

variable (floats : Floats) (limits : Limits) (sha256 : Octets → Octets)

theorem sendAll_body {messages : List Sent} {bytes : Octets} (h : IsBody messages bytes) (requestBody : Octets)
    (s : Captured) : sendAll floats limits sha256 requestBody s messages =
      (maybeInject floats limits sha256 s.status s.headers requestBody (s.chunks.flatten ++ bytes)).map
        (response s.status) := by
  induction h generalizing s with
  | @last body moreBody h =>
    have hflat : (s.chunks ++ [body.getD []]).flatten = s.chunks.flatten ++ body.getD [] := by
      rw [List.flatten_append, List.flatten_singleton]
    rw [sendAll, sendCapture, h, if_neg Bool.false_ne_true, hflat]
    cases maybeInject floats limits sha256 s.status s.headers requestBody (s.chunks.flatten ++ body.getD []) with
    | error e => rfl
    | ok made => rfl
  | @more body messages bytes _ ih =>
    have hnext := ih { s with chunks := s.chunks ++ [body.getD []] }
    rw [List.flatten_append, List.flatten_singleton, List.append_assoc] at hnext
    rw [sendAll, sendCapture, Option.getD_some, if_pos rfl, ← hnext]
    simp only [bind, Except.bind, pure, Except.pure]
    cases sendAll floats limits sha256 requestBody { s with chunks := s.chunks ++ [body.getD []] } messages with
    | error e => rfl
    | ok later => rfl

theorem sendAll_response {messages : List Sent} {status : Int} {headers : List Header} {bytes : Octets}
    (h : IsResponse messages status headers bytes) (requestBody : Octets) :
    sendAll floats limits sha256 requestBody {} messages =
      (maybeInject floats limits sha256 status headers requestBody bytes).map (response status) := by
  obtain ⟨hbody⟩ := h
  rename_i status headers messages
  have hrest := sendAll_body floats limits sha256 hbody requestBody
    { status := status.getD 200, headers := headers.getD [] }
  rw [List.flatten_nil, List.nil_append] at hrest
  rw [sendAll, sendCapture]
  simp only [bind, Except.bind, hrest]
  cases maybeInject floats limits sha256 (status.getD 200) (headers.getD []) requestBody bytes with
  | error e => rfl
  | ok made => rfl

/-! ## What transparency is -/

/-- To a request that asks for the echo, the response is an object of JSON that has none yet. -/
structure Echoed (scope : Scope) (status : Int) (headers : List Header) (body : Octets)
    (entries : List (Text × Value)) : Prop where
  active : scope.active = true
  candidate : candidate status headers = true
  object : Parses floats body (.ok (.dict entries))
  fresh : text "body_received" ∉ entries.map Prod.fst

/-- The response has the two members behind those of the object, and its headers say how long it is. -/
inductive Extended (status : Int) (headers : List Header) (entries : List (Text × Value))
    (sent : List Sent) : Prop
  | mk (headers' : List Header) (bytes : Octets) (received digest : Value)
      (response : IsResponse sent status headers' bytes)
      (object : Parses floats bytes (.ok (.dict
        (entries ++ [(text "body_received", received), (text "body_received_sha256", digest)]))))
      (length : (headers'.filter isContentLength).map Prod.snd = [octets (toString bytes.length)])
      (others : headers'.filter (fun header => !isContentLength header) =
        headers.filter fun header => !isContentLength header)

/-- Nothing is raised, the handler can receive the bytes of the request, and the response is extended
where it is to be echoed and passes as it is elsewhere. -/
inductive Transparent (scope : Scope) (requestBody : Octets) (rest : List Received) (status : Int)
    (headers : List Header) (body : Octets) (outcome : Except Raised (Option Exchange)) : Prop
  | mk (exchange : Exchange) (finished : outcome = .ok (some exchange))
      (request : IsRequest exchange.received requestBody rest)
      (extended : ∀ entries, Echoed floats scope status headers body entries →
        Extended floats status headers entries exchange.sent)
      (passed : (∀ entries, ¬ Echoed floats scope status headers body entries) →
        IsResponse exchange.sent status headers body)

/-- The request can be echoed in the object: it is empty, no JSON at all, or JSON that has no surrogates
and is not nested too deep; and the object keeps its members when it is written and read again. -/
structure Echoable (entries : List (Text × Value)) (requestBody : Octets) : Prop where
  request : requestBody = [] ∨ loads floats limits.loads requestBody = .error .jsonDecodeError ∨
    ∃ value, loads floats limits.loads requestBody = .ok value ∧
      value.anyText (fun s => s.any surrogate) = false ∧ value.nesting ≤ limits.canonical ∧
      value.nesting < limits.dumps
  digest : text "body_received_sha256" ∉ entries.map Prod.fst
  strings : (Value.dict entries).anyText paired = false
  nesting : (Value.dict entries).nesting ≤ limits.dumps

/-- The middleware leaves the response alone, or it can parse it, and where it is an object without
`body_received`, can echo the request in it. -/
def Kept (scope : Scope) (requestBody : Octets) (status : Int) (headers : List Header) (body : Octets) : Prop :=
  scope.active = true → candidate status headers = true →
    loads floats limits.loads body = .error .jsonDecodeError ∨
      ∃ value, loads floats limits.loads body = .ok value ∧ ∀ entries, value = .dict entries →
        text "body_received" ∉ entries.map Prod.fst → Echoable floats limits entries requestBody

/-! ## The echo of the request -/

theorem canonicalJsonBytes_cases (value : Value) :
    (value.anyText (fun s => s.any surrogate) = false ∧ value.nesting ≤ limits.canonical ∧
      ∃ bytes, canonicalJsonBytes limits value = .ok bytes) ∨
    (¬ (value.anyText (fun s => s.any surrogate) = false ∧ value.nesting ≤ limits.canonical) ∧
      ∃ e, canonicalJsonBytes limits value = .error e) := by
  unfold canonicalJsonBytes Style.dumps
  by_cases hnesting : value.nesting ≤ limits.canonical
  · rw [if_pos hnesting, ← canonical_surrogates.any_write]
    rcases encode_cases (canonical.write value) with ⟨hclear, bytes, hbytes⟩ | ⟨hsurrogate, herror⟩
    · exact .inl ⟨hclear, hnesting, bytes, congrArg (Except.mapError Raised.dumps) hbytes⟩
    · refine .inr ⟨fun h => ?_, _, congrArg (Except.mapError Raised.dumps) herror⟩
      rw [hsurrogate] at h
      exact Bool.true_eq_false.mp h.1
  · rw [if_neg hnesting]
    exact .inr ⟨fun h => hnesting h.2, _, rfl⟩

theorem requestView_ok {requestBody input : Octets} {view : Value}
    (h : requestView floats limits requestBody = .ok (view, input)) :
    view.Loaded floats ∧ view.anyText (fun s => s.any surrogate) = false ∧
      (requestBody = [] ∨ loads floats limits.loads requestBody = .error .jsonDecodeError ∨
        loads floats limits.loads requestBody = .ok view ∧ view.nesting ≤ limits.canonical) := by
  unfold requestView at h
  split_ifs at h with hempty
  · cases h
    exact ⟨trivial, rfl, .inl hempty⟩
  split at h
  · rename_i herror
    cases h
    exact ⟨trivial, any_decodeReplace requestBody, .inr (.inl herror)⟩
  · cases h
  · rename_i value hloads
    rcases canonicalJsonBytes_cases limits value with ⟨hclear, hnesting, bytes, hbytes⟩ | ⟨-, e, herror⟩
    · rw [hbytes] at h
      cases h
      exact ⟨loads_loaded floats hloads, hclear, .inr (.inr ⟨hloads, hnesting⟩)⟩
    · rw [herror] at h
      cases h

theorem requestView_of_echoable {entries : List (Text × Value)} {requestBody : Octets}
    (h : Echoable floats limits entries requestBody) :
    ∃ view input, requestView floats limits requestBody = .ok (view, input) ∧ view.nesting < limits.dumps := by
  have hdumps : 0 < limits.dumps := by
    have hnesting := h.nesting
    rw [Value.nesting] at hnesting
    omega
  unfold requestView
  by_cases hempty : requestBody = []
  · exact ⟨_, _, if_pos hempty, hdumps⟩
  rw [if_neg hempty]
  rcases h.request with hnone | herror | ⟨value, hvalue, hclear, hcanonical, hnesting⟩
  · exact absurd hnone hempty
  · rw [herror]
    exact ⟨_, _, rfl, hdumps⟩
  · rw [hvalue]
    rcases canonicalJsonBytes_cases limits value with ⟨-, -, bytes, hbytes⟩ | ⟨hnot, -⟩
    · refine ⟨value, bytes, ?_, hnesting⟩
      simp only [hbytes, bind, Except.bind, pure, Except.pure]
    · exact absurd ⟨hclear, hcanonical⟩ hnot

/-! ## The object with the two members -/

/-- `resp_dict` when it is written. -/
def withEcho (entries : List (Text × Value)) (view : Value) (input : Octets) : List (Text × Value) :=
  setItem (text "body_received_sha256") (.str (hexdigest sha256 input))
    (setItem (text "body_received") view entries)

theorem inject_eq {requestBody input : Octets} {view : Value} (entries : List (Text × Value))
    (h : requestView floats limits requestBody = .ok (view, input)) :
    inject floats limits sha256 entries requestBody =
      if (Value.dict (withEcho sha256 entries view input)).nesting ≤ limits.dumps then
        .ok (asciiOctets (plain.write (.dict (withEcho sha256 entries view input))))
      else .error (.dumps .recursionError) := by
  unfold inject
  rw [h]
  simp only [bind, Except.bind]
  change ((plain.dumps limits.dumps (.dict (withEcho sha256 entries view input))).bind encode).mapError _ = _
  unfold Style.dumps
  split_ifs
  · exact congrArg (Except.mapError Raised.dumps) (encode_ascii (plain_ascii _))
  · rfl

theorem withEcho_fresh {entries : List (Text × Value)} (hfresh : text "body_received" ∉ entries.map Prod.fst)
    (hdigest : text "body_received_sha256" ∉ entries.map Prod.fst) (view : Value) (input : Octets) :
    withEcho sha256 entries view input = entries ++ [(text "body_received", view),
      (text "body_received_sha256", .str (hexdigest sha256 input))] := by
  have hne : text "body_received_sha256" ≠ text "body_received" := by
    intro h
    have hlength := congrArg List.length h
    rw [length_text, length_text] at hlength
    exact absurd hlength (by decide)
  have hnew : text "body_received_sha256" ∉ (entries ++ [(text "body_received", view)]).map Prod.fst := by
    rw [List.map_append, List.mem_append, not_or]
    exact ⟨hdigest, fun h => hne (List.mem_singleton.mp h)⟩
  rw [withEcho, setItem_new hfresh, setItem_new hnew, List.append_assoc, List.singleton_append]

theorem withEcho_loaded {entries : List (Text × Value)} (hentries : (Value.dict entries).Loaded floats)
    {view : Value} (hview : view.Loaded floats) (input : Octets) :
    (Value.dict (withEcho sha256 entries view input)).Loaded floats :=
  loaded_setItem floats _ (loaded_setItem floats _ hentries hview) trivial

theorem withEcho_nesting_le (entries : List (Text × Value)) (view : Value) (digest : Text) (n : Nat) :
    (Value.dict (entries ++ [(text "body_received", view), (text "body_received_sha256", .str digest)])).nesting ≤ n
      ↔ (Value.dict entries).nesting ≤ n ∧ view.nesting < n := by
  have happend : ∀ xs ys, nestingEntries (xs ++ ys) = max (nestingEntries xs) (nestingEntries ys) := by
    intro xs ys
    induction xs with
    | nil => exact (Nat.zero_max _).symm
    | cons entry xs ih => rw [List.cons_append, nestingEntries, ih, nestingEntries, Nat.max_assoc]
  rw [Value.nesting, Value.nesting, happend]
  simp only [nestingEntries, Value.nesting]
  omega

/-- Only an object that has no digest yet, and no strings that change, is read back with two members. -/
theorem reread_withEcho {entries : List (Text × Value)} {view received digest : Value} {input : Octets}
    (hfresh : text "body_received" ∉ entries.map Prod.fst)
    (h : (Value.dict (withEcho sha256 entries view input)).reread = .dict
      (entries ++ [(text "body_received", received), (text "body_received_sha256", digest)])) :
    text "body_received_sha256" ∉ entries.map Prod.fst ∧ rereadEntries entries = entries := by
  rw [Value.reread, Value.dict.injEq] at h
  have hlength := congrArg List.length h
  rw [List.length_append, List.length_cons, List.length_singleton] at hlength
  have hwritten := length_rereadEntries (withEcho sha256 entries view input)
  rcases setItems_cases (rereadEntries (withEcho sha256 entries view input)) [] with heq | hlt
  · rw [heq, List.nil_append] at h hlength
    have hdigest : text "body_received_sha256" ∉ entries.map Prod.fst := by
      intro hmem
      have hmem' : text "body_received_sha256" ∈ (entries ++ [(text "body_received", view)]).map Prod.fst := by
        rw [List.map_append]
        exact List.mem_append_left _ hmem
      rw [withEcho, setItem_new hfresh] at hwritten
      rcases setItem_cases (text "body_received_sha256") (.str (hexdigest sha256 input))
        (entries ++ [(text "body_received", view)]) with ⟨hnew, -⟩ | hkeys
      · exact hnew hmem'
      · have hsame := congrArg List.length hkeys
        rw [List.length_map, List.length_map, List.length_append, List.length_singleton] at hsame
        rw [withEcho, setItem_new hfresh] at hlength
        omega
    rw [withEcho_fresh sha256 hfresh hdigest, rereadEntries_append] at h
    exact ⟨hdigest, List.append_inj_left h (length_rereadEntries entries)⟩
  · rw [List.length_nil] at hlt
    have hview := length_setItem_le (text "body_received") view entries
    have hdigest := length_setItem_le (text "body_received_sha256") (.str (hexdigest sha256 input))
      (setItem (text "body_received") view entries)
    rw [withEcho] at hwritten
    rw [withEcho] at hlength hlt
    omega

theorem hexdigest_ascii (bytes : Octets) : ∀ c ∈ hexdigest sha256 bytes, c.val < 0x80 := by
  intro c hc
  obtain ⟨b, -, hb⟩ := List.mem_flatMap.mp hc
  rw [List.mem_cons, List.mem_singleton] at hb
  rcases hb with rfl | rfl
  · exact hexDigit_ascii _
  · exact hexDigit_ascii _

/-- What is written of an object that can carry the echo is read as the object with two members more. -/
theorem parses_withEcho {entries : List (Text × Value)} {requestBody input : Octets} {view : Value}
    (hentries : (Value.dict entries).Loaded floats) (hfresh : text "body_received" ∉ entries.map Prod.fst)
    (hechoable : Echoable floats limits entries requestBody)
    (hview : requestView floats limits requestBody = .ok (view, input)) :
    Parses floats (asciiOctets (plain.write (.dict (withEcho sha256 entries view input))))
      (.ok (.dict (entries ++ [(text "body_received", view),
        (text "body_received_sha256", .str (hexdigest sha256 input))]))) := by
  obtain ⟨hloaded, hclear, -⟩ := requestView_ok floats limits hview
  have hdict := withEcho_loaded floats sha256 hentries hloaded input
  rw [withEcho_fresh sha256 hfresh hechoable.digest] at hdict ⊢
  have hpaired : (Value.dict (entries ++ [(text "body_received", view),
      (text "body_received_sha256", .str (hexdigest sha256 input))])).anyText paired = false := by
    have hkeys : paired (text "body_received") = false ∧ paired (text "body_received_sha256") = false :=
      ⟨paired_clear _ (any_text _), paired_clear _ (any_text _)⟩
    have hhex : paired (hexdigest sha256 input) = false :=
      paired_clear _ (List.any_eq_false.mpr fun c hc => by
        rw [surrogate_ascii (hexdigest_ascii sha256 input c hc)]
        exact Bool.false_ne_true)
    have hstrings := hechoable.strings
    rw [Value.anyText] at hstrings ⊢
    rw [anyTextEntries_append, hstrings]
    simp only [anyTextEntries, Value.anyText, hkeys, hhex, anyText_mono paired_clear hclear, Bool.or_false]
  have hread := loads_plain floats (List.append_ne_nil_of_right_ne_nil _ (List.cons_ne_nil _ _)) hdict le_rfl
  rw [(reread_eq_iff floats _ hdict).mpr hpaired] at hread
  exact parses_loads floats hread (by simp)

/-! ## The middleware -/

theorem filter_updateContentLength (headers : List Header) (newBody : Octets) :
    ((updateContentLength headers newBody).filter isContentLength).map Prod.snd =
        [octets (toString newBody.length)] ∧
      (updateContentLength headers newBody).filter (fun header => !isContentLength header) =
        headers.filter fun header => !isContentLength header := by
  have hlast : isContentLength (octets "content-length", octets (toString newBody.length)) = true := by
    unfold isContentLength
    exact decide_eq_true (by rfl)
  unfold updateContentLength
  constructor
  · simp only [List.filter_append, List.filter_filter, List.filter_singleton, hlast, Bool.and_not_self,
      List.filter_false, List.nil_append, cond_true, List.map_singleton]
  · simp only [List.filter_append, List.filter_filter, List.filter_singleton, hlast, Bool.and_self,
      Bool.not_true, cond_false, List.append_nil]

section Call

variable {app : List Received → List Sent} {scope : Scope} {messages rest : List Received}
  {requestBody : Octets} {status : Int} {headers : List Header} {body : Octets}

theorem call_active (hactive : scope.active = true) (hrequest : IsRequest messages requestBody rest)
    (hresponse : IsResponse (app (replay requestBody rest)) status headers body) :
    call floats limits sha256 app scope messages =
      (maybeInject floats limits sha256 status headers requestBody body).map fun made =>
        some ⟨replay requestBody rest, response status made⟩ := by
  unfold call
  rw [if_pos hactive, capture_request hrequest]
  simp only [bind, Except.bind, sendAll_response floats limits sha256 hresponse]
  cases maybeInject floats limits sha256 status headers requestBody body with
  | error e => rfl
  | ok made => rfl

theorem isRequest_replay (requestBody : Octets) (rest : List Received) :
    IsRequest (replay requestBody rest) requestBody rest := .last rfl

/-- The response passes the active middleware as it is. -/
theorem transparent_of_passed (hactive : scope.active = true) (hrequest : IsRequest messages requestBody rest)
    (hresponse : IsResponse (app (replay requestBody rest)) status headers body)
    (hmade : maybeInject floats limits sha256 status headers requestBody body = .ok (headers, body))
    (hplain : ∀ entries, ¬ Echoed floats scope status headers body entries) :
    Transparent floats scope requestBody rest status headers body
      (call floats limits sha256 app scope messages) := by
  have hcall := call_active floats limits sha256 hactive hrequest hresponse
  rw [hmade] at hcall
  exact .mk _ hcall (isRequest_replay requestBody rest) (fun entries h => absurd h (hplain entries))
    fun _ => isResponse_response status (headers, body)

/-- An object that can carry the echo is extended by it. -/
theorem maybeInject_echoable {entries : List (Text × Value)} (hcandidate : candidate status headers = true)
    (hloads : loads floats limits.loads body = .ok (.dict entries))
    (hfresh : text "body_received" ∉ entries.map Prod.fst)
    (hechoable : Echoable floats limits entries requestBody) :
    ∃ bytes view digest, maybeInject floats limits sha256 status headers requestBody body =
        .ok (updateContentLength headers bytes, bytes) ∧
      Parses floats bytes (.ok (.dict
        (entries ++ [(text "body_received", view), (text "body_received_sha256", digest)]))) := by
  obtain ⟨view, input, hview, hnesting⟩ := requestView_of_echoable floats limits hechoable
  have hinject := inject_eq floats limits sha256 entries hview
  have hdict : (Value.dict (withEcho sha256 entries view input)).nesting ≤ limits.dumps := by
    rw [withEcho_fresh sha256 hfresh hechoable.digest, withEcho_nesting_le]
    exact ⟨hechoable.nesting, hnesting⟩
  rw [if_pos hdict] at hinject
  refine ⟨_, view, _, ?_, parses_withEcho floats limits sha256 (loads_loaded floats hloads) hfresh hechoable hview⟩
  rw [maybeInject, if_pos hcandidate, hloads]
  dsimp only
  rw [if_neg hfresh, hinject]
  rfl

/-- Where the middleware extends an object and it is read back with two members more, the object can
carry the echo. -/
theorem echoable_of_extended {entries : List (Text × Value)} {bytes : Octets} {received digest : Value}
    (hentries : (Value.dict entries).Loaded floats) (hfresh : text "body_received" ∉ entries.map Prod.fst)
    (hinject : inject floats limits sha256 entries requestBody = .ok bytes)
    (hparses : Parses floats bytes (.ok (.dict
      (entries ++ [(text "body_received", received), (text "body_received_sha256", digest)])))) :
    Echoable floats limits entries requestBody := by
  cases hview : requestView floats limits requestBody with
  | error e =>
    unfold inject at hinject
    rw [hview] at hinject
    cases hinject
  | ok viewed =>
    obtain ⟨view, input⟩ := viewed
    obtain ⟨hloaded, hclear, hrequest⟩ := requestView_ok floats limits hview
    rw [inject_eq floats limits sha256 entries hview] at hinject
    split_ifs at hinject with hnesting
    cases hinject
    have hdict := withEcho_loaded floats sha256 hentries hloaded input
    have hread := parses_loads floats (loads_plain floats (setItem_ne_nil _ _ _) hdict le_rfl) (by simp)
    have hreread := Except.ok.inj (parses_unique floats hread hparses)
    obtain ⟨hdigest, hsame⟩ := reread_withEcho sha256 hfresh hreread
    rw [withEcho_fresh sha256 hfresh hdigest, withEcho_nesting_le] at hnesting
    refine ⟨?_, hdigest, (rereadEntries_eq_iff floats entries hentries.2).mp hsame, hnesting.1⟩
    rcases hrequest with hempty | herror | ⟨hloads, hcanonical⟩
    · exact .inl hempty
    · exact .inr (.inl herror)
    · exact .inr (.inr ⟨view, hloads, hclear, hcanonical, hnesting.2⟩)

/-- What the body parses to, unless that is an object without `body_received`, is no reason to extend it. -/
theorem not_echoed {r : Except LoadError Value} (hparses : Parses floats body r)
    (hr : ∀ entries, r = .ok (.dict entries) → text "body_received" ∈ entries.map Prod.fst)
    (entries : List (Text × Value)) : ¬ Echoed floats scope status headers body entries := fun h =>
  h.fresh (hr entries (parses_unique floats hparses h.object))

theorem maybeInject_passed (hloads : loads floats limits.loads body = .error .jsonDecodeError ∨
      ∃ value, loads floats limits.loads body = .ok value ∧
        ∀ entries, value = .dict entries → text "body_received" ∈ entries.map Prod.fst) :
    maybeInject floats limits sha256 status headers requestBody body = .ok (headers, body) := by
  unfold maybeInject
  split_ifs with hcandidate
  · rcases hloads with herror | ⟨value, hvalue, hreceived⟩
    · rw [herror]
    · rw [hvalue]
      cases value with
      | dict entries => exact if_pos (hreceived entries rfl)
      | null => rfl
      | bool b => rfl
      | int n => rfl
      | float x => rfl
      | str s => rfl
      | list items => rfl
  · rfl

theorem transparent_of_kept (hactive : scope.active = true) (hrequest : IsRequest messages requestBody rest)
    (hresponse : IsResponse (app (replay requestBody rest)) status headers body)
    (hkept : Kept floats limits scope requestBody status headers body) :
    Transparent floats scope requestBody rest status headers body
      (call floats limits sha256 app scope messages) := by
  have hpassed := transparent_of_passed floats limits sha256 hactive hrequest hresponse
  by_cases hcandidate : candidate status headers = true
  · rcases hkept hactive hcandidate with herror | ⟨value, hvalue, hechoable⟩
    · refine hpassed (maybeInject_passed floats limits sha256 (.inl herror)) ?_
      exact not_echoed floats (parses_loads floats herror (by simp)) fun entries h => by cases h
    have hobject := parses_loads floats hvalue (by simp)
    by_cases hfresh : ∃ entries, value = .dict entries ∧ text "body_received" ∉ entries.map Prod.fst
    · obtain ⟨entries, rfl, hfresh⟩ := hfresh
      have hcall := call_active floats limits sha256 hactive hrequest hresponse
      obtain ⟨bytes, view, digest, hmade, hparses⟩ :=
        maybeInject_echoable floats limits sha256 hcandidate hvalue hfresh (hechoable entries rfl hfresh)
      rw [hmade] at hcall
      obtain ⟨hlength, hothers⟩ := filter_updateContentLength headers bytes
      refine .mk _ hcall (isRequest_replay requestBody rest) (fun entries' h => ?_) fun hnone => ?_
      · cases parses_unique floats hobject h.object
        exact .mk _ _ view digest (isResponse_response status (_, bytes)) hparses hlength hothers
      · exact absurd ⟨hactive, hcandidate, hobject, hfresh⟩ (hnone entries)
    · have hreceived : ∀ entries, value = .dict entries → text "body_received" ∈ entries.map Prod.fst := by
        intro entries hvalue
        by_contra hnot
        exact hfresh ⟨entries, hvalue, hnot⟩
      refine hpassed (maybeInject_passed floats limits sha256 (.inr ⟨value, hvalue, hreceived⟩)) ?_
      exact not_echoed floats hobject fun entries h => hreceived entries (Except.ok.inj h)
  · exact hpassed (if_neg hcandidate) fun entries h => hcandidate h.candidate

theorem kept_of_transparent (hactive : scope.active = true) (hrequest : IsRequest messages requestBody rest)
    (hresponse : IsResponse (app (replay requestBody rest)) status headers body)
    (h : Transparent floats scope requestBody rest status headers body
      (call floats limits sha256 app scope messages)) :
    Kept floats limits scope requestBody status headers body := by
  obtain ⟨exchange, hfinished, -, hextended, -⟩ := h
  intro _ hcandidate
  rw [call_active floats limits sha256 hactive hrequest hresponse, maybeInject, if_pos hcandidate] at hfinished
  cases hloads : loads floats limits.loads body with
  | error e =>
    rw [hloads] at hfinished
    cases e with
    | jsonDecodeError => exact .inl rfl
    | valueError => cases hfinished
    | unicodeDecodeError => cases hfinished
    | recursionError => cases hfinished
  | ok value =>
    refine .inr ⟨value, rfl, ?_⟩
    rintro entries rfl hfresh
    have hobject := parses_loads floats hloads (by simp)
    rw [hloads] at hfinished
    dsimp only at hfinished
    rw [if_neg hfresh] at hfinished
    cases hinject : inject floats limits sha256 entries requestBody with
    | error e => rw [hinject] at hfinished; cases hfinished
    | ok bytes =>
      rw [hinject] at hfinished
      cases hfinished
      obtain ⟨headers', bytes', received, digest, hsent, hparses, -, -⟩ :=
        hextended entries ⟨hactive, hcandidate, hobject, hfresh⟩
      rw [(isResponse_unique hsent).2] at hparses
      exact echoable_of_extended floats limits sha256 (loads_loaded floats hloads) hfresh hinject hparses

/-- The middleware is transparent in an exchange just where it can keep the exchange. -/
theorem transparent_iff (hrequest : IsRequest messages requestBody rest)
    (hresponse : IsResponse (app (if scope.active then replay requestBody rest else messages))
      status headers body) :
    Transparent floats scope requestBody rest status headers body
        (call floats limits sha256 app scope messages) ↔
      Kept floats limits scope requestBody status headers body := by
  by_cases hactive : scope.active = true
  · rw [if_pos hactive] at hresponse
    exact ⟨kept_of_transparent floats limits sha256 hactive hrequest hresponse,
      transparent_of_kept floats limits sha256 hactive hrequest hresponse⟩
  · rw [if_neg hactive] at hresponse
    have hcall : call floats limits sha256 app scope messages = .ok (some ⟨messages, app messages⟩) :=
      if_neg hactive
    refine iff_of_true ?_ fun h => absurd h hactive
    exact .mk _ hcall hrequest (fun entries h => absurd h.active hactive) fun _ => hresponse

end Call

/-! ## A body in chunks and a byte that is no UTF-8 -/

theorem nan_repr (_ : Text) (x : FiniteFloat) (h : Double.nan = .finite x) :
    ∃ n : Numeral, n.WellFormed ∧ n.isInt = false ∧ n.text = x.repr := by cases h

theorem nan_parse (_ : Text) (x : FiniteFloat) (h : Double.nan = .finite x) : Double.nan = .finite x := h

/-- Floats for texts that have none. -/
def noFloats : Floats := ⟨fun _ => .nan, nan_repr, nan_parse⟩

def echoScope : Scope := ⟨"http", some "PUT", some [(verifyEchoHeader, octets "true")]⟩

def jsonHeaders : List Header := [(octets "content-type", octets "application/json")]

/-- A handler that answers with an empty object. -/
def emptyObject (_ : List Received) : List Sent :=
  [.start (some 200) (some jsonHeaders), .body (some (octets "{}")) none]

theorem isResponse_empty (received : List Received) :
    IsResponse (emptyObject received) 200 jsonHeaders (octets "{}") := .mk (.last rfl)

/-- The digest of no bytes. -/
def emptyDigest : Octets := [
  0xe3, 0xb0, 0xc4, 0x42, 0x98, 0xfc, 0x1c, 0x14, 0x9a, 0xfb, 0xf4, 0xc8, 0x99, 0x6f, 0xb9, 0x24,
  0x27, 0xae, 0x41, 0xe4, 0x64, 0x9b, 0x93, 0x4c, 0xa4, 0x95, 0x99, 0x1b, 0x78, 0x52, 0xb8, 0x55]

/-- A body in two chunks, and what `json.loads` makes of it. -/
def taskChunks : Octets × Octets :=
  (octets "\x7b\"task\": \"send\", \"retries\": [1, 5], ", octets "\"note\": \"\\u00e9\"\x7d")

def taskValue : Value :=
  .dict [(text "task", .str (text "send")), (text "retries", .list [.int 1, .int 5]),
    (text "note", .str [0xe9])]

/-- The digests of its canonical form and of no bytes. -/
def taskDigest (bytes : Octets) : Octets :=
  if bytes = octets "\x7b\"note\":\"" ++ [0xc3, 0xa9] ++
      octets "\",\"retries\":[1,5],\"task\":\"send\"\x7d" then [
    0xb3, 0x3a, 0xc9, 0xb4, 0xdc, 0xf9, 0xc8, 0xdd, 0xaf, 0x0b, 0xbc, 0x24, 0xc4, 0xf2, 0xa4, 0xd5,
    0xa7, 0x14, 0x3f, 0xd5, 0xb1, 0x7e, 0x82, 0x16, 0xf1, 0x15, 0x75, 0x4c, 0x62, 0xba, 0x96, 0x46]
  else emptyDigest

/-- A response in two chunks. -/
def createdChunks : Octets × Octets := (octets "\x7b\"id\": \"c1\", ", octets "\"ok\": true\x7d")

def createdHeaders : List Header := jsonHeaders ++ [(octets "Content-Length", octets "24")]

def created (_ : List Received) : List Sent :=
  [.start (some 201) (some createdHeaders), .body (some createdChunks.1) (some true),
    .body (some createdChunks.2) none]

def createdValue : List (Text × Value) :=
  [(text "id", .str (text "c1")), (text "ok", .bool true)]

theorem loads_task : loads noFloats 900 (taskChunks.1 ++ taskChunks.2) = .ok taskValue := by
  have hbytes : taskChunks.1 ++ taskChunks.2 = asciiOctets (plain.write taskValue) := by
    decide +kernel
  have hloaded : taskValue.Loaded noFloats := by
    simp only [taskValue, Value.Loaded, LoadedEntries, LoadedItems, and_true, true_and]
    exact ⟨show [text "task", text "retries", text "note"].Nodup by decide +kernel,
      by decide +kernel, by decide +kernel⟩
  rw [hbytes]
  exact loads_plain noFloats (by simp) hloaded (by decide +kernel)

theorem loads_created : loads noFloats 900 (createdChunks.1 ++ createdChunks.2) =
    .ok (.dict createdValue) := by
  have hbytes : createdChunks.1 ++ createdChunks.2 = asciiOctets (plain.write (.dict createdValue)) := by
    decide +kernel
  have hloaded : (Value.dict createdValue).Loaded noFloats := by
    simp only [createdValue, Value.Loaded, LoadedEntries, and_true]
    exact show [text "id", text "ok"].Nodup by decide +kernel
  rw [hbytes]
  exact loads_plain noFloats (by simp [createdValue]) hloaded (by decide +kernel)

theorem kept_task : Kept noFloats ⟨900, 900, 900⟩ echoScope (taskChunks.1 ++ taskChunks.2) 201
    createdHeaders (createdChunks.1 ++ createdChunks.2) := by
  intro _ _
  refine .inr ⟨.dict createdValue, loads_created, ?_⟩
  rintro entries heq _
  cases heq
  refine ⟨.inr (.inr ⟨taskValue, loads_task, ?_, ?_, ?_⟩), ?_, ?_, ?_⟩ <;> decide +kernel

theorem transparent_chunks : ∃ exchange,
    call noFloats ⟨900, 900, 900⟩ taskDigest created echoScope
      [.request (some taskChunks.1) (some true), .request (some taskChunks.2) none] =
        .ok (some exchange) ∧
    IsRequest exchange.received (taskChunks.1 ++ taskChunks.2) [] ∧
    Extended noFloats 201 createdHeaders createdValue exchange.sent := by
  have hrequest : IsRequest [.request (some taskChunks.1) (some true),
      .request (some taskChunks.2) none] (taskChunks.1 ++ taskChunks.2) [] := .more (.last rfl)
  have hresponse (received : List Received) : IsResponse (created received) 201 createdHeaders
      (createdChunks.1 ++ createdChunks.2) := .mk (.more (.last rfl))
  obtain ⟨exchange, hfinished, hreceived, hextended, -⟩ :=
    (transparent_iff noFloats ⟨900, 900, 900⟩ taskDigest hrequest (hresponse _)).mpr kept_task
  have hechoed : Echoed noFloats echoScope 201 createdHeaders (createdChunks.1 ++ createdChunks.2)
      createdValue :=
    ⟨by decide +kernel, by decide +kernel,
      parses_loads noFloats loads_created (fun h => by cases h), by decide +kernel⟩
  exact ⟨exchange, hfinished, hreceived, hextended createdValue hechoed⟩

theorem not_transparent_byte : IsRequest [.request (some [0xff]) none] [0xff] [] ∧
    IsResponse (emptyObject (replay [0xff] [])) 200 jsonHeaders (octets "{}") ∧
    ¬ Transparent noFloats echoScope [0xff] [] 200 jsonHeaders (octets "{}")
      (call noFloats ⟨900, 900, 900⟩ (fun _ => emptyDigest) emptyObject echoScope
        [.request (some [0xff]) none]) := by
  refine ⟨.last rfl, isResponse_empty _, ?_⟩
  rintro ⟨exchange, hfinished, -⟩
  have hraised : call noFloats ⟨900, 900, 900⟩ (fun _ => emptyDigest) emptyObject echoScope
      [.request (some [0xff]) none] = .error (.loads .unicodeDecodeError) := by rfl
  rw [hraised] at hfinished
  cases hfinished

end CueApi.VerifyEcho
