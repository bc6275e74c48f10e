import CueApi.Library.PyJson
import CueApi.Scheduler.Edits

/-! The payload validation of `create_cue` and of `update_cue` in `app/services/cue_service.py`, on
values as the parser of the request body yields them, and what a `jsonb` column can hold of them. -/

namespace CueApi.PayloadChecks

open Scheduler (ApiError)
open PyJson

/-! ## `_contains_null_byte` -/

/-- `"\x00" in obj`. -/
def hasNul (s : Text) : Bool := s.any fun c => c.val = 0

/-- A call on a string; every call needs a level of what the recursion limit leaves. -/
def textContainsNullByte (levels : Nat) (s : Text) : Except PyError Bool :=
  if levels = 0 then .error .recursionError else .ok (hasNul s)

/-- `x or y`. -/
def orElse (x y : Except PyError Bool) : Except PyError Bool := do
  if ← x then return true else y

mutual

def containsNullByte : Nat → Value → Except PyError Bool
  | 0, _ => .error .recursionError
  | levels + 1, .str s => textContainsNullByte (levels + 1) s
  | levels + 1, .dict entries => anyEntryContains levels entries
  | levels + 1, .list items => anyItemContains levels items
  | _ + 1, _ => .ok false

def anyItemContains (levels : Nat) : List Value → Except PyError Bool
  | [] => .ok false
  | x :: xs => orElse (containsNullByte levels x) (anyItemContains levels xs)

def anyEntryContains (levels : Nat) : List (Text × Value) → Except PyError Bool
  | [] => .ok false
  | (key, x) :: xs =>
      orElse (orElse (textContainsNullByte levels key) (containsNullByte levels x))
        (anyEntryContains levels xs)

end

mutual

/-- How deep the calls go. -/
def callDepth : Value → Nat
  | .dict entries => callDepthEntries entries + 1
  | .list items => callDepthItems items + 1
  | _ => 1

def callDepthItems : List Value → Nat
  | [] => 0
  | x :: xs => max (callDepth x) (callDepthItems xs)

def callDepthEntries : List (Text × Value) → Nat
  | [] => 0
  | (_, x) :: xs => max (max 1 (callDepth x)) (callDepthEntries xs)

end

/-- What a walk of some depth over a value comes to. -/
inductive Walked (levels depth : Nat) (nul : Bool) : Except PyError Bool → Prop
  | found (h : nul = true) : Walked levels depth nul (.ok true)
  | clean (h : nul = false) (hd : depth ≤ levels) : Walked levels depth nul (.ok false)
  | tooDeep (hd : levels < depth) : Walked levels depth nul (.error .recursionError)

variable {levels depth depth' : Nat} {nul nul' : Bool} {x y : Except PyError Bool}

theorem Walked.orElse (hx : Walked levels depth nul x) (hy : Walked levels depth' nul' y) :
    Walked levels (max depth depth') (nul || nul') (orElse x y) := by
  cases hx with
  | found h => exact .found (by rw [h, Bool.true_or])
  | clean h hd =>
    rw [h, Bool.false_or]
    cases hy with
    | found h => exact .found h
    | clean h hd' => exact .clean h (Nat.max_le.mpr ⟨hd, hd'⟩)
    | tooDeep hd' => exact .tooDeep (Nat.lt_of_lt_of_le hd' (Nat.le_max_right ..))
  | tooDeep hd => exact .tooDeep (Nat.lt_of_lt_of_le hd (Nat.le_max_left ..))

/-- A call on what holds more. -/
theorem Walked.succ (h : Walked levels depth nul x) : Walked (levels + 1) (depth + 1) nul x := by
  cases h with
  | found h => exact .found h
  | clean h hd => exact .clean h (Nat.succ_le_succ hd)
  | tooDeep hd => exact .tooDeep (Nat.succ_lt_succ hd)

theorem walked_text (levels : Nat) (s : Text) :
    Walked levels 1 (hasNul s) (textContainsNullByte levels s) := by
  unfold textContainsNullByte
  split
  · exact .tooDeep (by omega)
  · cases h : hasNul s with
    | false => exact .clean rfl (by omega)
    | true => exact .found rfl

theorem walked_zero (hd : 0 < depth) : Walked 0 depth nul (.error .recursionError) := .tooDeep hd

theorem callDepth_pos (v : Value) : 0 < callDepth v := by
  cases v <;> simp [callDepth]

mutual

/-- The walk finds a NUL, or none if it can go as deep as the value. -/
theorem walked : (levels : Nat) → (v : Value) →
    Walked levels (callDepth v) (v.anyText hasNul) (containsNullByte levels v)
  | 0, v => by
    rw [containsNullByte]
    exact walked_zero (callDepth_pos v)
  | levels + 1, .str s => walked_text (levels + 1) s
  | levels + 1, .dict entries => (walkedEntries levels entries).succ
  | levels + 1, .list items => (walkedItems levels items).succ
  | levels + 1, .null | levels + 1, .bool _ | levels + 1, .int _ | levels + 1, .float _ =>
    .clean rfl (Nat.le_add_left ..)

theorem walkedItems (levels : Nat) : (xs : List Value) →
    Walked levels (callDepthItems xs) (anyTextItems hasNul xs) (anyItemContains levels xs)
  | [] => .clean rfl (Nat.zero_le _)
  | x :: xs => (walked levels x).orElse (walkedItems levels xs)

theorem walkedEntries (levels : Nat) : (xs : List (Text × Value)) →
    Walked levels (callDepthEntries xs) (anyTextEntries hasNul xs) (anyEntryContains levels xs)
  | [] => .clean rfl (Nat.zero_le _)
  | (key, x) :: xs =>
    ((walked_text levels key).orElse (walked levels x)).orElse (walkedEntries levels xs)

end

/-! ## The validation -/

-- the text of an exception
variable (describe : PyError → String)

def notSerializable (e : PyError) : ApiError :=
  ⟨"invalid_payload", "Payload is not serializable: " ++ describe e, 400⟩

def nullBytes : ApiError :=
  ⟨"invalid_payload", "Payload contains null bytes which are not supported", 400⟩

def tooLarge : ApiError := ⟨"invalid_payload_size", "Payload must be under 1MB", 400⟩

def maxPayloadBytes : Nat := 1048576

/-- The levels that the recursion limit leaves to `json.dumps` and to `_contains_null_byte`. -/
structure Limits where
  dumps : Nat
  walk : Nat
  deriving DecidableEq, Repr

variable (limits : Limits)

/-- The validation: an error to answer with, or none. -/
def validatePayload (payload : Value) : Except PyError (Option ApiError) :=
  match dumps limits.dumps payload with
  | .error e => if e.handled then .ok (some (notSerializable describe e)) else .error e
  | .ok payloadJson => do
      if ← containsNullByte limits.walk payload then return some nullBytes
      else
        let octets ← encode payloadJson
        if maxPayloadBytes < octets.length then return some tooLarge else return none

/-- `data.payload or {}`. -/
def createPayload (payload : Option (List (Text × Value))) : Value := .dict (payload.getD [])

/-- In `create_cue`. -/
def createValidation (payload : Option (List (Text × Value))) : Except PyError (Option ApiError) :=
  validatePayload describe limits (createPayload payload)

/-- In `update_cue`: a payload that is not given stays. -/
def updateValidation : Option (List (Text × Value)) → Except PyError (Option ApiError)
  | none => .ok none
  | some entries => validatePayload describe limits (.dict entries)

/-! ## What `jsonb` holds -/

/-- A surrogate that is not half of a pair. -/
def unpaired : Text → Bool
  | [] => false
  | [c] => surrogate c
  | c :: d :: s =>
      if 0xd800 ≤ c.val ∧ c.val < 0xdc00 ∧ 0xdc00 ≤ d.val ∧ d.val ≤ 0xdfff then unpaired s
      else surrogate c || unpaired (d :: s)

structure Storable (payload : Value) : Prop where
  nul : payload.anyText hasNul = false
  paired : payload.anyText unpaired = false
  finite : payload.allFinite = true

/-- The text of the payload takes at most 1 MiB in UTF-8. -/
def Fits (payload : Value) : Prop :=
  ∃ octets, encode (write payload) = .ok octets ∧ octets.length ≤ maxPayloadBytes

/-- The validation answers, and what it accepts can be stored. -/
def Sound (payload : Option Value) (outcome : Except PyError (Option ApiError)) : Prop :=
  ∃ refusal, outcome = .ok refusal ∧
    (refusal = none → ∀ v ∈ payload, Storable v ∧ Fits v)

/-- The payload is not nested deeper than `json.dumps` can go, and `_contains_null_byte` finds a NUL,
or is not called deeper than it can go and there are no surrogates, nor `NaN` or infinite numbers
unless the text is too large. -/
def Handled (payload : Value) : Prop :=
  payload.nesting ≤ limits.dumps ∧
    (containsNullByte limits.walk payload = .ok true ∨
      callDepth payload ≤ limits.walk ∧ (payload.anyText fun s => s.any surrogate) = false ∧
        (payload.allFinite = true ∨ ¬ Fits payload))

variable {describe limits} {payload : Value}

/-! ## Texts without surrogates -/

theorem unpaired_of_none {s : Text} (h : s.any surrogate = false) : unpaired s = false := by
  fun_induction unpaired s with
  | case1 => rfl
  | case2 c => simpa using h
  | case3 c d s hpair ih =>
    simp only [List.any_cons, Bool.or_eq_false_iff] at h
    exact ih h.2.2
  | case4 c d s hpair ih =>
    rw [List.any_cons, Bool.or_eq_false_iff] at h
    rw [h.1, ih h.2]
    rfl

mutual

theorem anyText_mono {p q : Text → Bool} (hpq : ∀ s, q s = false → p s = false) :
    (v : Value) → v.anyText q = false → v.anyText p = false
  | .str s, h => hpq s h
  | .list items, h => anyTextItems_mono hpq items h
  | .dict entries, h => anyTextEntries_mono hpq entries h
  | .null, _ | .bool _, _ | .int _, _ | .float _, _ => rfl

theorem anyTextItems_mono {p q : Text → Bool} (hpq : ∀ s, q s = false → p s = false) :
    (xs : List Value) → anyTextItems q xs = false → anyTextItems p xs = false
  | [], _ => rfl
  | x :: xs, h => by
    rw [anyTextItems, Bool.or_eq_false_iff] at h ⊢
    exact ⟨anyText_mono hpq x h.1, anyTextItems_mono hpq xs h.2⟩

theorem anyTextEntries_mono {p q : Text → Bool} (hpq : ∀ s, q s = false → p s = false) :
    (xs : List (Text × Value)) → anyTextEntries q xs = false → anyTextEntries p xs = false
  | [], _ => rfl
  | (key, x) :: xs, h => by
    rw [anyTextEntries, Bool.or_eq_false_iff, Bool.or_eq_false_iff] at h ⊢
    exact ⟨⟨hpq key h.1.1, anyText_mono hpq x h.1.2⟩, anyTextEntries_mono hpq xs h.2⟩

end

/-! ## What the validation does -/

theorem validatePayload_deep (h : limits.dumps < payload.nesting) :
    validatePayload describe limits payload = .error .recursionError := by
  simp only [validatePayload, dumps, if_neg (Nat.not_le.mpr h)]
  rfl

theorem validatePayload_nul (hd : payload.nesting ≤ limits.dumps)
    (h : containsNullByte limits.walk payload = .ok true) :
    validatePayload describe limits payload = .ok (some nullBytes) := by
  simp only [validatePayload, dumps, if_pos hd, h]
  rfl

theorem validatePayload_error {e : PyError} (hd : payload.nesting ≤ limits.dumps)
    (h : containsNullByte limits.walk payload = .error e) :
    validatePayload describe limits payload = .error e := by
  simp only [validatePayload, dumps, if_pos hd, h]
  rfl

theorem validatePayload_clean (hd : payload.nesting ≤ limits.dumps)
    (h : containsNullByte limits.walk payload = .ok false) :
    validatePayload describe limits payload = (encode (write payload)).map fun octets =>
      if maxPayloadBytes < octets.length then some tooLarge else none := by
  simp only [validatePayload, dumps, if_pos hd, h, bind, Except.bind, pure, Except.pure]
  cases encode (write payload) with
  | error e => rfl
  | ok octets => by_cases hlarge : maxPayloadBytes < octets.length <;> simp [hlarge, Except.map]

theorem not_sound_error {e : PyError} {stored : Option Value} : ¬ Sound stored (.error e) := by
  rintro ⟨refusal, heq, -⟩
  cases heq

theorem sound_refused {stored : Option Value} (refusal : ApiError) : Sound stored (.ok (some refusal)) :=
  ⟨some refusal, rfl, fun h => by cases h⟩

theorem sound_accepted_iff : Sound (some payload) (.ok none) ↔ Storable payload ∧ Fits payload := by
  constructor
  · rintro ⟨refusal, heq, h⟩
    cases heq
    exact h rfl payload rfl
  · intro h
    refine ⟨none, rfl, fun _ v hv => ?_⟩
    rw [← Option.mem_some.mp hv]
    exact h

/-- Without NUL and surrogates, numbers decide. -/
theorem storable_iff (hnul : payload.anyText hasNul = false)
    (hsurrogates : (payload.anyText fun s => s.any surrogate) = false) :
    Storable payload ↔ payload.allFinite = true :=
  ⟨Storable.finite, fun h => ⟨hnul, anyText_mono (fun _ => unpaired_of_none) payload hsurrogates, h⟩⟩

/-- A walk that has found nothing. -/
theorem sound_clean_iff (hd : payload.nesting ≤ limits.dumps)
    (hclean : containsNullByte limits.walk payload = .ok false)
    (hnul : payload.anyText hasNul = false) (hdepth : callDepth payload ≤ limits.walk) :
    Sound (some payload) (validatePayload describe limits payload) ↔ Handled limits payload := by
  have hhandled : Handled limits payload ↔
      (payload.anyText fun s => s.any surrogate) = false ∧
        (payload.allFinite = true ∨ ¬ Fits payload) := by
    simp [Handled, hd, hclean, hdepth]
  rw [hhandled, validatePayload_clean hd hclean, ← any_write]
  rcases encode_cases (write payload) with ⟨hnone, octets, hoctets⟩ | ⟨hsome, herror⟩
  · have hfits : Fits payload ↔ octets.length ≤ maxPayloadBytes := by
      simp [Fits, hoctets]
    rw [hoctets, hfits]
    by_cases hlarge : maxPayloadBytes < octets.length
    · refine iff_of_true ?_ ⟨hnone, .inr (Nat.not_le.mpr hlarge)⟩
      rw [Except.map, if_pos hlarge]
      exact sound_refused tooLarge
    · rw [Except.map, if_neg hlarge, sound_accepted_iff, hfits, storable_iff hnul (any_write _ ▸ hnone)]
      simp only [hnone, Nat.not_lt.mp hlarge, not_true, or_false, true_and, and_true]
  · rw [herror, hsome]
    exact iff_of_false not_sound_error (by simp)

theorem sound_iff : Sound (some payload) (validatePayload describe limits payload) ↔
    Handled limits payload := by
  by_cases hd : payload.nesting ≤ limits.dumps
  · cases hresult : containsNullByte limits.walk payload with
    | error e =>
      rw [validatePayload_error hd hresult]
      have hwalk := hresult ▸ walked limits.walk payload
      cases hwalk with
      | tooDeep hdeep =>
        refine iff_of_false not_sound_error ?_
        rintro ⟨-, hfound | ⟨hdepth, -⟩⟩
        · cases hresult.symm.trans hfound
        · omega
    | ok nul =>
      cases nul with
      | true =>
        rw [validatePayload_nul hd hresult]
        exact iff_of_true (sound_refused nullBytes) ⟨hd, .inl hresult⟩
      | false =>
        have hwalk := hresult ▸ walked limits.walk payload
        cases hwalk with
        | clean hnul hdepth => exact sound_clean_iff hd hresult hnul hdepth
  · rw [validatePayload_deep (Nat.not_le.mp hd)]
    exact iff_of_false not_sound_error fun h => hd h.1

/-! ## Payloads of the scheduler -/

/-- The record of the scheduler for a payload whose text is a string of scalar values. -/
structure Represents (json : Scheduler.Json) (payload : Value) : Prop where
  dumps : text json.dumps = write payload
  nullByte : json.nullByte = payload.anyText hasNul

def refusalOf (json : Scheduler.Json) : Option ApiError :=
  if json.nullByte then some nullBytes
  else if maxPayloadBytes < json.dumps.utf8ByteSize then some tooLarge
  else none

theorem patchPayload_refusal (json : Scheduler.Json) (cue : Scheduler.Cue) :
    Scheduler.patchPayload json cue =
      (refusalOf json).elim (pure { cue with payload := json }) throw := by
  unfold Scheduler.patchPayload refusalOf maxPayloadBytes
  split
  · rfl
  · split <;> rfl

/-- Within the recursion limit both models refuse alike. -/
theorem validatePayload_represents {json : Scheduler.Json} (h : Represents json payload)
    (hd : payload.nesting ≤ limits.dumps) (hdepth : callDepth payload ≤ limits.walk) :
    validatePayload describe limits payload = .ok (refusalOf json) := by
  unfold refusalOf
  rw [h.nullByte]
  cases hresult : containsNullByte limits.walk payload with
  | error e =>
    have hwalk := hresult ▸ walked limits.walk payload
    cases hwalk with
    | tooDeep hdeep => omega
  | ok nul =>
    have hwalk := hresult ▸ walked limits.walk payload
    cases hwalk with
    | found hnul => rw [validatePayload_nul hd hresult, if_pos hnul]
    | clean hnul _ =>
      rw [validatePayload_clean hd hresult, if_neg (by simp [hnul]), ← h.dumps]
      rcases encode_cases (text json.dumps) with ⟨-, octets, hoctets⟩ | ⟨hsome, -⟩
      · rw [hoctets, Except.map, length_encode hoctets]
      · cases (any_text json.dumps).symm.trans hsome

/-! ## The result -/

/-- Both validations answer, and accept only what can be stored, exactly on the payloads that are
handled. -/
theorem accepted_storable_iff (describe : PyError → String) (limits : Limits)
    (payload : Option (List (Text × Value))) :
    (Sound (some (createPayload payload)) (createValidation describe limits payload) ↔
        Handled limits (createPayload payload)) ∧
      (Sound (payload.map Value.dict) (updateValidation describe limits payload) ↔
        ∀ entries ∈ payload, Handled limits (.dict entries)) := by
  refine ⟨sound_iff, ?_⟩
  cases payload with
  | none => exact iff_of_true ⟨none, rfl, fun _ v hv => by cases hv⟩ fun _ h => by cases h
  | some entries =>
    simp only [Option.mem_def, Option.some.injEq, forall_eq']
    exact sound_iff

/-- `{"n": NaN}`. -/
def nanPayload : List (Text × Value) := [(text "n", .float .nan)]

/-- `NaN` is accepted, and no `jsonb`. -/
theorem nan_accepted : ¬ ∀ (describe : PyError → String) (limits : Limits)
    (payload : Option (List (Text × Value))),
    Sound (some (createPayload payload)) (createValidation describe limits payload) ∧
      Sound (payload.map Value.dict) (updateValidation describe limits payload) := by
  intro hall
  obtain ⟨refusal, heq, hsound⟩ := (hall (fun _ => "") ⟨900, 450⟩ (some nanPayload)).1
  have haccepted : createValidation (fun _ => "") ⟨900, 450⟩ (some nanPayload) = .ok none := by
    decide +kernel
  obtain rfl : refusal = none := Except.ok.inj (heq.symm.trans haccepted)
  exact absurd (hsound rfl _ rfl).1.finite (by decide +kernel)

end CueApi.PayloadChecks
