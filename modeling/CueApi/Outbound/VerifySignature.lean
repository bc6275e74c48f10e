import CueApi.Library.PyJsonSorted
import Mathlib.Algebra.Order.AbsoluteValue.Basic
import Mathlib.Data.Rat.Floor
import Mathlib.Tactic.NormNum

/-! `sign_payload` and `verify_signature` of `app/utils/signing.py` on JSON values as Python has them,
and the requests of `deliver_webhook` (but GET, and unless a cue's own headers replace one of the two),
`deliver_message_to_webhook` and `deliver_alert`: who parses such a request and checks it. -/

namespace CueApi.VerifySignature

open PyJson

/-- `hexdigest`. -/
def hexdigest (digest : Octets) : Text :=
  digest.flatMap fun b => [hexDigit (b.toNat / 16), hexDigit b.toNat]

/-- `hmac.compare_digest` of texts, which takes ASCII only. -/
def compareDigest (a b : Text) : Except PyError Bool :=
  if (a ++ b).all fun c => c.val < 0x80 then .ok (decide (a = b)) else .error .typeError

/-- An integer that `time.time() - ts` makes no float of. -/
def tooLarge (n : Int) : Bool := 2 ^ 1024 - 2 ^ 970 ≤ n.natAbs

-- HMAC-SHA256 of a message under a key, the levels that the recursion limit leaves, and `int`'s tables
variable (hmac : Octets → Octets → Octets) (levels : Nat) (unicode : Unicode)

/-- The signature of a timestamp and a payload. -/
def signatureOf (payload : Value) (secret timestamp : Text) : Except PyError Text := do
  let payloadText ← sortedKeys.dumps levels payload
  let payloadBytes ← encode payloadText
  let start ← encode (timestamp ++ text ".")
  let key ← encode secret
  return text "v1=" ++ hexdigest (hmac key (start ++ payloadBytes))

/-- The timestamp and the signature; `now` is `time.time()`. -/
def signPayload (now : ℚ) (payload : Value) (secret : Text) : Except PyError (Text × Text) := do
  let timestamp := text (toString (truncate now))
  let signature ← signatureOf hmac levels payload secret timestamp
  return (timestamp, signature)

/-- For clocks and tolerances of this millennium the difference of floats is exact. -/
def verifySignature (now : ℚ) (payload : Value) (secret timestamp signature : Text)
    (toleranceSeconds : Nat) : Except PyError Bool :=
  match readInt unicode timestamp with
  | none => .ok false
  | some ts =>
      if tooLarge ts then .error .overflowError
      else if (toleranceSeconds : ℚ) < |now - ts| then .ok false
      else do
        let expectedSig ← signatureOf hmac levels payload secret timestamp
        compareDigest expectedSig signature

/-- What goes over the wire: two headers and the body, which httpx encodes in UTF-8. -/
structure Sent where
  timestamp : Text
  signature : Text
  content : Octets
  deriving DecidableEq

def send (now : ℚ) (payload : Value) (secret : Text) : Except PyError Sent := do
  let (timestamp, signature) ← signPayload hmac levels now payload secret
  let payloadText ← sortedKeys.dumps levels payload
  let content ← encode payloadText
  return ⟨timestamp, signature, content⟩

/-! ## Octets -/

theorem asciiOctets_inj {s t : Text} (hs : ∀ c ∈ s, c.val < 0x80) (ht : ∀ c ∈ t, c.val < 0x80)
    (h : asciiOctets s = asciiOctets t) : s = t := by
  induction s generalizing t with
  | nil =>
    cases t with
    | nil => rfl
    | cons d t => cases h
  | cons c s ih =>
    cases t with
    | nil => cases h
    | cons d t =>
      simp only [asciiOctets, List.map_cons, List.cons.injEq] at h
      have hc := hs c List.mem_cons_self
      have hd := ht d List.mem_cons_self
      have hval := congrArg UInt8.toNat h.1
      rw [UInt8.toNat_ofNat', UInt8.toNat_ofNat'] at hval
      have heq : c = d := Fin.ext (by omega)
      rw [heq, ih (fun e he => hs e (List.mem_cons_of_mem _ he))
        (fun e he => ht e (List.mem_cons_of_mem _ he)) h.2]

/-- A character beyond ASCII has no octet of ASCII. -/
theorem encodeChar_octets {c : CodePoint} {octets : Octets} (h : encodeChar c = .ok octets) :
    (c.val < 0x80 ∧ octets = [UInt8.ofNat c.val]) ∨
      (0x80 ≤ c.val ∧ octets ≠ [] ∧ ∀ b ∈ octets, 0x80 ≤ b.toNat) := by
  have hc := c.isLt
  unfold encodeChar at h
  simp only at h
  split_ifs at h
  · cases h
    exact .inl ⟨by assumption, by simp⟩
  all_goals
    cases h
    refine .inr ⟨by omega, by simp, ?_⟩
    simp only [List.mem_cons, List.not_mem_nil, or_false, forall_eq_or_imp, forall_eq,
      UInt8.toNat_ofNat']
    omega

/-- The text of octets of ASCII. -/
theorem ascii_of_encode {s : Text} {octets : Octets} (h : encode s = .ok octets)
    (hb : ∀ b ∈ octets, b.toNat < 0x80) : ∀ c ∈ s, c.val < 0x80 := by
  induction s generalizing octets with
  | nil => intro c hc; cases hc
  | cons c s ih =>
    simp only [encode, bind, Except.bind] at h
    split at h
    · cases h
    · rename_i first hfirst
      split at h
      · cases h
      · rename_i rest hrest
        cases h
        rcases encodeChar_octets hfirst with ⟨hlt, -⟩ | ⟨-, hne, hhigh⟩
        · intro d hd
          rcases List.mem_cons.mp hd with rfl | hd
          · exact hlt
          · exact ih hrest (fun b hm => hb b (List.mem_append_right _ hm)) d hd
        · obtain ⟨b, hm⟩ := List.exists_mem_of_ne_nil _ hne
          have hlow := hb b (List.mem_append_left _ hm)
          have hhigh := hhigh b hm
          omega

/-- A dot is one octet, and only a dot has it. -/
theorem dot_of_encode {s : Text} {octets : Octets} (h : encode s = .ok octets)
    (hb : (0x2e : UInt8) ∈ octets) : (0x2e : CodePoint) ∈ s := by
  induction s generalizing octets with
  | nil =>
    cases h
    cases hb
  | cons c s ih =>
    simp only [encode, bind, Except.bind] at h
    split at h
    · cases h
    · rename_i first hfirst
      split at h
      · cases h
      · rename_i rest hrest
        cases h
        rcases List.mem_append.mp hb with hm | hm
        · rcases encodeChar_octets hfirst with ⟨hlt, rfl⟩ | ⟨-, -, hhigh⟩
          · have hval := congrArg UInt8.toNat (List.mem_singleton.mp hm)
            rw [UInt8.toNat_ofNat'] at hval
            have hdot : (0x2e : UInt8).toNat = 0x2e := rfl
            have heq : (0x2e : CodePoint) = c := Fin.ext (show 0x2e = c.val by omega)
            rw [heq]
            exact List.mem_cons_self
          · have hhigh := hhigh _ hm
            exact absurd hhigh (by decide)
        · exact List.mem_cons_of_mem _ (ih hrest hm)

theorem encode_append {s t : Text} {octets : Octets} (h : encode (s ++ t) = .ok octets) :
    ∃ bs cs, encode s = .ok bs ∧ encode t = .ok cs ∧ octets = bs ++ cs := by
  induction s generalizing octets with
  | nil => exact ⟨[], octets, rfl, h, rfl⟩
  | cons c s ih =>
    simp only [List.cons_append, encode, bind, Except.bind] at h
    split at h
    · cases h
    · rename_i first hfirst
      split at h
      · cases h
      · rename_i rest hrest
        cases h
        obtain ⟨bs, cs, hs, ht, rfl⟩ := ih hrest
        refine ⟨first ++ bs, cs, ?_, ht, (List.append_assoc ..).symm⟩
        rw [encode, hfirst, hs]
        rfl

/-- Parts up to the first dot. -/
theorem split_dot {b : UInt8} {xs ys xs' ys' : Octets} (hx : b ∉ xs) (hx' : b ∉ xs')
    (h : xs ++ b :: ys = xs' ++ b :: ys') : xs = xs' ∧ ys = ys' := by
  induction xs generalizing xs' with
  | nil =>
    cases xs' with
    | nil => exact ⟨rfl, (List.cons.inj h).2⟩
    | cons c xs' =>
      have heq := (List.cons.inj h).1
      exact absurd (heq ▸ List.mem_cons_self) hx'
  | cons c xs ih =>
    cases xs' with
    | nil =>
      have heq := (List.cons.inj h).1
      exact absurd (heq ▸ List.mem_cons_self) hx
    | cons d xs' =>
      obtain ⟨rfl, hrest⟩ := List.cons.inj h
      obtain ⟨rfl, rfl⟩ := ih (fun hm => hx (List.mem_cons_of_mem _ hm))
        (fun hm => hx' (List.mem_cons_of_mem _ hm)) hrest
      exact ⟨rfl, rfl⟩

/-! ## Timestamps -/

/-- The Unicode tables agree with ASCII where it is. -/
structure Ascii (unicode : Unicode) : Prop where
  space : ∀ c : CodePoint, c.val < 0x80 → unicode.space c = asciiTables.space c
  digit : ∀ c : CodePoint, c.val < 0x80 → unicode.digit c = asciiTables.digit c

variable {unicode}

theorem Ascii.digit_eq (hu : Ascii unicode) {c : CodePoint} (hc : isDigit c = true) :
    unicode.digit c = some (c.val - 0x30) := by
  simp only [isDigit, Bool.and_eq_true, decide_eq_true_eq] at hc
  rw [hu.digit c (by omega), asciiTables]
  exact if_pos hc

theorem Ascii.not_space (hu : Ascii unicode) {c : CodePoint} (hc : isDigit c = true ∨ c.val = 0x2d) :
    unicode.space c = false := by
  simp only [isDigit, Bool.and_eq_true, decide_eq_true_eq] at hc
  rw [hu.space c (by omega), asciiTables]
  simp only [List.mem_cons, List.not_mem_nil, or_false, decide_eq_false_iff_not]
  omega

theorem readDigits_decimal (hu : Ascii unicode) {s : Text} (hs : ∀ c ∈ s, isDigit c = true)
    (acc : Nat) (after : Bool) (hne : after = true ∨ s ≠ []) : readDigits unicode acc after s =
      some (s.foldl (fun acc c => 10 * acc + (c.val - 0x30)) acc) := by
  induction s generalizing acc after with
  | nil =>
    rcases hne with rfl | hne
    · rfl
    · exact absurd rfl hne
  | cons c s ih =>
    rw [readDigits, hu.digit_eq (hs c List.mem_cons_self)]
    exact ih (fun d hd => hs d (List.mem_cons_of_mem _ hd)) _ true (.inl rfl)

theorem strip_eq (s : Text) (hs : ∀ c ∈ s, unicode.space c = false) : strip unicode s = s := by
  have hdrop : ∀ s : Text, (∀ c ∈ s, unicode.space c = false) → s.dropWhile unicode.space = s := by
    intro s hs
    cases s with
    | nil => rfl
    | cons c s => rw [List.dropWhile_cons_of_neg (by simp [hs c List.mem_cons_self])]
  rw [strip, hdrop s hs, hdrop _ fun c hc => hs c (List.mem_reverse.mp hc), List.reverse_reverse]

theorem readNatural_repr (hu : Ascii unicode) {n : Nat} (hn : n < 10 ^ maxStrDigits) :
    readNatural unicode (text n.repr) = some n := by
  have hlength : (text n.repr).length ≤ maxStrDigits := by
    rw [length_text]
    exact (Nat.length_repr_le_iff (by decide)).mpr hn
  have hcount := (text n.repr).countP_le_length (p := fun c => (unicode.digit c).isSome)
  have hne : text n.repr ≠ [] := by
    intro hnil
    have hpos : 0 < n.repr.length := Nat.length_repr_pos
    rw [← length_text, hnil] at hpos
    cases hpos
  rw [readNatural, if_neg (by omega), readDigits_decimal hu (isDigit_repr n) 0 false (.inr hne)]
  exact congrArg some (readDecimal_repr n)

/-- `int(str(n))`. -/
theorem readInt_toString (hu : Ascii unicode) {n : Int} (hn : n.natAbs < 10 ^ maxStrDigits) :
    readInt unicode (text (toString n)) = some n := by
  have hdigits := isDigit_repr n.natAbs
  have hspace : ∀ c ∈ text (toString n), unicode.space c = false := by
    intro c hc
    rw [text_int] at hc
    rcases List.mem_append.mp hc with hc | hc
    · split at hc
      · exact hu.not_space (.inr (congrArg Fin.val (List.mem_singleton.mp hc)))
      · cases hc
    · exact hu.not_space (.inl (hdigits c hc))
  have hread := readNatural_repr hu hn
  rw [readInt, strip_eq _ hspace, text_int]
  by_cases hneg : n < 0
  · rw [if_pos hneg]
    dsimp only [List.cons_append, List.nil_append]
    rw [if_pos (by decide), hread]
    exact congrArg some (show -(n.natAbs : Int) = n by omega)
  · rw [if_neg hneg, List.nil_append]
    cases htext : text n.natAbs.repr with
    | nil =>
      rw [htext] at hread
      cases hread
    | cons c rest =>
      have hc := hdigits c (htext ▸ List.mem_cons_self)
      simp only [isDigit, Bool.and_eq_true, decide_eq_true_eq] at hc
      dsimp only
      rw [if_neg (by omega), if_neg (by omega), ← htext, hread]
      exact congrArg some (show (n.natAbs : Int) = n by omega)

theorem readDigits_dot (hu : Ascii unicode) {s : Text} (hs : (0x2e : CodePoint) ∈ s) (acc : Nat)
    (after : Bool) : readDigits unicode acc after s = none := by
  induction s generalizing acc after with
  | nil => cases hs
  | cons c s ih =>
    rw [readDigits]
    rcases List.mem_cons.mp hs with rfl | hs
    · have hdigit : unicode.digit (0x2e : CodePoint) = none := by
        rw [hu.digit _ (by decide)]
        decide
      rw [hdigit]
      exact if_neg (by simp)
    · split
      · exact ih hs _ _
      · split
        · exact ih hs _ _
        · rfl

theorem mem_strip {s : Text} {c : CodePoint} (hc : c ∈ s) (hspace : unicode.space c = false) :
    c ∈ strip unicode s := by
  have hdrop : ∀ s : Text, c ∈ s → c ∈ s.dropWhile unicode.space := by
    intro s hc
    induction s with
    | nil => cases hc
    | cons d s ih =>
      rw [List.dropWhile_cons]
      split
      · rename_i hd
        rcases List.mem_cons.mp hc with rfl | hc
        · rw [hspace] at hd
          cases hd
        · exact ih hc
      · exact hc
  rw [strip, List.mem_reverse]
  exact hdrop _ (List.mem_reverse.mpr (hdrop s hc))

/-- What is read as an integer has no dot. -/
theorem readInt_dot (hu : Ascii unicode) {s : Text} (hs : (0x2e : CodePoint) ∈ s) :
    readInt unicode s = none := by
  have hspace : unicode.space (0x2e : CodePoint) = false := by
    rw [hu.space _ (by decide)]
    decide
  have hm := mem_strip hs hspace
  have hnatural : ∀ s : Text, (0x2e : CodePoint) ∈ s → readNatural unicode s = none := by
    intro s hs
    rw [readNatural]
    split
    · rfl
    · exact readDigits_dot hu hs 0 false
  unfold readInt
  split
  · rfl
  · rename_i c rest heq
    rw [heq] at hm
    have hrest : c.val = 0x2d ∨ c.val = 0x2b → (0x2e : CodePoint) ∈ rest := by
      intro hsign
      rcases List.mem_cons.mp hm with rfl | hm
      · rcases hsign with hsign | hsign <;> exact absurd hsign (by decide)
      · exact hm
    split
    · rename_i hminus
      rw [hnatural rest (hrest (.inl hminus))]
      rfl
    · split
      · rename_i hplus
        rw [hnatural rest (hrest (.inr hplus))]
        rfl
      · rw [hnatural _ hm]
        rfl

/-! ## Signatures -/

theorem hexdigest_ascii (digest : Octets) : ∀ c ∈ hexdigest digest, c.val < 0x80 := by
  intro c hc
  obtain ⟨b, -, hc⟩ := List.mem_flatMap.mp hc
  simp only [List.mem_cons, List.not_mem_nil, or_false] at hc
  rcases hc with rfl | rfl <;> exact hexDigit_ascii _

theorem hexDigit_inj {m n : Nat} (h : hexDigit m = hexDigit n) : m % 16 = n % 16 := by
  have hvalue := congrArg hexValue h
  rw [hexValue_hexDigit, hexValue_hexDigit] at hvalue
  exact Option.some.inj hvalue

theorem hexdigest_inj {xs ys : Octets} (h : hexdigest xs = hexdigest ys) : xs = ys := by
  induction xs generalizing ys with
  | nil =>
    cases ys with
    | nil => rfl
    | cons y ys => cases h
  | cons x xs ih =>
    cases ys with
    | nil => cases h
    | cons y ys =>
      simp only [hexdigest, List.flatMap_cons, List.cons_append, List.nil_append, List.cons.injEq] at h
      have hhi := hexDigit_inj h.1
      have hlo := hexDigit_inj h.2.1
      have hx := x.toNat_lt
      have hy := y.toNat_lt
      have heq : x = y := UInt8.toNat_inj.mp (by omega)
      rw [heq, ih h.2.2]

/-- What `signature_of` signs: the octets of the timestamp, a dot, and those of the text. -/
def content (start : Octets) (payload : Value) : Octets :=
  start ++ 0x2e :: asciiOctets (sortedKeys.write payload)

theorem encode_dot : encode (text ".") = .ok [0x2e] := by decide

variable {hmac levels} {payload payload' : Value} {secret timestamp : Text}

theorem dumps_sortedKeys {x : Value} {t : Text} (h : sortedKeys.dumps levels x = .ok t) :
    x.nesting ≤ levels ∧ t = sortedKeys.write x := by
  unfold Style.dumps at h
  split at h
  · rename_i hle
    cases h
    exact ⟨hle, rfl⟩
  · cases h

/-- A signature that is there is that of the content. -/
theorem signatureOf_eq {signature : Text}
    (h : signatureOf hmac levels payload secret timestamp = .ok signature) :
    ∃ start key, encode timestamp = .ok start ∧ encode secret = .ok key ∧ payload.nesting ≤ levels ∧
      signature = text "v1=" ++ hexdigest (hmac key (content start payload)) := by
  simp only [signatureOf, bind, Except.bind] at h
  split at h
  · cases h
  · rename_i t ht
    obtain ⟨hle, rfl⟩ := dumps_sortedKeys ht
    rw [encode_ascii (sortedKeys_ascii payload)] at h
    dsimp only at h
    split at h
    · cases h
    · rename_i start hstart
      split at h
      · cases h
      · rename_i key hkey
        cases h
        obtain ⟨ts, dot, hts, hdot, rfl⟩ := encode_append hstart
        obtain rfl : dot = [0x2e] := Except.ok.inj (hdot.symm.trans encode_dot)
        refine ⟨ts, key, hts, hkey, hle, ?_⟩
        rw [content, List.append_assoc]
        rfl

theorem signatureOf_ascii {signature : Text}
    (h : signatureOf hmac levels payload secret timestamp = .ok signature) :
    ∀ c ∈ signature, c.val < 0x80 := by
  obtain ⟨start, key, -, -, -, rfl⟩ := signatureOf_eq h
  intro c hc
  rcases List.mem_append.mp hc with hc | hc
  · exact text_ascii (by decide) c hc
  · exact hexdigest_ascii _ c hc

/-- A payload is signed whatever the order of its keys. -/
theorem signatureOf_sorted : signatureOf hmac levels payload.sorted secret timestamp =
    signatureOf hmac levels payload secret timestamp := by
  have hdumps : sortedKeys.dumps levels payload.sorted = sortedKeys.dumps levels payload := by
    rw [Style.dumps, Style.dumps, nesting_sorted, write_sorted]
  rw [signatureOf, signatureOf, hdumps]

/-! ## Who verifies -/

variable {now now' : ℚ} {signature timestamp' : Text} {toleranceSeconds : Nat}

theorem signPayload_eq {signed : Text × Text}
    (h : signPayload hmac levels now payload secret = .ok signed) :
    signed.1 = text (toString (truncate now)) ∧
      signatureOf hmac levels payload secret signed.1 = .ok signed.2 := by
  simp only [signPayload, bind, Except.bind] at h
  split at h
  · cases h
  · rename_i signature hsig
    cases h
    exact ⟨rfl, hsig⟩

theorem send_eq {sent : Sent} (h : send hmac levels now payload secret = .ok sent) :
    signPayload hmac levels now payload secret = .ok (sent.timestamp, sent.signature) ∧
      payload.nesting ≤ levels ∧ sent.content = asciiOctets (sortedKeys.write payload) := by
  simp only [send, bind, Except.bind] at h
  split at h
  · cases h
  · rename_i signed hsigned
    split at h
    · cases h
    · rename_i t ht
      obtain ⟨hle, rfl⟩ := dumps_sortedKeys ht
      rw [encode_ascii (sortedKeys_ascii payload)] at h
      cases h
      exact ⟨hsigned, hle, rfl⟩

/-- `time.time()` has nanoseconds in 64 bits behind it. -/
def Clock (now : ℚ) : Prop := (truncate now).natAbs < 2 ^ 63

theorem two_pow_le_sub {a b c : ℕ} (hab : a ≤ b) (hbc : b < c) : 2 ^ a ≤ 2 ^ c - 2 ^ b := by
  have hsmall : 2 ^ a ≤ 2 ^ b := Nat.pow_le_pow_right (by decide) hab
  have hlarge : 2 ^ (b + 1) ≤ 2 ^ c := Nat.pow_le_pow_right (by decide) hbc
  rw [Nat.pow_succ] at hlarge
  omega

theorem Clock.not_tooLarge (h : Clock now) : tooLarge (truncate now) = false := by
  have hle : 2 ^ 63 ≤ 2 ^ 1024 - 2 ^ 970 := two_pow_le_sub (by decide) (by decide)
  have hlt := Nat.lt_of_lt_of_le h hle
  exact decide_eq_false (Nat.not_le.mpr hlt)

theorem Clock.read (h : Clock now) (hu : Ascii unicode) :
    readInt unicode (text (toString (truncate now))) = some (truncate now) := by
  have hle : 2 ^ 63 ≤ 10 ^ maxStrDigits := calc
    2 ^ 63 ≤ 10 ^ 63 := Nat.pow_le_pow_left (by decide) _
    _ ≤ 10 ^ maxStrDigits := Nat.pow_le_pow_right (by decide) (by decide)
  exact readInt_toString hu (Nat.lt_of_lt_of_le h hle)

/-! ## A request -/

theorem nan_repr (_ : Text) (x : FiniteFloat) (h : Double.nan = .finite x) :
    ∃ n : Numeral, n.WellFormed ∧ n.isInt = false ∧ n.text = x.repr := by cases h

theorem nan_parse (_ : Text) (x : FiniteFloat) (h : Double.nan = .finite x) : Double.nan = .finite x := h

/-- Floats for texts that have none. -/
def noFloats : Floats := ⟨fun _ => .nan, nan_repr, nan_parse⟩

def attempt (n : Int) : Value := .dict [(text "b", .int n), (text "a", .null)]

def firstSent : Sent where
  timestamp := text "1714935600"
  signature := text "v1=99dc1373f7017a79d27238b7d3cd5aec103c084e5954f08aa84177107121b2b7"
  content := asciiOctets (text "\x7b\"a\": null, \"b\": 1\x7d")

/-- HMAC-SHA256 under "whsec_1" of the timestamp with the first attempt, and with the second. -/
def whsecDigest (_ message : Octets) : Octets :=
  if message = asciiOctets (text "1714935600.\x7b\"a\": null, \"b\": 1\x7d") then [
    0x99, 0xdc, 0x13, 0x73, 0xf7, 0x01, 0x7a, 0x79, 0xd2, 0x72, 0x38, 0xb7, 0xd3, 0xcd, 0x5a, 0xec,
    0x10, 0x3c, 0x08, 0x4e, 0x59, 0x54, 0xf0, 0x8a, 0xa8, 0x41, 0x77, 0x10, 0x71, 0x21, 0xb2, 0xb7]
  else [
    0x51, 0xd7, 0x89, 0xdc, 0x92, 0x45, 0x65, 0x05, 0x23, 0xae, 0x11, 0x13, 0x1b, 0x56, 0x23, 0x20,
    0xbf, 0x0b, 0x99, 0xe2, 0x13, 0xa2, 0x8f, 0x08, 0x9b, 0x65, 0xee, 0x76, 0x18, 0x83, 0xd4, 0xd4]

theorem asciiTables_ascii : Ascii asciiTables := ⟨fun _ _ => rfl, fun _ _ => rfl⟩

theorem loaded_attempt (n : Int) (hn : n.natAbs < 10) : (attempt n).Loaded noFloats := by
  simp only [attempt, Value.Loaded, LoadedEntries, and_true]
  refine ⟨show [text "b", text "a"].Nodup by decide, ?_⟩
  exact Nat.lt_of_lt_of_le hn (Nat.le_self_pow (by decide) 10)

theorem sorted_attempt (n : Int) : (attempt n).sorted = .dict [(text "a", .null), (text "b", .int n)] := by
  have hle : decide (text "b" ≤ text "a") = false := by decide
  simp [attempt, Value.sorted, sortedEntries, sortEntries, List.mergeSort,
    List.MergeSort.Internal.splitInTwo, hle]

theorem write_first : sortedKeys.write (attempt 1) = text "\x7b\"a\": null, \"b\": 1\x7d" := by
  rw [write_sortedKeys, sorted_attempt]
  rfl

theorem write_second : sortedKeys.write (attempt 2) = text "\x7b\"a\": null, \"b\": 2\x7d" := by
  rw [write_sortedKeys, sorted_attempt]
  rfl

theorem truncate_first : truncate 1714935600.5 = 1714935600 := by decide +kernel

theorem clock_first : Clock 1714935600.5 := by
  rw [Clock, truncate_first]
  decide

theorem firstSigned : signPayload whsecDigest 900 1714935600.5 (attempt 1) (text "whsec_1") =
    .ok (firstSent.timestamp, firstSent.signature) := by
  have hdumps : sortedKeys.dumps 900 (attempt 1) = .ok (sortedKeys.write (attempt 1)) := rfl
  rw [signPayload, signatureOf, hdumps, write_first, truncate_first]
  decide +kernel

theorem send_first :
    send whsecDigest 900 1714935600.5 (attempt 1) (text "whsec_1") = .ok firstSent := by
  have hdumps : sortedKeys.dumps 900 (attempt 1) = .ok (sortedKeys.write (attempt 1)) := rfl
  rw [send, firstSigned, hdumps, write_first]
  rfl

/-! ## What is accepted -/

/-- What has been signed for this timestamp is accepted while it is fresh. -/
theorem verify_of_signed (hu : Ascii unicode) (hclock : Clock now)
    (hs : signPayload hmac levels now payload secret = .ok (timestamp, signature))
    (hsorted : payload'.sorted = payload.sorted) :
    verifySignature hmac levels unicode now' payload' secret timestamp signature toleranceSeconds =
      .ok (decide (|now' - truncate now| ≤ toleranceSeconds)) := by
  obtain ⟨rfl, hsig⟩ := signPayload_eq hs
  have hsame : signatureOf hmac levels payload' secret (text (toString (truncate now))) =
      .ok signature := by
    rw [← signatureOf_sorted, hsorted, signatureOf_sorted, hsig]
  have hascii := signatureOf_ascii hsig
  have hcompare : compareDigest signature signature = .ok true := by
    rw [compareDigest, if_pos]
    · simp
    · rw [List.all_append, Bool.and_self, List.all_eq_true]
      exact fun c hc => decide_eq_true (hascii c hc)
  unfold verifySignature
  rw [hclock.read hu]
  dsimp only
  rw [hclock.not_tooLarge, if_neg Bool.false_ne_true, hsame]
  by_cases hfresh : |now' - truncate now| ≤ toleranceSeconds
  · rw [if_neg (not_lt.mpr hfresh), decide_eq_true hfresh]
    exact hcompare
  · rw [if_pos (not_le.mp hfresh), decide_eq_false hfresh]

/-- Whoever parses what was sent and checks it accepts it while it is fresh, and only then. -/
theorem sent_verifies (floats : Floats) (hu : Ascii unicode) {entries : List (Text × Value)}
    (hne : entries ≠ []) (hx : (Value.dict entries).Loaded floats)
    (hpaired : (Value.dict entries).anyText paired = false) (hclock : Clock now) {sent : Sent}
    (hs : send hmac levels now (.dict entries) secret = .ok sent) :
    ∃ received, loads floats levels sent.content = .ok received ∧
      ∀ now' toleranceSeconds, verifySignature hmac levels unicode now' received secret sent.timestamp
        sent.signature toleranceSeconds = .ok (decide (|now' - truncate now| ≤ toleranceSeconds)) := by
  obtain ⟨hsigned, hle, hcontent⟩ := send_eq hs
  refine ⟨(Value.dict entries).sorted, ?_, fun now' toleranceSeconds => ?_⟩
  · rw [hcontent]
    exact loads_sortedKeys floats hne hx hle hpaired
  · exact verify_of_signed hu hclock hsigned (sorted_idem _)

/-- The receiver sees the keys in order; the request passes for five minutes. -/
theorem sent_verifies_first : ∃ received, loads noFloats 900 firstSent.content = .ok received ∧
    ∀ now' toleranceSeconds, verifySignature whsecDigest 900 asciiTables now' received (text "whsec_1")
      firstSent.timestamp firstSent.signature toleranceSeconds =
        .ok (decide (|now' - truncate 1714935600.5| ≤ toleranceSeconds)) :=
  sent_verifies noFloats asciiTables_ascii (by simp) (loaded_attempt 1 (by decide)) rfl clock_first
    send_first

/-- The message that a signature is made of, where there is one. -/
def signedContent (timestamp : Text) (payload : Value) : Except PyError Octets := do
  let start ← encode timestamp
  return content start payload

/-- HMAC under the secret tells these two messages apart. -/
def Apart (hmac : Octets → Octets → Octets) (secret : Text) (m m' : Except PyError Octets) : Prop :=
  ∀ key start start', encode secret = .ok key → m = .ok start → m' = .ok start' →
    hmac key start = hmac key start' → start = start'

/-- Values that are written alike are the same up to the order of keys. -/
theorem sorted_of_write (floats : Floats) (hx : payload.Loaded floats)
    (hpaired : payload.anyText paired = false) (hx' : payload'.Loaded floats)
    (hpaired' : payload'.anyText paired = false)
    (h : sortedKeys.write payload' = sortedKeys.write payload) : payload'.sorted = payload.sorted := by
  have hread : ∀ x : Value, x.Loaded floats → x.anyText paired = false → x.nesting ≤
      max payload.nesting payload'.nesting → loadsText floats (max payload.nesting payload'.nesting)
        (sortedKeys.write x) = .ok x.sorted := by
    intro x hx hp hle
    have hxs := loaded_sorted floats x hx
    rw [write_sortedKeys, loadsText_write floats hxs (by rw [nesting_sorted]; exact hle),
      (reread_eq_iff floats _ hxs).mpr (by rw [anyText_sorted]; exact hp)]
  have hr := hread payload hx hpaired (le_max_left _ _)
  have hr' := hread payload' hx' hpaired' (le_max_right _ _)
  rw [h, hr] at hr'
  exact (Except.ok.inj hr').symm

/-- The parts of equal contents are equal, where a timestamp is before the dot. -/
theorem content_inj (hu : Ascii unicode) {n : Int} (hn : readInt unicode timestamp' = some n)
    (hclock : Clock now) {start start' : Octets}
    (hstart : encode (text (toString (truncate now))) = .ok start)
    (hstart' : encode timestamp' = .ok start')
    (h : content start' payload' = content start payload) :
    timestamp' = text (toString (truncate now)) ∧
      sortedKeys.write payload' = sortedKeys.write payload := by
  have hno : ∀ {s : Text} {octets : Octets} {m : Int}, readInt unicode s = some m →
      encode s = .ok octets → (0x2e : UInt8) ∉ octets := by
    intro s octets m hread hencode hm
    rw [readInt_dot hu (dot_of_encode hencode hm)] at hread
    cases hread
  obtain ⟨rfl, hrest⟩ := split_dot (hno hn hstart') (hno (hclock.read hu) hstart) h
  have hascii : ∀ c ∈ text (toString (truncate now)), c.val < 0x80 := by
    intro c hc
    rw [text_int] at hc
    rcases List.mem_append.mp hc with hc | hc
    · split at hc
      · rw [List.mem_singleton.mp hc]
        decide
      · cases hc
    · have hdigit := isDigit_repr _ c hc
      simp only [isDigit, Bool.and_eq_true, decide_eq_true_eq] at hdigit
      omega
  have hoctets : start' = asciiOctets (text (toString (truncate now))) :=
    Except.ok.inj (hstart.symm.trans (encode_ascii hascii))
  have hascii' : ∀ c ∈ timestamp', c.val < 0x80 := by
    refine ascii_of_encode hstart' fun b hb => ?_
    rw [hoctets] at hb
    obtain ⟨c, hc, rfl⟩ := List.mem_map.mp hb
    rw [UInt8.toNat_ofNat']
    have hlt := hascii c hc
    omega
  refine ⟨asciiOctets_inj hascii' hascii ?_, asciiOctets_inj (sortedKeys_ascii _) (sortedKeys_ascii _) hrest⟩
  rw [← hoctets]
  exact Except.ok.inj ((encode_ascii hascii').symm.trans hstart')

/-- A signature is accepted exactly with its own timestamp, its own payload up to the order of keys, and
in time. -/
theorem verify_signed_iff (floats : Floats) (hu : Ascii unicode) (hclock : Clock now)
    (hx : payload.Loaded floats) (hpaired : payload.anyText paired = false)
    (hx' : payload'.Loaded floats) (hpaired' : payload'.anyText paired = false)
    (hs : signPayload hmac levels now payload secret = .ok (timestamp, signature))
    (hapart : Apart hmac secret (signedContent timestamp' payload') (signedContent timestamp payload)) :
    verifySignature hmac levels unicode now' payload' secret timestamp' signature toleranceSeconds =
        .ok true ↔ timestamp' = timestamp ∧ payload'.sorted = payload.sorted ∧
      |now' - truncate now| ≤ toleranceSeconds := by
  constructor
  · intro hv
    obtain ⟨rfl, hsig⟩ := signPayload_eq hs
    dsimp only at hsig
    have haccepted := hv
    unfold verifySignature at hv
    split at hv
    · cases hv
    · rename_i ts hts
      split at hv
      · cases hv
      · split at hv
        · cases hv
        · simp only [bind, Except.bind] at hv
          split at hv
          · cases hv
          · rename_i expectedSig hexpected
            have heq : expectedSig = signature := by
              unfold compareDigest at hv
              split at hv
              · exact of_decide_eq_true (Except.ok.inj hv)
              · cases hv
            obtain ⟨start', key', hstart', hkey', hle', hexp⟩ := signatureOf_eq hexpected
            obtain ⟨start, key, hstart, hkey, -, hsigned⟩ := signatureOf_eq hsig
            obtain rfl : key' = key := Except.ok.inj (hkey'.symm.trans hkey)
            rw [heq, hsigned] at hexp
            have hmacs := hexdigest_inj (List.append_cancel_left hexp)
            have hcontents := hapart key' (content start' payload') (content start payload) hkey
              (by rw [signedContent, hstart']; rfl) (by rw [signedContent, hstart]; rfl) hmacs.symm
            obtain ⟨rfl, hwrite⟩ := content_inj hu hts hclock hstart hstart' hcontents
            have hsorted := sorted_of_write floats hx hpaired hx' hpaired' hwrite
            rw [verify_of_signed hu hclock hs hsorted] at haccepted
            exact ⟨rfl, hsorted, of_decide_eq_true (Except.ok.inj haccepted)⟩
  · rintro ⟨rfl, hsorted, hfresh⟩
    rw [verify_of_signed hu hclock hs hsorted, decide_eq_true hfresh]

theorem apart_second : Apart whsecDigest (text "whsec_1")
    (signedContent firstSent.timestamp (attempt 2)) (signedContent firstSent.timestamp (attempt 1)) := by
  have hfirst : signedContent firstSent.timestamp (attempt 1) =
      .ok (asciiOctets (text "1714935600.\x7b\"a\": null, \"b\": 1\x7d")) := by
    simp only [signedContent, content, write_first]
    rfl
  have hsecond : signedContent firstSent.timestamp (attempt 2) =
      .ok (asciiOctets (text "1714935600.\x7b\"a\": null, \"b\": 2\x7d")) := by
    simp only [signedContent, content, write_second]
    rfl
  intro key start start' _ hm hm' hdigest
  rw [hsecond] at hm
  rw [hfirst] at hm'
  cases hm
  cases hm'
  revert hdigest
  simp only [whsecDigest]
  decide

theorem apart_sorted : Apart whsecDigest (text "whsec_1")
    (signedContent firstSent.timestamp (attempt 1).sorted)
    (signedContent firstSent.timestamp (attempt 1)) := by
  intro key start start' _ hm hm' _
  simp only [signedContent, content, write_sorted] at hm
  exact Except.ok.inj (hm.symm.trans hm')

/-- The keys in order pass at the last moment; another attempt never does. -/
theorem verify_signed_iff_attempts :
    verifySignature whsecDigest 900 asciiTables 1714935900 (attempt 1).sorted (text "whsec_1")
      firstSent.timestamp firstSent.signature 300 = .ok true ∧
    verifySignature whsecDigest 900 asciiTables 1714935600.5 (attempt 2) (text "whsec_1")
      firstSent.timestamp firstSent.signature 300 ≠ .ok true := by
  have hfirst := loaded_attempt 1 (by decide)
  have hsecond := loaded_attempt 2 (by decide)
  constructor
  · refine (verify_signed_iff noFloats asciiTables_ascii clock_first hfirst rfl (loaded_sorted _ _ hfirst)
      (by rw [anyText_sorted]; rfl) firstSigned apart_sorted).mpr ⟨rfl, sorted_idem _, ?_⟩
    rw [truncate_first]
    norm_num
  · intro haccepted
    have h := ((verify_signed_iff noFloats asciiTables_ascii clock_first hfirst rfl hsecond rfl
      firstSigned apart_second).mp haccepted).2.1
    rw [sorted_attempt, sorted_attempt] at h
    simp at h

end CueApi.VerifySignature
