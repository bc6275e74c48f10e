import CueApi.Library.PyJson

/-! What Python's `json.loads` makes of octets: their encoding, the text, and its value, with each
exception it can end with. -/

namespace PyJson

/-- A `JSONDecodeError` is a `ValueError` of its own kind; so is a `UnicodeDecodeError`. -/
inductive LoadError
  | jsonDecodeError
  | valueError
  | unicodeDecodeError
  | recursionError
  deriving DecidableEq, Repr

abbrev Octets := List UInt8

def point (n : Nat) : CodePoint := Fin.ofNat 0x110000 n

def highSurrogate (n : Nat) : Bool := 0xd800 ≤ n && n ≤ 0xdbff

def lowSurrogate (n : Nat) : Bool := 0xdc00 ≤ n && n ≤ 0xdfff

/-- The character of a pair of surrogates. -/
def pairPoint (high low : Nat) : CodePoint := point (0x10000 + (high - 0xd800) * 1024 + (low - 0xdc00))

/-! ## Decoding -/

/-- A character of UTF-8 that has begun: the octets it still needs, its bits so far, and the octets
that may come next. -/
structure Begun where
  need : Nat
  bits : Nat
  lo : Nat
  hi : Nat

/-- What an octet begins; `surrogates` lets those through that `surrogatepass` does. -/
def beginChar (surrogates : Bool) (b : Nat) : Option Begun :=
  if 0xc2 ≤ b ∧ b ≤ 0xdf then some ⟨1, b % 32, 0x80, 0xbf⟩
  else if b = 0xe0 then some ⟨2, 0, 0xa0, 0xbf⟩
  else if b = 0xed then some ⟨2, 13, 0x80, if surrogates then 0xbf else 0x9f⟩
  else if 0xe1 ≤ b ∧ b ≤ 0xef then some ⟨2, b % 16, 0x80, 0xbf⟩
  else if b = 0xf0 then some ⟨3, 0, 0x90, 0xbf⟩
  else if 0xf1 ≤ b ∧ b ≤ 0xf3 then some ⟨3, b % 8, 0x80, 0xbf⟩
  else if b = 0xf4 then some ⟨3, 4, 0x80, 0x8f⟩
  else none

/-- UTF-8, with `none` for each piece that is ill-formed. -/
def utf8 (surrogates : Bool) : Option Begun → Octets → List (Option CodePoint)
  | none, [] => []
  | some _, [] => [none]
  | begun, b :: bs =>
      let fresh :=
        if b.toNat < 0x80 then some (point b.toNat) :: utf8 surrogates none bs
        else match beginChar surrogates b.toNat with
          | some x => utf8 surrogates (some x) bs
          | none => none :: utf8 surrogates none bs
      match begun with
      | none => fresh
      | some x =>
          if x.lo ≤ b.toNat ∧ b.toNat ≤ x.hi then
            let bits := x.bits * 64 + b.toNat % 64
            if x.need = 1 then some (point bits) :: utf8 surrogates none bs
            else utf8 surrogates (some ⟨x.need - 1, bits, 0x80, 0xbf⟩) bs
          else none :: fresh

/-- `decode("utf-8", errors="replace")`. -/
def decodeReplace (bs : Octets) : Text :=
  (utf8 false none bs).map fun c => c.getD (point 0xfffd)

/-- The units of UTF-16, or none where half of one is left. -/
def units16 (big : Bool) : Octets → Option (List Nat)
  | [] => some []
  | [_] => none
  | a :: b :: bs => (units16 big bs).map fun us =>
      (if big then a.toNat * 256 + b.toNat else b.toNat * 256 + a.toNat) :: us

/-- Pairs of surrogates are one character; others stay. -/
def pair16 : List Nat → Text
  | [] => []
  | [u] => [point u]
  | u :: v :: us =>
      if highSurrogate u && lowSurrogate v then pairPoint u v :: pair16 us
      else point u :: pair16 (v :: us)

def points32 (big : Bool) : Octets → Option Text
  | [] => some []
  | a :: b :: c :: d :: bs =>
      let n := if big then ((a.toNat * 256 + b.toNat) * 256 + c.toNat) * 256 + d.toNat
        else ((d.toNat * 256 + c.toNat) * 256 + b.toNat) * 256 + a.toNat
      if n < 0x110000 then (points32 big bs).map (point n :: ·) else none
  | _ => none

/-- `s.decode(detect_encoding(s), "surrogatepass")`. -/
def decodeDetected (bs : Octets) : Option Text :=
  let utf8 (bs : Octets) : Option Text := (utf8 true none bs).mapM fun c => c
  let utf16 (big : Bool) (bs : Octets) : Option Text := (units16 big bs).map pair16
  match bs with
  | 0x00 :: 0x00 :: 0xfe :: 0xff :: rest => points32 true rest
  | 0xff :: 0xfe :: 0x00 :: 0x00 :: rest => points32 false rest
  | 0xfe :: 0xff :: rest => utf16 true rest
  | 0xff :: 0xfe :: rest => utf16 false rest
  | 0xef :: 0xbb :: 0xbf :: rest => utf8 rest
  | a :: b :: c :: d :: _ =>
      if a = 0 then if b = 0 then points32 true bs else utf16 true bs
      else if b = 0 then if c = 0 ∧ d = 0 then points32 false bs else utf16 false bs
      else utf8 bs
  | [a, b] => if a = 0 then utf16 true bs else if b = 0 then utf16 false bs else utf8 bs
  | _ => utf8 bs

/-! ## The scanner -/

def whitespace (c : CodePoint) : Bool := c.val = 0x20 || c.val = 0x09 || c.val = 0x0a || c.val = 0x0d

def skip (s : Text) : Text := s.dropWhile whitespace

def failed {α : Type} : Except LoadError α := .error .jsonDecodeError

/-- A character of a string as it stands or after a backslash, or a unit that is escaped by number. -/
inductive StrUnit
  | char (c : CodePoint)
  | escaped (u : Nat)
  deriving DecidableEq, Repr

def unescape (n : Nat) : Option CodePoint :=
  if n = 0x22 ∨ n = 0x5c ∨ n = 0x2f then some (point n)
  else if n = 0x62 then some 0x08
  else if n = 0x66 then some 0x0c
  else if n = 0x6e then some 0x0a
  else if n = 0x72 then some 0x0d
  else if n = 0x74 then some 0x09
  else none

def hexValue (c : CodePoint) : Option Nat :=
  if 0x30 ≤ c.val ∧ c.val ≤ 0x39 then some (c.val - 0x30)
  else if 0x61 ≤ c.val ∧ c.val ≤ 0x66 then some (c.val - 0x61 + 10)
  else if 0x41 ≤ c.val ∧ c.val ≤ 0x46 then some (c.val - 0x41 + 10)
  else none

def hex4 (a b c d : CodePoint) : Option Nat := do
  return ((← hexValue a) * 4096 + (← hexValue b) * 256 + (← hexValue c) * 16 + (← hexValue d))

/-- The units of a string, from behind its opening quote. -/
def scanUnits : Text → Except LoadError (List StrUnit × Text)
  | [] => failed
  | c :: s =>
      if c.val = 0x22 then .ok ([], s)
      else if c.val < 0x20 then failed
      else if c.val ≠ 0x5c then do
        let (us, rest) ← scanUnits s
        return (.char c :: us, rest)
      else match s with
        | [] => failed
        | e :: s =>
            if e.val ≠ 0x75 then
              match unescape e.val with
              | none => failed
              | some c => do
                  let (us, rest) ← scanUnits s
                  return (.char c :: us, rest)
            else match s with
              | a :: b :: c :: d :: s =>
                  match hex4 a b c d with
                  | none => failed
                  | some u => do
                      let (us, rest) ← scanUnits s
                      return (.escaped u :: us, rest)
              | _ => failed

/-- A pair of escaped surrogates is one character. -/
def joinUnits : List StrUnit → Text
  | [] => []
  | .char c :: us => c :: joinUnits us
  | [.escaped u] => [point u]
  | .escaped u :: .char c :: us => point u :: c :: joinUnits us
  | .escaped u :: .escaped v :: us =>
      if highSurrogate u && lowSurrogate v then pairPoint u v :: joinUnits us
      else point u :: joinUnits (.escaped v :: us)

def scanString (s : Text) : Except LoadError (Text × Text) := do
  let (us, rest) ← scanUnits s
  return (joinUnits us, rest)

def isDigit (c : CodePoint) : Bool := 0x30 ≤ c.val && c.val ≤ 0x39

def lexInt : Text → Option (Text × Text)
  | [] => none
  | c :: s =>
      if c.val = 0x30 then some ([c], s)
      else if isDigit c then some (c :: s.takeWhile isDigit, s.dropWhile isDigit)
      else none

/-- `(\.\d+)?` -/
def lexFraction : Text → Text × Text
  | [] => ([], [])
  | c :: s =>
      if c.val = 0x2e ∧ s.takeWhile isDigit ≠ [] then (c :: s.takeWhile isDigit, s.dropWhile isDigit)
      else ([], c :: s)

def sign (s : Text) : Text × Text :=
  match s with
  | [] => ([], [])
  | c :: rest => if c.val = 0x2b ∨ c.val = 0x2d then ([c], rest) else ([], s)

/-- `([eE][-+]?\d+)?` -/
def lexExponent : Text → Text × Text
  | [] => ([], [])
  | c :: s =>
      if (c.val = 0x65 ∨ c.val = 0x45) ∧ (sign s).2.takeWhile isDigit ≠ [] then
        (c :: (sign s).1 ++ (sign s).2.takeWhile isDigit, (sign s).2.dropWhile isDigit)
      else ([], c :: s)

structure Numeral where
  minus : Bool
  digits : Text
  fraction : Text
  exponent : Text
  deriving DecidableEq, Repr

def Numeral.text (n : Numeral) : Text :=
  (if n.minus then [0x2d] else []) ++ n.digits ++ n.fraction ++ n.exponent

/-- The numeral is one that the scanner takes as a whole. -/
structure Numeral.WellFormed (n : Numeral) : Prop where
  digits : (∀ c ∈ n.digits, isDigit c = true) ∧ n.digits ≠ [] ∧
    (n.digits.head?.any (fun c => c.val = 0x30) = true → n.digits.length = 1)
  fraction : n.fraction = [] ∨ ∃ ds, n.fraction = 0x2e :: ds ∧ ds ≠ [] ∧ ∀ c ∈ ds, isDigit c = true
  exponent : n.exponent = [] ∨ ∃ e plus ds, n.exponent = e :: plus ++ ds ∧
    (e.val = 0x65 ∨ e.val = 0x45) ∧ (plus = [] ∨ plus = [0x2b] ∨ plus = [0x2d]) ∧
    ds ≠ [] ∧ ∀ c ∈ ds, isDigit c = true

def Numeral.isInt (n : Numeral) : Bool := n.fraction = [] && n.exponent = []

/-- Python's floats: the values of numerals with a fraction or an exponent; and the `repr` of a finite
value is such a numeral and reads as the value. -/
structure Floats where
  parse : Text → Double
  repr_numeral : ∀ t x, parse t = .finite x →
    ∃ n : Numeral, n.WellFormed ∧ n.isInt = false ∧ n.text = x.repr
  parse_repr : ∀ t x, parse t = .finite x → parse x.repr = .finite x

def lexNumeral (s : Text) : Option (Numeral × Text) :=
  let minus : Bool := s.head?.any fun c => c.val = 0x2d
  (lexInt (if minus then s.tail else s)).map fun (digits, s) =>
    let (fraction, s) := lexFraction s
    let (exponent, s) := lexExponent s
    (⟨minus, digits, fraction, exponent⟩, s)

def readDecimal (digits : Text) : Nat := digits.foldl (fun acc c => 10 * acc + (c.val - 0x30)) 0

variable (floats : Floats)

def Numeral.value (n : Numeral) : Except LoadError Value :=
  if n.isInt then
    if maxStrDigits < n.digits.length then .error .valueError
    else .ok (.int (if n.minus then -(readDecimal n.digits : Int) else readDecimal n.digits))
  else .ok (.float (floats.parse n.text))

def scanNumeral (s : Text) : Except LoadError (Value × Text) :=
  match lexNumeral s with
  | none => failed
  | some (n, rest) => do return (← n.value floats, rest)

/-- What is left behind a word. -/
def after (word : String) (s : Text) : Option Text :=
  if text word <+: s then some (s.drop word.length) else none

def scanLiteral (s : Text) : Except LoadError (Value × Text) :=
  match after "null" s with
  | some rest => .ok (.null, rest)
  | none =>
    match after "true" s with
    | some rest => .ok (.bool true, rest)
    | none =>
      match after "false" s with
      | some rest => .ok (.bool false, rest)
      | none =>
        match after "NaN" s with
        | some rest => .ok (.float .nan, rest)
        | none =>
          match after "Infinity" s with
          | some rest => .ok (.float (.infinity false), rest)
          | none =>
            match after "-Infinity" s with
            | some rest => .ok (.float (.infinity true), rest)
            | none => scanNumeral floats s

/-- The elements of a list, from the first of what is left; a round of the loop takes a character at
least. -/
def scanElements (scan : Text → Except LoadError (Value × Text)) :
    Nat → List Value → Text → Except LoadError (Value × Text)
  | 0, _, _ => failed
  | n + 1, items, s => do
      let (x, s) ← scan s
      match skip s with
      | [] => failed
      | c :: s =>
          if c.val = 0x5d then .ok (.list (items ++ [x]), s)
          else if c.val = 0x2c then scanElements scan n (items ++ [x]) (skip s)
          else failed

def scanArray (scan : Text → Except LoadError (Value × Text)) (s : Text) :
    Except LoadError (Value × Text) :=
  match skip s with
  | [] => failed
  | c :: rest =>
      if c.val = 0x5d then .ok (.list [], rest)
      else scanElements scan (c :: rest).length [] (c :: rest)

/-- `dct[key] = x`. -/
def setItem (key : Text) (x : Value) : List (Text × Value) → List (Text × Value)
  | [] => [(key, x)]
  | (k, y) :: entries => if k = key then (k, x) :: entries else (k, y) :: setItem key x entries

def scanMembers (scan : Text → Except LoadError (Value × Text)) :
    Nat → List (Text × Value) → Text → Except LoadError (Value × Text)
  | 0, _, _ => failed
  | _ + 1, _, [] => failed
  | n + 1, entries, q :: s =>
      if q.val ≠ 0x22 then failed
      else do
        let (key, s) ← scanString s
        match skip s with
        | [] => failed
        | c :: s =>
            if c.val ≠ 0x3a then failed
            else do
              let (x, s) ← scan (skip s)
              match skip s with
              | [] => failed
              | c :: s =>
                  if c.val = 0x7d then .ok (.dict (setItem key x entries), s)
                  else if c.val = 0x2c then scanMembers scan n (setItem key x entries) (skip s)
                  else failed

def scanObject (scan : Text → Except LoadError (Value × Text)) (s : Text) :
    Except LoadError (Value × Text) :=
  match skip s with
  | [] => failed
  | c :: rest =>
      if c.val = 0x7d then .ok (.dict [], rest)
      else scanMembers scan (c :: rest).length [] (c :: rest)

/-- A value, with the levels that the recursion limit leaves. -/
def scanOnce : Nat → Text → Except LoadError (Value × Text)
  | _, [] => failed
  | levels, c :: s =>
      if c.val = 0x22 then do
        let (t, rest) ← scanString s
        return (.str t, rest)
      else if c.val = 0x7b then
        match levels with
        | 0 => .error .recursionError
        | levels + 1 => scanObject (scanOnce levels) s
      else if c.val = 0x5b then
        match levels with
        | 0 => .error .recursionError
        | levels + 1 => scanArray (scanOnce levels) s
      else scanLiteral floats (c :: s)

/-- `json.loads` of a `str`. -/
def loadsText (levels : Nat) (s : Text) : Except LoadError Value := do
  let (x, rest) ← scanOnce floats levels (skip s)
  if skip rest = [] then return x else failed

/-- `json.loads` of `bytes`. -/
def loads (levels : Nat) (bs : Octets) : Except LoadError Value :=
  match decodeDetected bs with
  | none => .error .unicodeDecodeError
  | some s => loadsText floats levels s

end PyJson
