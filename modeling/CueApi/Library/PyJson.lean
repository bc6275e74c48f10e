import Mathlib.Data.Rat.Defs
import Mathlib.Data.List.Basic
import Mathlib.Algebra.Order.Ring.Nat

/-! JSON values as Python's parser yields them: strings of code points, surrogates among them, and
floats that need not be finite. What `int`, `json.dumps(..., ensure_ascii=False)` and
`encode("utf-8")` make of them, exceptions included. -/

namespace PyJson

/-- Literals of code points. -/
instance codePoints_neZero : NeZero 0x110000 := ⟨by decide⟩

abbrev CodePoint := Fin 0x110000

/-- A `str`. -/
abbrev Text := List CodePoint

def text (s : String) : Text := s.toList.map fun c => Fin.ofNat 0x110000 c.toNat

inductive PyError
  | valueError
  | unicodeEncodeError
  | typeError
  | attributeError
  | overflowError
  | recursionError
  deriving DecidableEq, Repr

/-- Whether `except (ValueError, TypeError)` handles it. -/
def PyError.handled : PyError → Bool
  | .valueError | .unicodeEncodeError | .typeError => true
  | .attributeError | .overflowError | .recursionError => false

/-- A finite float, with its `repr`. -/
structure FiniteFloat where
  value : ℚ
  repr : Text
  ascii : ∀ c ∈ repr, c.val < 0x80

inductive Double
  | nan
  | infinity (negative : Bool)
  | finite (x : FiniteFloat)

inductive Value
  | null
  | bool (b : Bool)
  | int (n : Int)
  | float (x : Double)
  | str (s : Text)
  | list (items : List Value)
  | dict (entries : List (Text × Value))

def Double.isFinite : Double → Bool
  | .finite _ => true
  | .nan | .infinity _ => false

/-- `x.get(key)`. -/
def Value.get (key : Text) : Value → Except PyError (Option Value)
  | .dict entries => .ok (entries.lookup key)
  | _ => .error .attributeError

/-! ## `int` -/

/-- `int` of a number cuts off the fraction. -/
def truncate (q : ℚ) : Int := q.num.tdiv q.den

def Double.toInt : Double → Except PyError Int
  | .nan => .error .valueError
  | .infinity _ => .error .overflowError
  | .finite x => .ok (truncate x.value)

/-- What `int` asks of the Unicode tables: white space, and the values of decimal digits. -/
structure Unicode where
  space : CodePoint → Bool
  digit : CodePoint → Option Nat

variable (unicode : Unicode)

def strip (s : Text) : Text :=
  ((s.dropWhile unicode.space).reverse.dropWhile unicode.space).reverse

/-- Digits, with single underscores between them. -/
def readDigits (acc : Nat) (afterDigit : Bool) : Text → Option Nat
  | [] => if afterDigit then some acc else none
  | c :: s =>
      match unicode.digit c with
      | some d => readDigits (10 * acc + d) true s
      | none => if c.val = 0x5f && afterDigit then readDigits acc false s else none

/-- `sys.get_int_max_str_digits()`. -/
def maxStrDigits : Nat := 4300

/-- An integer without its sign. -/
def readNatural (s : Text) : Option Nat :=
  if maxStrDigits < s.countP fun c => (unicode.digit c).isSome then none
  else readDigits unicode 0 false s

def readInt (s : Text) : Option Int :=
  match strip unicode s with
  | [] => none
  | c :: rest =>
      if c.val = 0x2d then (readNatural unicode rest).map fun n => -(n : Int)
      else if c.val = 0x2b then (readNatural unicode rest).map Int.ofNat
      else (readNatural unicode (c :: rest)).map Int.ofNat

def Value.toInt : Value → Except PyError Int
  | .bool b => .ok (if b then 1 else 0)
  | .int n => .ok n
  | .float x => x.toInt
  | .str s => (readInt unicode s).elim (.error .valueError) .ok
  | .null | .list _ | .dict _ => .error .typeError

/-- The tables on ASCII. -/
def asciiTables : Unicode where
  space c := c.val ∈ [0x09, 0x0a, 0x0b, 0x0c, 0x0d, 0x1c, 0x1d, 0x1e, 0x1f, 0x20]
  digit c := if 0x30 ≤ c.val ∧ c.val ≤ 0x39 then some (c.val - 0x30) else none

example : (Value.str (text " -1_0 ")).toInt asciiTables = .ok (-10) := by decide

/-! ## `json.dumps(..., ensure_ascii=False)` -/

/-- The two-character escapes. -/
def shortEscape (n : Nat) : Option CodePoint :=
  if n = 0x22 then some 0x22
  else if n = 0x5c then some 0x5c
  else if n = 0x0a then some 0x6e
  else if n = 0x0d then some 0x72
  else if n = 0x09 then some 0x74
  else if n = 0x0c then some 0x66
  else if n = 0x08 then some 0x62
  else none

def hexDigit (n : Nat) : CodePoint := Fin.ofNat 0x110000 (Nat.digitChar (n % 16)).toNat

def escape (c : CodePoint) : Text :=
  match shortEscape c.val with
  | some letter => [0x5c, letter]
  | none => if c.val < 0x20 then text "\\u00" ++ [hexDigit (c.val / 16), hexDigit c.val] else [c]

def quoted (s : Text) : Text := [0x22] ++ s.flatMap escape ++ [0x22]

/-- `', '.join`. -/
def joined : List Text → Text
  | [] => []
  | [x] => x
  | x :: y :: xs => x ++ text ", " ++ joined (y :: xs)

def Double.write : Double → Text
  | .nan => text "NaN"
  | .infinity negative => text (if negative then "-Infinity" else "Infinity")
  | .finite x => x.repr

mutual

def write : Value → Text
  | .null => text "null"
  | .bool b => text (if b then "true" else "false")
  | .int n => text (toString n)
  | .float x => x.write
  | .str s => quoted s
  | .list items => [0x5b] ++ joined (writeItems items) ++ [0x5d]
  | .dict entries => [0x7b] ++ joined (writeEntries entries) ++ [0x7d]

def writeItems : List Value → List Text
  | [] => []
  | x :: xs => write x :: writeItems xs

def writeEntries : List (Text × Value) → List Text
  | [] => []
  | (key, x) :: xs => (quoted key ++ text ": " ++ write x) :: writeEntries xs

end

mutual

/-- How deep lists and dictionaries are nested. -/
def Value.nesting : Value → Nat
  | .list items => nestingItems items + 1
  | .dict entries => nestingEntries entries + 1
  | _ => 0

def nestingItems : List Value → Nat
  | [] => 0
  | x :: xs => max x.nesting (nestingItems xs)

def nestingEntries : List (Text × Value) → Nat
  | [] => 0
  | (_, x) :: xs => max x.nesting (nestingEntries xs)

end

/-- The recursion limit leaves room for so many levels. -/
def dumps (levels : Nat) (x : Value) : Except PyError Text :=
  if x.nesting ≤ levels then .ok (write x) else .error .recursionError

/-! ## `encode("utf-8")` -/

def surrogate (c : CodePoint) : Bool := 0xd800 ≤ c.val && c.val ≤ 0xdfff

def encodeChar (c : CodePoint) : Except PyError (List UInt8) :=
  let n := c.val
  let octet (lead digit : Nat) : UInt8 := UInt8.ofNat (lead + digit)
  if n < 0x80 then .ok [octet 0 n]
  else if n < 0x800 then .ok [octet 0xc0 (n / 64), octet 0x80 (n % 64)]
  else if surrogate c then .error .unicodeEncodeError
  else if n < 0x10000 then
    .ok [octet 0xe0 (n / 4096), octet 0x80 (n / 64 % 64), octet 0x80 (n % 64)]
  else
    .ok [octet 0xf0 (n / 262144), octet 0x80 (n / 4096 % 64), octet 0x80 (n / 64 % 64),
      octet 0x80 (n % 64)]

def encode : Text → Except PyError (List UInt8)
  | [] => .ok []
  | c :: s => do
      let octets ← encodeChar c
      let rest ← encode s
      return octets ++ rest

/-! ## What is in a value -/

mutual

/-- Some string has the property, among values and keys. -/
def Value.anyText (p : Text → Bool) : Value → Bool
  | .str s => p s
  | .list items => anyTextItems p items
  | .dict entries => anyTextEntries p entries
  | _ => false

def anyTextItems (p : Text → Bool) : List Value → Bool
  | [] => false
  | x :: xs => x.anyText p || anyTextItems p xs

def anyTextEntries (p : Text → Bool) : List (Text × Value) → Bool
  | [] => false
  | (key, x) :: xs => p key || x.anyText p || anyTextEntries p xs

end

mutual

/-- No number is `NaN` or infinite. -/
def Value.allFinite : Value → Bool
  | .float x => x.isFinite
  | .list items => allFiniteItems items
  | .dict entries => allFiniteEntries entries
  | _ => true

def allFiniteItems : List Value → Bool
  | [] => true
  | x :: xs => x.allFinite && allFiniteItems xs

def allFiniteEntries : List (Text × Value) → Bool
  | [] => true
  | (_, x) :: xs => x.allFinite && allFiniteEntries xs

end

/-! ## Surrogates in texts -/

theorem any_text (s : String) : (text s).any surrogate = false := by
  unfold text
  rw [List.any_map, List.any_eq_false]
  intro c _
  have hvalid := c.valid
  simp only [Function.comp_apply, surrogate, Fin.val_ofNat, Bool.and_eq_true, decide_eq_true_eq]
  simp only [UInt32.isValidChar, Nat.isValidChar] at hvalid
  change _ ∨ _ at hvalid
  have hn : c.toNat = c.val.toNat := rfl
  omega

theorem surrogate_hexDigit (n : Nat) : surrogate (hexDigit n) = false := by
  have hlt : n % 16 < 16 := Nat.mod_lt n (by decide)
  unfold hexDigit
  generalize n % 16 = d at hlt
  revert d
  decide

theorem shortEscape_ascii {n : Nat} {letter : CodePoint} (h : shortEscape n = some letter) :
    n < 0x80 ∧ letter.val < 0x80 := by
  unfold shortEscape at h
  split_ifs at h <;> cases h <;> exact ⟨by omega, by decide⟩

theorem surrogate_ascii {c : CodePoint} (h : c.val < 0x80) : surrogate c = false := by
  simp only [surrogate, Bool.and_eq_false_iff, decide_eq_false_iff_not]
  omega

/-- What is escaped is no surrogate, nor is its escape. -/
theorem any_escape (c : CodePoint) : (escape c).any surrogate = surrogate c := by
  unfold escape
  cases hshort : shortEscape c.val with
  | some letter =>
    obtain ⟨hc, hletter⟩ := shortEscape_ascii hshort
    have hbackslash : surrogate 0x5c = false := by decide
    simp only [List.any_cons, List.any_nil, hbackslash, surrogate_ascii hletter, surrogate_ascii hc,
      Bool.or_false]
  | none =>
    dsimp only
    split
    · rename_i hc
      have hascii : c.val < 0x80 := by omega
      simp only [List.any_append, List.any_cons, List.any_nil, any_text, surrogate_hexDigit,
        surrogate_ascii hascii, Bool.or_false]
    · simp only [List.any_cons, List.any_nil, Bool.or_false]

theorem any_quoted (s : Text) : (quoted s).any surrogate = s.any surrogate := by
  have hquote : surrogate 0x22 = false := by decide
  have hescaped : (s.flatMap escape).any surrogate = s.any surrogate := by
    rw [List.any_flatMap]
    simp only [any_escape]
  simp only [quoted, List.any_append, List.any_cons, List.any_nil, hquote, hescaped, Bool.or_false,
    Bool.false_or]

theorem any_joined (xs : List Text) :
    (joined xs).any surrogate = xs.any fun x => x.any surrogate := by
  induction xs with
  | nil => rfl
  | cons x xs ih =>
    cases xs with
    | nil => simp [joined]
    | cons y xs => simp only [joined, List.any_append, any_text, ih, Bool.or_false, List.any_cons]

theorem any_double (x : Double) : x.write.any surrogate = false := by
  cases x with
  | nan => exact any_text _
  | infinity negative => exact any_text _
  | finite x => exact List.any_eq_false.mpr fun c hc => by simp [surrogate_ascii (x.ascii c hc)]

mutual

/-- The surrogates of a text are those of its strings. -/
theorem any_write : (x : Value) → (write x).any surrogate = x.anyText fun s => s.any surrogate
  | .null => any_text _
  | .bool _ => any_text _
  | .int _ => any_text _
  | .float x => any_double x
  | .str s => any_quoted s
  | .list items => by
    have hbrackets : surrogate 0x5b = false ∧ surrogate 0x5d = false := by decide
    have hitems := any_writeItems items
    simp only [write, Value.anyText, List.any_append, List.any_cons, List.any_nil, hbrackets,
      any_joined, hitems, Bool.or_false, Bool.false_or]
  | .dict entries => by
    have hbraces : surrogate 0x7b = false ∧ surrogate 0x7d = false := by decide
    have hentries := any_writeEntries entries
    simp only [write, Value.anyText, List.any_append, List.any_cons, List.any_nil, hbraces,
      any_joined, hentries, Bool.or_false, Bool.false_or]

theorem any_writeItems : (xs : List Value) → ((writeItems xs).any fun x => x.any surrogate) =
    anyTextItems (fun s => s.any surrogate) xs
  | [] => rfl
  | x :: xs => by
    have hx := any_write x
    have hxs := any_writeItems xs
    simp only [writeItems, anyTextItems, List.any_cons, hx, hxs]

theorem any_writeEntries : (xs : List (Text × Value)) →
    ((writeEntries xs).any fun x => x.any surrogate) = anyTextEntries (fun s => s.any surrogate) xs
  | [] => rfl
  | (key, x) :: xs => by
    have hx := any_write x
    have hxs := any_writeEntries xs
    simp only [writeEntries, anyTextEntries, List.any_cons, List.any_append, any_quoted, any_text, hx,
      hxs, Bool.or_false]

end

/-! ## Encoding -/

theorem encodeChar_cases (c : CodePoint) :
    (surrogate c = false ∧ ∃ octets, encodeChar c = .ok octets) ∨
      (surrogate c = true ∧ encodeChar c = .error .unicodeEncodeError) := by
  unfold encodeChar
  simp only [surrogate, Bool.and_eq_true, Bool.and_eq_false_iff, decide_eq_true_eq,
    decide_eq_false_iff_not]
  split_ifs
  · exact .inl ⟨by omega, _, rfl⟩
  · exact .inl ⟨by omega, _, rfl⟩
  · exact .inr ⟨by omega, rfl⟩
  · exact .inl ⟨by omega, _, rfl⟩
  · exact .inl ⟨by omega, _, rfl⟩

/-- UTF-8 has no surrogates. -/
theorem encode_cases (s : Text) : (s.any surrogate = false ∧ ∃ octets, encode s = .ok octets) ∨
    (s.any surrogate = true ∧ encode s = .error .unicodeEncodeError) := by
  induction s with
  | nil => exact .inl ⟨rfl, [], rfl⟩
  | cons c s ih =>
    simp only [encode, List.any_cons, bind, Except.bind, pure, Except.pure]
    rcases encodeChar_cases c with ⟨hc, octets, hoctets⟩ | ⟨hc, herror⟩
    · rcases ih with ⟨hs, rest, hrest⟩ | ⟨hs, herror⟩
      · exact .inl ⟨by rw [hc, hs]; rfl, octets ++ rest, by rw [hoctets, hrest]⟩
      · exact .inr ⟨by rw [hs, Bool.or_true], by rw [hoctets, herror]⟩
    · exact .inr ⟨by rw [hc, Bool.true_or], by rw [herror]⟩

theorem utf8Size_eq (c : Char) : c.utf8Size =
    if c.toNat < 0x80 then 1 else if c.toNat < 0x800 then 2 else if c.toNat < 0x10000 then 3 else 4 := by
  have hn : c.toNat = c.val.toNat := rfl
  unfold Char.utf8Size
  simp only [UInt32.le_iff_toNat_le, UInt32.toNat_ofNatLT, hn]
  split_ifs <;> omega

theorem length_encodeChar {c : Char} {octets : List UInt8}
    (h : encodeChar (Fin.ofNat 0x110000 c.toNat) = .ok octets) : octets.length = c.utf8Size := by
  have hlt : c.toNat < 0x110000 := by
    have hvalid := c.valid
    simp only [UInt32.isValidChar, Nat.isValidChar] at hvalid
    change c.toNat < _ ∨ _ ∧ c.toNat < _ at hvalid
    omega
  rw [utf8Size_eq]
  unfold encodeChar at h
  simp only [Fin.val_ofNat, Nat.mod_eq_of_lt hlt] at h
  split_ifs at h ⊢ <;> cases h <;> rfl

/-- The octets of a string of scalar values. -/
theorem length_encode {s : String} {octets : List UInt8} (h : encode (text s) = .ok octets) :
    octets.length = s.utf8ByteSize := by
  have hlist : ∀ (cs : List Char) (octets : List UInt8),
      encode (cs.map fun c => Fin.ofNat 0x110000 c.toNat) = .ok octets →
        octets.length = (String.ofList cs).utf8ByteSize := by
    intro cs
    induction cs with
    | nil =>
      intro octets h
      cases h
      rfl
    | cons c cs ih =>
      intro octets h
      simp only [List.map_cons, encode, bind, Except.bind, pure, Except.pure] at h
      split at h
      · cases h
      · rename_i first hfirst
        split at h
        · cases h
        · rename_i rest hrest
          cases h
          have hsingle : (String.ofList [c]).utf8ByteSize = c.utf8Size := by
            simp
          rw [List.length_append, length_encodeChar hfirst, ih rest hrest, ← List.singleton_append,
            String.ofList_append, String.utf8ByteSize_append, hsingle]
  have hs := hlist s.toList octets h
  rwa [String.ofList_toList] at hs

end PyJson
