import Mathlib.Data.List.Sort

/-! JSON texts as Python's `json.dumps(..., sort_keys=True)` writes them, with and without
`ensure_ascii`, and the values on which the two agree. -/

namespace JsonText

/-- From `'\x7f'` on, `ensure_ascii` escapes. -/
def plain (c : Char) : Bool := c.toNat < 0x7f

/-- A number as it is printed. -/
structure Numeral where
  text : String
  ascii : text.toList.all plain = true := by decide
  deriving DecidableEq, Repr

/-- The strings are of Unicode scalar values: neither UTF-8 nor a database has lone surrogates. -/
inductive Value
  | null
  | bool (b : Bool)
  | number (n : Numeral)
  | string (s : String)
  | array (items : List Value)
  | object (fields : List (String × Value))

def quote : Char := .ofNat 0x22

def backslash : Char := .ofNat 0x5c

/-- `\u` and four hexadecimal digits. -/
def hex4 (n : Nat) : List Char :=
  [backslash, 'u', Nat.digitChar (n / 4096 % 16), Nat.digitChar (n / 256 % 16),
    Nat.digitChar (n / 16 % 16), Nat.digitChar (n % 16)]

/-- Above the basic plane, a surrogate pair. -/
def unicodeEscape (n : Nat) : List Char :=
  if n < 0x10000 then hex4 n
  else hex4 (0xd800 + (n - 0x10000) / 1024) ++ hex4 (0xdc00 + (n - 0x10000) % 1024)

/-- The two-character escapes. -/
def shortEscape (n : Nat) : Option Char :=
  if n = 0x22 then some quote
  else if n = 0x5c then some backslash
  else if n = 0x0a then some 'n'
  else if n = 0x0d then some 'r'
  else if n = 0x09 then some 't'
  else if n = 0x0c then some 'f'
  else if n = 0x08 then some 'b'
  else none

def escape (ensureAscii : Bool) (c : Char) : List Char :=
  match shortEscape c.toNat with
  | some letter => [backslash, letter]
  | none =>
      if c.toNat < 0x20 ∨ (ensureAscii ∧ ¬ plain c) then unicodeEscape c.toNat else [c]

def encodeString (ensureAscii : Bool) (s : String) : List Char :=
  [quote] ++ s.toList.flatMap (escape ensureAscii) ++ [quote]

/-- `', '.join`. -/
def joined : List (List Char) → List Char
  | [] => []
  | [x] => x
  | x :: y :: xs => x ++ [',', ' '] ++ joined (y :: xs)

/-- `sorted(dct.items())`; the keys of a dictionary are different. -/
def sortKeys (fields : List (String × List Char)) : List (String × List Char) :=
  fields.mergeSort fun x y => x.1 ≤ y.1

/-- One `key: value`. -/
def field (ensureAscii : Bool) (x : String × List Char) : List Char :=
  encodeString ensureAscii x.1 ++ [':', ' '] ++ x.2

mutual

def write (ensureAscii : Bool) : Value → List Char
  | .null => ['n', 'u', 'l', 'l']
  | .bool true => ['t', 'r', 'u', 'e']
  | .bool false => ['f', 'a', 'l', 's', 'e']
  | .number n => n.text.toList
  | .string s => encodeString ensureAscii s
  | .array items => ['['] ++ joined (writeItems ensureAscii items) ++ [']']
  | .object fields =>
      [.ofNat 0x7b] ++
        joined ((sortKeys (writeFields ensureAscii fields)).map (field ensureAscii)) ++
        [.ofNat 0x7d]

def writeItems (ensureAscii : Bool) : List Value → List (List Char)
  | [] => []
  | x :: xs => write ensureAscii x :: writeItems ensureAscii xs

def writeFields (ensureAscii : Bool) : List (String × Value) → List (String × List Char)
  | [] => []
  | (key, x) :: xs => (key, write ensureAscii x) :: writeFields ensureAscii xs

end

def dumps (ensureAscii : Bool) (x : Value) : String := .ofList (write ensureAscii x)

mutual

/-- Every character of every string and key comes before `'\x7f'`. -/
def Value.plain : Value → Bool
  | .null | .bool _ | .number _ => true
  | .string s => s.toList.all JsonText.plain
  | .array items => plainItems items
  | .object fields => plainFields fields

def plainItems : List Value → Bool
  | [] => true
  | x :: xs => x.plain && plainItems xs

def plainFields : List (String × Value) → Bool
  | [] => true
  | (key, x) :: xs => key.toList.all plain && x.plain && plainFields xs

end

/-! ## Characters -/

theorem plain_digit (n : Nat) : plain (Nat.digitChar (n % 16)) = true := by
  have hlt : n % 16 < 16 := Nat.mod_lt n (by decide)
  generalize n % 16 = d at hlt
  revert d
  decide

theorem all_hex4 (n : Nat) : (hex4 n).all plain = true := by
  simp [hex4, plain_digit]
  decide

theorem all_unicodeEscape (n : Nat) : (unicodeEscape n).all plain = true := by
  unfold unicodeEscape
  split
  · exact all_hex4 n
  · simp [all_hex4]

theorem shortEscape_plain {n : Nat} {letter : Char} (h : shortEscape n = some letter) :
    n < 0x7f ∧ plain letter = true := by
  unfold shortEscape at h
  split_ifs at h <;> cases h <;> exact ⟨by omega, by decide⟩

/-- Escaped text is plain, and other text is if the character is. -/
theorem all_escape (ensureAscii : Bool) (c : Char) :
    (escape ensureAscii c).all plain = (ensureAscii || plain c) := by
  unfold escape
  cases hs : shortEscape c.toNat with
  | some letter =>
    obtain ⟨hlt, hletter⟩ := shortEscape_plain hs
    have hbackslash : plain backslash = true := by decide
    have hc : plain c = true := by simp [plain, hlt]
    simp [hletter, hbackslash, hc]
  | none =>
    simp only
    split
    · next hesc =>
      rw [all_unicodeEscape]
      rcases hesc with hlow | ⟨hascii, -⟩
      · have hlt : c.toNat < 0x7f := by omega
        simp [plain, hlt]
      · simp [hascii]
    · next hraw =>
      cases ensureAscii with
      | false => simp
      | true =>
        have hplain : plain c = true := by
          by_contra hno
          exact hraw (.inr ⟨rfl, hno⟩)
        simp [hplain]

theorem escape_same {c : Char} (h : plain c = true) : escape true c = escape false c := by
  unfold escape
  simp [h]

theorem all_encodeString (ensureAscii : Bool) (s : String) :
    (encodeString ensureAscii s).all plain = (ensureAscii || s.toList.all plain) := by
  have hquote : plain quote = true := by decide
  simp only [encodeString, List.all_append, List.all_cons, List.all_nil, hquote, Bool.and_true,
    Bool.true_and]
  induction s.toList with
  | nil => simp
  | cons c cs ih =>
    simp only [List.flatMap_cons, List.all_append, List.all_cons, all_escape, ih]
    cases ensureAscii <;> simp

theorem encodeString_same {s : String} (h : s.toList.all plain = true) :
    encodeString true s = encodeString false s := by
  have hcs (cs : List Char) (h : cs.all plain = true) :
      cs.flatMap (escape true) = cs.flatMap (escape false) := by
    induction cs with
    | nil => rfl
    | cons c cs ih =>
      rw [List.all_cons, Bool.and_eq_true] at h
      rw [List.flatMap_cons, List.flatMap_cons, escape_same h.1, ih h.2]
  rw [encodeString, encodeString, hcs _ h]

/-! ## Texts -/

theorem all_joined (xs : List (List Char)) :
    (joined xs).all plain = xs.all fun x => x.all plain := by
  induction xs with
  | nil => rfl
  | cons x xs ih =>
    cases xs with
    | nil => simp [joined]
    | cons y xs =>
      have hsep : [',', ' '].all plain = true := by decide
      simp only [joined, List.all_append, hsep, ih, Bool.and_true, List.all_cons]

theorem all_sortKeys (p : String × List Char → Bool) (fields : List (String × List Char)) :
    (sortKeys fields).all p = fields.all p := by
  rw [Bool.eq_iff_iff, List.all_eq_true, List.all_eq_true]
  simp only [sortKeys, List.mem_mergeSort]

mutual

/-- The text of a value is plain when non-ASCII is escaped, or not there. -/
theorem all_write (ensureAscii : Bool) :
    (x : Value) → (write ensureAscii x).all plain = (ensureAscii || x.plain)
  | .null => by simp only [write, Value.plain]; cases ensureAscii <;> decide
  | .bool true => by simp only [write, Value.plain]; cases ensureAscii <;> decide
  | .bool false => by simp only [write, Value.plain]; cases ensureAscii <;> decide
  | .number n => by simp only [write, Value.plain, n.ascii, Bool.or_true]
  | .string s => by simp only [write, Value.plain, all_encodeString]
  | .array items => by
    have hbrackets : plain '[' = true ∧ plain ']' = true := by decide
    have hitems := all_writeItems ensureAscii items
    simp only [write, Value.plain, List.all_append, List.all_cons, List.all_nil, hbrackets,
      all_joined, hitems, Bool.and_true, Bool.true_and]
  | .object fields => by
    have hbraces : plain (.ofNat 0x7b) = true ∧ plain (.ofNat 0x7d) = true := by decide
    have hfields := all_writeFields ensureAscii fields
    simp only [write, Value.plain, List.all_append, List.all_cons, List.all_nil, hbraces,
      all_joined, List.all_map, Function.comp_def, all_sortKeys, hfields, Bool.and_true,
      Bool.true_and]

theorem all_writeItems (ensureAscii : Bool) : (xs : List Value) →
    (writeItems ensureAscii xs).all (fun x => x.all plain) = (ensureAscii || plainItems xs)
  | [] => by simp [writeItems, plainItems]
  | x :: xs => by
    have hx := all_write ensureAscii x
    have hxs := all_writeItems ensureAscii xs
    simp only [writeItems, plainItems, List.all_cons, hx, hxs]
    cases ensureAscii <;> simp

theorem all_writeFields (ensureAscii : Bool) : (xs : List (String × Value)) →
    (writeFields ensureAscii xs).all (fun x => (field ensureAscii x).all plain) =
      (ensureAscii || plainFields xs)
  | [] => by simp [writeFields, plainFields]
  | (key, x) :: xs => by
    have hx := all_write ensureAscii x
    have hxs := all_writeFields ensureAscii xs
    have hsep : [':', ' '].all plain = true := by decide
    have hfield : (field ensureAscii (key, write ensureAscii x)).all plain =
        (ensureAscii || key.toList.all plain && x.plain) := by
      simp only [field, List.all_append, all_encodeString, hsep, hx, Bool.and_true]
      cases ensureAscii <;> simp
    simp only [writeFields, plainFields, List.all_cons, hxs, hfield]
    cases ensureAscii <;> simp

end

mutual

/-- On plain values the two texts are one. -/
theorem write_same : (x : Value) → x.plain = true → write true x = write false x
  | .null, _ => rfl
  | .bool true, _ => rfl
  | .bool false, _ => rfl
  | .number _, _ => rfl
  | .string _, h => encodeString_same h
  | .array items, h => by
    have hitems := writeItems_same items h
    simp only [write, hitems]
  | .object fields, h => by
    have hfields := writeFields_same fields h
    have hmap : (sortKeys (writeFields false fields)).map (field true) =
        (sortKeys (writeFields false fields)).map (field false) := by
      refine List.map_congr_left fun x hx => ?_
      have hkey := writeFields_keys fields h x (List.mem_mergeSort.mp hx)
      rw [field, field, encodeString_same hkey]
    simp only [write, hfields, hmap]

theorem writeItems_same : (xs : List Value) → plainItems xs = true →
    writeItems true xs = writeItems false xs
  | [], _ => rfl
  | x :: xs, h => by
    simp only [plainItems, Bool.and_eq_true] at h
    rw [writeItems, writeItems, write_same x h.1, writeItems_same xs h.2]

theorem writeFields_same : (xs : List (String × Value)) → plainFields xs = true →
    writeFields true xs = writeFields false xs
  | [], _ => rfl
  | (key, x) :: xs, h => by
    simp only [plainFields, Bool.and_eq_true] at h
    rw [writeFields, writeFields, write_same x h.1.2, writeFields_same xs h.2]

theorem writeFields_keys : (xs : List (String × Value)) → plainFields xs = true →
    ∀ y ∈ writeFields false xs, y.1.toList.all plain = true
  | [], _ => fun y hy => by cases hy
  | (key, x) :: xs, h => by
    simp only [plainFields, Bool.and_eq_true] at h
    intro y hy
    rcases List.mem_cons.mp hy with rfl | hy
    · exact h.1.1
    · exact writeFields_keys xs h.2 y hy

end

/-- `ensure_ascii` makes no difference to a value exactly when it is plain. -/
theorem dumps_same_iff {x : Value} : dumps true x = dumps false x ↔ x.plain = true := by
  constructor
  · intro h
    have hall := all_write false x
    rw [Bool.false_or] at hall
    rw [← hall, ← String.ofList_injective h]
    exact all_write true x
  · intro h
    rw [dumps, dumps, write_same x h]

end JsonText
