import CueApi.Library.PyJsonLoads
import Mathlib.Data.List.Lex
import Mathlib.Data.List.Sort

/-! The text of Python's `json.dumps` in each style that its arguments ask for, the octets of a text,
and which characters they hold. -/

namespace PyJson

/-- `separators`, `ensure_ascii` and `sort_keys`. -/
structure Style where
  comma : Text
  colon : Text
  escape : CodePoint → Text
  sortKeys : Bool

def hexEscape (u : Nat) : Text :=
  [0x5c, 0x75, hexDigit (u / 4096), hexDigit (u / 256), hexDigit (u / 16), hexDigit u]

/-- `ensure_ascii=True` escapes units of UTF-16. -/
def asciiEscape (c : CodePoint) : Text :=
  match shortEscape c.val with
  | some letter => [0x5c, letter]
  | none =>
      if 0x20 ≤ c.val ∧ c.val ≤ 0x7e then [c]
      else if c.val < 0x10000 then hexEscape c.val
      else hexEscape (0xd800 + (c.val - 0x10000) / 1024) ++ hexEscape (0xdc00 + (c.val - 0x10000) % 1024)

/-- `json.dumps(x)`. -/
def plain : Style := ⟨[0x2c, 0x20], [0x3a, 0x20], asciiEscape, false⟩

/-- `json.dumps(x, sort_keys=True, separators=(",", ":"), ensure_ascii=False)`. -/
def canonical : Style := ⟨[0x2c], [0x3a], escape, true⟩

namespace Style

variable (style : Style)

def quoted (s : Text) : Text := 0x22 :: s.flatMap style.escape ++ [0x22]

def member : Text × Text → Text
  | (key, x) => style.quoted key ++ style.colon ++ x

def members (written : List (Text × Text)) : List Text :=
  (if style.sortKeys then written.mergeSort fun x y => x.1 ≤ y.1 else written).map style.member

mutual

def write : Value → Text
  | .null => text "null"
  | .bool b => text (if b then "true" else "false")
  | .int n => text (toString n)
  | .float x => x.write
  | .str s => style.quoted s
  | .list items => 0x5b :: style.comma.intercalate (writeItems items) ++ [0x5d]
  | .dict entries => 0x7b :: style.comma.intercalate (style.members (writeEntries entries)) ++ [0x7d]

def writeItems : List Value → List Text
  | [] => []
  | x :: xs => write x :: writeItems xs

def writeEntries : List (Text × Value) → List (Text × Text)
  | [] => []
  | (key, x) :: xs => (key, write x) :: writeEntries xs

end

/-- `json.dumps`, with the levels that the recursion limit leaves. -/
def dumps (levels : Nat) (x : Value) : Except PyError Text :=
  if x.nesting ≤ levels then .ok (style.write x) else .error .recursionError

end Style

/-! ## Integers -/

theorem text_append (s t : String) : text (s ++ t) = text s ++ text t := by
  unfold text
  rw [String.toList_append, List.map_append]

theorem char_val (c : Char) : (Fin.ofNat 0x110000 c.toNat).val = c.toNat := by
  have hvalid := c.valid
  simp only [UInt32.isValidChar, Nat.isValidChar] at hvalid
  change c.toNat < _ ∨ _ ∧ c.toNat < _ at hvalid
  exact Nat.mod_eq_of_lt (by omega)

theorem digit_char {c : Char} (h : c.isDigit = true) : isDigit (Fin.ofNat 0x110000 c.toNat) = true := by
  simp only [Char.isDigit, Bool.and_eq_true, decide_eq_true_eq, ge_iff_le, UInt32.le_iff_toNat_le] at h
  have hlo : 0x30 ≤ c.toNat := h.1
  have hhi : c.toNat ≤ 0x39 := h.2
  simp only [isDigit, char_val, Bool.and_eq_true, decide_eq_true_eq]
  exact ⟨hlo, hhi⟩

theorem isDigit_repr (n : Nat) : ∀ c ∈ text n.repr, isDigit c = true := by
  intro c hc
  obtain ⟨char, hchar, rfl⟩ := List.mem_map.mp hc
  rw [Nat.toList_repr] at hchar
  exact digit_char (Nat.isDigit_of_mem_toDigits (by omega) (by omega) hchar)

theorem text_int (n : Int) :
    text (toString n) = (if n < 0 then [0x2d] else []) ++ text n.natAbs.repr := by
  rw [Int.toString_eq_repr, Int.repr_eq_if]
  by_cases hn : 0 ≤ n
  · have habs : n.natAbs = n.toNat := by omega
    rw [if_pos hn, if_neg (by omega), habs, List.nil_append]
  · have habs : n.natAbs = (-n).toNat := by omega
    have hminus : text "-" = [0x2d] := rfl
    rw [if_neg hn, if_pos (by omega), habs, text_append, hminus]

/-! ## Which characters a text holds -/

theorem text_ascii {s : String} (hs : s.toList.all (fun c => c.toNat < 0x80) = true) :
    ∀ c ∈ text s, c.val < 0x80 := by
  intro c hc
  obtain ⟨char, hchar, rfl⟩ := List.mem_map.mp hc
  rw [char_val]
  exact of_decide_eq_true (List.all_eq_true.mp hs char hchar)

mutual

/-- The strings of a value, keys among them. -/
def Value.texts : Value → List Text
  | .str s => [s]
  | .list items => textsItems items
  | .dict entries => textsEntries entries
  | _ => []

def textsItems : List Value → List Text
  | [] => []
  | x :: xs => x.texts ++ textsItems xs

def textsEntries : List (Text × Value) → List Text
  | [] => []
  | (key, x) :: xs => key :: x.texts ++ textsEntries xs

end

mutual

theorem anyText_eq (p : Text → Bool) : (x : Value) → x.anyText p = x.texts.any p
  | .null | .bool _ | .int _ | .float _ => rfl
  | .str s => (Bool.or_false (p s)).symm
  | .list items => anyTextItems_eq p items
  | .dict entries => anyTextEntries_eq p entries

theorem anyTextItems_eq (p : Text → Bool) : (xs : List Value) → anyTextItems p xs = (textsItems xs).any p
  | [] => rfl
  | x :: xs => by rw [anyTextItems, textsItems, List.any_append, anyText_eq p x, anyTextItems_eq p xs]

theorem anyTextEntries_eq (p : Text → Bool) :
    (xs : List (Text × Value)) → anyTextEntries p xs = (textsEntries xs).any p
  | [] => rfl
  | (key, x) :: xs => by
    rw [anyTextEntries, textsEntries, List.any_append, List.any_cons, anyText_eq p x,
      anyTextEntries_eq p xs]

end

theorem anyTextEntries_append (p : Text → Bool) (xs ys : List (Text × Value)) :
    anyTextEntries p (xs ++ ys) = (anyTextEntries p xs || anyTextEntries p ys) := by
  induction xs with
  | nil => rfl
  | cons entry xs ih => rw [List.cons_append, anyTextEntries, ih, anyTextEntries, Bool.or_assoc _ (anyTextEntries p xs)]

theorem anyText_mono {p q : Text → Bool} (hpq : ∀ s, q s = false → p s = false) {x : Value}
    (hx : x.anyText q = false) : x.anyText p = false := by
  rw [anyText_eq, List.any_eq_false] at hx ⊢
  intro s hs
  have hq := hx s hs
  rw [Bool.not_eq_true] at hq ⊢
  exact hpq s hq

/-- A property that no ASCII character has, and what it is of characters that the style escapes. -/
structure Style.Spells (style : Style) (p q : CodePoint → Bool) : Prop where
  ascii : ∀ c : CodePoint, c.val < 0x80 → p c = false
  escape : ∀ c, (style.escape c).any p = q c
  comma : style.comma.any p = false
  colon : style.colon.any p = false

namespace Style.Spells

variable {style : Style} {p q : CodePoint → Bool}

theorem any_ascii (h : style.Spells p q) {s : Text} (hs : ∀ c ∈ s, c.val < 0x80) : s.any p = false := by
  rw [List.any_eq_false]
  intro c hc
  simp only [h.ascii c (hs c hc), Bool.false_eq_true, not_false_eq_true]

theorem any_int (h : style.Spells p q) (n : Int) : (text (toString n)).any p = false := by
  apply h.any_ascii
  intro c hc
  rw [text_int, List.mem_append] at hc
  rcases hc with hminus | hdigit
  · split at hminus
    · rw [List.mem_singleton.mp hminus]
      decide
    · cases hminus
  · have hd := isDigit_repr _ c hdigit
    simp only [isDigit, Bool.and_eq_true, decide_eq_true_eq] at hd
    omega

theorem any_float (h : style.Spells p q) (x : Double) : x.write.any p = false := by
  apply h.any_ascii
  cases x with
  | nan => exact text_ascii (by decide)
  | infinity negative => exact text_ascii (by cases negative <;> decide)
  | finite x => exact x.ascii

theorem any_quoted (h : style.Spells p q) (s : Text) : (style.quoted s).any p = s.any q := by
  have hquote : p 0x22 = false := h.ascii _ (by decide)
  simp only [quoted, List.any_append, List.any_cons, List.any_nil, hquote, List.any_flatMap, h.escape,
    Bool.or_false, Bool.false_or]

theorem any_intercalate (h : style.Spells p q) (xs : List Text) :
    (style.comma.intercalate xs).any p = xs.any fun x => x.any p := by
  induction xs with
  | nil => rfl
  | cons x xs ih =>
    cases xs with
    | nil => simp only [List.intercalate_singleton, List.any_cons, List.any_nil, Bool.or_false]
    | cons y xs =>
      rw [List.intercalate_cons_cons, List.any_append, List.any_append, h.comma, ih, Bool.or_false]
      rfl

theorem any_members (h : style.Spells p q) (xs : List (Text × Text)) :
    ((style.members xs).any fun x => x.any p) = xs.any fun x => x.1.any q || x.2.any p := by
  have hmember : ∀ x : Text × Text, (style.member x).any p = (x.1.any q || x.2.any p) := by
    rintro ⟨key, x⟩
    simp only [member, List.any_append, h.any_quoted, h.colon, Bool.or_false]
  simp only [members, List.any_map, Function.comp_def, hmember]
  split
  · exact (List.mergeSort_perm xs _).any_eq
  · rfl

mutual

/-- What is in a text comes from its strings. -/
theorem any_write (h : style.Spells p q) : (x : Value) → (style.write x).any p = x.anyText fun s => s.any q
  | .null => h.any_ascii (text_ascii (by decide))
  | .bool b => h.any_ascii (text_ascii (by cases b <;> decide))
  | .int n => h.any_int n
  | .float x => h.any_float x
  | .str s => h.any_quoted s
  | .list items => by
    have hopen : p 0x5b = false := h.ascii _ (by decide)
    have hclose : p 0x5d = false := h.ascii _ (by decide)
    have hitems := any_writeItems h items
    simp only [write, Value.anyText, List.any_append, List.any_cons, List.any_nil, hopen, hclose,
      h.any_intercalate, hitems, Bool.or_false, Bool.false_or]
  | .dict entries => by
    have hopen : p 0x7b = false := h.ascii _ (by decide)
    have hclose : p 0x7d = false := h.ascii _ (by decide)
    have hentries := any_writeEntries h entries
    simp only [write, Value.anyText, List.any_append, List.any_cons, List.any_nil, hopen, hclose,
      h.any_intercalate, h.any_members, hentries, Bool.or_false, Bool.false_or]

theorem any_writeItems (h : style.Spells p q) : (xs : List Value) →
    ((style.writeItems xs).any fun x => x.any p) = anyTextItems (fun s => s.any q) xs
  | [] => rfl
  | x :: xs => by
    have hx := any_write h x
    have hxs := any_writeItems h xs
    simp only [writeItems, anyTextItems, List.any_cons, hx, hxs]

theorem any_writeEntries (h : style.Spells p q) : (xs : List (Text × Value)) →
    ((style.writeEntries xs).any fun x => x.1.any q || x.2.any p) =
      anyTextEntries (fun s => s.any q) xs
  | [] => rfl
  | (key, x) :: xs => by
    have hx := any_write h x
    have hxs := any_writeEntries h xs
    simp only [writeEntries, anyTextEntries, List.any_cons, hx, hxs]

end

end Style.Spells

theorem canonical_surrogates : canonical.Spells surrogate surrogate where
  ascii _ hc := surrogate_ascii hc
  escape := any_escape
  comma := by decide
  colon := by decide

theorem hexDigit_ascii (n : Nat) : (hexDigit n).val < 0x80 := by
  have hlt : n % 16 < 16 := Nat.mod_lt n (by decide)
  unfold hexDigit
  generalize n % 16 = d at hlt
  revert d
  decide

theorem hexEscape_ascii (u : Nat) : ∀ c ∈ hexEscape u, c.val < 0x80 := by
  intro c hc
  simp only [hexEscape, List.mem_cons, List.not_mem_nil, or_false] at hc
  rcases hc with rfl | rfl | rfl | rfl | rfl | rfl
  · decide
  · decide
  all_goals exact hexDigit_ascii _

theorem asciiEscape_ascii (c : CodePoint) : ∀ d ∈ asciiEscape c, d.val < 0x80 := by
  intro d hd
  unfold asciiEscape at hd
  cases hshort : shortEscape c.val with
  | some letter =>
    rw [hshort, List.mem_cons, List.mem_singleton] at hd
    rcases hd with rfl | rfl
    · decide
    · exact (shortEscape_ascii hshort).2
  | none =>
    rw [hshort] at hd
    dsimp only at hd
    split_ifs at hd with hprint hplane
    · rw [List.mem_singleton.mp hd]
      omega
    · exact hexEscape_ascii _ d hd
    · exact (List.mem_append.mp hd).elim (hexEscape_ascii _ d) (hexEscape_ascii _ d)

/-- `json.dumps` writes ASCII. -/
theorem plain_ascii (x : Value) : ∀ c ∈ plain.write x, c.val < 0x80 := by
  have hspells : plain.Spells (fun c => 0x80 ≤ c.val) fun _ => false :=
    { ascii := fun c hc => decide_eq_false (by omega)
      escape := fun c => by
        rw [List.any_eq_false]
        intro d hd
        have := asciiEscape_ascii c d hd
        simp only [decide_eq_true_eq]
        omega
      comma := by decide
      colon := by decide }
  have hnone : (x.texts.any fun s => s.any fun _ => false) = false := by
    rw [List.any_eq_false]
    intro s _
    rw [List.any_eq_false.mpr fun _ _ => Bool.false_ne_true]
    exact Bool.false_ne_true
  have hany := hspells.any_write x
  rw [anyText_eq, hnone, List.any_eq_false] at hany
  intro c hc
  have := hany c hc
  simp only [decide_eq_true_eq] at this
  omega

theorem encode_ascii {s : Text} (hs : ∀ c ∈ s, c.val < 0x80) :
    encode s = .ok (s.map fun c => UInt8.ofNat c.val) := by
  induction s with
  | nil => rfl
  | cons c s ih =>
    have hc : encodeChar c = .ok [UInt8.ofNat c.val] := by
      unfold encodeChar
      rw [if_pos (hs c List.mem_cons_self)]
      simp only [Nat.zero_add]
    rw [encode, hc, ih fun d hd => hs d (List.mem_cons_of_mem _ hd)]
    rfl

end PyJson
