import Mathlib.Data.List.Basic

/-! Text columns of PostgreSQL in a UTF-8 database: `text`, `varchar(n)`, and a CHECK on
`octet_length`. No text value holds a NUL. -/

namespace TextColumns

/-- The character that no text value holds. -/
def nul : Char := '\x00'

def HasNul (s : String) : Prop := nul ∈ s.toList

instance (s : String) : Decidable (HasNul s) := inferInstanceAs (Decidable (nul ∈ s.toList))

/-- The most characters of a `varchar(n)`, and the most octets a CHECK allows. -/
structure TextColumn where
  chars : Option Nat := none
  octets : Option Nat := none
  deriving DecidableEq, Repr

def text : TextColumn := {}

def varchar (n : Nat) : TextColumn := { chars := some n }

/-- What a value is cut to: the characters that are too many go when they are blanks, and are an
error otherwise. -/
def cut (s : String) : Option Nat → Option String
  | none => some s
  | some n =>
      if s.length ≤ n then some s
      else if (s.toList.drop n).all (· = ' ') then some (String.ofList (s.toList.take n))
      else none

/-- A character repeated. -/
theorem utf8ByteSize_replicate (n : Nat) (c : Char) :
    (String.ofList (List.replicate n c)).utf8ByteSize = n * c.utf8Size := by
  induction n with
  | zero => simp
  | succ n ih =>
    have hsingle : (String.ofList [c]).utf8ByteSize = c.utf8Size := by
      simp
    rw [List.replicate_succ, ← List.singleton_append, String.ofList_append,
      String.utf8ByteSize_append, ih, hsingle, Nat.succ_mul, Nat.add_comm]

namespace TextColumn

variable {c : TextColumn} {s : String} {o : Option String} {n : Nat}

/-- The value that an INSERT or UPDATE leaves in the column, or none where it is refused. -/
def store (c : TextColumn) (s : String) : Option String :=
  if HasNul s then none
  else (cut s c.chars).bind fun s => if c.octets.all (s.utf8ByteSize ≤ ·) then some s else none

/-- The column takes the value as it is. -/
def Takes (c : TextColumn) (o : Option String) : Prop := ∀ s ∈ o, c.store s = some s

instance (o : Option String) : Decidable (c.Takes o) :=
  match o with
  | none => .isTrue nofun
  | some s => decidable_of_iff (c.store s = some s)
      ⟨fun h _ ht => Option.mem_some.mp ht ▸ h, fun h => h s rfl⟩

theorem cut_eq_self_iff {n? : Option Nat} : cut s n? = some s ↔ ∀ n ∈ n?, s.length ≤ n := by
  cases n? with
  | none => simp [cut]
  | some n =>
    by_cases hs : s.length ≤ n
    · simp [cut, hs]
    · have hlen : (String.ofList (s.toList.take n)).length ≠ s.length := by
        rw [String.length_ofList, List.length_take, String.length_toList]
        omega
      have hne : String.ofList (s.toList.take n) ≠ s := fun h => hlen (congrArg String.length h)
      simp [cut, hs, hne]

theorem store_eq_self_iff : c.store s = some s ↔
    ¬ HasNul s ∧ (∀ n ∈ c.chars, s.length ≤ n) ∧ ∀ n ∈ c.octets, s.utf8ByteSize ≤ n := by
  unfold store
  by_cases hnul : HasNul s
  · simp [hnul]
  · rw [if_neg hnul, ← cut_eq_self_iff]
    cases hcut : cut s c.chars with
    | none => simp
    | some t =>
      by_cases ht : t = s
      · subst ht
        simp [hnul, Option.all_eq_true]
      · have hns : ∀ b : Bool, (if b = true then some t else none) ≠ some s := by
          intro b
          cases b <;> simp [ht]
        simp [ht]

@[simp] theorem takes_none : c.Takes none := nofun

theorem takes_some_iff : c.Takes (some s) ↔
    ¬ HasNul s ∧ (∀ n ∈ c.chars, s.length ≤ n) ∧ ∀ n ∈ c.octets, s.utf8ByteSize ≤ n := by
  rw [← store_eq_self_iff]
  exact ⟨fun h => h s rfl, fun h _ ht => Option.mem_some.mp ht ▸ h⟩

/-- A `text` column is against NULs only. -/
theorem text_takes_iff : text.Takes o ↔ ∀ s ∈ o, ¬ HasNul s := by
  cases o with
  | none => simp
  | some s => simp [takes_some_iff, text]

theorem varchar_takes_iff :
    (varchar n).Takes o ↔ (∀ s ∈ o, ¬ HasNul s) ∧ ∀ s ∈ o, s.length ≤ n := by
  cases o with
  | none => simp
  | some s => simp [takes_some_iff, varchar]

/-- A value that was checked for a narrower column is taken where it has no NUL. -/
theorem varchar_takes_of_le {m : Nat} (hm : ∀ s ∈ o, s.length ≤ m) (hmn : m ≤ n) :
    (varchar n).Takes o ↔ ∀ s ∈ o, ¬ HasNul s := by
  rw [varchar_takes_iff]
  exact and_iff_left fun s hs => Nat.le_trans (hm s hs) hmn

/-- The first characters of a value without a NUL fit a column that is wide enough. -/
theorem varchar_takes_prefix {k : Nat} (hs : ¬ HasNul s) (hk : k ≤ n) :
    (varchar n).Takes (some (String.ofList (s.toList.take k))) := by
  rw [varchar_takes_iff]
  constructor
  · rintro t ⟨⟩ hnul
    unfold HasNul at hnul
    rw [String.toList_ofList] at hnul
    exact hs (List.mem_of_mem_take hnul)
  · rintro t ⟨⟩
    rw [String.length_ofList]
    exact Nat.le_trans (List.length_take_le k _) hk

end TextColumn

end TextColumns
