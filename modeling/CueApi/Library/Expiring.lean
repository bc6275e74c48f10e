import Mathlib.Logic.Function.Basic

/-! A key-value store whose entries vanish once their time to live has elapsed,
over any keys, values and clock. An entry without an expiry stays. -/

namespace Expiring

structure Entry (V T : Type) where
  value : V
  expires : Option T
  deriving DecidableEq, Repr

/-- What was last written under each key, expired or not. -/
abbrev Store (K V T : Type) := K → Option (Entry V T)

variable {K V T : Type}

/-- The entry is still there at `now`. -/
def Entry.live [LT T] [DecidableLT T] (now : T) (en : Entry V T) : Bool :=
  en.expires.all fun t => now < t

/-- `GET key`. -/
def get [LT T] [DecidableLT T] (s : Store K V T) (now : T) (k : K) : Option V :=
  ((s k).filter (Entry.live now)).map Entry.value

/-- `SET key value`, with the instant at which it expires. -/
def put [DecidableEq K] (s : Store K V T) (k : K) (v : V) (expires : Option T) : Store K V T :=
  Function.update s k (some ⟨v, expires⟩)

/-- `DEL key`. -/
def del [DecidableEq K] (s : Store K V T) (k : K) : Store K V T := Function.update s k none

/-- What is read was written and has not expired. -/
theorem get_eq_some [LT T] [DecidableLT T] {s : Store K V T} {now : T} {k : K} {v : V} :
    get s now k = some v ↔ ∃ en, s k = some en ∧ en.live now = true ∧ en.value = v := by
  simp [get, Option.filter_eq_some_iff, and_assoc]

theorem get_put_self [LT T] [DecidableLT T] [DecidableEq K] {now t : T} (h : now < t)
    (s : Store K V T) (k : K) (v : V) : get (put s k v (some t)) now k = some v :=
  get_eq_some.mpr ⟨⟨v, some t⟩, Function.update_self .., by simp [Entry.live, h], rfl⟩

theorem get_none [LT T] [DecidableLT T] {s : Store K V T} {now : T} {k : K} (h : s k = none) :
    get s now k = none := by
  simp [get, h]

/-- A property of every entry is kept by a write whose entry has it. -/
theorem put_all [DecidableEq K] {P : K → Entry V T → Prop} {s : Store K V T} {k : K} {v : V}
    {expires : Option T} (hs : ∀ k en, s k = some en → P k en) (hp : P k ⟨v, expires⟩) :
    ∀ k' en, put s k v expires k' = some en → P k' en := by
  intro k' en hk
  by_cases heq : k' = k
  · subst heq
    simp only [put, Function.update_self, Option.some.injEq] at hk
    exact hk ▸ hp
  · rw [put, Function.update_of_ne heq] at hk
    exact hs k' en hk

/-! ## Counters -/

section Counters

variable [LT T] [DecidableLT T] [DecidableEq K] {s : Store K Nat T} {now : T} {k : K}

/-- `INCR key`, which keeps the time to live. -/
def incr (s : Store K Nat T) (now : T) (k : K) : Nat × Store K Nat T :=
  match (s k).filter (Entry.live now) with
  | none => (1, put s k 1 none)
  | some en => (en.value + 1, put s k (en.value + 1) en.expires)

/-- `EXPIRE key`, with the instant at which it expires. -/
def expire (s : Store K Nat T) (now : T) (k : K) (expires : T) : Store K Nat T :=
  match (s k).filter (Entry.live now) with
  | none => s
  | some en => put s k en.value (some expires)

theorem incr_new (h : (s k).filter (Entry.live now) = none) : incr s now k = (1, put s k 1 none) := by
  simp only [incr, h]

theorem incr_live {en : Entry Nat T} (h : s k = some en) (hl : en.live now = true) :
    incr s now k = (en.value + 1, put s k (en.value + 1) en.expires) := by
  have hf : (s k).filter (Entry.live now) = some en := by
    rw [h, Option.filter_some, if_pos hl]
  simp only [incr, hf]

theorem expire_live {en : Entry Nat T} {t : T} (h : s k = some en) (hl : en.live now = true) :
    expire s now k t = put s k en.value (some t) := by
  have hf : (s k).filter (Entry.live now) = some en := by
    rw [h, Option.filter_some, if_pos hl]
  simp only [expire, hf]

end Counters

end Expiring
