import Mathlib.Data.List.Nodup

/-! Calls under way: who is calling, each once, and the point that the call has reached. -/

structure Pending (P α : Type) where
  entries : List (P × α)
  nodup : (entries.map Prod.fst).Nodup
  deriving DecidableEq

namespace Pending

variable {P α β : Type} [DecidableEq P] {c c' : Pending P α} {p : P} {x : α} {next : Option α}

instance : EmptyCollection (Pending P α) := ⟨⟨[], List.nodup_nil⟩⟩

/-- The point that the call of `p` has reached. -/
def find (c : Pending P α) (p : P) : Option α :=
  (c.entries.find? fun y => y.1 = p).map Prod.snd

/-- `p`, who is not calling, calls. -/
def enter (c : Pending P α) (p : P) (x : α) : Option (Pending P α) :=
  if h : p ∈ c.entries.map Prod.fst then none
  else some ⟨(p, x) :: c.entries, List.nodup_cons.mpr ⟨h, c.nodup⟩⟩

/-- The call of `p` goes on at another point, or returns. -/
def proceed (c : Pending P α) (p : P) (next : Option α) : Pending P α where
  entries := (next.map fun x => (p, x)).toList ++ c.entries.filter fun y => y.1 ≠ p
  nodup := by
    have hrest : ((c.entries.filter fun y => y.1 ≠ p).map Prod.fst).Nodup :=
      (List.filter_sublist.map Prod.fst).nodup c.nodup
    cases next with
    | none => exact hrest
    | some x =>
      refine List.nodup_cons.mpr ⟨fun hmem => ?_, hrest⟩
      obtain ⟨y, hy, hp⟩ := List.mem_map.mp hmem
      exact of_decide_eq_true (List.mem_filter.mp hy).2 hp

def map (f : α → β) (c : Pending P α) : Pending P β where
  entries := c.entries.map fun y => (y.1, f y.2)
  nodup := by
    rw [List.map_map]
    exact c.nodup

/-- How many calls are at such a point. -/
def tally (q : α → Bool) (c : Pending P α) : Nat := c.entries.countP fun y => q y.2

theorem find_iff : c.find p = some x ↔ (p, x) ∈ c.entries := by
  constructor
  · intro h
    obtain ⟨y, hy, rfl⟩ := Option.map_eq_some_iff.mp h
    obtain rfl : y.1 = p := by simpa using List.find?_some hy
    exact List.mem_of_find?_eq_some hy
  · intro h
    cases hfind : c.entries.find? fun y => y.1 = p with
    | none => exact absurd (List.find?_eq_none.mp hfind _ h) (by simp)
    | some y =>
      have hp : y.1 = p := by simpa using List.find?_some hfind
      have heq := List.inj_on_of_nodup_map c.nodup (List.mem_of_find?_eq_some hfind) h hp
      simp [find, hfind, heq]

theorem find_map (f : α → β) : (c.map f).find p = (c.find p).map f := by
  simp only [find, map, List.find?_map, Option.map_map]
  rfl

theorem enter_some (h : c.enter p x = some c') : c'.entries = (p, x) :: c.entries := by
  unfold enter at h
  split at h
  · cases h
  · cases h
    rfl

theorem mem_proceed {y : P × α} : y ∈ (c.proceed p next).entries ↔
    (∃ x, next = some x ∧ y = (p, x)) ∨ (y ∈ c.entries ∧ y.1 ≠ p) := by
  cases next <;> simp [proceed]

theorem tally_enter (q : α → Bool) (h : c.enter p x = some c') :
    c'.tally q = c.tally q + (q x).toNat := by
  simp only [tally, enter_some h, List.countP_cons]
  cases q x <;> rfl

omit [DecidableEq P] in
theorem tally_map {f : α → β} (q : β → Bool) : (c.map f).tally q = c.tally fun x => q (f x) := by
  simp only [tally, map, List.countP_map]
  rfl

omit [DecidableEq P] in
theorem tally_le {q r : α → Bool} (h : ∀ y ∈ c.entries, q y.2 = true → r y.2 = true) :
    c.tally q ≤ c.tally r :=
  List.countP_mono_left h

/-- The calls are that of `p` and the others. -/
theorem perm_proceed (h : c.find p = some x) : (c.proceed p (some x)).entries.Perm c.entries := by
  have hmem := find_iff.mp h
  refine (List.perm_ext_iff_of_nodup ((c.proceed p (some x)).nodup.of_map _)
    (c.nodup.of_map _)).mpr fun y => ?_
  rw [mem_proceed]
  constructor
  · rintro (⟨_, heq, rfl⟩ | ⟨hy, -⟩)
    · cases heq
      exact hmem
    · exact hy
  · intro hy
    by_cases hp : y.1 = p
    · exact .inl ⟨x, rfl, List.inj_on_of_nodup_map c.nodup hy hmem hp⟩
    · exact .inr ⟨hy, hp⟩

/-- What the call counts for at its new point takes the place of what it counted for. -/
theorem tally_proceed (q : α → Bool) (next : Option α) (h : c.find p = some x) :
    (c.proceed p next).tally q + (q x).toNat =
      c.tally q + next.elim 0 fun x => (q x).toNat := by
  have hput (x : α) : (c.proceed p (some x)).tally q =
      (c.proceed p none).tally q + (q x).toNat := by
    simp only [tally, proceed, Option.map_some, Option.toList_some, List.singleton_append,
      List.countP_cons]
    cases q x <;> rfl
  have hsame : (c.proceed p (some x)).tally q = c.tally q := (perm_proceed h).countP_eq _
  have hx := hput x
  cases next with
  | none =>
    show _ = c.tally q + 0
    omega
  | some x' =>
    have hx' := hput x'
    show _ = c.tally q + (q x').toNat
    omega

/-! A call that is alone. -/

omit [DecidableEq P] in
theorem ext_entries (h : c.entries = c'.entries) : c = c' := by
  cases c
  cases c'
  cases h
  rfl

theorem enter_empty (p : P) (x : α) :
    (∅ : Pending P α).enter p x = some ((∅ : Pending P α).proceed p (some x)) := rfl

theorem find_alone (p : P) (x : α) : ((∅ : Pending P α).proceed p (some x)).find p = some x :=
  find_iff.mpr (mem_proceed.mpr (.inl ⟨x, rfl, rfl⟩))

theorem proceed_alone (p : P) (x : α) (next : Option α) :
    ((∅ : Pending P α).proceed p (some x)).proceed p next = (∅ : Pending P α).proceed p next := by
  have hrest : ((∅ : Pending P α).proceed p (some x)).entries.filter (fun y => y.1 ≠ p) = [] := by
    simp only [proceed, Option.map_some, Option.toList_some, List.singleton_append]
    rw [List.filter_cons_of_neg (by simp)]
    rfl
  refine ext_entries ?_
  show _ ++ ((∅ : Pending P α).proceed p (some x)).entries.filter (fun y => y.1 ≠ p) = _
  rw [hrest]
  rfl

theorem map_alone (p : P) (x : α) (f : α → β) :
    ((∅ : Pending P α).proceed p (some x)).map f = (∅ : Pending P β).proceed p (some (f x)) := rfl

end Pending
