import Mathlib.Data.List.Basic
import Mathlib.Algebra.Order.Ring.Nat

/-! Parts joined with a separator: what the joined text says about them when they are free of the
separator, and how often it occurs when they are not. -/

namespace Separated

variable {α : Type} {sep a : α} {xs ys : List (List α)} {p q x y : List α}

/-- `sep.join(xs)`. -/
def join (sep : α) (xs : List (List α)) : List α := [sep].intercalate xs

theorem join_singleton (sep : α) (x : List α) : join sep [x] = x := List.intercalate_singleton

theorem join_cons (h : xs ≠ []) : join sep (x :: xs) = x ++ sep :: join sep xs := by
  simp only [join, List.intercalate_cons_of_ne_nil h, List.append_assoc, List.singleton_append]

theorem mem_join (h : a ∈ join sep xs) : a = sep ∨ ∃ x ∈ xs, a ∈ x := by
  induction xs with
  | nil => cases h
  | cons x xs ih =>
    by_cases hnil : xs = []
    · rw [hnil, join_singleton] at h
      exact .inr ⟨x, List.mem_cons_self, h⟩
    · rw [join_cons hnil, List.mem_append, List.mem_cons] at h
      rcases h with h | h | h
      · exact .inr ⟨x, List.mem_cons_self, h⟩
      · exact .inl h
      · exact (ih h).imp_right fun ⟨y, hy, hmem⟩ => ⟨y, List.mem_cons_of_mem x hy, hmem⟩

/-- Two texts that are cut at their first separator. -/
theorem append_sep_inj (hp : sep ∉ p) (hq : sep ∉ q) :
    p ++ sep :: x = q ++ sep :: y ↔ p = q ∧ x = y := by
  refine ⟨fun h => ?_, by rintro ⟨rfl, rfl⟩; rfl⟩
  induction p generalizing q with
  | nil =>
    cases q with
    | nil => exact ⟨rfl, (List.cons.inj h).2⟩
    | cons b q => exact absurd ((List.cons.inj h).1 ▸ List.mem_cons_self) hq
  | cons b p ih =>
    cases q with
    | nil => exact absurd ((List.cons.inj h).1 ▸ List.mem_cons_self) hp
    | cons c q =>
      obtain ⟨rfl, htail⟩ := List.cons.inj h
      have hcut := ih (fun hm => hp (List.mem_cons_of_mem _ hm))
        (fun hm => hq (List.mem_cons_of_mem _ hm)) htail
      exact ⟨congrArg _ hcut.1, hcut.2⟩

/-- Parts that are free of the separator can be read off. -/
theorem join_injective (hxs : ∀ x ∈ xs, sep ∉ x) (hys : ∀ y ∈ ys, sep ∉ y) (hx : xs ≠ [])
    (hy : ys ≠ []) (h : join sep xs = join sep ys) : xs = ys := by
  induction xs generalizing ys with
  | nil => exact absurd rfl hx
  | cons x xs ih =>
    cases ys with
    | nil => exact absurd rfl hy
    | cons y ys =>
      have hxfree := hxs x List.mem_cons_self
      have hyfree := hys y List.mem_cons_self
      have hxmem {z zs} (heq : x = z ++ sep :: zs) : False :=
        hxfree (heq ▸ List.mem_append_right _ List.mem_cons_self)
      have hymem {z zs} (heq : y = z ++ sep :: zs) : False :=
        hyfree (heq ▸ List.mem_append_right _ List.mem_cons_self)
      by_cases hxnil : xs = []
      · by_cases hynil : ys = []
        · rw [hxnil, hynil, join_singleton, join_singleton] at h
          rw [hxnil, hynil, h]
        · rw [hxnil, join_singleton, join_cons hynil] at h
          exact (hxmem h).elim
      · by_cases hynil : ys = []
        · rw [hynil, join_singleton, join_cons hxnil] at h
          exact (hymem h.symm).elim
        · rw [join_cons hxnil, join_cons hynil, append_sep_inj hxfree hyfree] at h
          rw [h.1, ih (fun z hz => hxs z (List.mem_cons_of_mem x hz))
            (fun z hz => hys z (List.mem_cons_of_mem y hz)) hxnil hynil h.2]

/-- The last part ends the text. -/
theorem join_last (sep : α) (h : xs ≠ []) : ∃ front, join sep xs = front ++ xs.getLast h := by
  induction xs with
  | nil => exact absurd rfl h
  | cons x xs ih =>
    by_cases hnil : xs = []
    · subst hnil
      exact ⟨[], join_singleton sep x⟩
    · obtain ⟨front, hfront⟩ := ih hnil
      refine ⟨x ++ sep :: front, ?_⟩
      rw [join_cons hnil, hfront, List.getLast_cons hnil, List.append_assoc, List.cons_append]

section

variable [DecidableEq α]

theorem count_join_ne (hne : sep ≠ a) (xs : List (List α)) :
    (join sep xs).count a = (xs.map (List.count a)).sum := by
  induction xs with
  | nil => rfl
  | cons x xs ih =>
    by_cases hnil : xs = []
    · subst hnil
      simp [join_singleton]
    · rw [join_cons hnil, List.count_append, List.count_cons_of_ne hne, ih, List.map_cons,
        List.sum_cons]

/-- A separator between any two parts, and those in the parts. -/
theorem count_join (sep : α) (xs : List (List α)) (h : xs ≠ []) :
    (join sep xs).count sep + 1 = (xs.map (List.count sep)).sum + xs.length := by
  induction xs with
  | nil => exact absurd rfl h
  | cons x xs ih =>
    by_cases hnil : xs = []
    · subst hnil
      simp [join_singleton]
    · have hrest := ih hnil
      rw [join_cons hnil, List.count_append, List.count_cons_self, List.map_cons, List.sum_cons,
        List.length_cons]
      omega

end

end Separated
