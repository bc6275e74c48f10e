import Mathlib.Data.List.Basic

/-! Items that workers put into batches and mark as done. The marks are exact when every marked item
is in one batch, and no other item is in any. -/

namespace Batching

variable {X D : Type}

/-- `lists d x`: the batch `d` has the item `x`. -/
structure Exact (marked : X → Prop) (lists : D → X → Prop) : Prop where
  once : ∀ x d d', lists d x → lists d' x → d = d'
  marked_iff : ∀ x, marked x ↔ ∃ d, lists d x

/-- What a commit does that marks the items of some bundles. A bundle with an identity is a new
batch; one without was refused, because its identity was taken. -/
structure Filed (bundles : List (Option D × List X)) (marked : X → Prop) (lists : D → X → Prop)
    (marked' : X → Prop) (lists' : D → X → Prop) : Prop where
  marks : ∀ x, marked' x ↔ marked x ∨ ∃ b ∈ bundles, x ∈ b.2
  entries : ∀ d x, lists' d x ↔ lists d x ∨ ∃ b ∈ bundles, b.1 = some d ∧ x ∈ b.2
  fresh : ∀ b ∈ bundles, ∀ d, b.1 = some d → ∀ x, ¬ lists d x
  apart : ∀ b ∈ bundles, ∀ c ∈ bundles, ∀ x ∈ b.2, x ∈ c.2 → b = c

variable {bundles : List (Option D × List X)} {marked marked' : X → Prop}
variable {lists lists' : D → X → Prop}

/-- The marks stay exact when a new batch has unmarked items only, and a refused bundle marked ones
only. -/
theorem Filed.exact_of (h : Filed bundles marked lists marked' lists') (he : Exact marked lists)
    (hclean : ∀ b ∈ bundles, ∀ x ∈ b.2, b.1 = none ↔ marked x) : Exact marked' lists' := by
  have hnew {b : Option D × List X} {x : X} {d d' : D} (hb : b ∈ bundles) (hd : b.1 = some d)
      (hx : x ∈ b.2) : ¬ lists d' x := by
    intro hold
    have hnone := (hclean b hb x hx).mpr ((he.marked_iff x).mpr ⟨d', hold⟩)
    rw [hd] at hnone
    cases hnone
  constructor
  · intro x d d' hx hx'
    rcases (h.entries d x).mp hx with hx | ⟨b, hb, hd, hxb⟩
    · rcases (h.entries d' x).mp hx' with hx' | ⟨c, hc, hd', hxc⟩
      · exact he.once x d d' hx hx'
      · exact absurd hx (hnew hc hd' hxc)
    · rcases (h.entries d' x).mp hx' with hx' | ⟨c, hc, hd', hxc⟩
      · exact absurd hx' (hnew hb hd hxb)
      · have heq := h.apart b hb c hc x hxb hxc
        rw [← heq, hd] at hd'
        exact Option.some.inj hd'
  · intro x
    rw [h.marks]
    constructor
    · intro hx
      have hold (hx : marked x) : ∃ d, lists' d x := by
        obtain ⟨d, hd⟩ := (he.marked_iff x).mp hx
        exact ⟨d, (h.entries d x).mpr (.inl hd)⟩
      rcases hx with hx | ⟨b, hb, hxb⟩
      · exact hold hx
      · cases hd : b.1 with
        | none => exact hold ((hclean b hb x hxb).mp hd)
        | some d => exact ⟨d, (h.entries d x).mpr (.inr ⟨b, hb, hd, hxb⟩)⟩
    · rintro ⟨d, hd⟩
      rcases (h.entries d x).mp hd with hd | ⟨b, hb, -, hxb⟩
      · exact .inl ((he.marked_iff x).mpr ⟨d, hd⟩)
      · exact .inr ⟨b, hb, hxb⟩

/-- Otherwise an item is in two batches, or is marked and in none. -/
theorem Filed.clean_of (h : Filed bundles marked lists marked' lists') (he : Exact marked lists)
    (he' : Exact marked' lists') : ∀ b ∈ bundles, ∀ x ∈ b.2, b.1 = none ↔ marked x := by
  intro b hb x hx
  constructor
  · intro hnone
    obtain ⟨d, hd⟩ := (he'.marked_iff x).mp ((h.marks x).mpr (.inr ⟨b, hb, hx⟩))
    rcases (h.entries d x).mp hd with hd | ⟨c, hc, hcd, hxc⟩
    · exact (he.marked_iff x).mpr ⟨d, hd⟩
    · rw [h.apart b hb c hc x hx hxc, hcd] at hnone
      cases hnone
  · intro hm
    obtain ⟨d, hd⟩ := (he.marked_iff x).mp hm
    cases hb' : b.1 with
    | none => rfl
    | some e =>
      have heq := he'.once x d e ((h.entries d x).mpr (.inl hd))
        ((h.entries e x).mpr (.inr ⟨b, hb, hb', hx⟩))
      exact absurd (heq ▸ hd) (h.fresh b hb e hb' x)

theorem Filed.exact_iff (h : Filed bundles marked lists marked' lists') (he : Exact marked lists) :
    Exact marked' lists' ↔ ∀ b ∈ bundles, ∀ x ∈ b.2, b.1 = none ↔ marked x :=
  ⟨h.clean_of he, h.exact_of he⟩

theorem Exact.congr (he : Exact marked lists) (hm : ∀ x, marked' x ↔ marked x)
    (hl : ∀ d x, lists' d x ↔ lists d x) : Exact marked' lists' := by
  constructor
  · intro x d d' hx hx'
    exact he.once x d d' ((hl d x).mp hx) ((hl d' x).mp hx')
  · intro x
    simp only [hm, hl]
    exact he.marked_iff x

end Batching
