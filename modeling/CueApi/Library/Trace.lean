import Mathlib.Data.List.Infix

/-! Histories as lists of events, newest first, and what holds along them: a
condition on each event and the events before it. -/

namespace Trace

variable {E α : Type} {P Q : List E → E → Prop}

/-- Every event meets `P` with the events before it. -/
def Along (P : List E → E → Prop) : List E → Prop
  | [] => True
  | ev :: h => P h ev ∧ Along P h

instance instDecidableAlong [∀ h ev, Decidable (P h ev)] : (h : List E) → Decidable (Along P h)
  | [] => isTrue trivial
  | ev :: h =>
      have : Decidable (Along P h) := instDecidableAlong h
      inferInstanceAs (Decidable (P h ev ∧ Along P h))

theorem Along.mono (hPQ : ∀ h ev, P h ev → Q h ev) {h : List E} (ha : Along P h) :
    Along Q h := by
  induction h with
  | nil => trivial
  | cons ev h ih => exact ⟨hPQ h ev ha.1, ih ha.2⟩

theorem Along.suffix {h h' : List E} (ha : Along P h') (hs : h <:+ h') : Along P h := by
  obtain ⟨pre, rfl⟩ := hs
  induction pre with
  | nil => exact ha
  | cons ev pre ih => exact ih ha.2

theorem Along.at {h h' : List E} {ev : E} (ha : Along P h') (hs : ev :: h <:+ h') : P h ev :=
  (ha.suffix hs).1

theorem Along.and {h : List E} (hp : Along P h) (hq : Along Q h) :
    Along (fun h ev => P h ev ∧ Q h ev) h := by
  induction h with
  | nil => trivial
  | cons ev h ih => exact ⟨⟨hp.1, hq.1⟩, ih hp.2 hq.2⟩

/-- The invariant rule: what holds of the empty history and is kept by every
event that meets `P` holds along. -/
theorem Along.invariant {J : List E → Prop} (nil : J [])
    (cons : ∀ h ev, Along P h → P h ev → J h → J (ev :: h)) {h : List E} (ha : Along P h) :
    J h := by
  induction h with
  | nil => exact nil
  | cons ev h ih => exact cons h ev ha.2 ha.1 (ih ha.2)

/-- The same from some history on. -/
theorem Along.invariant_from {J : List E → Prop} {h₀ : List E} (base : J h₀)
    (cons : ∀ h ev, h₀ <:+ h → Along P h → P h ev → J h → J (ev :: h)) {h : List E}
    (hs : h₀ <:+ h) (ha : Along P h) : J h := by
  obtain ⟨pre, rfl⟩ := hs
  induction pre with
  | nil => exact base
  | cons ev pre ih => exact cons _ ev (List.suffix_append _ _) ha.2 ha.1 (ih ha.2)

/-- Of two events of a history, one comes first. -/
theorem suffix_cases {ev ev' : E} {h₁ h₂ h : List E} (hs : ev :: h₁ <:+ h)
    (hs' : ev' :: h₂ <:+ h) :
    ev :: h₁ = ev' :: h₂ ∨ ev :: h₁ <:+ h₂ ∨ ev' :: h₂ <:+ h₁ := by
  rcases List.suffix_or_suffix_of_suffix hs hs' with hsuf | hsuf
  · rcases List.suffix_cons_iff.mp hsuf with heq | hsuf
    · exact .inl heq
    · exact .inr (.inl hsuf)
  · rcases List.suffix_cons_iff.mp hsuf with heq | hsuf
    · exact .inl heq.symm
    · exact .inr (.inr hsuf)

theorem mem_split {ev : E} {h : List E} (hm : ev ∈ h) : ∃ h', ev :: h' <:+ h := by
  obtain ⟨pre, post, rfl⟩ := List.append_of_mem hm
  exact ⟨post, List.suffix_append pre (ev :: post)⟩

end Trace
