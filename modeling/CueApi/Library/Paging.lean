import Mathlib.Data.List.Sort

/-! Pages of a list that is sorted by its keys: a page is a prefix, so it holds whatever lies at or
below its last key. A reader that moves a watermark to a key of its page has seen all that lies at
or below it, and this stays so as long as entries become visible in the order of their keys. -/

namespace Paging

variable {α : Type} {key : α → Nat} {l : List α} {n : Nat} {x y : α}

/-- Strictly increasing keys. -/
def Ordered (key : α → Nat) (l : List α) : Prop := l.Pairwise fun x y => key x < key y

theorem Ordered.sublist {l' : List α} (h : Ordered key l) (hs : l'.Sublist l) : Ordered key l' :=
  List.Pairwise.sublist hs h

theorem Ordered.le_getLast (h : Ordered key l) (hx : x ∈ l) {z : α} (hz : l.getLast? = some z) :
    key x ≤ key z := by
  obtain ⟨l', rfl⟩ := List.getLast?_eq_some_iff.mp hz
  rcases List.mem_append.mp hx with hx | hx
  · exact Nat.le_of_lt ((List.pairwise_append.mp h).2.2 x hx z (by simp))
  · rw [List.mem_singleton.mp hx]

theorem Ordered.head_le (h : Ordered key l) (hx : x ∈ l) {z : α} (hz : l.head? = some z) :
    key z ≤ key x := by
  obtain ⟨l', rfl⟩ := List.head?_eq_some_iff.mp hz
  rcases List.mem_cons.mp hx with rfl | hx
  · exact Nat.le_refl _
  · exact Nat.le_of_lt ((List.pairwise_cons.mp h).1 x hx)

/-- A page covers what is at or below one of its keys. -/
theorem Ordered.mem_take (h : Ordered key l) (hx : x ∈ l.take n) (hy : y ∈ l)
    (hle : key y ≤ key x) : y ∈ l.take n := by
  rw [← List.take_append_drop n l] at hy
  rcases List.mem_append.mp hy with hy | hy
  · exact hy
  · unfold Ordered at h
    rw [← List.take_append_drop n l] at h
    exact absurd ((List.pairwise_append.mp h).2.2 x hx y hy) (Nat.not_lt.mpr hle)

/-- Equal keys, equal entries. -/
theorem Ordered.eq_of_key (h : Ordered key l) (hx : x ∈ l) (hy : y ∈ l) (heq : key x = key y) :
    x = y := by
  induction l with
  | nil => cases hx
  | cons z l ih =>
    obtain ⟨hz, hl⟩ := List.pairwise_cons.mp h
    rcases List.mem_cons.mp hx with hxz | hx <;> rcases List.mem_cons.mp hy with hyz | hy
    · rw [hxz, hyz]
    · have hlt := hz y hy
      rw [← hxz] at hlt
      omega
    · have hlt := hz x hx
      rw [← hyz] at hlt
      omega
    · exact ih hl hx hy

/-- Equal members, equal lists. -/
theorem Ordered.ext {l' : List α} (h : Ordered key l) (h' : Ordered key l')
    (hm : ∀ x, x ∈ l ↔ x ∈ l') : l = l' := by
  have nodup {k : List α} (hk : Ordered key k) : k.Nodup :=
    hk.imp fun hlt heq => absurd (congrArg key heq) (Nat.ne_of_lt hlt)
  have hperm : l.Perm l' := (List.perm_ext_iff_of_nodup (nodup h) (nodup h')).mpr hm
  refine hperm.eq_of_pairwise (fun x y _ _ hxy hyx => ?_) h h'
  exact absurd hxy (Nat.not_lt.mpr (Nat.le_of_lt hyx))

theorem Ordered.map {β : Type} {f : α → β} {key' : β → Nat} (h : Ordered key l)
    (hf : ∀ x, key' (f x) = key x) : Ordered key' (l.map f) := by
  refine List.pairwise_map.mpr (h.imp fun {x y} hlt => ?_)
  rw [hf x, hf y]
  exact hlt

/-! ## Watermarks

`stands` are the keys that a query finds, `visible` those that were ever there. -/

variable {stands stands' visible visible' seen seen' : Nat → Prop} {w z : Nat} {page : List Nat}

/-- What comes new lies above all that was visible. -/
def InOrder (stands visible stands' : Nat → Prop) : Prop :=
  ∀ x, stands' x → stands x ∨ (0 < x ∧ ∀ y, visible y → y < x)

/-- Nothing new lies at or below a key that was visible, or 0. -/
theorem InOrder.old {x : Nat} (h : InOrder stands visible stands') (hw : w = 0 ∨ visible w)
    (hx : stands' x) (hle : x ≤ w) : stands x := by
  rcases h x hx with hold | ⟨hpos, hnew⟩
  · exact hold
  · rcases hw with rfl | hw
    · omega
    · have hlt := hnew w hw
      omega

/-- All that stands at or below `w` is seen. -/
structure Mark (stands visible seen : Nat → Prop) (w : Nat) : Prop where
  covered : ∀ x, stands x → x ≤ w → seen x
  origin : w = 0 ∨ visible w

theorem Mark.zero (h : ∀ x, stands x → 0 < x) : Mark stands visible seen 0 where
  covered x hx hle := absurd (h x hx) (by omega)
  origin := .inl rfl

theorem Mark.grow (h : Mark stands visible seen w) (ho : InOrder stands visible stands')
    (hv : ∀ x, visible x → visible' x) (hs : ∀ x, seen x → seen' x) :
    Mark stands' visible' seen' w where
  covered x hx hle := hs x (h.covered x (ho.old h.origin hx hle) hle)
  origin := h.origin.imp_right (hv w)

/-- `page` holds what stands above `w`, up to its last key. -/
structure PageOf (stands visible : Nat → Prop) (w : Nat) (page : List Nat) : Prop where
  ordered : page.Pairwise (· < ·)
  above : ∀ x ∈ page, w < x
  shown : ∀ x ∈ page, visible x
  complete : ∀ x ∈ page, ∀ y, stands y → w < y → y ≤ x → y ∈ page

theorem PageOf.grow (h : PageOf stands visible w page) (ho : InOrder stands visible stands')
    (hv : ∀ x, visible x → visible' x) : PageOf stands' visible' w page where
  ordered := h.ordered
  above := h.above
  shown x hx := hv x (h.shown x hx)
  complete x hx y hy hlt hle :=
    h.complete x hx y (ho.old (.inr (h.shown x hx)) hy hle) hlt hle

/-- The first `n` of a sorted list of all that stands above `w` are a page. -/
theorem Ordered.pageOf (h : Ordered key l) (habove : ∀ x ∈ l, w < key x)
    (hshown : ∀ x ∈ l, visible (key x)) (hall : ∀ y, stands y → w < y → ∃ x ∈ l, key x = y) :
    PageOf stands visible w ((l.take n).map key) where
  ordered := List.pairwise_map.mpr (h.sublist (List.take_sublist n l))
  above x hx := by
    obtain ⟨e, he, rfl⟩ := List.mem_map.mp hx
    exact habove e (List.mem_of_mem_take he)
  shown x hx := by
    obtain ⟨e, he, rfl⟩ := List.mem_map.mp hx
    exact hshown e (List.mem_of_mem_take he)
  complete x hx y hy hlt hle := by
    obtain ⟨e, he, rfl⟩ := List.mem_map.mp hx
    obtain ⟨e', he', rfl⟩ := hall y hy hlt
    exact List.mem_map_of_mem (h.mem_take he he' hle)

/-- The watermark moves to a key of a page: all of the page up to it is seen now. -/
theorem Mark.advance (h : Mark stands visible seen w) (hp : PageOf stands visible w page)
    (hz : z ∈ page) (hold : ∀ x, seen x → seen' x) (hnew : ∀ x ∈ page, x ≤ z → seen' x) :
    Mark stands visible seen' z where
  covered x hx hle := by
    rcases Nat.lt_or_ge w x with hlt | hge
    · exact hnew x (hp.complete z hz x hx hlt hle) hle
    · exact hold x (h.covered x hx hge)
  origin := .inr (hp.shown z hz)

end Paging
