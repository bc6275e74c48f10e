import Mathlib.Data.List.Sort
import Mathlib.Data.Prod.Lex
import Mathlib.Data.List.Flatten
import Mathlib.Order.Lattice

/-! Pages by LIMIT and OFFSET, each answered by a query of its own. `ORDER BY` leaves the order of
rows with equal keys open, and every query may settle it differently: the pages hold each row once
exactly when no page ends between two rows with equal keys. -/

namespace Pages

variable {α K : Type} [LinearOrder K] {key : α → K} {rows l : List α} {limit m k : Nat} {x y : α}

/-- A result of `ORDER BY key` over the rows. -/
structure Permitted (key : α → K) (rows l : List α) : Prop where
  perm : l.Perm rows
  sorted : l.Pairwise fun x y => key x ≤ key y

/-- `LIMIT limit OFFSET offset`. -/
def page (limit offset : Nat) (l : List α) : List α := (l.drop offset).take limit

/-- The first `n` pages, the `k`-th taken from the `k`-th order. -/
def pages (limit n : Nat) (orders : Nat → List α) : List α :=
  (List.range n).flatMap fun k => page limit (k * limit) (orders k)

/-- However the queries order the rows, as many pages as it takes hold every row once. -/
def Complete (key : α → K) (rows : List α) (limit : Nat) : Prop :=
  ∀ orders : Nat → List α, (∀ k, Permitted key rows (orders k)) →
    ∀ n, rows.length ≤ n * limit → (pages limit n orders).Perm rows

/-- How many rows come before those with the key `v`, and how many up to them. -/
def before (key : α → K) (rows : List α) (v : K) : Nat := rows.countP fun x => key x < v

def upTo (key : α → K) (rows : List α) (v : K) : Nat := rows.countP fun x => key x ≤ v

/-- After `m` rows an order stands between two rows with equal keys. -/
def Splits (key : α → K) (rows : List α) (m : Nat) : Prop :=
  ∃ x ∈ rows, before key rows (key x) < m ∧ m < upTo key rows (key x)

instance : Decidable (Splits key rows m) := inferInstanceAs (Decidable (∃ x ∈ rows, _ ∧ _))

/-! ## What a prefix holds -/

/-- A prefix that leaves a row is full. -/
theorem length_take_of_mem_drop (hx : x ∈ l.drop m) : (l.take m).length = m := by
  have hpos := List.length_pos_of_mem hx
  rw [List.length_drop] at hpos
  rw [List.length_take]
  omega

namespace Permitted

theorem mem_take_or_drop (h : Permitted key rows l) (hx : x ∈ rows) :
    x ∈ l.take m ∨ x ∈ l.drop m := by
  rw [← List.mem_append, List.take_append_drop]
  exact h.perm.mem_iff.mpr hx

theorem mem_drop (h : Permitted key rows l) (hx : x ∈ rows) (hnot : x ∉ l.take m) :
    x ∈ l.drop m :=
  (h.mem_take_or_drop hx).resolve_left hnot

theorem before_eq (h : Permitted key rows l) (v : K) : before key rows v = before key l v :=
  (h.perm.countP_eq _).symm

theorem upTo_eq (h : Permitted key rows l) (v : K) : upTo key rows v = upTo key l v :=
  (h.perm.countP_eq _).symm

theorem le_of_take_drop (h : Permitted key rows l) (hx : x ∈ l.take m) (hy : y ∈ l.drop m) :
    key x ≤ key y := by
  have hs := h.sorted
  rw [← List.take_append_drop m l] at hs
  exact (List.pairwise_append.mp hs).2.2 x hx y hy

theorem before_lt (h : Permitted key rows l) (hx : x ∈ l.take m) :
    before key rows (key x) < m := by
  have hdrop : before key (l.drop m) (key x) = 0 := by
    refine List.countP_eq_zero.mpr fun y hy => ?_
    simpa using h.le_of_take_drop hx hy
  have htake : before key (l.take m) (key x) < (l.take m).length := by
    refine Nat.lt_of_le_of_ne List.countP_le_length fun hall => ?_
    have := List.countP_eq_length.mp hall x hx
    simp at this
  have hsum : before key l (key x) = before key (l.take m) (key x) + before key (l.drop m) (key x) := by
    conv_lhs => rw [← List.take_append_drop m l]
    exact List.countP_append
  have hlen := List.length_take_le m l
  rw [h.before_eq]
  omega

theorem lt_upTo (h : Permitted key rows l) (hx : x ∈ l.drop m) : m < upTo key rows (key x) := by
  have htake : upTo key (l.take m) (key x) = (l.take m).length := by
    refine List.countP_eq_length.mpr fun y hy => ?_
    simpa using h.le_of_take_drop hy hx
  have hdrop : 0 < upTo key (l.drop m) (key x) := List.countP_pos_iff.mpr ⟨x, hx, by simp⟩
  have hsum : upTo key l (key x) = upTo key (l.take m) (key x) + upTo key (l.drop m) (key x) := by
    conv_lhs => rw [← List.take_append_drop m l]
    exact List.countP_append
  have hlen := length_take_of_mem_drop hx
  rw [h.upTo_eq]
  omega

/-- Where no tie is split, the keys tell what the prefix holds. -/
theorem mem_take_iff (h : Permitted key rows l) (hm : ¬ Splits key rows m) (hx : x ∈ rows) :
    x ∈ l.take m ↔ upTo key rows (key x) ≤ m := by
  constructor
  · intro htake
    by_contra hlt
    exact hm ⟨x, hx, h.before_lt htake, Nat.not_le.mp hlt⟩
  · intro hle
    rcases h.mem_take_or_drop (m := m) hx with htake | hdrop
    · exact htake
    · exact absurd (h.lt_upTo hdrop) (Nat.not_lt.mpr hle)

end Permitted

/-! ## No split tie: the pages are complete -/

theorem mem_page_iff (hnodup : l.Nodup) {offset : Nat} :
    x ∈ page limit offset l ↔ x ∈ l.take (offset + limit) ∧ x ∉ l.take offset := by
  have hsplit : l.take (offset + limit) = l.take offset ++ page limit offset l := List.take_add
  have hn : (l.take offset ++ page limit offset l).Nodup :=
    hsplit ▸ hnodup.sublist (List.take_sublist _ _)
  rw [hsplit, List.mem_append]
  constructor
  · intro hx
    exact ⟨.inr hx, fun h => (List.nodup_append.mp hn).2.2 x h x hx rfl⟩
  · rintro ⟨hx | hx, hnot⟩
    · exact absurd hx hnot
    · exact hx

theorem Permitted.nodup (h : Permitted key rows l) (hrows : rows.Nodup) : l.Nodup :=
  h.perm.nodup_iff.mpr hrows

/-- The number of a row's page. -/
theorem Permitted.mem_page_iff (h : Permitted key rows l) (hrows : rows.Nodup)
    (hm : ∀ k, ¬ Splits key rows (k * limit)) (hx : x ∈ rows) :
    x ∈ page limit (k * limit) l ↔
      k * limit < upTo key rows (key x) ∧ upTo key rows (key x) ≤ (k + 1) * limit := by
  rw [Pages.mem_page_iff (h.nodup hrows), ← Nat.succ_mul, h.mem_take_iff (hm k) hx,
    h.mem_take_iff (hm (k + 1)) hx, Nat.not_le, and_comm]

theorem page_subset (h : Permitted key rows l) {offset : Nat} (hx : x ∈ page limit offset l) :
    x ∈ rows :=
  h.perm.subset (List.mem_of_mem_drop (List.mem_of_mem_take hx))

theorem complete_of_not_splits (hrows : rows.Nodup) (hm : ∀ k, ¬ Splits key rows (k * limit)) :
    Complete key rows limit := by
  intro orders hperm n hn
  have hnodup : (pages limit n orders).Nodup := by
    refine List.nodup_flatMap.mpr ⟨fun k _ => ?_, ?_⟩
    · exact ((hperm k).nodup hrows).sublist
        ((List.take_sublist _ _).trans (List.drop_sublist _ _))
    · -- a row with so many rows up to it has one page only
      refine List.pairwise_lt_range.imp fun {i j} hij x hxi hxj => ?_
      have hx := page_subset (hperm i) hxi
      have hi := ((hperm i).mem_page_iff hrows hm hx).mp hxi
      have hj := ((hperm j).mem_page_iff hrows hm hx).mp hxj
      have hle : (i + 1) * limit ≤ j * limit := Nat.mul_le_mul_right limit hij
      omega
  refine (List.perm_ext_iff_of_nodup hnodup hrows).mpr fun x => ?_
  constructor
  · intro hx
    obtain ⟨k, -, hk⟩ := List.mem_flatMap.mp hx
    exact page_subset (hperm k) hk
  · intro hx
    have hpos : 0 < upTo key rows (key x) := List.countP_pos_iff.mpr ⟨x, hx, by simp⟩
    have hle : upTo key rows (key x) ≤ rows.length := List.countP_le_length
    have hlimit : 0 < limit := Nat.pos_of_mul_pos_left (by omega : 0 < n * limit)
    let k := (upTo key rows (key x) - 1) / limit
    have hlow : k * limit ≤ upTo key rows (key x) - 1 := Nat.div_mul_le_self _ _
    have hhigh : upTo key rows (key x) - 1 < (k + 1) * limit := by
      rw [Nat.mul_comm]
      exact Nat.lt_mul_div_succ _ hlimit
    have hk : k < n := by
      by_contra hnk
      have := Nat.mul_le_mul_right limit (Nat.not_lt.mp hnk)
      omega
    exact List.mem_flatMap.mpr ⟨k, List.mem_range.mpr hk,
      ((hperm k).mem_page_iff hrows hm hx).mpr ⟨by omega, by omega⟩⟩

/-! ## A split tie: two orders that show a row twice -/

/-- Rows with equal keys that are next to each other may be swapped. -/
theorem Permitted.swap {l₁ l₂ : List α} (h : Permitted key rows (l₁ ++ x :: y :: l₂))
    (hkey : key x = key y) : Permitted key rows (l₁ ++ y :: x :: l₂) where
  perm := (List.Perm.append_left l₁ (List.Perm.swap x y l₂)).trans h.perm
  sorted := by
    have hs := h.sorted
    simp only [List.pairwise_append, List.pairwise_cons, List.mem_cons, forall_eq_or_imp] at hs ⊢
    obtain ⟨hl₁, ⟨⟨-, hx⟩, hy, hl₂⟩, hcross⟩ := hs
    refine ⟨hl₁, ⟨⟨hkey.ge, hy⟩, hx, hl₂⟩, fun z hz => ?_⟩
    obtain ⟨hzx, hzy, hzl⟩ := hcross z hz
    exact ⟨hzy, hzx, hzl⟩

theorem Permitted.key_le (h : Permitted key rows l) {i j : Nat} (hij : i ≤ j) (hj : j < l.length) :
    key l[i] ≤ key l[j] := by
  rcases Nat.eq_or_lt_of_le hij with heq | hlt
  · subst heq
    exact le_refl _
  · exact List.pairwise_iff_getElem.mp h.sorted i j _ hj hlt

theorem Permitted.upTo_le (h : Permitted key rows l) {v : K} (hall : ∀ y ∈ l.drop m, v < key y) :
    upTo key rows v ≤ m := by
  have hdrop : upTo key (l.drop m) v = 0 := by
    refine List.countP_eq_zero.mpr fun y hy => ?_
    simpa using hall y hy
  have hsum : upTo key l v = upTo key (l.take m) v + upTo key (l.drop m) v := by
    conv_lhs => rw [← List.take_append_drop m l]
    exact List.countP_append
  have htake : upTo key (l.take m) v ≤ (l.take m).length := List.countP_le_length
  have hlen := List.length_take_le m l
  rw [h.upTo_eq]
  omega

theorem Permitted.le_before (h : Permitted key rows l) {v : K} (hm : m ≤ l.length)
    (hall : ∀ y ∈ l.take m, key y < v) : m ≤ before key rows v := by
  have htake : before key (l.take m) v = (l.take m).length := by
    refine List.countP_eq_length.mpr fun y hy => ?_
    simpa using hall y hy
  have hle : before key (l.take m) v ≤ before key l v := (List.take_sublist m l).countP_le
  rw [List.length_take] at htake
  rw [h.before_eq]
  omega

/-- Next to the boundary stand rows of the tie only. -/
theorem Permitted.key_eq (h : Permitted key rows l) {v : K} {i : Nat} (hi : i < l.length)
    (hlow : before key rows v < m) (hhigh : m < upTo key rows v) (hm : m ≤ l.length)
    (hnear : i + 1 = m ∨ i = m) : key l[i] = v := by
  refine le_antisymm (not_lt.mp fun hgt => ?_) (not_lt.mp fun hlt => ?_)
  · have hle : upTo key rows v ≤ i := by
      refine h.upTo_le fun y hy => ?_
      obtain ⟨j, hj, rfl⟩ := List.mem_drop_iff_getElem.mp hy
      exact hgt.trans_le (h.key_le (Nat.le_add_right i j) (by omega))
    omega
  · have hle : m ≤ before key rows v := by
      refine h.le_before hm fun y hy => ?_
      obtain ⟨j, hj, rfl⟩ := List.mem_take_iff_getElem.mp hy
      exact (h.key_le (by omega) hi).trans_lt hlt
    omega

/-- The two rows that a split tie stands between. -/
theorem Permitted.of_splits (h : Permitted key rows l) (hm : Splits key rows m) :
    ∃ l₁ a b l₂, l = l₁ ++ a :: b :: l₂ ∧ l₁.length + 1 = m ∧ key a = key b := by
  obtain ⟨x, -, hlow, hhigh⟩ := hm
  have hlen : upTo key rows (key x) ≤ l.length := by
    rw [h.upTo_eq]
    exact List.countP_le_length
  obtain ⟨n, rfl⟩ : ∃ n, m = n + 1 := ⟨m - 1, by omega⟩
  have hn : n < l.length := by omega
  have hn1 : n + 1 < l.length := by omega
  have hlast := h.key_eq hn hlow hhigh (by omega) (.inl rfl)
  have hnext := h.key_eq hn1 hlow hhigh (by omega) (.inr rfl)
  refine ⟨l.take n, l[n], l[n + 1], l.drop (n + 2), ?_, ?_, hlast.trans hnext.symm⟩
  · rw [← List.drop_eq_getElem_cons hn1, ← List.drop_eq_getElem_cons hn, List.take_append_drop]
  · rw [List.length_take]
    omega

/-- A permitted order exists. -/
theorem exists_permitted (key : α → K) (rows : List α) : ∃ l, Permitted key rows l := by
  refine ⟨rows.mergeSort fun x y => decide (key x ≤ key y), List.mergeSort_perm _ _, ?_⟩
  have hsorted := @List.pairwise_mergeSort α (fun x y => decide (key x ≤ key y))
    (fun x y z hxy hyz => by simp only [decide_eq_true_eq] at *; exact hxy.trans hyz)
    (fun x y => by simpa using le_total (key x) (key y)) rows
  exact hsorted.imp fun h => of_decide_eq_true h

/-- Where a row stands tells which prefixes hold it. -/
theorem mem_take_middle {l₁ l₂ : List α} {n : Nat} (h : (l₁ ++ x :: l₂).Nodup) :
    x ∈ (l₁ ++ x :: l₂).take n ↔ l₁.length < n := by
  have hx : x ∉ l₁ := fun hmem => (List.nodup_append.mp h).2.2 x hmem x List.mem_cons_self rfl
  rw [List.take_append, List.mem_append]
  constructor
  · rintro (hmem | hmem)
    · exact absurd (List.mem_of_mem_take hmem) hx
    · have hpos := List.length_pos_of_mem hmem
      rw [List.length_take] at hpos
      omega
  · intro hlt
    obtain ⟨d, hd⟩ : ∃ d, n - l₁.length = d + 1 := ⟨n - l₁.length - 1, by omega⟩
    rw [hd, List.take_succ_cons]
    exact .inr List.mem_cons_self

theorem mem_page_middle {l₁ l₂ : List α} {offset : Nat} (h : (l₁ ++ x :: l₂).Nodup)
    (hlow : offset ≤ l₁.length) (hhigh : l₁.length < offset + limit) :
    x ∈ page limit offset (l₁ ++ x :: l₂) := by
  rw [mem_page_iff h, mem_take_middle h, mem_take_middle h]
  omega

theorem not_complete_of_splits (hl : 0 < limit) (hrows : rows.Nodup)
    (hm : Splits key rows (k * limit)) : ¬ Complete key rows limit := by
  intro hcomplete
  obtain ⟨l, hl₀⟩ := exists_permitted key rows
  obtain ⟨l₁, a, b, l₂, rfl, hlen, hkey⟩ := hl₀.of_splits hm
  have hswap := hl₀.swap hkey
  obtain ⟨j, rfl⟩ : ∃ j, k = j + 1 := ⟨k - 1, by
    cases k with
    | zero => simp at hlen
    | succ k => rfl⟩
  -- page `j` ends with `a`, and page `j + 1` of the other order starts with it
  let orders : Nat → List α := fun i => if i = j then l₁ ++ a :: b :: l₂ else l₁ ++ b :: a :: l₂
  have hperm : ∀ i, Permitted key rows (orders i) := by
    intro i
    by_cases hi : i = j
    · simpa [orders, hi] using hl₀
    · simpa [orders, hi] using hswap
  let n := j + 2 + rows.length
  have hn : rows.length ≤ n * limit :=
    Nat.le_trans (by omega) (Nat.le_mul_of_pos_right n hl)
  have hnodup := (hcomplete orders hperm n hn).nodup_iff.mpr hrows
  have hmul : (j + 1) * limit = j * limit + limit := Nat.succ_mul j limit
  have hfirst : a ∈ page limit (j * limit) (orders j) := by
    simp only [orders, if_pos]
    exact mem_page_middle (hl₀.nodup hrows) (by omega) (by omega)
  have hsecond : a ∈ page limit ((j + 1) * limit) (orders (j + 1)) := by
    have hmiddle : l₁ ++ b :: a :: l₂ = (l₁ ++ [b]) ++ a :: l₂ := by simp
    have hlength : (l₁ ++ [b]).length = (j + 1) * limit := by simpa using hlen
    simp only [orders, Nat.succ_ne_self, if_false]
    rw [hmiddle]
    exact mem_page_middle (hmiddle ▸ hswap.nodup hrows) (by omega) (by omega)
  have hdisjoint := (List.nodup_flatMap.mp hnodup).2
  have hpair := List.pairwise_iff_getElem.mp hdisjoint j (j + 1) (by simp; omega) (by simp; omega)
    (Nat.lt_succ_self j)
  simp only [List.getElem_range] at hpair
  exact hpair hfirst hsecond

/-- The pages are complete exactly when none ends within a tie. -/
theorem complete_iff (hl : 0 < limit) (hrows : rows.Nodup) :
    Complete key rows limit ↔ ∀ k, ¬ Splits key rows (k * limit) :=
  ⟨fun hcomplete _ hm => not_complete_of_splits hl hrows hm hcomplete,
    complete_of_not_splits hrows⟩

/-! ## Keys without ties -/

/-- A key of one row only is split nowhere. -/
theorem not_splits_of_injective (hrows : rows.Nodup)
    (hkey : ∀ x ∈ rows, ∀ y ∈ rows, key x = key y → x = y) : ¬ Splits key rows m := by
  intro hm
  obtain ⟨l, hl⟩ := exists_permitted key rows
  obtain ⟨l₁, a, b, l₂, rfl, -, hab⟩ := hl.of_splits hm
  have heq : a = b := hkey a (hl.perm.subset (by simp)) b (hl.perm.subset (by simp)) hab
  have hnodup := (List.nodup_append.mp (hl.nodup hrows)).2.1
  exact (List.nodup_cons.mp hnodup).1 (heq ▸ List.mem_cons_self)

theorem complete_of_injective (hrows : rows.Nodup)
    (hkey : ∀ x ∈ rows, ∀ y ∈ rows, key x = key y → x = y) : Complete key rows limit :=
  complete_of_not_splits hrows fun _ => not_splits_of_injective hrows hkey

/-- Without ties there is one order. -/
theorem Permitted.unique {l' : List α} (h : Permitted key rows l) (h' : Permitted key rows l')
    (hkey : ∀ x ∈ rows, ∀ y ∈ rows, key x = key y → x = y) : l = l' := by
  refine (h.perm.trans h'.perm.symm).eq_of_pairwise (fun x y hx hy hxy hyx => ?_) h.sorted h'.sorted
  exact hkey x (h.perm.subset hx) y (h'.perm.subset hy) (le_antisymm hxy hyx)

/-! ## The first page

Which rows the first `m` can be, when ties may be settled in any way. -/

section First

variable {K' : Type} [LinearOrder K'] {key' : α → K'} {bad : α → Prop} [DecidablePred bad]

/-- A finer key settles the ties. -/
theorem Permitted.coarsen (h : Permitted key' rows l)
    (hkey : ∀ x y, key' x ≤ key' y → key x ≤ key y) : Permitted key rows l :=
  ⟨h.perm, h.sorted.imp fun hxy => hkey _ _ hxy⟩

/-- Bad rows are left out when they come last in their ties and enough rows come before. -/
theorem Permitted.avoids (h : Permitted key' rows l)
    (hkey : ∀ z y, ¬ bad z → bad y → key z ≤ key y → key' z < key' y)
    (hcount : ∀ y ∈ rows, bad y → m ≤ rows.countP fun z => ¬ bad z ∧ key z ≤ key y) :
    ∀ y ∈ l.take m, ¬ bad y := by
  intro y hy hbad
  have hrow : y ∈ rows := h.perm.subset (List.mem_of_mem_take hy)
  have hlt := h.before_lt hy
  have hle : (rows.countP fun z => ¬ bad z ∧ key z ≤ key y) ≤ before key' rows (key' y) := by
    refine List.countP_mono_left fun z _ hz => ?_
    simp only [decide_eq_true_eq] at hz ⊢
    exact hkey z y hz.1 hbad hz.2
  have := hcount y hrow hbad
  omega

/-- Where a bad row is left out, enough other rows come before it or tie with it. -/
theorem Permitted.count_of_avoids (h : Permitted key rows l) (hgood : ∀ y ∈ l.take m, ¬ bad y)
    (hy : y ∈ rows) (hbad : bad y) : m ≤ rows.countP fun z => ¬ bad z ∧ key z ≤ key y := by
  have hdrop := h.mem_drop hy fun htake => hgood y htake hbad
  have hlen := length_take_of_mem_drop hdrop
  calc m = (l.take m).countP (fun z => ¬ bad z ∧ key z ≤ key y) := by
        refine hlen.symm.trans (List.countP_eq_length.mpr fun z hz => ?_).symm
        simpa using ⟨hgood z hz, h.le_of_take_drop hz hdrop⟩
    _ ≤ l.countP (fun z => ¬ bad z ∧ key z ≤ key y) := (List.take_sublist m l).countP_le
    _ = rows.countP (fun z => ¬ bad z ∧ key z ≤ key y) := h.perm.countP_eq _

theorem exists_avoiding_iff : (∃ l, Permitted key rows l ∧ ∀ y ∈ l.take m, ¬ bad y) ↔
    ∀ y ∈ rows, bad y → m ≤ rows.countP fun z => ¬ bad z ∧ key z ≤ key y := by
  constructor
  · rintro ⟨l, hl, hgood⟩ y hy hbad
    exact hl.count_of_avoids hgood hy hbad
  · intro hcount
    obtain ⟨l, hl⟩ := exists_permitted (fun z => toLex (key z, decide (bad z))) rows
    refine ⟨l, hl.coarsen fun x y hxy => Prod.Lex.monotone_fst _ _ hxy, hl.avoids ?_ hcount⟩
    intro z y hz hy hzy
    refine Prod.Lex.toLex_lt_toLex.mpr ((lt_or_eq_of_le hzy).imp id fun heq => ⟨heq, ?_⟩)
    simp [hz, hy]

/-- One row among the first `m`, and no bad one. -/
theorem exists_containing_iff [DecidableEq α] (hx : x ∈ rows) (hgood : ¬ bad x) :
    (∃ l, Permitted key rows l ∧ x ∈ l.take m ∧ ∀ y ∈ l.take m, ¬ bad y) ↔
      before key rows (key x) < m ∧
        ∀ y ∈ rows, bad y → m ≤ rows.countP fun z => ¬ bad z ∧ key z ≤ key y := by
  constructor
  · rintro ⟨l, hl, hmem, hall⟩
    exact ⟨hl.before_lt hmem, fun y hy hbad => hl.count_of_avoids hall hy hbad⟩
  · rintro ⟨hbefore, hcount⟩
    let rank (z : α) : Nat := if z = x then 0 else if bad z then 2 else 1
    obtain ⟨l, hl⟩ := exists_permitted (fun z => toLex (key z, rank z)) rows
    have hcoarse : Permitted key rows l :=
      hl.coarsen fun x y hxy => Prod.Lex.monotone_fst _ _ hxy
    refine ⟨l, hcoarse, ?_, hl.avoids ?_ hcount⟩
    · by_contra hnot
      have hdrop := hl.mem_drop hx hnot
      -- `x` comes first in its tie, so that what stands before it has a smaller key
      have hall : ∀ z ∈ l.take m, key z < key x := by
        intro z hz
        refine (Prod.Lex.toLex_le_toLex.mp (hl.le_of_take_drop hz hdrop)).resolve_right fun heq => ?_
        have hzx : z = x := by
          by_contra hne
          have hrank := heq.2
          by_cases hbad : bad z <;> simp [rank, hne, hbad] at hrank
        exact hnot (hzx ▸ hz)
      have hlen := length_take_of_mem_drop hdrop
      rw [List.length_take] at hlen
      have hle := hcoarse.le_before (m := m) (by omega) hall
      omega
    · intro z y hz hy hzy
      refine Prod.Lex.toLex_lt_toLex.mpr ((lt_or_eq_of_le hzy).imp id fun heq => ⟨heq, ?_⟩)
      have hyx : y ≠ x := by
        rintro rfl
        exact hgood hy
      by_cases hzx : z = x <;> simp [rank, hyx, hy, hz, hzx]

end First

end Pages
