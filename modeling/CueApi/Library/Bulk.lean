import Mathlib.Data.List.Basic
import Mathlib.Algebra.Order.Ring.Nat

/-! UPDATEs of many rows: what they do to the rows inside and outside a scope that no SET clause
changes, and how their row counts split over it. -/

namespace Bulk

/-- `UPDATE … WHERE … SET …`. -/
structure Update (Row : Type) where
  hits : Row → Bool
  set : Row → Row

variable {Row : Type}

/-- The table after the UPDATE, and its row count. -/
def Update.run (u : Update Row) (rows : List Row) : List Row × Nat :=
  (rows.map fun r => if u.hits r then u.set r else r, rows.countP u.hits)

/-- One UPDATE after another, and the sum of the row counts. -/
def runAll : List (Update Row) → List Row → List Row × Nat
  | [], rows => (rows, 0)
  | u :: us, rows => ((runAll us (u.run rows).1).1, (u.run rows).2 + (runAll us (u.run rows).1).2)

theorem run_eq (u : Update Row) (rows : List Row) :
    u.run rows = (rows.map fun r => if u.hits r then u.set r else r, rows.countP u.hits) := rfl

theorem runAll_nil (rows : List Row) : runAll [] rows = (rows, 0) := rfl

theorem runAll_cons (u : Update Row) (us : List (Update Row)) (rows : List Row) :
    runAll (u :: us) rows =
      ((runAll us (u.run rows).1).1, (u.run rows).2 + (runAll us (u.run rows).1).2) := rfl

/-- No UPDATE takes a row into the scope or out of it. -/
def Keeps (f : Row → Bool) (us : List (Update Row)) : Prop := ∀ u ∈ us, ∀ r, f (u.set r) = f r

variable {f : Row → Bool} {u : Update Row} {us : List (Update Row)} {rows : List Row}

theorem run_filter (h : ∀ r, f (u.set r) = f r) :
    (u.run rows).1.filter f = (u.run (rows.filter f)).1 := by
  have hf (r : Row) : f (if u.hits r then u.set r else r) = f r := by
    split
    · exact h r
    · rfl
  simp only [run_eq, List.filter_map]
  exact congrArg _ (List.filter_congr fun r _ => hf r)

theorem run_count (f : Row → Bool) (u : Update Row) (rows : List Row) : (u.run rows).2 =
    (u.run (rows.filter f)).2 + (u.run (rows.filter fun r => !f r)).2 := by
  induction rows with
  | nil => rfl
  | cons r rows ih =>
    simp only [run_eq] at ih ⊢
    cases hf : f r <;> cases hr : u.hits r <;> simp [hf, hr, ih] <;> omega

/-- An UPDATE that hits nothing. -/
theorem run_idle (h : (u.run rows).2 = 0) : (u.run rows).1 = rows := by
  have hno := List.countP_eq_zero.mp h
  refine (List.map_congr_left fun r hr => ?_).trans (List.map_id rows)
  simp [hno r hr]

theorem Keeps.tail (h : Keeps f (u :: us)) : Keeps f us :=
  fun v hv => h v (List.mem_cons_of_mem _ hv)

theorem Keeps.compl (h : Keeps f us) : Keeps (fun r => !f r) us :=
  fun u hu r => congrArg _ (h u hu r)

/-- The scope sees the UPDATEs of its own rows only. -/
theorem runAll_filter (h : Keeps f us) :
    (runAll us rows).1.filter f = (runAll us (rows.filter f)).1 := by
  induction us generalizing rows with
  | nil => rfl
  | cons u us ih =>
    simp only [runAll_cons]
    rw [ih h.tail, run_filter (h u List.mem_cons_self)]

/-- The row counts of the scope and of the rest add up. -/
theorem runAll_count (h : Keeps f us) : (runAll us rows).2 =
    (runAll us (rows.filter f)).2 + (runAll us (rows.filter fun r => !f r)).2 := by
  induction us generalizing rows with
  | nil => rfl
  | cons u us ih =>
    have hu := h u List.mem_cons_self
    simp only [runAll_cons]
    rw [ih h.tail, run_count f u rows, run_filter hu,
      run_filter (f := fun r => !f r) fun r => congrArg _ (hu r)]
    omega

theorem runAll_idle (h : (runAll us rows).2 = 0) : (runAll us rows).1 = rows := by
  induction us generalizing rows with
  | nil => rfl
  | cons u us ih =>
    simp only [runAll_cons] at h ⊢
    have hidle : (u.run rows).1 = rows := run_idle (by omega)
    rw [hidle] at h ⊢
    exact ih (by omega)

/-- The row counts are all zero when no row is hit as it is. -/
theorem runAll_zero : (runAll us rows).2 = 0 ↔ ∀ r ∈ rows, ∀ u ∈ us, u.hits r = false := by
  induction us generalizing rows with
  | nil => simp [runAll_nil]
  | cons u us ih =>
    have hzero : (u.run rows).2 = 0 ↔ ∀ r ∈ rows, u.hits r = false := by
      simp [run_eq, List.countP_eq_zero]
    simp only [runAll_cons, Nat.add_eq_zero_iff, List.forall_mem_cons]
    constructor
    · rintro ⟨hu, hus⟩ r hr
      rw [run_idle hu] at hus
      exact ⟨hzero.mp hu r hr, ih.mp hus r hr⟩
    · intro h
      have hu := hzero.mpr fun r hr => (h r hr).1
      refine ⟨hu, ?_⟩
      rw [run_idle hu]
      exact ih.mpr fun r hr => (h r hr).2

/-- One row under the UPDATEs, and how many of them hit it on the way. -/
def follow : List (Update Row) → Row → Row × Nat
  | [], r => (r, 0)
  | u :: us, r =>
      ((follow us (if u.hits r then u.set r else r)).1,
        (follow us (if u.hits r then u.set r else r)).2 + if u.hits r then 1 else 0)

theorem follow_cons (u : Update Row) (us : List (Update Row)) (r : Row) : follow (u :: us) r =
    ((follow us (if u.hits r then u.set r else r)).1,
      (follow us (if u.hits r then u.set r else r)).2 + if u.hits r then 1 else 0) := rfl

/-- UPDATEs that look for nothing that one of them sets. -/
def Stable (us : List (Update Row)) : Prop := ∀ u ∈ us, ∀ v ∈ us, ∀ r, v.hits (u.set r) = v.hits r

theorem Stable.tail (h : Stable (u :: us)) : Stable us :=
  fun v hv w hw => h v (List.mem_cons_of_mem _ hv) w (List.mem_cons_of_mem _ hw)

/-- Every row goes its own way. -/
theorem runAll_follow (us : List (Update Row)) (rows : List Row) :
    runAll us rows = (rows.map fun r => (follow us r).1, (rows.map fun r => (follow us r).2).sum) := by
  induction us generalizing rows with
  | nil => simp [runAll_nil, follow]
  | cons u us ih =>
    have hcount (rows : List Row) :
        (rows.map fun r => (follow (u :: us) r).2).sum = rows.countP u.hits +
          ((rows.map fun r => if u.hits r then u.set r else r).map fun r => (follow us r).2).sum := by
      induction rows with
      | nil => rfl
      | cons r rows ih =>
        simp only [List.map_cons, List.sum_cons, List.countP_cons]
        rw [ih]
        simp only [follow_cons]
        omega
    rw [hcount]
    simp only [runAll_cons, run_eq, ih, List.map_map]
    rfl

/-- Stable UPDATEs hit a row as it was. -/
theorem follow_count {r : Row} (h : Stable us) : (follow us r).2 = us.countP fun u => u.hits r := by
  induction us generalizing r with
  | nil => rfl
  | cons u us ih =>
    have hsame : (us.countP fun v => v.hits (if u.hits r then u.set r else r)) =
        us.countP fun v => v.hits r := by
      refine List.countP_congr fun v hv => ?_
      split
      · rw [h u List.mem_cons_self v (List.mem_cons_of_mem _ hv) r]
      · rfl
    rw [follow_cons, List.countP_cons, ih h.tail, hsame]

/-- UPDATEs that set the same columns. -/
def Overwriting (us : List (Update Row)) : Prop :=
  ∀ u ∈ us, ∀ v ∈ us, ∀ r, v.set (u.set r) = v.set r

/-- Of stable UPDATEs that overwrite one another the last one that hits a row is left. -/
theorem follow_last {r : Row} (h : Stable us) (ho : Overwriting us) :
    (follow us r).1 = ((us.filter fun u => u.hits r).getLast?).elim r fun u => u.set r := by
  induction us generalizing r with
  | nil => rfl
  | cons u us ih =>
    have hot : Overwriting us :=
      fun v hv w hw => ho v (List.mem_cons_of_mem _ hv) w (List.mem_cons_of_mem _ hw)
    simp only [follow_cons, ih h.tail hot, List.filter_cons]
    by_cases hr : u.hits r = true
    · have hsame : (us.filter fun v => v.hits (u.set r)) = us.filter fun v => v.hits r :=
        List.filter_congr fun v hv => h u List.mem_cons_self v (List.mem_cons_of_mem _ hv) r
      rw [if_pos hr, if_pos hr, hsame, List.getLast?_cons]
      cases hlast : (us.filter fun v => v.hits r).getLast? with
      | none => rfl
      | some v =>
        have hv : v ∈ us := (List.mem_filter.mp (List.mem_of_getLast? hlast)).1
        exact ho u List.mem_cons_self v (List.mem_cons_of_mem _ hv) r
    · rw [if_neg hr, if_neg hr]

/-- A count that no row falls short of is exact when it is exact at each row. -/
theorem sum_eq_countP_iff {n : Row → Nat} {p : Row → Bool} (h : ∀ r, p r = true → 1 ≤ n r) :
    (rows.map n).sum = rows.countP p ↔ ∀ r ∈ rows, n r = if p r then 1 else 0 := by
  have hle (rows : List Row) : rows.countP p ≤ (rows.map n).sum := by
    induction rows with
    | nil => exact Nat.le_refl _
    | cons r rows ih =>
      rw [List.map_cons, List.sum_cons, List.countP_cons]
      by_cases hr : p r = true
      · have hone := h r hr
        rw [if_pos hr]
        omega
      · rw [if_neg hr]
        omega
  induction rows with
  | nil => simp
  | cons r rows ih =>
    rw [List.map_cons, List.sum_cons, List.countP_cons, List.forall_mem_cons]
    refine Iff.trans ?_ (and_congr_right fun _ => ih)
    have hrest := hle rows
    by_cases hr : p r = true
    · have hone := h r hr
      rw [if_pos hr]
      omega
    · rw [if_neg hr]
      omega

/-- What every SET clause keeps. -/
theorem follow_keeps {β : Type} {f : Row → β} {r : Row} (h : ∀ u ∈ us, ∀ r, f (u.set r) = f r) :
    f (follow us r).1 = f r := by
  induction us generalizing r with
  | nil => rfl
  | cons u us ih =>
    obtain ⟨hu, hus⟩ := List.forall_mem_cons.mp h
    rw [follow_cons, ih hus]
    split
    · exact hu r
    · rfl

theorem runAll_append (us vs : List (Update Row)) (rows : List Row) : runAll (us ++ vs) rows =
    ((runAll vs (runAll us rows).1).1,
      (runAll us rows).2 + (runAll vs (runAll us rows).1).2) := by
  induction us generalizing rows with
  | nil => simp [runAll_nil]
  | cons u us ih =>
    simp only [List.cons_append, runAll_cons, ih]
    rw [Nat.add_assoc]

/-! ## UPDATEs of some of the columns -/

variable {Wide : Type} {get : Wide → Row} {put : Wide → Row → Wide} {wide : List Wide}

/-- The UPDATE of rows that have the columns of `Row` among others. -/
def Update.on (u : Update Row) (get : Wide → Row) (put : Wide → Row → Wide) : Update Wide where
  hits r := u.hits (get r)
  set r := put r (u.set (get r))

theorem run_on (hget : ∀ r x, get (put r x) = x) :
    (((u.on get put).run wide).1.map get, ((u.on get put).run wide).2) = u.run (wide.map get) := by
  refine Prod.ext ?_ ?_
  · simp only [run_eq, List.map_map]
    refine List.map_congr_left fun r _ => ?_
    have hhits : (u.on get put).hits r = u.hits (get r) := rfl
    simp only [Function.comp_apply, hhits]
    by_cases hr : u.hits (get r) = true
    · rw [if_pos hr, if_pos hr]
      exact hget _ _
    · rw [if_neg hr, if_neg hr]
  · simp only [run_eq, List.countP_map]
    rfl

/-- They do to the columns what they do to rows of these alone. -/
theorem runAll_on (hget : ∀ r x, get (put r x) = x) (us : List (Update Row)) (wide : List Wide) :
    ((runAll (us.map fun u => u.on get put) wide).1.map get,
      (runAll (us.map fun u => u.on get put) wide).2) = runAll us (wide.map get) := by
  induction us generalizing wide with
  | nil => rfl
  | cons u us ih =>
    simp only [List.map_cons, runAll_cons, ← run_on hget, ← ih]

end Bulk
